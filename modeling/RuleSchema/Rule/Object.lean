import RuleSchema.Condition.Basic
import RuleSchema.Text.Escape

/-!
# Rule objects

A rule object stands for one or more entries and may carry a literal fragment. Code attached to an
object may be a template over the object's failure message; attaching it fills the template, and a
described rule fills its last template again when its failure message is set.
-/

namespace RuleSchema

/-- Code to attach: text as it stands, a template over the failure message, or something else. -/
inductive LiteralSource where
  | code (text : String)
  /-- A template over the encoded message and, if `raw`, the message itself. -/
  | template (text : String) (raw : Bool)
  /-- A source that does not give a text, with the sort of what it gives. -/
  | other (sort : String)
deriving DecidableEq, Repr

/-- What a rule object checks. -/
inductive RuleKind where
  /-- Membership in a list of values. -/
  | oneOf (values : List Parameter)
  /-- Absence from a list of values. -/
  | noneOf (values : List Parameter)
  /-- Membership in an enumeration, restricted to some cases and without others, and possibly
  referring to a named enumeration in the output. -/
  | enumeration (cases : List (String × Datum)) (only : Option (List String))
      (without : List String) (reference : Option String)
  /-- A password of a least and a greatest length with further checks. -/
  | password (least : Datum) (greatest : Option Datum) (checks : List String)
  /-- A presence rule under a condition. -/
  | conditional (base : String) (keyword : String) (condition : Condition)
  /-- A rule known by its name and its attached code. -/
  | described (name : Option String)
  /-- A rule of a class of its own. -/
  | custom (name : Option String) (parameters : List Datum)

/-- A rule object. -/
structure RuleObject where
  className : String
  kind : RuleKind
  fragment : Option Fragment
  failureMessage : Option String
  /-- The template or code last attached to a described rule. -/
  attached : Option (LiteralSource × FragmentMode)

namespace RuleObject

/-- A rule object without attachments. -/
def ofKind (className : String) (kind : RuleKind) : RuleObject := ⟨className, kind, none, none, none⟩

/-- The name of a rule object: the declared one, or its class in lower case with underscores. -/
def name (r : RuleObject) : String :=
  match r.kind with
  | .oneOf _ => "in"
  | .noneOf _ => "not_in"
  | .enumeration .. => "in"
  | .password .. => "password"
  | .conditional .. => RuleName.snake r.className
  | .described declared =>
    match declared with
    | some n => if Text.isEmpty n then "schema_rule" else RuleName.canonical n
    | none => "schema_rule"
  | .custom declared _ =>
    match declared with
    | some n => if Text.isEmpty n then RuleName.snake r.className else RuleName.canonical n
    | none => RuleName.snake r.className

/-- The entry of a name and data. -/
def entryOf (name : String) (parameters : List Datum) : Except Fault RuleEntry :=
  match parameters.mapM Datum.parameter? with
  | some ps => RuleEntry.make? name ps
  | none => .error (.invalidRecord "RuleEntry")

/-- The cases of an enumeration that a rule keeps. -/
def keptCases (cases : List (String × Datum)) (only : Option (List String))
    (without : List String) : List (String × Datum) :=
  let denotes (names : List String) (case : String × Datum) : Bool :=
    names.any fun n => ((caseNamed? cases n).map (·.1)) == some case.1
  let chosen := match only with
    | some names => (distinctCases cases).filter (denotes names)
    | none => distinctCases cases
  chosen.filter (! denotes without ·)

/-- The entries that a rule object stands for. -/
def entries (r : RuleObject) : Except Fault (List RuleEntry) :=
  match r.kind with
  | .oneOf values => return [← RuleEntry.make? r.name values]
  | .noneOf values => return [← RuleEntry.make? r.name values]
  | .enumeration cases only without reference => do
    let values := (keptCases cases only without).map fun case =>
      Datum.listed (.member r.className case.1 case.2)
    let membership ← RuleEntry.make? "in" values
    match reference with
    | some target =>
      if Text.isEmpty target then return [membership]
      else return [membership, ← RuleEntry.make? "enum" [.text target]]
    | none => return [membership]
  | .password least greatest checks => do
    let shortest ← entryOf "min" [least]
    let longest ← match greatest with
      | some size => (entryOf "max" [size]).map ([·])
      | none => pure []
    let further ← checks.mapM fun check => RuleEntry.make? ("password." ++ check) [.ofInt 1]
    return [← RuleEntry.make? "password" [], shortest] ++ longest ++ further
  | .conditional base keyword condition =>
    let rule := condition.rule base keyword
    if Text.isEmpty rule then .ok [] else return [← RuleEntry.parse rule]
  | .described _ => return [← RuleEntry.make? r.name []]
  | .custom _ parameters => return [← entryOf r.name parameters]

/-- The written form of a rule object. -/
def display (r : RuleObject) : Except Fault String :=
  r.entries.map fun es => Text.join "|" (es.map RuleEntry.display)

/-- The diagnostic form of a rule object. -/
def diagnostic (r : RuleObject) : Except Fault String :=
  r.display.map fun s => r.className ++ "(" ++ Text.Quoted.encode s ++ ")"

/-- The code that a source gives for a failure message. -/
def fill (className : String) (source : LiteralSource) (message : Option String) :
    Except Fault String :=
  match source with
  | .code text => .ok text
  | .template text raw =>
    let encoded := match message with
      | some m => Text.Json.encode m
      | none => "null"
    let filled := Text.replace text "\x7bencoded\x7d" encoded
    .ok (if raw then Text.replace filled "\x7braw\x7d" (Fault.textOption message) else filled)
  | .other sort =>
    .error (.wrongSort (some ("Schema literal resolver for " ++ className ++
      " must return a string, got " ++ sort)))

/-- A rule object with a source attached in a mode, under a new failure message if one is given. -/
def attach (r : RuleObject) (source : LiteralSource) (mode : FragmentMode)
    (message : Option String) : Except Fault RuleObject := do
  let failure := message <|> r.failureMessage
  let code ← fill r.className source failure
  let fragment := match mode with
    | .append => Fragment.append code
    | .replace => Fragment.replace (Text.collapse code)
  return { r with fragment := some fragment, failureMessage := failure }

/-- Whether a rule object remembers the source that was attached last. -/
def isDescribed (r : RuleObject) : Bool :=
  match r.kind with
  | .described _ => true
  | _ => false

/-- A step in building a rule object. -/
inductive Step where
  | append (source : LiteralSource) (message : Option String)
  | replace (source : LiteralSource) (message : Option String)
  | literal (code : String)
  | withFragment (fragment : Fragment)
  | failWith (message : String)
  | withFailureMessage (message : String)
deriving DecidableEq, Repr

/-- A rule object after attaching a source, which a described rule remembers. -/
def attachStep (r : RuleObject) (source : LiteralSource) (mode : FragmentMode)
    (message : Option String) : Except Fault RuleObject :=
  let remembered := if r.isDescribed then { r with attached := some (source, mode) } else r
  remembered.attach source mode message

/-- A rule object after one step. -/
def step (r : RuleObject) : Step → Except Fault RuleObject
  | .append source message => r.attachStep source .append message
  | .replace source message => r.attachStep source .replace message
  | .literal code => .ok { r with fragment := some (.literal code) }
  | .withFragment fragment => .ok { r with fragment := some fragment }
  | .failWith message =>
    if r.isDescribed then
      let told := { r with failureMessage := some message }
      match r.attached with
      | some (source, mode) => told.attach source mode none
      | none => .ok told
    else .error .missingPart
  | .withFailureMessage message => .ok { r with failureMessage := some message }

/-- A rule object after a sequence of steps. -/
def run (r : RuleObject) (steps : List Step) : Except Fault RuleObject := steps.foldlM step r

/-- A password rule after one of its checks is enabled, each at most once. -/
def addCheck (checks : List String) (check : String) : List String :=
  if checks.contains check then checks else checks ++ [check]

end RuleObject

end RuleSchema
