import RuleSchema.Text.Cut

/-!
# Arguments

The command takes the path of a definition file and some switches. A switch may be shortened as long
as its long form starts with what is given, and a value may be attached to it. After two dashes
everything is a value.
-/

namespace RuleSchema.CommandLine

/-- The switches of the command. -/
inductive Switch where
  | help
  | output
  | config
  | separateFiles
deriving DecidableEq, Repr

namespace Switch

/-- All switches. -/
def all : List Switch := [help, output, config, separateFiles]

/-- The long form of a switch. -/
def long : Switch → String
  | help => "--help"
  | output => "--output"
  | config => "--config"
  | separateFiles => "--separate-files"

/-- The short form of a switch. -/
def short? : Switch → Option String
  | help => some "-h"
  | output => some "-o"
  | config => some "-c"
  | separateFiles => none

/-- The switch of exactly this form. -/
def ofForm? (form : String) : Option Switch := all.find? fun s => s.long == form || s.short? == some form

/-- Whether a switch takes a value. -/
def takesValue : Switch → Bool
  | output => true
  | config => true
  | _ => false

end Switch

/-- What an argument is. -/
inductive Argument where
  | value (text : String)
  /-- A switch with the text attached to it. -/
  | switch (kind : Switch) (attached : Option String) (isShort : Bool)
  | unknown
  /-- The start of several switches. -/
  | ambiguous
deriving DecidableEq, Repr

/-- A text before and after its first equals sign. -/
def cutValue (s : String) : String × Option String :=
  let (before, after) := Text.cutFirst '=' s.toList
  (String.ofList before, after.map String.ofList)

/-- Whether an argument is a negative number in decimal notation. -/
def isNegativeNumber (s : String) : Bool :=
  match s.toList with
  | '-' :: body =>
    match Text.splitBy (· == '.') body with
    | [digits] => !digits.isEmpty && digits.all Char.isDigit
    | [whole, fraction] => whole.all Char.isDigit && !fraction.isEmpty && fraction.all Char.isDigit
    | _ => false
  | _ => false

/-- An argument that is no exact form of a switch. -/
def Argument.ofOther (s : String) : Argument :=
  let other : Argument := if isNegativeNumber s || Text.contains s " " then .value s else .unknown
  if Text.startsWith s "--" then
    let (start, attached) := cutValue s
    match Switch.all.filter fun k => Text.startsWith k.long start with
    | [] => other
    | [kind] => .switch kind attached false
    | _ => .ambiguous
  else
    match Switch.ofForm? (String.ofList (s.toList.take 2)) with
    | some kind => .switch kind (some (Text.drop 2 s)) true
    | none => other

/-- What an argument is. -/
def Argument.ofText (s : String) : Argument :=
  if !Text.startsWith s "-" || s == "-" then .value s
  else
    let isShort := !Text.startsWith s "--"
    match Switch.ofForm? s, Switch.ofForm? (cutValue s).1 with
    | some kind, _ => .switch kind none isShort
    | none, some kind => .switch kind (cutValue s).2 isShort
    | none, none => .ofOther s

/-- What arguments are; after two dashes they are values. -/
def classify : List String → List Argument
  | [] => []
  | s :: rest => if s == "--" then rest.map .value else .ofText s :: classify rest

/-- What the command is asked to do. -/
structure Options where
  definitions : String
  output : Option String
  config : Option String
  separateFiles : Bool
deriving DecidableEq, Repr

/-- A request for help, or for a run. -/
inductive Request where
  | help
  | run (options : Options)
deriving DecidableEq, Repr

/-- What has been read of the arguments: the values, the settings and whether all were known. -/
structure Reading where
  values : List String
  output : Option String
  config : Option String
  separateFiles : Bool
  isKnown : Bool
deriving DecidableEq, Repr

/-- A reading with the value of a switch. -/
def Reading.assign (r : Reading) (kind : Switch) (text : String) : Reading :=
  match kind with
  | .output => { r with output := some text }
  | .config => { r with config := some text }
  | _ => r

/-- The request of a reading: it has exactly one value. -/
def Reading.request? (r : Reading) : Option Request :=
  match r.values with
  | [definitions] =>
    if r.isKnown then some (.run ⟨definitions, r.output, r.config, r.separateFiles⟩) else none
  | _ => none

/-- Whether short switches may follow one after the other after a dash. -/
def areShort (next : Option Argument) : List Char → Bool
  | [] => false
  | c :: rest =>
    match Switch.ofForm? (String.ofList ['-', c]) with
    | some kind =>
      if kind.takesValue then
        !rest.isEmpty || (match next with
          | some (.value _) => true
          | _ => false)
      else rest.isEmpty || areShort next rest
    | none => false

/-- The request of the arguments that are left. Help is given as soon as it is asked for. -/
def requestOf? (r : Reading) : List Argument → Option Request
  | [] => r.request?
  | .value text :: rest => requestOf? { r with values := r.values ++ [text] } rest
  | .unknown :: rest => requestOf? { r with isKnown := false } rest
  | .ambiguous :: _ => none
  | .switch .help attached isShort :: rest =>
    match attached with
    | none => some .help
    | some text => if isShort && areShort rest.head? text.toList then some .help else none
  | .switch .separateFiles attached _ :: rest =>
    if attached.isSome then none else requestOf? { r with separateFiles := true } rest
  | .switch kind (some text) _ :: rest => requestOf? (r.assign kind text) rest
  | .switch kind none _ :: .value text :: rest => requestOf? (r.assign kind text) rest
  | .switch _ none _ :: _ => none

/-- The request of arguments, unless they are not understood. -/
def request? (arguments : List String) : Option Request :=
  let read := classify arguments
  if read.contains .ambiguous then none else requestOf? ⟨[], none, none, false, true⟩ read

end RuleSchema.CommandLine
