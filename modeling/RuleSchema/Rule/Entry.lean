import RuleSchema.Rule.Name
import RuleSchema.Rule.Parameter
import RuleSchema.Text.Record

/-!
# Rule entries

One rule: a canonical name and its parameters. The written form is the name, a colon and the
parameters as one comma-separated record; the rules that take a pattern keep their parameter whole.
-/

namespace RuleSchema

/-- A rule with its parameters in order. -/
structure RuleEntry where
  name : String
  parameters : List Parameter
deriving DecidableEq, Repr

namespace RuleEntry

/-- The entry of a name that has at least one character. -/
def make? (name : String) (parameters : List Parameter) : Except Fault RuleEntry :=
  if Text.isEmpty name then .error (.invalidRecord "RuleEntry")
  else .ok ⟨RuleName.canonical name, parameters⟩

/-- The parameters written after the colon of a rule. -/
def parametersOf (name : String) (raw : List Char) : Except Fault (List Parameter) :=
  if Family.wholeParameter.contains name then .ok [.text (String.ofList raw)]
  else match Text.Record.read? raw with
    | some fields => .ok (fields.map fun field => .text (String.ofList (Text.trimChars field)))
    | none => .error .malformedParameters

/-- The entry that one written rule denotes. -/
def parse (segment : String) : Except Fault RuleEntry :=
  let (head, tail) := Text.cutFirst ':' (Text.trimChars segment.toList)
  let name := RuleName.canonical (String.ofList head)
  match tail with
  | none => make? name []
  | some raw => do make? name (← parametersOf name raw)

/-- Whether two entries name the same rule. -/
def sameRule (a b : RuleEntry) : Bool := a.name == b.name

/-- The written form of an entry. -/
def display (e : RuleEntry) : String :=
  if e.parameters.isEmpty then e.name
  else e.name ++ ":" ++ Text.join "," (e.parameters.map Parameter.display)

end RuleEntry

end RuleSchema
