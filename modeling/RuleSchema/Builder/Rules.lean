import RuleSchema.Builder.File
import RuleSchema.Builder.Number

/-!
# Rules by builder

Each builder knows its rules by name, where a dot or a hyphen counts as an underscore. A rule that a
builder does not know is not applied.
-/

namespace RuleSchema

namespace Builder

/-- The address rule of mail: its message. -/
def mail : RuleMethod := fun _ message =>
  modify fun b => match b.base, message with
    | .email _, some m => { b with base := .email (some (Script.escape m)) }
    | _, _ => b

/-- The required rule of mail: its message and a least length. -/
def mailRequired : RuleMethod := fun _ message => do
  match message with
  | some m => modify fun b => { b with requiredMessage := some (Script.escape m) }
  | none => pure ()
  Length.requireNonEmpty message

/-- The items of an array differ, upper and lower case aside where asked. -/
def distinct : RuleMethod := fun arguments message =>
  let form := if (arguments.map Argument.display).contains "ignore_case" then
    "(typeof item === \"string\" ? item.toLowerCase() : JSON.stringify(item))"
    else "JSON.stringify(item)"
  Building.replace "refine" (TextRule.refine
    ("new Set(val.map((item) => " ++ form ++ ")).size === val.length")
    (escapedOr message "The items must be distinct."))

/-- A truth value is the given one. -/
def decided (value fallback : String) : RuleMethod := fun _ message =>
  Building.replace "refine"
    (TextRule.refine ("val === " ++ value) (escapedOr message fallback))

/-- An enumeration changed where the base is one. -/
def changeEnumeration
    (f : List String → Option String → Option String → List String × Option String × Option String)
    (b : Builder) : Builder :=
  match b.base with
  | .enumeration values reference message =>
    let (values, reference, message) := f values reference message
    { b with base := .enumeration values reference message }
  | _ => b

/-- The required rule of an enumeration: its message. -/
def enumerationRequired : RuleMethod := fun _ message =>
  match Text.nonEmpty? message with
  | some m => modify (changeEnumeration fun v r _ => (v, r, some (Script.addSlashes m)))
  | none => pure ()

/-- The values of an enumeration, unless it is known by name. -/
def enumerationValues : RuleMethod := fun arguments _ =>
  modify (changeEnumeration fun v r m =>
    if arguments.isEmpty || (Text.nonEmpty? r).isSome then (v, r, m)
    else (arguments.map Argument.display, r, m))

/-- The name of an enumeration, unless it has values. -/
def enumerationName : RuleMethod := fun arguments _ =>
  modify (changeEnumeration fun v r m =>
    match arguments with
    | a :: _ => if v.isEmpty then (v, some a.display, m) else (v, r, m)
    | [] => (v, r, m))

end Builder

namespace Base

/-- The rules of a builder, by name; the first of a name counts. -/
def methods : Base → List (String × RuleMethod)
  | text _ => TextRule.methods
  | url .. => TextRule.urlMethods
  | password _ => TextRule.passwordMethods
  | email _ =>
    [("email", Builder.mail), ("string", Building.nothing), ("required", Builder.mailRequired)] ++
      Length.methods
  | number _ => NumberRule.methods
  | boolean =>
    [("required", Building.required), ("boolean", Building.nothing),
      ("accepted", Builder.decided "true" "This field must be accepted."),
      ("declined", Builder.decided "false" "This field must be declined.")]
  | file => FileRule.methods
  | array _ =>
    [("required", Building.required), ("array", Building.nothing), ("list", Building.nothing),
      ("distinct", Builder.distinct)] ++ Length.methods
  | object _ => [("required", Building.required)]
  | reference _ => [("required", Building.required)]
  | enumeration .. =>
    [("required", Builder.enumerationRequired), ("in", Builder.enumerationValues),
      ("enum", Builder.enumerationName)]

end Base

namespace Builder

/-- The name under which a builder knows a rule. -/
def methodName (rule : String) : String :=
  String.ofList (rule.toList.map fun c => if c = '.' ∨ c = '-' then '_' else c)

/-- How a rule changes a builder, if the builder knows the rule. -/
def method? (b : Builder) (rule : String) : Option RuleMethod :=
  b.base.methods.lookup (methodName rule)

/-- Whether a builder knows a rule. -/
def supports (b : Builder) (rule : String) : Bool := (b.method? rule).isSome

/-- Applies a rule; the answer tells whether the builder knows it. -/
def applyRule (rule : String) (arguments : List Argument) (message : Option String) :
    Building Bool := do
  match (← get).method? rule with
  | none => return false
  | some method =>
    method arguments message
    return true

end Builder

end RuleSchema
