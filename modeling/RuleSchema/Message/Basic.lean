import RuleSchema.Field.Inference
import RuleSchema.Message.Catalog
import RuleSchema.Message.Placeholder
import RuleSchema.Table

/-!
# Messages of rules

The message of a rule on a field is the custom one of its class, or else the template of a catalog.
Rules that name another field mean a sibling where the field lies inside an array. Placeholders
speak about fields and values by their display forms.
-/

namespace RuleSchema

/-- Where messages come from: a catalog, custom messages and custom display names. -/
structure Messages where
  source : Option Catalog
  custom : Table String
  attributes : Table String

/-- The names that a rule on a field looks at: the field, the rule, the texts of its parameters,
whether the field is numeric and the names of all its rules. -/
structure MessageContext where
  field : Option String
  rule : Option String
  parameters : List String
  isNumeric : Bool
  ruleNames : List String
deriving DecidableEq, Repr

namespace Messages

/-- A field named by a rule, relative to the array item in which the rule's field lies. -/
def siblingPath (other field : String) : String :=
  if !(Text.splitOn '.' field).contains "*" || Text.contains other "." then other
  else
    let parent := match Text.cutLast? '.' field.toList with
      | some (before, _) => String.ofList before
      | none => field
    parent ++ "." ++ other

/-- The display name that a path itself gives. -/
def derivedName (field : String) : String :=
  String.ofList ((RuleName.snakeChars field.toList).map fun c => if c == '_' then ' ' else c)

/-- The sort of field that a rule on sizes speaks about. -/
def sizeVariant (ruleNames : List String) (isNumeric : Bool) : String :=
  if isNumeric || ruleNames.any Family.numeric.contains then "numeric"
  else if ruleNames.any ["array", "list"].contains then "array"
  else if ruleNames.any Inference.fileRules.contains then "file"
  else "string"

/-- Names under which the custom message of a rule may also stand. -/
def alternatives (rule : String) : List String :=
  if rule = "in" then ["enum"] else if rule = "enum" then ["in"] else []

/-- The keys of the custom message of a rule on a field. -/
def customKeys (field rule : String) : List String :=
  [field ++ "." ++ rule, field ++ "." ++ RuleName.camel rule, rule]

/-- The custom message of a rule on a field. -/
def custom? (m : Messages) (field rule : String) : Option String :=
  ((rule :: alternatives rule).flatMap (customKeys field)).findSome? m.custom.get?

/-- The text that a catalog has under a key, where there is a catalog. -/
def sourceText? (m : Messages) (key : String) : Except Fault (Option String) :=
  match m.source with
  | some catalog => catalog.text? key
  | none => .ok none

/-- The display name of a field: custom, from the catalog, or derived. -/
def fieldName (m : Messages) (field : String) : Except Fault String :=
  match m.attributes.get? field with
  | some name => .ok name
  | none => (m.sourceText? ("attributes." ++ field)).map (·.getD (derivedName field))

/-- The display form of a value that a field is compared with. -/
def valueName (m : Messages) (field : String) (value : Datum) : Except Fault String :=
  (m.sourceText? ("values." ++ field ++ "." ++ value.display)).map fun named =>
    named.getD (match value with
      | .truth b => if b then "true" else "false"
      | .absent => "empty"
      | d => d.display)

/-- The display form of a text that a field is compared with. -/
def textName (m : Messages) (field value : String) : Except Fault String :=
  m.valueName field (.text value)

/-- Words for dates relative to now. -/
def dateWords : List String := ["now", "today", "tomorrow", "yesterday"]

/-- Whether a parameter of a rule on dates is a date and not a field. -/
def isDateText (s : String) : Bool :=
  dateWords.contains (Text.lower s) ||
    match s.toList with
    | [] => false
    | [c] => Text.isDecimalDigit c
    | c :: next :: _ => Text.isDecimalDigit c || ((c == '+' || c == '-') && Text.isDecimalDigit next)

/-- Rules that list all their parameters. -/
def listingRules : List String :=
  ["mimes", "mimetypes", "extensions", "starts_with", "ends_with", "doesnt_start_with",
    "doesnt_end_with", "required_array_keys"]

/-- Rules that list other fields. -/
def fieldListRules : List String :=
  ["required_with", "required_with_all", "required_without", "required_without_all",
    "present_with", "present_with_all", "missing_with", "missing_with_all"]

/-- Rules that compare with a date. -/
def dateRules : List String := ["after", "after_or_equal", "before", "before_or_equal", "date_equals"]

/-- The placeholders of a rule. -/
def placeholders (m : Messages) (field rule : String) (parameters : List String) :
    Except Fault (List (String × String)) :=
  let first := parameters.headD ""
  let second := (parameters.drop 1).headD ""
  let single (name value : String) : Except Fault (List (String × String)) := .ok [(name, value)]
  if ["between", "digits_between"].contains rule then .ok [("min", first), ("max", second)]
  else if ["min", "min_digits"].contains rule then single "min" first
  else if ["max", "max_digits"].contains rule then single "max" first
  else if rule = "size" then single "size" first
  else if rule = "digits" then single "digits" first
  else if rule = "decimal" then single "decimal" (Text.join "-" parameters)
  else if rule = "date_format" then single "format" first
  else if ["gt", "gte", "lt", "lte", "multiple_of"].contains rule then single "value" first
  else if ["same", "different", "in_array", "prohibits"].contains rule then do
    return [("other", Text.join ", " (← parameters.mapM m.fieldName))]
  else if dateRules.contains rule then do
    return [("date", ← if isDateText first then pure first else m.fieldName first)]
  else if ["in", "not_in"].contains rule then do
    return [("values", Text.join ", " (← parameters.mapM (m.textName field)))]
  else if listingRules.contains rule then single "values" (Text.join ", " parameters)
  else if fieldListRules.contains rule then do
    return [("values", Text.join " / " (← parameters.mapM m.fieldName))]
  else if Family.conditionalField.contains rule then do
    let other ← m.fieldName first
    let values ← (parameters.drop 1).mapM (m.textName first)
    return [("other", other), ("value", values.headD "empty"), ("values", Text.join ", " values)]
  else if ["required_if_accepted", "required_if_declined"].contains rule then do
    return [("other", ← m.fieldName first)]
  else .ok []

/-- A message with the placeholders of a rule and of its field filled in. -/
def fill (m : Messages) (message field rule : String) (parameters : List String) :
    Except Fault String := do
  let name ← m.fieldName field
  return Placeholder.substitute message (← m.placeholders field rule parameters) name

/-- The message for a rule without a template. -/
def failed (field : String) : String := "The " ++ field ++ " field validation failed."

/-- The text under a key of a map of templates. -/
def textIn? (entries : MessageMap) (key : String) : Option String :=
  (entries.get? key).bind Datum.text?

/-- The template of a rule among several candidates: under its name, under the last part of its
name, or the first that is not empty. -/
def candidate (entries : MessageMap) (field rule : String) : String :=
  let suffix := match Text.cutLast? '.' rule.toList with
    | some (_, after) => String.ofList after
    | none => rule
  ((textIn? entries rule).or ((textIn? entries suffix).or
    ((entries.filterMap (·.2.text?)).find? (! Text.isEmpty ·)))).getD (failed field)

/-- The text that a template gives for a rule. -/
def ofTemplate (context : MessageContext) (field rule : String) : Option Datum → String
  | some (.text s) => s
  | some (.map entries) =>
    let sized := if Family.size.contains rule
      then textIn? entries (sizeVariant context.ruleNames context.isNumeric) else none
    sized.getD (candidate entries field rule)
  | _ => failed field

/-- The parameters of a rule, with the field that it names made relative. -/
def relativeParameters (field rule : String) (parameters : List String) : List String :=
  match parameters with
  | first :: rest =>
    if Family.conditionalField.contains rule then siblingPath first field :: rest else parameters
  | [] => []

/-- The template of a rule on a field. -/
def templateFor (catalog : Catalog) (field rule : String) : Except Fault (Option Datum) := do
  match ← catalog.get? ("custom." ++ field ++ "." ++ rule) with
  | some found => return some found
  | none => catalog.get? rule

/-- The message for a field and a rule that are known. -/
def messageFor (m : Messages) (catalog : Catalog) (context : MessageContext)
    (field rule : String) : Except Fault String := do
  let parameters := relativeParameters field rule context.parameters
  match m.custom? field rule with
  | some message => m.fill message field rule parameters
  | none =>
    let template := ofTemplate context field rule (← templateFor catalog field rule)
    let message ← m.fill template field rule parameters
    return Placeholder.replaceRaw message field (← m.fieldName field)

/-- The message in a context, which needs a field, a rule and a catalog. -/
def resolveIn (m : Messages) (context : MessageContext) : Except Fault String :=
  let present (text : Option String) := text.filter (! Text.isEmpty ·)
  match present context.field, present context.rule, m.source with
  | none, _, _ => .error (.messageContext "field" none context.rule)
  | some field, none, _ => .error (.messageContext "rule" field none)
  | some field, some rule, none => .error (.messageContext "message source" field rule)
  | some field, some rule, some catalog => m.messageFor catalog context field rule

/-- The context of an entry of a field. -/
def contextOf (field : String) (entries : List RuleEntry) (entry : RuleEntry) : MessageContext :=
  ⟨some field, some (RuleName.canonical entry.name), entry.parameters.map Parameter.display,
    Inference.isNumeric entries, entries.map RuleEntry.name⟩

end Messages

end RuleSchema
