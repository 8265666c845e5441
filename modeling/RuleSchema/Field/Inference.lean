import RuleSchema.Rule.Normal

/-!
# Inferred types

The rules of a field decide its type. Categories of rules are tried in a fixed order and the first
one present wins; a field with a list of allowed values becomes an enumeration of them, and the
path of an array's items makes an array.
-/

namespace RuleSchema.Inference

/-- Rules that only files have. -/
def fileRules : List String :=
  ["file", "image", "mimes", "mimetypes", "extensions", "dimensions"]

/-- Categories of rules in order of precedence, each with the type that it makes. -/
def precedence : List (List String × String) :=
  [(["boolean", "bool"], "boolean"),
    (["decimal", "numeric", "integer", "digits", "digits_between", "min_digits", "max_digits"],
      "number"),
    (["array", "list"], "array"),
    (["email"], "email"),
    (["url"], "url"),
    (["uuid"], "uuid"),
    (["json"], "string"),
    (["password"], "password"),
    (["date", "date_format", "date_equals", "before", "before_or_equal", "after",
      "after_or_equal"], "string"),
    (fileRules, "file")]

/-- How the type of an enumeration starts. -/
def enumerationMark : String := "enum:"

/-- The type of a field from its entries and, where known, its path. -/
def inferType (entries : List RuleEntry) (field : Option String) : String :=
  match precedence.find? fun category => entries.any (category.1.contains ·.name) with
  | some (_, inferred) => inferred
  | none =>
    let values := ((entries.find? (·.name == "in")).map RuleEntry.parameters).getD []
    if !values.isEmpty then enumerationMark ++ Text.join "," (values.map Parameter.display)
    else match field with
      | some path => if Text.endsWith path ".*" then "array" else "string"
      | none => "string"

/-- Whether size rules of the field speak about numbers. -/
def isNumeric (entries : List RuleEntry) : Bool := entries.any (Family.numeric.contains ·.name)

/-- Whether the field may be null. -/
def isNullable (entries : List RuleEntry) : Bool := entries.any (·.name == "nullable")

/-- Whether a type is an enumeration of values. -/
def isEnumeration (inferred : String) : Bool := Text.startsWith inferred enumerationMark

/-- The values in the type of an enumeration, the empty ones left out. -/
def enumerationValues (inferred : String) : List String :=
  if isEnumeration inferred then
    (Text.splitOn ',' (Text.drop 5 inferred)).filter (! Text.isEmpty ·)
  else []

end RuleSchema.Inference
