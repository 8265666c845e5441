import RuleSchema.Table
import RuleSchema.Text.Cut

/-!
# Names of schemas

A class without a chosen name is named after the last part of its path. Chosen names are kept by
class or by last part.
-/

namespace RuleSchema

/-- How the type of a collection of a class starts. -/
def collectionMark : String := "DataCollection:"

/-- How the type of an object of a class starts. -/
def objectMark : String := "DataObject:"

/-- Chosen names of schemas, by class. -/
structure SchemaNames where
  chosen : Table String

namespace SchemaNames

/-- Separators between the parts of a class path. -/
def isSeparator (c : Char) : Bool := c == '.' || c == '\\'

/-- The last part of a class path, separators at its ends aside. -/
def baseName (className : String) : String :=
  String.ofList (((Text.splitBy isSeparator (Text.strip isSeparator className.toList)).getLast?).getD [])

/-- The name of the schema of a class. -/
def generate (names : SchemaNames) (className : String) (override : Option String) : String :=
  match override with
  | some name => if Text.isEmpty name then byClass else name
  | none => byClass
where
  /-- The chosen name, or the last part of the class with the suffix that every name has. -/
  byClass : String :=
    match names.chosen.get? className with
    | some name => name
    | none =>
      let base := baseName className
      match names.chosen.get? base with
      | some name => name
      | none => if Text.endsWith base "Schema" then base else base ++ "Schema"

/-- The name of the schema that a type refers to. -/
def ofReference (names : SchemaNames) (inferred : String) : String :=
  if Text.startsWith inferred collectionMark then
    names.generate (Text.drop collectionMark.length inferred) none
  else if Text.startsWith inferred objectMark then
    names.generate (Text.drop objectMark.length inferred) none
  else names.generate inferred none

/-- Names with one more chosen. -/
def register (names : SchemaNames) (className name : String) : SchemaNames :=
  ⟨names.chosen.put className name⟩

end SchemaNames

end RuleSchema
