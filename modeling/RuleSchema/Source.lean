import RuleSchema.Rule.Value
import RuleSchema.Table
import RuleSchema.Text.Case

/-!
# Sources

Everything that is declared about one class: the rules of its fields, messages, display names, what
is known about fields that hold other classes, inherited fields and attached fragments.
-/

namespace RuleSchema

/-- What is known about a field beyond its rules. -/
structure FieldMetadata where
  isNestedObject : Bool
  isOptional : Bool
  isCollection : Bool
  nestedClass : Option String
  elementClass : Option String
deriving DecidableEq, Repr

/-- A field takes its rules from a field of another class; without a field, from the one of the
same name. -/
structure Inheritance where
  sourceClass : String
  sourceField : Option String
deriving DecidableEq, Repr

/-- Kinds of classes. -/
inductive SourceKind where
  | request
  | data
  | rules
deriving DecidableEq, Repr

/-- The declarations of one class. -/
structure SchemaSource where
  className : String
  rules : Table RuleValue
  messages : Table String
  attributes : Table String
  metadata : Table FieldMetadata
  inheritance : Table Inheritance
  fragments : Table Fragment
  kind : SourceKind
  schemaName : Option String

namespace SourceKind

/-- The word for a kind. -/
def word : SourceKind → String
  | request => "request"
  | data => "data"
  | rules => "rules"

/-- The kind that a word names. -/
def ofWord? (s : String) : Option SourceKind :=
  if s = "request" then some request
  else if s = "data" then some data
  else if s = "rules" then some rules
  else none

end SourceKind

/-- The truth value that a datum stands for in a record. -/
def Datum.flag? : Datum → Option Bool
  | .truth b => some b
  | .whole i => if i = 1 then some true else if i = 0 then some false else none
  | .real x => match x.toInt? with
    | some i => if i = 1 then some true else if i = 0 then some false else none
    | none => none
  | .text s =>
    let word := Text.lower s
    if ["1", "on", "t", "true", "y", "yes"].contains word then some true
    else if ["0", "off", "f", "false", "n", "no"].contains word then some false
    else none
  | _ => none

/-- The optional text that a datum stands for in a record. -/
def Datum.optionalText? : Datum → Option (Option String)
  | .absent => some none
  | .text s => some (some s)
  | _ => none

/-- A value under a key of a record, or a default for a missing key. -/
def Datum.partOr (fields : Table Datum) (key : String) (fallback : Datum) : Datum :=
  (fields.get? key).getD fallback

/-- Metadata from the fields of a record. -/
def FieldMetadata.ofFields (fields : Table Datum) : Except Fault FieldMetadata :=
  let flag (key : String) := (Datum.partOr fields key (.truth false)).flag?
  let name (key : String) := (Datum.partOr fields key .absent).optionalText?
  match flag "is_nested_object", flag "is_optional", flag "is_collection", name "nested_class",
      name "element_class" with
  | some nested, some optional, some collection, some nestedClass, some elementClass =>
    .ok ⟨nested, optional, collection, nestedClass, elementClass⟩
  | _, _, _, _, _ => .error (.invalidRecord "FieldMetadata")

/-- The fields of the record of metadata. -/
def FieldMetadata.fields (m : FieldMetadata) : Table Datum :=
  [("is_nested_object", .truth m.isNestedObject), ("is_optional", .truth m.isOptional),
    ("is_collection", .truth m.isCollection), ("nested_class", .ofText m.nestedClass),
    ("element_class", .ofText m.elementClass)]

/-- An inheritance from the class and field that a record names. -/
def Inheritance.ofParts (sourceClass sourceField : Datum) : Except Fault Inheritance :=
  match sourceClass, sourceField.optionalText? with
  | .text name, some field =>
    if Text.isEmpty name then .error (.invalidRecord "InheritValidationFrom") else .ok ⟨name, field⟩
  | _, _ => .error (.invalidRecord "InheritValidationFrom")

/-- A table of texts, if every value is one. -/
def textTable? (t : Table Datum) : Option (Table String) :=
  t.mapM fun (k, v) => v.text?.map fun s => (k, s)

/-- A source from data that have still to be checked. -/
def SchemaSource.ofParts (className kind schemaName : Datum) (rules : Table RuleValue)
    (messages attributes : Table Datum) (metadata : Table FieldMetadata)
    (inheritance : Table Inheritance) (fragments : Table Fragment) : Except Fault SchemaSource :=
  match className, kind.text?.bind SourceKind.ofWord?, schemaName.optionalText?,
      textTable? messages, textTable? attributes with
  | .text name, some kind, some chosen, some messages, some attributes =>
    if Text.isEmpty name then .error (.invalidRecord "SchemaSource")
    else .ok ⟨name, rules, messages, attributes, metadata, inheritance, fragments, kind, chosen⟩
  | _, _, _, _, _ => .error (.invalidRecord "SchemaSource")

/-- Sources by class; a later source of a class replaces the earlier one in its place. -/
def sourceTable (sources : List SchemaSource) : Table SchemaSource :=
  Table.ofPairs (sources.map fun s => (s.className, s))

end RuleSchema
