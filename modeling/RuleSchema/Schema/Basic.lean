import RuleSchema.Naming
import RuleSchema.Node.Basic
import RuleSchema.Source

/-!
# Schemas

A schema is what one class compiles from: its name, its properties with their nodes, and the other
schemas that it refers to.
-/

namespace RuleSchema

/-- A top-level property. -/
structure Property where
  name : String
  isOptional : Bool
  node : Node
  /-- The fragment that the class attaches to the field. -/
  override : Option Fragment

/-- The schema of a class. -/
structure Schema where
  name : String
  className : String
  kind : SourceKind
  properties : List Property
  dependencies : List String

/-- The fragment that applies to a property: the class's own, or else the one of its rules. -/
def Property.fragment (p : Property) : Option Fragment := p.override.or p.node.head.fragment

/-- The property of a name. -/
def Schema.property? (s : Schema) (name : String) : Option Property :=
  s.properties.find? (·.name == name)

/-- Schema names chosen by the classes of a run. -/
def SchemaNames.ofSources (sources : Table SchemaSource) : SchemaNames :=
  ⟨sources.filterMap fun (name, source) =>
    (source.schemaName.filter (! Text.isEmpty ·)).map fun chosen => (name, chosen)⟩

end RuleSchema
