import RuleSchema.Handler.Compile
import RuleSchema.Schema.Basic

/-!
# Definitions of schemas

A schema is defined by an object of its properties, followed by the refinement that holds the rules
between its fields.
-/

namespace RuleSchema.Schema

/-- The expression of a property. -/
def propertyExpression (c : Compiler) (p : Property) : Except Fault String :=
  c.compileWith p.isOptional p.fragment p.node

/-- The entries of an object, one on each line. -/
def entryLines (c : Compiler) (properties : List Property) : Except Fault (List String) :=
  (properties.filter fun p => !Text.contains p.name ".").mapM fun p =>
    (propertyExpression c p).map fun e =>
      Refinement.indent ++ Script.propertyKey p.name ++ ": " ++ e

/-- The object of all entries. -/
def objectOf (entries : List String) : String :=
  if entries.isEmpty then "z.object(\x7b\x7d)"
  else "z.object(\x7b\n" ++ Text.join ",\n" entries ++ ",\n\x7d)"

/-- The definition of a schema. -/
def define (c : Compiler) (s : Schema) : Except Fault String := do
  let entries ← entryLines c s.properties
  let branches := s.properties.flatMap fun p => Refinement.collect "" p.name p.node
  return objectOf entries ++ Refinement.render branches

end RuleSchema.Schema
