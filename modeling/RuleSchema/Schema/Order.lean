import RuleSchema.Schema.Basic

/-!
# Order of schemas

Every schema comes after the schemas that it depends on. Schemas that are not known are ignored, and
a cycle is broken where it is entered first; otherwise the given order is kept.
-/

namespace RuleSchema.Schema

/-- The schemas placed so far, and the names that have been visited. -/
structure Placement where
  placed : List Schema
  visited : List String

/-- A placement after a schema and everything that it depends on; `fuel` bounds how deep
dependencies are followed. -/
def visit (schemas : Table Schema) : Nat → Placement → String → Placement
  | 0, p, _ => p
  | fuel + 1, p, name =>
    if p.visited.contains name then p
    else
      match schemas.get? name with
      | none => p
      | some schema =>
        let after := schema.dependencies.foldl (visit schemas fuel) { p with visited := name :: p.visited }
        { after with placed := after.placed ++ [schema] }

/-- Schemas with each after those that it depends on. -/
def sorted (schemas : Table Schema) : List Schema :=
  (schemas.keys.foldl (visit schemas (schemas.length + 1)) ⟨[], []⟩).placed

end RuleSchema.Schema
