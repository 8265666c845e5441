import RuleSchema.Handler.Compile
import RuleSchema.Proofs.DeclaredObjects
import RuleSchema.Proofs.FieldShapes
import RuleSchema.Proofs.ResolvedTrees
import RuleSchema.Schema.Extracted

/-!
# Properties shown in the output

A schema and the compiled objects of its nodes show properties without dots only. A property that is
shown at an address is the node of the group at that address. So the rules of a hidden key, which
are placed at or below a group with a dotted name, are not shown at all.
-/

namespace RuleSchema

/-- The properties of the object that a node is, or that the items of an array are. -/
def Tree.members {α : Type} : Tree α → List (String × Tree α)
  | .leaf _ => []
  | .array _ item => item.members
  | .object _ properties => properties

namespace Compiler

/-- The properties that the compiled object of a node has an expression for. -/
def shown (c : Compiler) (node : Node) : List (String × Node) :=
  match c.compileAll node.members with
  | .ok codes => node.members.filter fun p => Table.has codes p.1
  | .error _ => []

/-- The property at an address that compiled objects show below a node. -/
def shownAt? (c : Compiler) : List String → Node → Option Node
  | [], node => some node
  | name :: rest, node => (Table.get? (c.shown node) name).bind (c.shownAt? rest)

end Compiler

/-- The property at an address that a schema and the compiled objects of its nodes show. -/
def Schema.shownAt? (c : Compiler) (s : Schema) : List String → Option Node
  | [] => none
  | name :: rest => (s.property? name).bind fun p => c.shownAt? rest p.node

section Members

variable {α β : Type} {f : α → Except Fault β}

end Members

namespace Declared

open RuleGroup

variable {g : RuleGroup} {path name : String} {t : Tree Declared}

end Declared

namespace Compiler

variable {c : Compiler}

end Compiler

section Shown

open RuleGroup

variable {c : Compiler} {m : Messages} {metadata : Table FieldMetadata}

end Shown

namespace Grouping

open DottedPath RuleGroup

end Grouping

end RuleSchema
