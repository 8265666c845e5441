import RuleSchema.Field.Group
import RuleSchema.Message.Basic
import RuleSchema.Naming
import RuleSchema.Node.Basic

/-!
# From declared to resolved fields

A group of rules has a shape: a leaf, an array with an item, or an object with properties. The shape
is settled first, with the declared rules at every node. Then each node is resolved on its own: its
rules are normalized, its type inferred and its messages looked up.
-/

namespace RuleSchema

/-- A field before resolution. -/
structure Declared where
  path : String
  rules : RuleValue
  /-- Whether the field is the item of an array. -/
  isItem : Bool
  /-- The type that the shape or the class of the field decides. -/
  shapeType : Option String

namespace RuleValue

/-- Whether a rule value counts as declared. -/
def isDeclared : RuleValue → Bool
  | absent => false
  | text s => !Text.isEmpty s
  | list items => !items.isEmpty
  | tuple items => !items.isEmpty
  | rule _ => true
  | datum d => d.isTrue

/-- A rule value, or the given rules where none are declared. -/
def orRules (fallback : String) (v : RuleValue) : RuleValue :=
  if v.isDeclared then v else text fallback

end RuleValue

namespace Declared

/-- The check of an entry among the entries of a field. -/
def check (m : Messages) (field : String) (entries : List RuleEntry) (entry : RuleEntry) :
    Except Fault Check := do
  let hasMessage := !Family.presence.contains entry.name || Family.required.contains entry.name
  let message ← if hasMessage
    then (m.resolveIn (Messages.contextOf field entries entry)).map some
    else pure none
  return ⟨entry.name, entry.parameters, message, Family.required.contains entry.name,
    entry.name == "nullable"⟩

/-- The resolved form of normalized rules. -/
def resolveRules (m : Messages) (d : Declared) (n : NormalizedRules) : Except Fault Resolved := do
  if n.entries.isEmpty then return ⟨d.path, [], d.shapeType.getD "string", n.fragment⟩
  let checks ← n.entries.mapM (check m d.path n.entries)
  let inferred := Inference.inferType n.entries (if d.isItem then none else some d.path)
  return ⟨d.path, checks, d.shapeType.getD inferred, n.fragment⟩

/-- The resolved form of a field. -/
def resolve (m : Messages) (d : Declared) : Except Fault Resolved := do
  d.resolveRules m (← NormalizedRules.normalize d.rules)

/-- A name under a path. -/
def below (path name : String) : String := path ++ "." ++ name

mutual
/-- The shape of a group: an array where it has items or is not known to be an object. -/
def ofGroup (path : String) : RuleGroup → Tree Declared
  | .node rules children isObject _ =>
    if children.isEmpty then .leaf ⟨path, rules.orRules "", false, none⟩
    else if Table.has children RuleGroup.wildcard || !isObject then
      .array ⟨path, rules.orRules "array", false, some "array"⟩
        (if children.all (·.1 == RuleGroup.wildcard) then
          scalarItem (below path RuleGroup.wildcard) children
        else .object ⟨below path RuleGroup.wildcard, itemRules children, true, some "object"⟩
          (itemProperties (below path RuleGroup.wildcard) children))
    else .object ⟨path, rules.orRules "", false, some "object"⟩ (propertiesOf path children)
/-- The item of an array that has nothing but a star below it. -/
def scalarItem (path : String) : List (String × RuleGroup) → Tree Declared
  | [] => .leaf ⟨path, .text "", true, none⟩
  | (name, group) :: rest =>
    if name == RuleGroup.wildcard then
      if group.isLeaf then .leaf ⟨path, group.rules.orRules "", true, none⟩ else ofGroup path group
    else scalarItem path rest
/-- The properties of an object. -/
def propertiesOf (path : String) : List (String × RuleGroup) → List (String × Tree Declared)
  | [] => []
  | (name, group) :: rest => (name, ofGroup (below path name) group) :: propertiesOf path rest
/-- The properties of an object that is the item of an array. -/
def itemProperties (path : String) : List (String × RuleGroup) → List (String × Tree Declared)
  | [] => []
  | (name, group) :: rest =>
    if name == RuleGroup.wildcard then itemProperties path rest
    else (name, ofGroup (below path name) group) :: itemProperties path rest
/-- The rules that an object takes as the item of an array. -/
def itemRules (children : List (String × RuleGroup)) : RuleValue :=
  match Table.get? children RuleGroup.wildcard with
  | some group => group.rules.orRules ""
  | none => .text ""
end

/-- The shape of a top-level field. A field without rules below it that metadata ties to a class
refers to that class. -/
def ofField (metadata : Table FieldMetadata) (field : String) (group : RuleGroup) : Tree Declared :=
  let named (name : Option String) : Option String := name.filter (! Text.isEmpty ·)
  match metadata.get? field, group.isLeaf with
  | some known, true =>
    match known.isCollection, named known.elementClass, known.isNestedObject,
        named known.nestedClass with
    | true, some element, _, _ =>
      .leaf ⟨field, group.rules.orRules "array", false, some (collectionMark ++ element)⟩
    | _, _, true, some nested =>
      .leaf ⟨field, group.rules.orRules "", false, some (objectMark ++ nested)⟩
    | _, _, _, _ => ofGroup field group
  | _, _ => ofGroup field group

/-- The shapes of all top-level fields. -/
def ofGroups (metadata : Table FieldMetadata) (groups : List (String × RuleGroup)) :
    List (String × Tree Declared) :=
  groups.map fun (field, group) => (field, ofField metadata field group)

end Declared

namespace Node

/-- The node of a shape. -/
def ofShape (m : Messages) (shape : Tree Declared) : Except Fault Node :=
  shape.mapHeads (Declared.resolve m)

/-- The nodes of all top-level fields. -/
def ofGroups (m : Messages) (metadata : Table FieldMetadata) (groups : List (String × RuleGroup)) :
    Except Fault (List (String × Node)) :=
  Tree.mapHeadsOfAll (Declared.resolve m) (Declared.ofGroups metadata groups)

end Node

end RuleSchema
