/-!
# Trees of fields

The shape of a field: a leaf, an array of items of one shape, or an object with named properties.
Each node carries a head. Heads are visited in a fixed order, the node before its item and before
its properties.
-/

namespace RuleSchema

/-- A tree with a head at every node. -/
inductive Tree (α : Type) where
  | leaf (head : α)
  | array (head : α) (item : Tree α)
  | object (head : α) (properties : List (String × Tree α))

namespace Tree

variable {α β : Type}

instance [Inhabited α] : Inhabited (Tree α) := ⟨leaf default⟩

/-- The head of a node. -/
def head : Tree α → α
  | leaf h => h
  | array h _ => h
  | object h _ => h

/-- The item node of an array. -/
def item? : Tree α → Option (Tree α)
  | array _ item => some item
  | _ => none

/-- The properties of an object. -/
def properties? : Tree α → Option (List (String × Tree α))
  | object _ properties => some properties
  | _ => none

/-- The properties of an object; no other node has any. -/
def properties (t : Tree α) : List (String × Tree α) := t.properties?.getD []

/-- A node with another head. -/
def setHead (h : α) : Tree α → Tree α
  | leaf _ => leaf h
  | array _ item => array h item
  | object _ properties => object h properties

mutual
/-- The heads of a tree, each node before what lies below it. -/
def heads : Tree α → List α
  | leaf h => [h]
  | array h item => h :: heads item
  | object h properties => h :: headsOfAll properties
/-- The heads of named trees, one tree after the other. -/
def headsOfAll : List (String × Tree α) → List α
  | [] => []
  | (_, t) :: rest => heads t ++ headsOfAll rest
end

mutual
/-- A tree with every head replaced by the result of an action, in the order of the heads. -/
def mapHeads {m : Type → Type} [Monad m] (f : α → m β) : Tree α → m (Tree β)
  | leaf h => do return leaf (← f h)
  | array h item => do
    let h ← f h
    return array h (← mapHeads f item)
  | object h properties => do
    let h ← f h
    return object h (← mapHeadsOfAll f properties)
/-- Named trees with every head replaced by the result of an action. -/
def mapHeadsOfAll {m : Type → Type} [Monad m] (f : α → m β) :
    List (String × Tree α) → m (List (String × Tree β))
  | [] => pure []
  | (name, t) :: rest => do
    let t ← mapHeads f t
    return (name, t) :: (← mapHeadsOfAll f rest)
end

end Tree

end RuleSchema
