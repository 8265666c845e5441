import RuleSchema.Proofs.FieldShapes
import RuleSchema.Proofs.ResolvedTrees

/-!
# Trees laid out by address

The tree of a top-level field is laid out from its address: every head has the path of its address,
and the head of an array or an object says that it is one. This holds of the shapes of all groups,
and resolving a shape keeps it.
-/

namespace RuleSchema

open DottedPath RuleGroup

namespace Tree

variable {α β : Type}

mutual
/-- The heads of a tree with their addresses; the item of an array goes by a star. -/
def located (address : List String) : Tree α → List (List String × α)
  | leaf h => [(address, h)]
  | array h item => (address, h) :: located (address ++ [wildcard]) item
  | object h properties => (address, h) :: locatedAll address properties
/-- The heads of named trees with their addresses. -/
def locatedAll (address : List String) : List (String × Tree α) → List (List String × α)
  | [] => []
  | (name, t) :: rest => located (address ++ [name]) t ++ locatedAll address rest
end

mutual
/-- The names of all properties in a tree. -/
def propertyNames : Tree α → List String
  | leaf _ => []
  | array _ item => propertyNames item
  | object _ properties => propertyNamesOfAll properties
/-- The names of named trees and of all properties in them. -/
def propertyNamesOfAll : List (String × Tree α) → List String
  | [] => []
  | (name, t) :: rest => name :: (propertyNames t ++ propertyNamesOfAll rest)
end

/-- A tree laid out from an address: each head is fit for its address and its sort, and the names
of properties are fit as well. -/
inductive Laid (fits : List String → Option String → α → Prop) (named : String → Prop) :
    List String → Tree α → Prop
  | leaf {address h} (here : fits address none h) : Laid fits named address (leaf h)
  | array {address h item} (here : fits address (some "array") h)
      (below : Laid fits named (address ++ [wildcard]) item) :
      Laid fits named address (array h item)
  | object {address h properties} (here : fits address (some "object") h)
      (names : ∀ p ∈ properties, named p.1)
      (below : ∀ p ∈ properties, Laid fits named (address ++ [p.1]) p.2) :
      Laid fits named address (object h properties)

theorem locatedAll_eq_flatMap (address : List String) (trees : List (String × Tree α)) :
    locatedAll address trees = trees.flatMap fun p => located (address ++ [p.1]) p.2 := by
  induction trees with
  | nil => rfl
  | cons p rest ih => rw [locatedAll, ih, List.flatMap_cons]

theorem mem_propertyNamesOfAll {trees : List (String × Tree α)} {name : String} :
    name ∈ propertyNamesOfAll trees ↔ ∃ p ∈ trees, name = p.1 ∨ name ∈ propertyNames p.2 := by
  induction trees with
  | nil => simp only [propertyNamesOfAll, List.not_mem_nil, false_and, exists_false]
  | cons p rest ih =>
      simp only [propertyNamesOfAll, List.mem_cons, List.mem_append, ih, exists_eq_or_imp, or_assoc]

/-- A tree stays laid out when its heads are mapped to fit ones. -/
theorem Laid.mapHeads {fits : List String → Option String → α → Prop} {named : String → Prop}
    {fits' : List String → Option String → β → Prop} {named' : String → Prop}
    {f : α → Except Fault β} {address : List String} {t : Tree α} (h : Laid fits named address t) :
    ∀ {t' : Tree β}, t.mapHeads f = .ok t' →
      (∀ b ∈ t'.heads, ∀ address sort a, f a = .ok b → fits address sort a →
        fits' address sort b) →
      (∀ name ∈ t'.propertyNames, named' name) → Laid fits' named' address t' := by
  induction h with
  | leaf here =>
      intro t' ht hfits hnamed
      obtain ⟨b, hb, ht⟩ := exists_of_bind ht
      cases ht
      exact .leaf (hfits b (List.mem_singleton.mpr rfl) _ _ _ hb here)
  | array here below ih =>
      intro t' ht hfits hnamed
      obtain ⟨b, hb, ht⟩ := exists_of_bind ht
      obtain ⟨item, hitem, ht⟩ := exists_of_bind ht
      cases ht
      refine .array (hfits b List.mem_cons_self _ _ _ hb here) (ih hitem ?_ hnamed)
      exact fun b hb => hfits b (List.mem_cons_of_mem _ hb)
  | @object address a properties here names below ih =>
      intro t' ht hfits hnamed
      obtain ⟨b, hb, ht⟩ := exists_of_bind ht
      obtain ⟨mapped, hmapped, ht⟩ := exists_of_bind ht
      cases ht
      have hall := forall₂_mapHeadsOfAll hmapped
      refine .object (hfits b List.mem_cons_self _ _ _ hb here) (fun q hq => ?_) fun q hq => ?_
      · exact hnamed q.1 (mem_propertyNamesOfAll.mpr ⟨q, hq, .inl rfl⟩)
      · obtain ⟨p, hp, hname, htree⟩ := exists_of_forall₂ hall hq
        rw [hname]
        refine ih p hp htree (fun b hb => ?_) fun name hname => ?_
        · exact hfits b (List.mem_cons_of_mem _ (mem_headsOfAll.mpr ⟨q, hq, hb⟩))
        · exact hnamed name (mem_propertyNamesOfAll.mpr ⟨q, hq, .inr hname⟩)

end Tree

namespace Declared

/-- A declared field with the path of its address, whose type is that of its sort if it has one. -/
def Fits (address : List String) (sort : Option String) (d : Declared) : Prop :=
  d.path = ofNames address ∧ (sort.isSome → d.shapeType = sort)

/-- A shape laid out from an address, with any names. -/
abbrev Laid : List String → Tree Declared → Prop := Tree.Laid Fits fun _ => True

theorem fits_none {address : List String} {d : Declared} (h : d.path = ofNames address) :
    Fits address none d := ⟨h, fun hsome => by cases hsome⟩

mutual
/-- The shape of every group is laid out from the address of the group. -/
theorem laid_ofGroup : ∀ (g : RuleGroup) {address : List String}, address ≠ [] →
    Laid address (ofGroup (ofNames address) g)
  | .node rules children isObject className, address, hne => by
      rw [ofGroup]
      split
      · exact .leaf (fits_none rfl)
      · split
        · refine .array ⟨rfl, fun _ => rfl⟩ ?_
          split
          · exact laid_scalarItem children hne
          · refine .object ⟨below_ofNames hne _, fun _ => rfl⟩ (fun _ _ => trivial) ?_
            rw [below_ofNames hne]
            exact laid_itemProperties children (by simp)
        · exact .object ⟨rfl, fun _ => rfl⟩ (fun _ _ => trivial) (laid_propertiesOf children hne)
theorem laid_scalarItem : ∀ (children : List (String × RuleGroup)) {address : List String},
    address ≠ [] →
      Laid (address ++ [wildcard]) (scalarItem (below (ofNames address) wildcard) children)
  | [], address, hne => by
      rw [scalarItem]
      exact .leaf (fits_none (below_ofNames hne _))
  | (name, group) :: rest, address, hne => by
      rw [scalarItem]
      split
      · split
        · exact .leaf (fits_none (below_ofNames hne _))
        · rw [below_ofNames hne]
          exact laid_ofGroup group (by simp)
      · exact laid_scalarItem rest hne
theorem laid_propertiesOf : ∀ (children : List (String × RuleGroup)) {address : List String},
    address ≠ [] →
      ∀ p ∈ propertiesOf (ofNames address) children, Laid (address ++ [p.1]) p.2
  | [], address, hne => by
      rw [propertiesOf]
      exact fun p hp => by cases hp
  | (name, group) :: rest, address, hne => by
      rw [propertiesOf, below_ofNames hne]
      intro p hp
      rcases List.mem_cons.mp hp with rfl | hp
      · exact laid_ofGroup group (by simp)
      · exact laid_propertiesOf rest hne p hp
theorem laid_itemProperties : ∀ (children : List (String × RuleGroup)) {address : List String},
    address ≠ [] →
      ∀ p ∈ itemProperties (ofNames address) children, Laid (address ++ [p.1]) p.2
  | [], address, hne => by
      rw [itemProperties]
      exact fun p hp => by cases hp
  | (name, group) :: rest, address, hne => by
      rw [itemProperties]
      split
      · exact laid_itemProperties rest hne
      · rw [below_ofNames hne]
        intro p hp
        rcases List.mem_cons.mp hp with rfl | hp
        · exact laid_ofGroup group (by simp)
        · exact laid_itemProperties rest hne p hp
end

/-- The shape of every top-level field is laid out from its name. -/
theorem laid_ofField (metadata : Table FieldMetadata) (field : String) (group : RuleGroup) :
    Laid [field] (ofField metadata field group) := by
  have hgroup : Laid [field] (ofGroup field group) :=
    laid_ofGroup group (List.cons_ne_nil field [])
  unfold ofField
  dsimp only
  split
  · split
    · exact .leaf (fits_none rfl)
    · exact .leaf (fits_none rfl)
    · exact hgroup
  · exact hgroup

theorem path_of_resolve {m : Messages} {d : Declared} {r : Resolved} (h : d.resolve m = .ok r) :
    r.path = d.path ∧ ∀ sort, d.shapeType = some sort → r.inferredType = sort := by
  obtain ⟨n, checks, inferred, -, -, -, rfl⟩ := exists_of_resolve h
  refine ⟨rfl, fun sort hsort => ?_⟩
  rw [hsort]
  rfl

end Declared

namespace Node

/-- A name of a property that can be told apart from others in a path and from the items of an
array. -/
def IsPlainName (name : String) : Prop := '.' ∉ name.toList ∧ '*' ∉ name.toList

/-- A resolved field with the path of its address and without a fragment, whose type is that of its
sort if it has one. -/
def Fits (address : List String) (sort : Option String) (r : Resolved) : Prop :=
  r.path = ofNames address ∧ r.fragment = none ∧ ∀ type, sort = some type → r.inferredType = type

/-- A node laid out from an address, without fragments and with plain names. -/
abbrev Laid : List String → Node → Prop := Tree.Laid Fits IsPlainName

theorem fragment_head_of_laid {address : List String} {node : Node} (h : Laid address node) :
    node.head.fragment = none := by
  cases h with
  | leaf here => exact here.2.1
  | array here => exact here.2.1
  | object here => exact here.2.1

/-- The node of a top-level field, whatever its group, its metadata and the messages. -/
def IsBuilt (field : String) (node : Node) : Prop :=
  ∃ m metadata group, ofShape m (Declared.ofField metadata field group) = .ok node

/-- The node of a top-level field is laid out from its name. -/
theorem IsBuilt.laid {field : String} {node : Node} (h : IsBuilt field node)
    (hfragments : ∀ r ∈ node.heads, r.fragment = none)
    (hnames : ∀ name ∈ node.propertyNames, IsPlainName name) : Laid [field] node := by
  obtain ⟨m, metadata, group, hnode⟩ := h
  apply (Declared.laid_ofField metadata field group).mapHeads hnode
  · intro r hr address sort d hresolve hd
    obtain ⟨hpath, htype⟩ := Declared.path_of_resolve hresolve
    refine ⟨hpath.trans hd.1, hfragments r hr, fun type hsort => htype type ?_⟩
    rw [hd.2 (by rw [hsort]; rfl), hsort]
  · exact hnames

end Node

end RuleSchema
