import RuleSchema.Proofs.FieldShapes
import RuleSchema.Proofs.GroupGrowth
import RuleSchema.Proofs.LaidTrees

/-!
# Shapes of nodes

The type of a node agrees with its shape: a node with an item is an array, a node with properties
is an object, and every object has properties. What lies right below a node has the path of the node
and its own name. The groups of a rule map settle this for the declared fields, whatever their rules
and flags are, and resolving keeps it: no rule makes an object of a field.
-/

namespace RuleSchema

open DottedPath RuleGroup

namespace Tree

variable {α β : Type}

mutual
/-- The nodes of a tree, each before the nodes below it. -/
def nodes : Tree α → List (Tree α)
  | leaf h => [leaf h]
  | array h item => array h item :: nodes item
  | object h properties => object h properties :: nodesOfAll properties
/-- The nodes of named trees, one tree after the other. -/
def nodesOfAll : List (String × Tree α) → List (Tree α)
  | [] => []
  | (_, t) :: rest => nodes t ++ nodesOfAll rest
end

/-- A node has an item or properties, but not both, and its head is of the sort that this makes it.
What lies right below it has the path of its head and its own name. -/
structure WellShaped (path : α → String) (sort : α → String → Prop) (t : Tree α) : Prop where
  -- the type of trees carries this; among the parts of records, `Node.ofParts` checks it
  single : t.item? = none ∨ t.properties? = none
  array : ∀ item, t.item? = some item →
    sort t.head "array" ∧ path item.head = path t.head ++ ".*"
  object : ∀ properties, t.properties? = some properties →
    sort t.head "object" ∧ (Table.keys properties).Nodup ∧
      ∀ p ∈ properties, path p.2.head = path t.head ++ "." ++ p.1
  filled : sort t.head "object" →
    ∃ properties, t.properties? = some properties ∧ properties ≠ []

section WellShaped

variable {path : α → String} {sort : α → String → Prop} {h : α}

theorem wellShaped_leaf (hsort : ¬ sort h "object") : WellShaped path sort (leaf h) where
  single := .inl rfl
  array _ hitem := by cases hitem
  object _ hproperties := by cases hproperties
  filled hobject := absurd hobject hsort

theorem wellShaped_array {item : Tree α} (hsort : sort h "array")
    (hobject : ¬ sort h "object") (hpath : path item.head = path h ++ ".*") :
    WellShaped path sort (array h item) where
  single := .inr rfl
  array _ hitem := by
    cases hitem
    exact ⟨hsort, hpath⟩
  object _ hproperties := by cases hproperties
  filled hsorted := absurd hsorted hobject

theorem wellShaped_object {properties : List (String × Tree α)} (hsort : sort h "object")
    (hkeys : (Table.keys properties).Nodup) (hne : properties ≠ [])
    (hpath : ∀ p ∈ properties, path p.2.head = path h ++ "." ++ p.1) :
    WellShaped path sort (object h properties) where
  single := .inl rfl
  array _ hitem := by cases hitem
  object _ hproperties := by
    cases hproperties
    exact ⟨hsort, hkeys, hpath⟩
  filled _ := ⟨properties, rfl, hne⟩

end WellShaped

theorem mem_nodesOfAll {trees : List (String × Tree α)} {n : Tree α} :
    n ∈ nodesOfAll trees ↔ ∃ p ∈ trees, n ∈ p.2.nodes := by
  induction trees with
  | nil => simp only [nodesOfAll, List.not_mem_nil, false_and, exists_false]
  | cons p rest ih =>
      simp only [nodesOfAll, List.mem_append, ih, List.mem_cons, exists_eq_or_imp]

/-- In a tree of well-shaped nodes a head has the path of its address below the path of the tree. -/
theorem path_of_at? {path : α → String} {sort : α → String → Prop} (q : List String) :
    ∀ {t : Tree α} {r : α}, (∀ n ∈ t.nodes, WellShaped path sort n) → t.at? q = some r →
      path r = ofNames (path t.head :: q) := by
  induction q with
  | nil =>
      intro t r _ hr
      cases hr
      rfl
  | cons name rest ih =>
      intro t r h hr
      obtain ⟨child, hchild, hat⟩ := Option.bind_eq_some_iff.mp hr
      have hbelow : (∀ n ∈ child.nodes, WellShaped path sort n) →
          path child.head = path t.head ++ "." ++ name →
          path r = ofNames (path t.head :: name :: rest) := by
        intro hnodes hpath
        rw [ih hnodes hat, hpath, ofNames_cons_cons]
      cases t with
      | leaf d => cases hchild
      | array d item =>
          obtain ⟨-, hitem⟩ := (h _ List.mem_cons_self).array item rfl
          rw [inside, Table.get?] at hchild
          split at hchild
          · rename_i hname
            cases hchild
            subst hname
            refine hbelow (fun n hn => h n (List.mem_cons_of_mem _ hn)) ?_
            rw [hitem, String.append_assoc]
            rfl
          · cases hchild
      | object d properties =>
          obtain ⟨-, -, hproperties⟩ := (h _ List.mem_cons_self).object properties rfl
          have hmem : (name, child) ∈ properties := Table.mem_of_get?_eq_some hchild
          refine hbelow (fun n hn => h n ?_) (hproperties _ hmem)
          exact List.mem_cons_of_mem _ (mem_nodesOfAll.mpr ⟨_, hmem, hn⟩)

section Mapped

variable {f : α → Except Fault β}

mutual
/-- Every node of a mapped tree is the mapped form of a node of the tree. -/
theorem exists_node_of_mapHeads : ∀ {t : Tree α} {t' : Tree β}, t.mapHeads f = .ok t' →
    ∀ n' ∈ t'.nodes, ∃ n ∈ t.nodes, n.mapHeads f = .ok n'
  | .leaf a, t', h, n', hn' => by
      have hmap := h
      obtain ⟨b, -, h⟩ := exists_of_bind h
      cases h
      rw [List.mem_singleton.mp hn']
      exact ⟨_, List.mem_singleton.mpr rfl, hmap⟩
  | .array a item, t', h, n', hn' => by
      have hmap := h
      obtain ⟨b, -, h⟩ := exists_of_bind h
      obtain ⟨item', hitem, h⟩ := exists_of_bind h
      cases h
      rcases List.mem_cons.mp hn' with rfl | hn'
      · exact ⟨_, List.mem_cons_self, hmap⟩
      · obtain ⟨n, hn, hmapped⟩ := exists_node_of_mapHeads hitem n' hn'
        exact ⟨n, List.mem_cons_of_mem _ hn, hmapped⟩
  | .object a properties, t', h, n', hn' => by
      have hmap := h
      obtain ⟨b, -, h⟩ := exists_of_bind h
      obtain ⟨properties', hproperties, h⟩ := exists_of_bind h
      cases h
      rcases List.mem_cons.mp hn' with rfl | hn'
      · exact ⟨_, List.mem_cons_self, hmap⟩
      · obtain ⟨n, hn, hmapped⟩ := exists_node_of_mapHeadsOfAll hproperties n' hn'
        exact ⟨n, List.mem_cons_of_mem _ hn, hmapped⟩
/-- Every node of mapped trees is the mapped form of a node of the trees. -/
theorem exists_node_of_mapHeadsOfAll : ∀ {trees : List (String × Tree α)}
    {trees' : List (String × Tree β)}, mapHeadsOfAll f trees = .ok trees' →
    ∀ n' ∈ nodesOfAll trees', ∃ n ∈ nodesOfAll trees, n.mapHeads f = .ok n'
  | [], trees', h, n', hn' => by
      cases h
      cases hn'
  | (name, t) :: rest, trees', h, n', hn' => by
      obtain ⟨t', ht, h⟩ := exists_of_bind h
      obtain ⟨rest', hrest, h⟩ := exists_of_bind h
      cases h
      rcases List.mem_append.mp hn' with hn' | hn'
      · obtain ⟨n, hn, hmapped⟩ := exists_node_of_mapHeads ht n' hn'
        exact ⟨n, List.mem_append_left _ hn, hmapped⟩
      · obtain ⟨n, hn, hmapped⟩ := exists_node_of_mapHeadsOfAll hrest n' hn'
        exact ⟨n, List.mem_append_right _ hn, hmapped⟩
end

/-- A node keeps its shape when its heads are mapped to heads with the same path and sort. -/
theorem WellShaped.mapHeads {path : α → String} {sort : α → String → Prop} {path' : β → String}
    {sort' : β → String → Prop} {t : Tree α} {t' : Tree β} (h : WellShaped path sort t)
    (ht : t.mapHeads f = .ok t') (hpath : ∀ a b, f a = .ok b → path' b = path a)
    (hsort : ∀ a b, f a = .ok b → ∀ type, sort a type → sort' b type)
    (hobject : ∀ a b, f a = .ok b → sort' b "object" → sort a "object") :
    WellShaped path' sort' t' := by
  cases t with
  | leaf a =>
      obtain ⟨b, hb, ht⟩ := exists_of_bind ht
      cases ht
      refine wellShaped_leaf fun hb' => ?_
      obtain ⟨properties, hnone, -⟩ := h.filled (hobject a b hb hb')
      cases hnone
  | array a item =>
      obtain ⟨b, hb, ht⟩ := exists_of_bind ht
      obtain ⟨item', hitem, ht⟩ := exists_of_bind ht
      cases ht
      obtain ⟨harray, hbelow⟩ := h.array item rfl
      refine wellShaped_array (hsort a b hb _ harray) (fun hb' => ?_) ?_
      · obtain ⟨properties, hnone, -⟩ := h.filled (hobject a b hb hb')
        cases hnone
      · rw [hpath _ _ (head_of_mapHeads hitem), hbelow, hpath a b hb]
        rfl
  | object a properties =>
      obtain ⟨b, hb, ht⟩ := exists_of_bind ht
      obtain ⟨properties', hmapped, ht⟩ := exists_of_bind ht
      cases ht
      obtain ⟨hobj, hkeys, hbelow⟩ := h.object properties rfl
      obtain ⟨other, hsame, hne⟩ := h.filled hobj
      cases hsame
      refine wellShaped_object (hsort a b hb _ hobj) ?_ ?_ fun q hq => ?_
      · rwa [Table.keys, map_fst_of_mapHeadsOfAll hmapped]
      · intro hnil
        have hnames := map_fst_of_mapHeadsOfAll hmapped
        rw [hnil] at hnames
        exact hne (List.map_eq_nil_iff.mp hnames.symm)
      · obtain ⟨p, hp, hname, htree⟩ := exists_of_forall₂ (forall₂_mapHeadsOfAll hmapped) hq
        rw [hpath _ _ (head_of_mapHeads htree), hbelow p hp, hpath a b hb, hname]
        rfl

end Mapped

end Tree

namespace Inference

/-- A text that starts with another character than the word for objects is not that word. -/
theorem append_ne_object {mark : String} (hmark : mark.toList ≠ [])
    (hhead : mark.toList.head? ≠ "object".toList.head?) (rest : String) :
    mark ++ rest ≠ "object" := by
  intro h
  apply hhead
  rw [← h, String.toList_append, List.head?_append_of_ne_nil _ hmark]

/-- No rules make an object. -/
theorem inferType_ne_object (entries : List RuleEntry) (field : Option String) :
    inferType entries field ≠ "object" := by
  have hcategories : ∀ category ∈ precedence, category.2 ≠ "object" := by decide
  unfold inferType
  split
  · rename_i category inferred hfind
    exact hcategories _ (List.mem_of_find?_eq_some hfind)
  · dsimp only
    split
    · exact append_ne_object (by decide) (by decide) _
    · split
      · split
        · decide
        · decide
      · decide

end Inference

namespace Declared

/-- A node of declared fields whose shape and sort agree. -/
abbrev WellShaped : Tree Declared → Prop :=
  Tree.WellShaped Declared.path fun d type => d.shapeType = some type

theorem path_head_ofGroup (path : String) (g : RuleGroup) : (ofGroup path g).head.path = path := by
  obtain ⟨rules, children, isObject, className⟩ := g
  rw [ofGroup]
  split
  · rfl
  · split <;> rfl

theorem path_head_ofField (metadata : Table FieldMetadata) (field : String) (g : RuleGroup) :
    (ofField metadata field g).head.path = field := by
  unfold ofField
  dsimp only
  split
  · split
    · rfl
    · rfl
    · exact path_head_ofGroup field g
  · exact path_head_ofGroup field g

theorem below_wildcard (path : String) : below path wildcard = path ++ ".*" := by
  rw [below, String.append_assoc]
  rfl

/-- A group has the shape of a leaf, of an array or of an object; the last two have children. -/
theorem ofGroup_cases (path : String) (g : RuleGroup) :
    (∃ d, ofGroup path g = .leaf d ∧ d.shapeType ≠ some "object") ∨
    (∃ d, ofGroup path g = .array d (itemOf path g.children) ∧ g.children ≠ [] ∧
      d.path = path ∧ d.shapeType = some "array") ∨
    ∃ d, ofGroup path g = .object d (propertiesOf path g.children) ∧ g.children ≠ [] ∧
      d.path = path ∧ d.shapeType = some "object" := by
  obtain ⟨rules, children, isObject, className⟩ := g
  rw [ofGroup]
  split
  · exact .inl ⟨_, rfl, by simp⟩
  · rename_i hempty
    have hne : children ≠ [] := fun hnil => hempty (List.isEmpty_iff.mpr hnil)
    split
    · exact .inr (.inl ⟨_, rfl, hne, rfl, rfl⟩)
    · exact .inr (.inr ⟨_, rfl, hne, rfl, rfl⟩)

section Groups

variable {path : String} {d : Declared} {children : List (String × RuleGroup)}

theorem wellShaped_of_mem_leaf (hsort : d.shapeType ≠ some "object") :
    ∀ n ∈ (Tree.leaf d).nodes, WellShaped n := by
  intro n hn
  rw [Tree.nodes, List.mem_singleton] at hn
  subst hn
  exact Tree.wellShaped_leaf hsort

/-- An object with the shapes of groups as its properties is well shaped if these are. -/
theorem wellShaped_of_mem_object (hpath : d.path = path) (hsort : d.shapeType = some "object")
    (hkeys : (Table.keys children).Nodup) (hne : children ≠ [])
    (hbelow : ∀ p ∈ children, ∀ path, ∀ n ∈ (ofGroup path p.2).nodes, WellShaped n) :
    ∀ n ∈ (Tree.object d (children.map fun p => (p.1, ofGroup (below path p.1) p.2))).nodes,
      WellShaped n := by
  intro n hn
  rcases List.mem_cons.mp hn with rfl | hn
  · refine Tree.wellShaped_object hsort ?_ ?_ fun q hq => ?_
    · rw [Table.keys, List.map_map]
      exact hkeys
    · exact fun hnil => hne (List.map_eq_nil_iff.mp hnil)
    · obtain ⟨p, -, rfl⟩ := List.mem_map.mp hq
      rw [path_head_ofGroup, hpath, below]
  · obtain ⟨q, hq, hnq⟩ := Tree.mem_nodesOfAll.mp hn
    obtain ⟨p, hp, rfl⟩ := List.mem_map.mp hq
    exact hbelow p hp _ n hnq

/-- The item of an array is well shaped if the shapes of the children are, and it has its path. -/
theorem wellShaped_of_mem_itemOf (path : String) (hkeys : (Table.keys children).Nodup)
    (hne : children ≠ [])
    (hbelow : ∀ p ∈ children, ∀ path, ∀ n ∈ (ofGroup path p.2).nodes, WellShaped n) :
    (itemOf path children).head.path = path ++ ".*" ∧
      ∀ n ∈ (itemOf path children).nodes, WellShaped n := by
  rw [← below_wildcard]
  cases hall : children.all (·.1 == wildcard) with
  | true =>
      obtain ⟨child, rfl⟩ := eq_singleton_of_all_wildcard hkeys hne hall
      rw [itemOf, hall, if_pos rfl, scalarItem, if_pos (beq_self_eq_true wildcard)]
      split
      · exact ⟨rfl, wellShaped_of_mem_leaf (by simp)⟩
      · exact ⟨path_head_ofGroup _ child, hbelow _ List.mem_cons_self _⟩
  | false =>
      rw [itemOf, hall, if_neg Bool.false_ne_true, itemProperties_eq_map]
      refine ⟨rfl, wellShaped_of_mem_object rfl rfl ?_ ?_ fun p hp => ?_⟩
      · exact hkeys.sublist (List.filter_sublist.map Prod.fst)
      · -- some child is no star, or the item would not be an object
        intro hnil
        rw [List.filter_eq_nil_iff] at hnil
        have hstars : children.all (·.1 == wildcard) = true :=
          List.all_eq_true.mpr fun p hp => by simpa using hnil p hp
        rw [hall] at hstars
        cases hstars
      · exact hbelow p (List.mem_filter.mp hp).1

/-- Every node in the shape of a group is well shaped. -/
theorem wellShaped_of_mem_ofGroup {g : RuleGroup} (hg : Distinct g) :
    ∀ path, ∀ n ∈ (ofGroup path g).nodes, WellShaped n := by
  induction hg with
  | @node g hkeys hdistinct hbelow =>
      intro path
      rcases ofGroup_cases path g with
        ⟨d, hshape, hsort⟩ | ⟨d, hshape, hne, hpath, hsort⟩ | ⟨d, hshape, hne, hpath, hsort⟩
      · rw [hshape]
        exact wellShaped_of_mem_leaf hsort
      · obtain ⟨hitem, hnodes⟩ := wellShaped_of_mem_itemOf path hkeys hne hbelow
        rw [hshape]
        intro n hn
        rcases List.mem_cons.mp hn with rfl | hn
        · refine Tree.wellShaped_array hsort (fun hobject => ?_) (by rw [hitem, hpath])
          rw [hsort] at hobject
          exact absurd (Option.some.inj hobject) (by decide)
        · exact hnodes n hn
      · rw [hshape, propertiesOf_eq_map]
        exact wellShaped_of_mem_object hpath hsort hkeys hne hbelow

end Groups

/-- A top-level field is well shaped: a reference to a class is a leaf of its own type. -/
theorem wellShaped_of_mem_ofField (metadata : Table FieldMetadata) (field : String)
    {g : RuleGroup} (hg : Distinct g) : ∀ n ∈ (ofField metadata field g).nodes, WellShaped n := by
  have hgroup := wellShaped_of_mem_ofGroup hg field
  unfold ofField
  dsimp only
  split
  · split
    · refine wellShaped_of_mem_leaf fun hobject => ?_
      exact Inference.append_ne_object (by decide) (by decide) _ (Option.some.inj hobject)
    · refine wellShaped_of_mem_leaf fun hobject => ?_
      exact Inference.append_ne_object (by decide) (by decide) _ (Option.some.inj hobject)
    · exact hgroup
  · exact hgroup

/-- Only a field whose shape is an object is resolved to one. -/
theorem shapeType_of_resolve {m : Messages} {d : Declared} {r : Resolved}
    (h : d.resolve m = .ok r) (hobject : r.inferredType = "object") :
    d.shapeType = some "object" := by
  obtain ⟨n, checks, inferred, -, -, hinferred, rfl⟩ := exists_of_resolve h
  change d.shapeType.getD inferred = "object" at hobject
  cases hshape : d.shapeType with
  | some type =>
      rw [hshape] at hobject
      exact congrArg some hobject
  | none =>
      rw [hshape] at hobject
      obtain ⟨-, rfl⟩ | ⟨-, rfl⟩ := hinferred
      · exact absurd hobject (by decide)
      · exact absurd hobject (Inference.inferType_ne_object _ _)

end Declared

namespace Node

section Parts

variable {head : Resolved} {item : Option Node} {properties : Option (Table Node)}

/-- A record makes a node exactly if the node has all its parts. -/
theorem ofParts_eq_ok_iff {n : Node} :
    Node.ofParts head item properties = .ok n ↔
      n.head = head ∧ n.item? = item ∧ n.properties? = properties := by
  constructor
  · intro h
    cases item <;> cases properties <;> cases h <;> exact ⟨rfl, rfl, rfl⟩
  · rintro ⟨rfl, rfl, rfl⟩
    cases n <;> rfl

/-- The check of a record refuses both shapes at once and nothing else. -/
theorem exists_ofParts_iff :
    (∃ n, Node.ofParts head item properties = .ok n) ↔ item = none ∨ properties = none := by
  cases item <;> cases properties <;> simp [Node.ofParts]

end Parts

/-- A resolved node whose shape and type agree. -/
abbrev WellShaped : Node → Prop :=
  Tree.WellShaped Resolved.path fun r type => r.inferredType = type

section Built

variable {m : Messages} {metadata : Table FieldMetadata} {groups : List (String × RuleGroup)}
  {nodes : List (String × Node)}

/-- The nodes of groups with distinct names below them are well shaped. -/
theorem wellShaped_of_distinct (hdistinct : ∀ p ∈ groups, Distinct p.2)
    (hnodes : ofGroups m metadata groups = .ok nodes) :
    ∀ n ∈ Tree.nodesOfAll nodes, WellShaped n := by
  intro n hn
  obtain ⟨t, ht, hmapped⟩ := Tree.exists_node_of_mapHeadsOfAll hnodes n hn
  obtain ⟨field, hfield, htree⟩ := Tree.mem_nodesOfAll.mp ht
  obtain ⟨p, hp, rfl⟩ := List.mem_map.mp hfield
  have hshape : Declared.WellShaped t :=
    Declared.wellShaped_of_mem_ofField metadata p.1 (hdistinct p hp) t htree
  refine hshape.mapHeads hmapped ?_ ?_ ?_
  · exact fun d r hr => (Declared.path_of_resolve hr).1
  · exact fun d r hr => (Declared.path_of_resolve hr).2
  · exact fun d r hr => Declared.shapeType_of_resolve hr

/-- The head at an address below a top-level field has the path that the address spells. -/
theorem path_of_atAll? (hdistinct : ∀ p ∈ groups, Distinct p.2)
    (hnodes : ofGroups m metadata groups = .ok nodes) {q : List String} {r : Resolved}
    (hr : Tree.atAll? nodes q = some r) : r.path = ofNames q := by
  cases q with
  | nil => cases hr
  | cons field rest =>
      obtain ⟨node, hnode, hat⟩ := Option.bind_eq_some_iff.mp hr
      have hmem : (field, node) ∈ nodes := Table.mem_of_get?_eq_some hnode
      have hshaped : ∀ n ∈ node.nodes, WellShaped n := fun n hn =>
        wellShaped_of_distinct hdistinct hnodes n (Tree.mem_nodesOfAll.mpr ⟨_, hmem, hn⟩)
      obtain ⟨p, hp, hname, htree⟩ := exists_of_forall₂ (Tree.forall₂_mapHeadsOfAll hnodes) hmem
      obtain ⟨g, -, rfl⟩ := List.mem_map.mp hp
      have hhead := (Declared.path_of_resolve (Tree.head_of_mapHeads htree)).1
      rw [Declared.path_head_ofField] at hhead
      rw [Tree.path_of_at? rest hshaped hat, hhead, ← hname]

end Built

/-- Every node that is built from the groups of a rule map is well shaped. -/
theorem wellShaped_of_group {rules : Table RuleValue} {metadata : Table FieldMetadata}
    {groups : List (String × RuleGroup)} {m : Messages} {nodes : List (String × Node)}
    (hgroups : Grouping.group rules metadata = .ok groups)
    (hnodes : ofGroups m metadata groups = .ok nodes) :
    ∀ n ∈ Tree.nodesOfAll nodes, WellShaped n := by
  obtain ⟨-, hdistinct⟩ := Grouping.distinct_of_group hgroups
  exact wellShaped_of_distinct hdistinct hnodes

/-- Rules of a parcel: items with rules of their own, an array whose items a marker makes objects,
an object with a marker and a field that refers to a class. -/
def parcelRules : Table RuleValue :=
  [("items.*", .text "required"), ("items.*.price", .text "numeric"), ("tags.*", .text "string"),
    ("stops.*", .text "array"), ("stops.*.__nested.city", .text "string"),
    ("address.__base_rules", .text "required"), ("address.city", .text "in:Oslo,Rome"),
    ("sender", .text "required")]

/-- Metadata of a parcel. -/
def parcelMetadata : Table FieldMetadata := [("sender", ⟨true, false, false, some "Person", none⟩)]

theorem wellShaped_parcel : ∃ groups nodes,
    Grouping.group parcelRules parcelMetadata = .ok groups ∧
    ofGroups ⟨some (.ofMap []), [], []⟩ parcelMetadata groups = .ok nodes ∧
    ((Tree.nodesOfAll nodes).map fun n => (n.head.path, n.head.inferredType)) =
      [("items", "array"), ("items.*", "object"), ("items.*.price", "number"), ("tags", "array"),
        ("tags.*", "string"), ("stops", "array"), ("stops.*", "object"),
        ("stops.*.city", "string"), ("address", "object"), ("address.city", "enum:Oslo,Rome"),
        ("sender", "DataObject:Person")] ∧
    ∀ n ∈ Tree.nodesOfAll nodes, WellShaped n := by
  have hrun : ((Grouping.group parcelRules parcelMetadata >>= fun groups =>
      ofGroups ⟨some (.ofMap []), [], []⟩ parcelMetadata groups).toOption.map fun nodes =>
        (Tree.nodesOfAll nodes).map fun n => (n.head.path, n.head.inferredType)) =
      some [("items", "array"), ("items.*", "object"), ("items.*.price", "number"),
        ("tags", "array"), ("tags.*", "string"), ("stops", "array"), ("stops.*", "object"),
        ("stops.*.city", "string"), ("address", "object"), ("address.city", "enum:Oslo,Rome"),
        ("sender", "DataObject:Person")] := by decide +kernel
  cases hgroups : Grouping.group parcelRules parcelMetadata with
  | error fault =>
      rw [hgroups] at hrun
      cases hrun
  | ok groups =>
      rw [hgroups] at hrun
      replace hrun : ((ofGroups ⟨some (.ofMap []), [], []⟩ parcelMetadata groups).toOption.map
        fun nodes => (Tree.nodesOfAll nodes).map fun n => (n.head.path, n.head.inferredType)) = _ :=
          hrun
      cases hnodes : ofGroups ⟨some (.ofMap []), [], []⟩ parcelMetadata groups with
      | error fault =>
          rw [hnodes] at hrun
          cases hrun
      | ok nodes =>
          rw [hnodes] at hrun
          exact ⟨groups, nodes, rfl, hnodes, Option.some.inj hrun,
            wellShaped_of_group hgroups hnodes⟩

end Node

end RuleSchema
