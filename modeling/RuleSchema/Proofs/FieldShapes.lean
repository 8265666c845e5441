import RuleSchema.Proofs.GroupedRules
import RuleSchema.Proofs.TreeAddresses

/-!
# Shapes of fields

The shape of a group has a head exactly at the addresses where reading the group finds a value, and
each head carries the path of its address and that value. Where the value is absent, an array has
the rule of arrays and any other field has none.
-/

namespace RuleSchema.Declared

open DottedPath RuleGroup

/-- The rules that stand in for absent ones: those of an array where items are read. -/
def impliedRules (items : Option RuleValue) : String := if items.isSome then "array" else ""

section Parts

variable {path name : String} {children : List (String × RuleGroup)} {g : RuleGroup}

theorem propertiesOf_eq_map (path : String) (children : List (String × RuleGroup)) :
    propertiesOf path children = children.map fun p => (p.1, ofGroup (below path p.1) p.2) := by
  induction children with
  | nil => rfl
  | cons p rest ih =>
      obtain ⟨name, g⟩ := p
      rw [propertiesOf, ih, List.map_cons]

theorem itemProperties_eq_map (path : String) (children : List (String × RuleGroup)) :
    itemProperties path children = (children.filter fun p => p.1 ≠ wildcard).map
      fun p => (p.1, ofGroup (below path p.1) p.2) := by
  induction children with
  | nil => rfl
  | cons p rest ih =>
      obtain ⟨name, g⟩ := p
      by_cases hn : name = wildcard
      · rw [itemProperties, if_pos (beq_iff_eq.mpr hn), ih,
          List.filter_cons_of_neg (by simpa using hn)]
      · rw [itemProperties, if_neg (by simpa using hn), ih,
          List.filter_cons_of_pos (by simpa using hn), List.map_cons]

theorem get?_map (f : String → RuleGroup → Tree Declared) (name : String) :
    Table.get? (children.map fun p => (p.1, f p.1 p.2)) name =
      (Table.get? children name).map (f name) := by
  induction children with
  | nil => rfl
  | cons p rest ih =>
      obtain ⟨key, g⟩ := p
      rw [List.map_cons, Table.get?, Table.get?]
      by_cases hk : key = name
      · subst hk
        simp only [if_true, Option.map_some]
      · simp only [hk, if_false, ih]

theorem get?_filter_ne (hn : name ≠ wildcard) :
    Table.get? (children.filter fun p => p.1 ≠ wildcard) name = Table.get? children name := by
  rw [Table.get?_filter fun key => key ≠ wildcard, if_pos (decide_eq_true hn)]

/-- The shape of the items of an array. -/
def itemOf (path : String) (children : List (String × RuleGroup)) : Tree Declared :=
  if children.all (·.1 == wildcard) then scalarItem (below path wildcard) children
  else .object ⟨below path wildcard, itemRules children, true, some "object"⟩
    (itemProperties (below path wildcard) children)

theorem ofGroup_leaf (h : g.children = []) :
    ofGroup path g = .leaf ⟨path, g.rules.orRules "", false, none⟩ := by
  obtain ⟨rules, children, isObject, className⟩ := g
  obtain rfl : children = [] := h
  rfl

theorem ofGroup_array (h : g.holdsItems = true) :
    ofGroup path g =
      .array ⟨path, g.rules.orRules "array", false, some "array"⟩ (itemOf path g.children) := by
  rw [holdsItems, Bool.and_eq_true, Bool.not_eq_true', Bool.not_eq_true'] at h
  obtain ⟨rules, children, isObject, className⟩ := g
  obtain ⟨rfl, hempty⟩ : isObject = false ∧ children.isEmpty = false := h
  rw [ofGroup, hempty, Bool.not_false, Bool.or_true]
  rfl

theorem ofGroup_object (ho : g.isObject = true) (hne : g.children ≠ [])
    (hnostar : ∀ p ∈ g.children, p.1 ≠ wildcard) :
    ofGroup path g = .object ⟨path, g.rules.orRules "", false, some "object"⟩
      (propertiesOf path g.children) := by
  obtain ⟨rules, children, isObject, className⟩ := g
  obtain rfl : isObject = true := ho
  have hstar : Table.has children wildcard = false := by
    have hnot : wildcard ∉ Table.keys children := fun hmem => by
      obtain ⟨p, hp, hw⟩ := List.mem_map.mp hmem
      exact hnostar p hp hw
    rw [Table.has, Table.get?_eq_none_of_not_mem hnot]
    rfl
  have hempty : children.isEmpty = false := List.isEmpty_eq_false_iff.mpr hne
  rw [ofGroup, hempty, hstar]
  rfl

/-- Children that are all stars are one child without children. -/
theorem eq_singleton_of_all_wildcard (hkeys : (children.map Prod.fst).Nodup) (hne : children ≠ [])
    (hall : children.all (·.1 == wildcard) = true) : ∃ g, children = [(wildcard, g)] := by
  obtain ⟨⟨name, g⟩, rest, rfl⟩ := List.exists_cons_of_ne_nil hne
  rw [List.all_cons, Bool.and_eq_true, beq_iff_eq] at hall
  obtain rfl : name = wildcard := hall.1
  cases rest with
  | nil => exact ⟨g, rfl⟩
  | cons p more =>
      have hp : p.1 = wildcard := by
        simpa using List.all_eq_true.mp hall.2 p List.mem_cons_self
      rw [List.map_cons, List.nodup_cons] at hkeys
      exact absurd (List.mem_map.mpr ⟨p, List.mem_cons_self, hp⟩) hkeys.1

theorem scalarItem_singleton (hleaf : g.children = []) :
    scalarItem path [(wildcard, g)] = .leaf ⟨path, g.rules.orRules "", true, none⟩ := by
  have hg : g.isLeaf = true := by rw [isLeaf, hleaf]; rfl
  rw [scalarItem, if_pos (beq_self_eq_true wildcard), if_pos hg]

theorem itemRules_eq : itemRules children = (childD children wildcard).rules.orRules "" := by
  rw [itemRules, childD]
  cases Table.get? children wildcard <;> rfl

end Parts

/-- The three sorts of shaped groups: without children, an array, an object without stars. -/
theorem shaped_cases {g : RuleGroup} (hg : Shaped g) : g.children = [] ∨ g.holdsItems = true ∨
    (g.isObject = true ∧ g.children ≠ [] ∧ ∀ p ∈ g.children, p.1 ≠ wildcard) := by
  obtain ⟨-, -, hobject, -, -⟩ := hg
  cases ho : g.isObject with
  | true => exact .inr (.inr ⟨rfl, hobject ho⟩)
  | false =>
      cases hitems : g.holdsItems with
      | true => exact .inr (.inl rfl)
      | false => exact .inl (children_eq_nil ho hitems)

/-- What lies right below the shape of a group, by name. -/
theorem get?_inside_ofGroup {g : RuleGroup} (hg : Shaped g) (path name : String) :
    Table.get? (ofGroup path g).inside name =
      if name = wildcard then if g.holdsItems then some (itemOf path g.children) else none
      else if g.isObject then (Table.get? g.children name).map (ofGroup (below path name))
      else none := by
  rcases shaped_cases hg with hleaf | hitems | ⟨ho, hne, hnostar⟩
  · have hitems : g.holdsItems = false := by rw [holdsItems, hleaf]; exact Bool.and_false _
    rw [ofGroup_leaf hleaf, hitems, hleaf]
    simp only [Tree.inside, Table.get?_nil, Bool.false_eq_true, if_false, Option.map_none, ite_self]
  · have ho : g.isObject = false := by
      rw [holdsItems, Bool.and_eq_true, Bool.not_eq_true'] at hitems
      exact hitems.1
    rw [ofGroup_array hitems, hitems, ho, Tree.inside, Table.get?, Table.get?]
    simp only [eq_comm (a := wildcard), if_true, Bool.false_eq_true, if_false]
  · have hitems : g.holdsItems = false := by rw [holdsItems, ho]; rfl
    rw [ofGroup_object ho hne hnostar, hitems, ho, Tree.inside, propertiesOf_eq_map,
      get?_map fun n child => ofGroup (below path n) child]
    by_cases hn : name = wildcard
    · have hnot : wildcard ∉ Table.keys g.children := fun hmem => by
        obtain ⟨p, hp, hw⟩ := List.mem_map.mp hmem
        exact hnostar p hp hw
      rw [if_pos hn, hn, Table.get?_eq_none_of_not_mem hnot]
      rfl
    · rw [if_neg hn, if_pos rfl]

/-- The items of a shaped array are of scalars, or of objects with the other children. -/
theorem itemOf_cases {g : RuleGroup} (hg : Shaped g) (hitems : g.holdsItems = true)
    (path : String) :
    (∃ child, g.children = [(wildcard, child)] ∧ itemOf path g.children =
      .leaf ⟨below path wildcard, child.rules.orRules "", true, none⟩) ∨
    itemOf path g.children =
      .object ⟨below path wildcard, itemRules g.children, true, some "object"⟩
        (itemProperties (below path wildcard) g.children) := by
  obtain ⟨hkeys, -, -, hstar, -⟩ := hg
  have hne : g.children ≠ [] := fun hnil => by
    rw [holdsItems, hnil, List.isEmpty_nil, Bool.not_true, Bool.and_false] at hitems
    cases hitems
  cases hall : g.children.all (·.1 == wildcard) with
  | true =>
      obtain ⟨child, hchild⟩ := eq_singleton_of_all_wildcard hkeys hne hall
      have hleaf : child.children = [] :=
        hstar (wildcard, child) (hchild ▸ List.mem_cons_self) rfl
      refine .inl ⟨child, hchild, ?_⟩
      rw [itemOf, hall, if_pos rfl, hchild, scalarItem_singleton hleaf]
  | false =>
      refine .inr ?_
      rw [itemOf, hall, if_neg Bool.false_ne_true]

theorem head_itemOf {g : RuleGroup} (hg : Shaped g) (hitems : g.holdsItems = true)
    (path : String) : (itemOf path g.children).head.path = below path wildcard ∧
      (itemOf path g.children).head.rules = (childD g.children wildcard).rules.orRules "" := by
  rcases itemOf_cases hg hitems path with ⟨child, hchild, hitem⟩ | hitem
  · rw [hitem, hchild]
    exact ⟨rfl, rfl⟩
  · rw [hitem]
    exact ⟨rfl, itemRules_eq⟩

/-- What lies right below the items of an array, by name. -/
theorem get?_inside_itemOf {g : RuleGroup} (hg : Shaped g) (hitems : g.holdsItems = true)
    (path name : String) : Table.get? (itemOf path g.children).inside name =
      if name = wildcard then none
      else (Table.get? g.children name).map (ofGroup (below (below path wildcard) name)) := by
  rcases itemOf_cases hg hitems path with ⟨child, hchild, hitem⟩ | hitem
  · rw [hitem, hchild, Tree.inside, Table.get?_nil, Table.get?, Table.get?_nil]
    by_cases hn : name = wildcard
    · rw [if_pos hn]
    · rw [if_neg hn, if_neg (Ne.symm hn), Option.map_none]
  · rw [hitem, Tree.inside, itemProperties_eq_map,
      get?_map fun n child => ofGroup (below (below path wildcard) n) child]
    by_cases hn : name = wildcard
    · have hnot : wildcard ∉ Table.keys (g.children.filter fun p => p.1 ≠ wildcard) :=
        fun hmem => by
          obtain ⟨p, hp, hw⟩ := List.mem_map.mp hmem
          simpa [hw] using (List.mem_filter.mp hp).2
      rw [if_pos hn, hn, Table.get?_eq_none_of_not_mem hnot]
      rfl
    · rw [if_neg hn, get?_filter_ne hn]

/-- The heads of a shape carry the values that reading its group finds. -/
theorem rules_at?_ofGroup (q : List String) :
    (∀ path g, Shaped g → ((ofGroup path g).at? q).map Declared.rules =
      (find q g).map (·.orRules (impliedRules (find (q ++ [wildcard]) g)))) ∧
    ∀ path g, Shaped g → g.holdsItems = true →
      ((itemOf path g.children).at? q).map Declared.rules =
        (findItem q g).map (·.orRules (impliedRules (findItem (q ++ [wildcard]) g))) := by
  induction q with
  | nil =>
      refine ⟨fun path g hg => ?_, fun path g hg hitems => ?_⟩
      · rw [Tree.at?, Option.map_some, find, Option.map_some, List.nil_append, find_wildcard]
        rcases shaped_cases hg with hleaf | hitems | ⟨ho, hne, hnostar⟩
        · have hitems : g.holdsItems = false := by rw [holdsItems, hleaf]; exact Bool.and_false _
          rw [ofGroup_leaf hleaf, hitems]
          rfl
        · rw [ofGroup_array hitems, hitems]
          rfl
        · have hitems : g.holdsItems = false := by rw [holdsItems, ho]; rfl
          rw [ofGroup_object ho hne hnostar, hitems]
          rfl
      · rw [Tree.at?, Option.map_some, (head_itemOf hg hitems path).2, List.nil_append,
          findItem_wildcard, findItem, Option.map_some]
        rfl
  | cons name rest ih =>
      have hchild : ∀ path children, (∀ p ∈ children, Shaped p.2) →
          (((Table.get? children name).map (ofGroup path)).bind (Tree.at? rest)).map
            Declared.rules =
          (findAll children (name :: rest)).map
            (·.orRules (impliedRules (findAll children (name :: rest ++ [wildcard])))) := by
        intro path children hall
        rw [findAll, List.cons_append, findAll]
        cases hget : Table.get? children name with
        | none => rfl
        | some child => exact ih.1 path child (hall _ (Table.mem_of_get?_eq_some hget))
      refine ⟨fun path g hg => ?_, fun path g hg hitems => ?_⟩
      · rw [Tree.at?, get?_inside_ofGroup hg]
        by_cases hn : name = wildcard
        · subst hn
          rw [if_pos rfl, List.cons_append, find_wildcard, find_wildcard]
          cases hitems : g.holdsItems with
          | true => exact ih.2 path g hg hitems
          | false => rfl
        · rw [if_neg hn, List.cons_append, find_name hn, find_name hn]
          cases ho : g.isObject with
          | true =>
              obtain ⟨-, -, -, -, hall⟩ := hg
              exact hchild _ g.children hall
          | false => rfl
      · rw [Tree.at?, get?_inside_itemOf hg hitems]
        by_cases hn : name = wildcard
        · subst hn
          rw [if_pos rfl, findItem_wildcard]
          rfl
        · obtain ⟨-, -, -, -, hall⟩ := hg
          rw [if_neg hn, List.cons_append, findItem_name hn, findItem_name hn]
          exact hchild _ g.children hall

section Addresses

variable {base : List String} (children : List (String × RuleGroup))

theorem below_ofNames (hne : base ≠ []) (name : String) :
    below (ofNames base) name = ofNames (base ++ [name]) :=
  (ofNames_concat hne name).symm

/-- A node is addressed when what lies below it are the shapes of groups that are. -/
theorem addressed_of_inside {t : Tree Declared} (hpath : t.head.path = ofNames base)
    (hne : base ≠ []) (hkeys : (children.map Prod.fst).Nodup) (hnames : ∀ p ∈ children, IsName p.1)
    (hall : ∀ p ∈ children, ∀ base, base ≠ [] →
      Tree.Addressed Declared.path base (ofGroup (ofNames base) p.2))
    (hinside : t.inside = children.map fun p => (p.1, ofGroup (below (ofNames base) p.1) p.2)) :
    Tree.Addressed Declared.path base t := by
  refine .node hpath ?_ ?_ ?_
  · rw [hinside, Table.keys, List.map_map]
    exact hkeys
  · rw [hinside]
    intro p hp
    obtain ⟨q, hq, rfl⟩ := List.mem_map.mp hp
    exact hnames q hq
  · rw [hinside]
    intro p hp
    obtain ⟨q, hq, rfl⟩ := List.mem_map.mp hp
    rw [below_ofNames hne]
    exact hall q hq _ (by simp)

/-- Every head of the shape of a group carries the path of its address. -/
theorem addressed_ofGroup {g : RuleGroup} (hg : Shaped g) : ∀ base, base ≠ [] →
    Tree.Addressed Declared.path base (ofGroup (ofNames base) g) := by
  induction hg with
  | @node g hkeys hnames hobject hstar hall ih =>
      intro base hne
      have hg : Shaped g := .node hkeys hnames hobject hstar hall
      rcases shaped_cases hg with hleaf | hitems | ⟨ho, hne', hnostar⟩
      · rw [ofGroup_leaf hleaf]
        exact addressed_of_inside [] rfl hne .nil (fun _ h => by cases h)
          (fun _ h => by cases h) rfl
      · have hstarne : base ++ [wildcard] ≠ [] := by simp
        have hitem : Tree.Addressed Declared.path (base ++ [wildcard])
            (itemOf (ofNames base) g.children) := by
          have hhead := (head_itemOf hg hitems (ofNames base)).1
          rw [below_ofNames hne] at hhead
          rcases itemOf_cases hg hitems (ofNames base) with ⟨child, -, hitem⟩ | hitem
          · exact addressed_of_inside [] hhead hstarne .nil (fun _ h => by cases h)
              (fun _ h => by cases h) (by rw [hitem]; rfl)
          · refine addressed_of_inside (g.children.filter fun p => p.1 ≠ wildcard)
              hhead hstarne ?_ (fun p hp => hnames p (List.mem_filter.mp hp).1)
              (fun p hp => ih p (List.mem_filter.mp hp).1) ?_
            · exact hkeys.sublist (List.filter_sublist.map Prod.fst)
            · rw [hitem, Tree.inside, itemProperties_eq_map, below_ofNames hne]
        rw [ofGroup_array hitems]
        refine .node rfl ?_ ?_ ?_
        · exact List.pairwise_singleton _ _
        · intro p hp
          exact List.mem_singleton.mp hp ▸ isName_wildcard
        · intro p hp
          exact List.mem_singleton.mp hp ▸ hitem
      · rw [ofGroup_object ho hne' hnostar]
        exact addressed_of_inside g.children rfl hne hkeys hnames ih (propertiesOf_eq_map _ _)

end Addresses

section Fields

variable {groups : List (String × RuleGroup)}

theorem ofGroups_eq_map (groups : List (String × RuleGroup)) :
    ofGroups [] groups = groups.map fun p => (p.1, ofGroup p.1 p.2) := rfl

theorem addressed_of_mem_ofGroups (h : Grouping.ShapedAll groups) :
    ∀ p ∈ ofGroups [] groups, IsName p.1 ∧ Tree.Addressed Declared.path ([] ++ [p.1]) p.2 := by
  intro p hp
  obtain ⟨q, hq, rfl⟩ := List.mem_map.mp hp
  exact ⟨(h.names q hq).1, addressed_ofGroup (h.shaped q hq) [q.1] (List.cons_ne_nil _ _)⟩

/-- The heads with a path are one with the value that is read at its address, or none. -/
theorem rules_filter_ofGroups (h : Grouping.ShapedAll groups) {q : List String}
    (hq : IsAddress q) (hne : q ≠ []) :
    ((Tree.headsOfAll (ofGroups [] groups)).filter (·.path = ofNames q)).map Declared.rules =
      ((findAll groups q).map
        (·.orRules (impliedRules (findAll groups (q ++ [wildcard]))))).toList := by
  obtain ⟨name, rest, rfl⟩ := List.exists_cons_of_ne_nil hne
  have haddressed := addressed_of_mem_ofGroups h
  have hkeys : (Table.keys (ofGroups [] groups)).Nodup := by
    rw [Table.keys, ofGroups_eq_map, List.map_map]
    exact h.keys
  have hheads := Tree.filter_headsOfAll isAddress_nil hkeys
    (fun p hp => (haddressed p hp).1) (fun p hp => (haddressed p hp).2)
    (fun p hp => (haddressed p hp).2.filter_heads
      (isAddress_singleton (haddressed p hp).1) (List.cons_ne_nil _ _)) hq
  rw [List.nil_append] at hheads
  rw [hheads, Tree.atAll?, ofGroups_eq_map, get?_map fun n g => ofGroup n g, findAll,
    List.cons_append, findAll]
  cases hget : Table.get? groups name with
  | none => rfl
  | some g =>
      have hat := (rules_at?_ofGroup rest).1 name g
        (h.shaped _ (Table.mem_of_get?_eq_some hget))
      rw [Option.map_some, Option.bind_some, ← Option.toList_map, hat]
      rfl

end Fields

end RuleSchema.Declared
