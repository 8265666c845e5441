import Mathlib.Data.List.Chain
import RuleSchema.Proofs.DottedPaths

/-!
# Placement of rules in groups

Without metadata a rule value goes to the group at its path: every name leads to a child, a star
only says that the names after it are read inside the items of an array. Reading groups back at an
address gives the value that was placed there last, an absent value on the way to one, and nothing
elsewhere, as long as no group is used both as an array and as an object.

## Implementation notes

A star has no group of its own unless it ends a path. So placing and reading have one definition for
a group and one for the items of a group, and the lemmas about them are proved together.
-/

namespace RuleSchema

namespace RuleGroup

open DottedPath

section Children

variable {name : String} {f : RuleGroup → RuleGroup} {children : List (String × RuleGroup)}

/-- The child under a name, or the empty group. -/
def childD (children : List (String × RuleGroup)) (name : String) : RuleGroup :=
  (Table.get? children name).getD empty

theorem get?_updateIn (other : String) :
    Table.get? (updateIn name f children) other =
      if other = name then some (f (childD children name)) else Table.get? children other := by
  induction children with
  | nil =>
      by_cases h : other = name
      · subst h
        simp only [updateIn, Table.get?, if_true, childD, Option.getD_none]
      · simp only [updateIn, Table.get?, h, Ne.symm h, if_false]
  | cons p rest ih =>
      obtain ⟨key, g⟩ := p
      by_cases hk : key = name
      · subst hk
        by_cases h : other = key
        · subst h
          simp only [updateIn, Table.get?, if_true, childD, Option.getD_some]
        · simp only [updateIn, Table.get?, if_true, h, Ne.symm h, if_false]
      · have hchild : childD ((key, g) :: rest) name = childD rest name := by
          simp only [childD, Table.get?, hk, if_false]
        rw [updateIn, if_neg hk, Table.get?, ih, hchild, Table.get?]
        by_cases h : key = other
        · subst h
          simp only [hk, if_true, if_false]
        · simp only [h, if_false]

/-- Changing a child keeps the names and adds a new one at the end. -/
theorem keys_updateIn :
    (updateIn name f children).map Prod.fst =
      if name ∈ children.map Prod.fst then children.map Prod.fst
      else children.map Prod.fst ++ [name] := by
  induction children with
  | nil => rfl
  | cons p rest ih =>
      obtain ⟨key, g⟩ := p
      by_cases hk : key = name
      · subst hk
        simp only [updateIn, if_true, List.map_cons, List.mem_cons, true_or]
      · simp only [updateIn, hk, if_false, List.map_cons, ih, List.mem_cons, Ne.symm hk, false_or]
        split <;> rfl

theorem nodup_keys_updateIn (h : (children.map Prod.fst).Nodup) :
    ((updateIn name f children).map Prod.fst).Nodup := by
  rw [keys_updateIn]
  split
  · exact h
  · rename_i hname
    exact List.nodup_append.mpr ⟨h, List.pairwise_singleton _ _, fun a ha b hb => by
      rw [List.mem_singleton.mp hb]
      rintro rfl
      exact hname ha⟩

theorem mem_updateIn {p : String × RuleGroup} (h : p ∈ updateIn name f children) :
    p ∈ children ∨ p = (name, f (childD children name)) := by
  induction children with
  | nil => exact .inr (List.mem_singleton.mp h)
  | cons first rest ih =>
      obtain ⟨key, g⟩ := first
      by_cases hk : key = name
      · subst hk
        rw [updateIn, if_pos rfl] at h
        rcases List.mem_cons.mp h with rfl | h
        · exact .inr (by simp only [childD, Table.get?, if_true, Option.getD_some])
        · exact .inl (List.mem_cons_of_mem _ h)
      · rw [updateIn, if_neg hk] at h
        rcases List.mem_cons.mp h with rfl | h
        · exact .inl List.mem_cons_self
        · have hchild : childD ((key, g) :: rest) name = childD rest name := by
            simp only [childD, Table.get?, hk, if_false]
          rw [hchild]
          exact (ih h).imp_left (List.mem_cons_of_mem _)

theorem updateIn_ne_nil : updateIn name f children ≠ [] := by
  cases children with
  | nil => exact List.cons_ne_nil _ _
  | cons p rest =>
      obtain ⟨key, g⟩ := p
      rw [updateIn]
      split <;> exact List.cons_ne_nil _ _

end Children

section Update

variable (g : RuleGroup) (name : String) (f : RuleGroup → RuleGroup)

@[simp] theorem children_update : (g.update name f).children = updateIn name f g.children := by
  cases g; rfl

@[simp] theorem isObject_update : (g.update name f).isObject = g.isObject := by
  cases g; rfl

@[simp] theorem rules_update : (g.update name f).rules = g.rules := by
  cases g; rfl

@[simp] theorem children_setObject : g.setObject.children = g.children := by
  cases g; rfl

@[simp] theorem isObject_setObject : g.setObject.isObject = true := by
  cases g; rfl

@[simp] theorem rules_setObject : g.setObject.rules = g.rules := by
  cases g; rfl

@[simp] theorem children_setRules (value : RuleValue) :
    (g.setRules value).children = g.children := by
  cases g; rfl

@[simp] theorem isObject_setRules (value : RuleValue) :
    (g.setRules value).isObject = g.isObject := by
  cases g; rfl

@[simp] theorem rules_setRules (value : RuleValue) : (g.setRules value).rules = value := by
  cases g; rfl

end Update

mutual
/-- A group with a rule value placed at the names of a path below it. -/
def put (value : RuleValue) : List String → RuleGroup → RuleGroup
  | [], g => g.setRules value
  | name :: rest, g =>
    if name = wildcard then putItem value rest g else g.setObject.update name (put value rest)
/-- A group with a rule value placed below the items that it holds. -/
def putItem (value : RuleValue) : List String → RuleGroup → RuleGroup
  | [], g => g.update wildcard (setRules value)
  | name :: rest, g => g.update name (put value rest)
end

/-- Whether a group is an array. -/
def holdsItems (g : RuleGroup) : Bool := !g.isObject && !g.children.isEmpty

mutual
/-- The rule value at an address below a group, absent where the address is only on the way to
others. -/
def find : List String → RuleGroup → Option RuleValue
  | [], g => some g.rules
  | name :: rest, g =>
    if name = wildcard then if g.holdsItems then findItem rest g else none
    else if g.isObject then (Table.get? g.children name).bind (find rest) else none
/-- The rule value at an address below the items that a group holds. -/
def findItem : List String → RuleGroup → Option RuleValue
  | [], g => some (childD g.children wildcard).rules
  | name :: rest, g =>
    if name = wildcard then none else (Table.get? g.children name).bind (find rest)
end

/-- The rule value at an address whose first name names one of several groups. -/
def findAll (groups : List (String × RuleGroup)) : List String → Option RuleValue
  | [] => none
  | name :: rest => (Table.get? groups name).bind (find rest)

mutual
/-- A path does not use as an array what a group uses as an object, or the other way round. -/
def Fits : List String → RuleGroup → Prop
  | [], _ => True
  | name :: rest, g =>
    if name = wildcard then g.isObject = false ∧ FitsItem rest g
    else g.holdsItems = false ∧ Fits rest (childD g.children name)
/-- A path below the items of a group does not use one group both ways. -/
def FitsItem : List String → RuleGroup → Prop
  | [], _ => True
  | name :: rest, g => name ≠ wildcard ∧ Fits rest (childD g.children name)
end

/-- What is read at `q` after a value was placed at `p`, by what was read there before. -/
def overlay (value : RuleValue) (p q : List String) (before : Option RuleValue) :
    Option RuleValue :=
  if q = p then some value else if q <+: p then some (before.getD .absent) else before

section Overlay

variable {value : RuleValue} {p q : List String} {before : Option RuleValue} {name other : String}

theorem overlay_cons :
    overlay value (name :: p) (name :: q) before = overlay value p q before := by
  simp only [overlay, List.cons.injEq, true_and, List.cons_prefix_cons]

theorem overlay_cons_of_ne (h : other ≠ name) :
    overlay value (name :: p) (other :: q) before = before := by
  simp only [overlay, List.cons.injEq, h, false_and, if_false, List.cons_prefix_cons]

theorem overlay_cons_nil :
    overlay value (name :: p) [] before = some (before.getD .absent) := by
  rw [overlay, if_neg (List.cons_ne_nil _ _).symm, if_pos List.nil_prefix]

theorem overlay_nil_cons : overlay value [] (name :: q) before = before := by
  rw [overlay, if_neg (List.cons_ne_nil _ _),
    if_neg fun h => List.cons_ne_nil _ _ (List.prefix_nil.mp h)]

theorem overlay_nil_nil : overlay value [] [] before = some value := if_pos rfl

/-- An absent value at the root reads like no value once something is placed. -/
theorem overlay_congr {after : Option RuleValue} (h : before.getD .absent = after.getD .absent)
    (hcons : q ≠ [] → before = after) : overlay value p q before = overlay value p q after := by
  unfold overlay
  split
  · rfl
  · split
    · rw [h]
    · cases q with
      | nil => exact absurd List.nil_prefix ‹_›
      | cons name rest => exact hcons (List.cons_ne_nil _ _)

end Overlay

section Placement

variable {value : RuleValue}

theorem find_empty_cons (name : String) (rest : List String) :
    find (name :: rest) empty = none := by
  simp only [find, empty, holdsItems, children, isObject, List.isEmpty_nil, Bool.not_true,
    Bool.and_false, Bool.false_eq_true, if_false, ite_self]

/-- Reading below a child that is missing is reading below the empty group. -/
theorem overlay_find_childD {children : List (String × RuleGroup)} {name : String}
    {p q : List String} :
    overlay value p q (find q (childD children name)) =
      overlay value p q ((Table.get? children name).bind (find q)) := by
  cases h : Table.get? children name with
  | some g => rw [childD, h]; rfl
  | none =>
      rw [childD, h, Option.getD_none, Option.bind_none]
      cases q with
      | nil => exact overlay_congr rfl fun h => absurd rfl h
      | cons other rest => rw [find_empty_cons]

/-- Placing below one of several groups is read back as it is below that group. -/
theorem findAll_updateIn {children : List (String × RuleGroup)} {name : String}
    {rest : List String}
    (h : ∀ q, find q (put value rest (childD children name)) =
      overlay value rest q (find q (childD children name))) (other : String) (q : List String) :
    findAll (updateIn name (put value rest) children) (other :: q) =
      overlay value (name :: rest) (other :: q) (findAll children (other :: q)) := by
  rw [findAll, findAll, get?_updateIn]
  by_cases hn : other = name
  · subst hn
    rw [if_pos rfl, Option.bind_some, h, overlay_cons, overlay_find_childD]
  · rw [if_neg hn, overlay_cons_of_ne hn]

theorem find_wildcard (rest : List String) (g : RuleGroup) :
    find (wildcard :: rest) g = if g.holdsItems then findItem rest g else none := by
  rw [find, if_pos rfl]

theorem find_name {name : String} (hn : name ≠ wildcard) (rest : List String) (g : RuleGroup) :
    find (name :: rest) g = if g.isObject then findAll g.children (name :: rest) else none := by
  rw [find, if_neg hn, findAll]

theorem findItem_wildcard (rest : List String) (g : RuleGroup) :
    findItem (wildcard :: rest) g = none := by
  rw [findItem, if_pos rfl]

theorem findItem_name {name : String} (hn : name ≠ wildcard) (rest : List String)
    (g : RuleGroup) : findItem (name :: rest) g = findAll g.children (name :: rest) := by
  rw [findItem, if_neg hn, findAll]

theorem holdsItems_eq_true {g : RuleGroup} (hobject : g.isObject = false)
    (hne : g.children ≠ []) : g.holdsItems = true := by
  rw [holdsItems, hobject, List.isEmpty_eq_false_iff.mpr hne]
  rfl

theorem children_eq_nil {g : RuleGroup} (hobject : g.isObject = false)
    (hitems : g.holdsItems = false) : g.children = [] := by
  cases hchildren : g.children with
  | nil => rfl
  | cons p rest =>
      have hne : g.children ≠ [] := hchildren ▸ List.cons_ne_nil _ _
      rw [holdsItems_eq_true hobject hne] at hitems
      cases hitems

/-- A group that is no object has items at the addresses where reading its items finds a value. -/
theorem ite_findItem_cons {g : RuleGroup} (hobject : g.isObject = false) (name : String)
    (rest : List String) :
    (if g.holdsItems then findItem (name :: rest) g else none) = findItem (name :: rest) g := by
  cases hitems : g.holdsItems with
  | true => rfl
  | false =>
      have hnil := children_eq_nil hobject hitems
      by_cases hn : name = wildcard
      · subst hn
        rw [findItem_wildcard]
        rfl
      · rw [findItem_name hn, hnil]
        rfl

@[simp] theorem isObject_putItem (p : List String) (g : RuleGroup) :
    (putItem value p g).isObject = g.isObject := by
  cases p <;> rw [putItem, isObject_update]

@[simp] theorem rules_putItem (p : List String) (g : RuleGroup) :
    (putItem value p g).rules = g.rules := by
  cases p <;> rw [putItem, rules_update]

theorem children_putItem_ne_nil (p : List String) (g : RuleGroup) :
    (putItem value p g).children ≠ [] := by
  cases p <;> rw [putItem, children_update] <;> exact updateIn_ne_nil

theorem findItem_setRules (q : List String) (g : RuleGroup) :
    findItem q (g.setRules value) = findItem q g := by
  cases q <;> simp only [findItem, children_setRules]

/-- Placing a value at a path that fits changes what is read at the path and on the way to it. -/
theorem find_put (p : List String) :
    (∀ g, Fits p g → ∀ q, find q (put value p g) = overlay value p q (find q g)) ∧
      ∀ g, g.isObject = false → FitsItem p g → ∀ q, findItem q (putItem value p g) =
        overlay value p q (if g.holdsItems then findItem q g else none) := by
  induction p with
  | nil =>
      refine ⟨fun g _ q => ?_, fun g hobject _ q => ?_⟩
      · cases q with
        | nil => rw [put, find, rules_setRules, overlay_nil_nil]
        | cons name rest =>
            rw [overlay_nil_cons, put]
            simp only [find, findItem_setRules, holdsItems, children_setRules, isObject_setRules]
            rfl
      · cases q with
        | nil =>
            rw [overlay_nil_nil, putItem, findItem, childD, children_update, get?_updateIn,
              if_pos rfl, Option.getD_some, rules_setRules]
        | cons name rest =>
            rw [overlay_nil_cons, ite_findItem_cons hobject, putItem]
            by_cases hn : name = wildcard
            · subst hn
              rw [findItem_wildcard, findItem_wildcard]
            · rw [findItem_name hn, findItem_name hn, findAll, findAll, children_update,
                get?_updateIn, if_neg hn]
  | cons name rest ih =>
      refine ⟨fun g hfits q => ?_, fun g hobject hfits q => ?_⟩
      · by_cases hname : name = wildcard
        · subst hname
          rw [Fits, if_pos rfl] at hfits
          rw [put, if_pos rfl]
          cases q with
          | nil => rw [find, find, rules_putItem, overlay_cons_nil, Option.getD_some]
          | cons other more =>
              by_cases hother : other = wildcard
              · subst hother
                have hitems : (putItem value rest g).holdsItems = true :=
                  holdsItems_eq_true ((isObject_putItem _ _).trans hfits.1)
                    (children_putItem_ne_nil _ _)
                rw [find_wildcard, find_wildcard, hitems, if_pos rfl, overlay_cons,
                  ih.2 g hfits.1 hfits.2]
              · rw [find_name hother, find_name hother, isObject_putItem, hfits.1,
                  overlay_cons_of_ne hother]
                rfl
        · rw [Fits, if_neg hname] at hfits
          rw [put, if_neg hname]
          cases q with
          | nil =>
              rw [find, find, rules_update, rules_setObject, overlay_cons_nil, Option.getD_some]
          | cons other more =>
              by_cases hother : other = wildcard
              · subst hother
                rw [find_wildcard, find_wildcard, hfits.1, overlay_cons_of_ne (Ne.symm hname),
                  holdsItems, isObject_update, isObject_setObject]
                rfl
              · rw [find_name hother, find_name hother, isObject_update, isObject_setObject,
                  if_pos rfl, children_update, children_setObject,
                  findAll_updateIn (ih.1 _ hfits.2)]
                cases hobject : g.isObject with
                | true => rfl
                | false => rw [children_eq_nil hobject hfits.1]; rfl
      · obtain ⟨hname, hfits⟩ := hfits
        rw [putItem]
        cases q with
        | nil =>
            rw [overlay_cons_nil, findItem, childD, children_update, get?_updateIn,
              if_neg (Ne.symm hname)]
            cases hitems : g.holdsItems with
            | true => rfl
            | false => rw [children_eq_nil hobject hitems]; rfl
        | cons other more =>
            rw [ite_findItem_cons hobject]
            by_cases hother : other = wildcard
            · subst hother
              rw [findItem_wildcard, findItem_wildcard, overlay_cons_of_ne (Ne.symm hname)]
            · rw [findItem_name hother, findItem_name hother, children_update,
                findAll_updateIn (ih.1 _ hfits)]

end Placement

section Shape

variable {value : RuleValue} {children : List (String × RuleGroup)} {name : String}

/-- A group whose children have distinct names without dots. An object has children and no star
among them, and a star has no children. -/
inductive Shaped : RuleGroup → Prop
  | node {g} (hkeys : (g.children.map Prod.fst).Nodup) (hnames : ∀ p ∈ g.children, IsName p.1)
      (hobject : g.isObject = true → g.children ≠ [] ∧ ∀ p ∈ g.children, p.1 ≠ wildcard)
      (hstar : ∀ p ∈ g.children, p.1 = wildcard → p.2.children = [])
      (hall : ∀ p ∈ g.children, Shaped p.2) : Shaped g

theorem shaped_empty : Shaped empty :=
  .node .nil (fun _ h => by cases h) (fun h => by cases h) (fun _ h => by cases h)
    fun _ h => by cases h

theorem mem_childD (h : childD children name ≠ empty) :
    (name, childD children name) ∈ children := by
  unfold childD at h ⊢
  cases hget : Table.get? children name with
  | none => rw [hget] at h; exact absurd rfl h
  | some g => exact Table.mem_of_get?_eq_some hget

theorem shaped_childD (h : ∀ p ∈ children, Shaped p.2) : Shaped (childD children name) := by
  by_cases hempty : childD children name = empty
  · rw [hempty]
    exact shaped_empty
  · exact h _ (mem_childD hempty)

/-- A shaped group stays shaped when a child is replaced by a shaped one that suits its name. -/
theorem shaped_update {g : RuleGroup} {f : RuleGroup → RuleGroup}
    (hkeys : (g.children.map Prod.fst).Nodup) (hnames : ∀ p ∈ g.children, IsName p.1)
    (hobject : g.isObject = true → name ≠ wildcard ∧ ∀ p ∈ g.children, p.1 ≠ wildcard)
    (hstar : ∀ p ∈ g.children, p.1 = wildcard → p.2.children = [])
    (hall : ∀ p ∈ g.children, Shaped p.2) (hname : IsName name)
    (hfstar : name = wildcard → (f (childD g.children name)).children = [])
    (hf : Shaped (f (childD g.children name))) : Shaped (g.update name f) := by
  refine .node ?_ ?_ ?_ ?_ ?_
  · rw [children_update]
    exact nodup_keys_updateIn hkeys
  · intro p hp
    rw [children_update] at hp
    rcases mem_updateIn hp with hp | rfl
    · exact hnames p hp
    · exact hname
  · intro ho
    rw [isObject_update] at ho
    rw [children_update]
    refine ⟨updateIn_ne_nil, fun p hp => ?_⟩
    rcases mem_updateIn hp with hp | rfl
    · exact (hobject ho).2 p hp
    · exact (hobject ho).1
  · intro p hp
    rw [children_update] at hp
    rcases mem_updateIn hp with hp | rfl
    · exact hstar p hp
    · exact hfstar
  · intro p hp
    rw [children_update] at hp
    rcases mem_updateIn hp with hp | rfl
    · exact hall p hp
    · exact hf

theorem shaped_setRules {g : RuleGroup} (h : Shaped g) : Shaped (g.setRules value) := by
  obtain ⟨hkeys, hnames, hobject, hstar, hall⟩ := h
  exact .node (by rwa [children_setRules]) (by rwa [children_setRules])
    (by rwa [children_setRules, isObject_setRules]) (by rwa [children_setRules])
    (by rwa [children_setRules])

/-- Placing a value at a path that fits keeps a group shaped. -/
theorem shaped_put (p : List String) (hp : IsAddress p) :
    (∀ g, Shaped g → Fits p g → Shaped (put value p g)) ∧
      ∀ g, Shaped g → g.isObject = false → FitsItem p g → Shaped (putItem value p g) := by
  induction p with
  | nil =>
      refine ⟨fun g hg _ => shaped_setRules hg, fun g hg hobject _ => ?_⟩
      obtain ⟨hkeys, hnames, -, hstar, hall⟩ := hg
      have hleaf : (childD g.children wildcard).children = [] := by
        by_cases hempty : childD g.children wildcard = empty
        · rw [hempty]; rfl
        · exact hstar _ (mem_childD hempty) rfl
      refine shaped_update hkeys hnames (fun h => ?_) hstar hall isName_wildcard (fun _ => ?_)
        (shaped_setRules (shaped_childD hall))
      · rw [hobject] at h
        cases h
      · rw [children_setRules, hleaf]
  | cons name rest ih =>
      have ih := ih fun n hn => hp n (List.mem_cons_of_mem _ hn)
      have hisname := hp name List.mem_cons_self
      refine ⟨fun g hg hfits => ?_, fun g hg hobject hfits => ?_⟩
      · by_cases hname : name = wildcard
        · rw [Fits, if_pos hname] at hfits
          rw [put, if_pos hname]
          exact ih.2 g hg hfits.1 hfits.2
        · rw [Fits, if_neg hname] at hfits
          rw [put, if_neg hname]
          obtain ⟨hkeys, hnames, hobject, hstar, hall⟩ := hg
          have hnostar : ∀ p ∈ g.children, p.1 ≠ wildcard := by
            cases ho : g.isObject with
            | true => exact (hobject ho).2
            | false =>
                rw [children_eq_nil ho hfits.1]
                intro p hp
                cases hp
          have hchild := ih.1 (childD g.children name) (shaped_childD hall) hfits.2
          rw [← children_setObject g] at hkeys hnames hnostar hstar hall hchild
          exact shaped_update hkeys hnames (fun _ => ⟨hname, hnostar⟩) hstar hall hisname
            (fun h => absurd h hname) hchild
      · obtain ⟨hname, hfits⟩ := hfits
        obtain ⟨hkeys, hnames, -, hstar, hall⟩ := hg
        rw [putItem]
        refine shaped_update hkeys hnames (fun h => ?_) hstar hall hisname
          (fun h => absurd h hname) (ih.1 _ (shaped_childD hall) hfits)
        rw [hobject] at h
        cases h

/-- No two names that follow each other are stars. -/
def Apart (p : List String) : Prop := p.IsChain fun a b => ¬ (a = wildcard ∧ b = wildcard)

/-- Where a path goes on with a star nothing is read under a name, and the other way round. -/
def Unmixed (p : List String) (read : List String → Option RuleValue) : Prop :=
  ∀ q name, name ≠ wildcard →
    (q ++ [wildcard] <+: p → read (q ++ [name]) = none) ∧
      (q ++ [name] <+: p → read (q ++ [wildcard]) = none)

theorem Unmixed.tail {p : List String} {read : List String → Option RuleValue}
    (h : Unmixed (name :: p) read) : Unmixed p fun q => read (name :: q) := by
  intro q other hother
  obtain ⟨hstar, hname⟩ := h (name :: q) other hother
  refine ⟨fun hq => hstar ?_, fun hq => hname ?_⟩
  · exact List.cons_prefix_cons.mpr ⟨rfl, hq⟩
  · exact List.cons_prefix_cons.mpr ⟨rfl, hq⟩

theorem Unmixed.imp {p : List String} {read read' : List String → Option RuleValue}
    (h : Unmixed p read) (hread : ∀ q, q ≠ [] → read q = none → read' q = none) :
    Unmixed p read' := by
  intro q other hother
  obtain ⟨hstar, hname⟩ := h q other hother
  exact ⟨fun hq => hread _ (by simp) (hstar hq), fun hq => hread _ (by simp) (hname hq)⟩

theorem find_childD_eq_none {q : List String} (hq : q ≠ [])
    (h : findAll children (name :: q) = none) : find q (childD children name) = none := by
  rw [findAll] at h
  cases hget : Table.get? children name with
  | some g =>
      rw [hget, Option.bind_some] at h
      rw [childD, hget, Option.getD_some, h]
  | none =>
      obtain ⟨first, more, rfl⟩ := List.exists_cons_of_ne_nil hq
      rw [childD, hget, Option.getD_none, find_empty_cons]

theorem Apart.tail {p : List String} (h : Apart (name :: p)) : Apart p :=
  List.IsChain.tail h

/-- A path that nothing read in a shaped group speaks against fits. -/
theorem fits_of_unmixed (p : List String) (hp : Apart p) :
    (∀ g, Shaped g → Unmixed p (fun q => find q g) → Fits p g) ∧
      ∀ g, Shaped g → g.isObject = false → Apart (wildcard :: p) →
        Unmixed (wildcard :: p) (fun q => find q g) → FitsItem p g := by
  induction p with
  | nil => exact ⟨fun _ _ _ => trivial, fun _ _ _ _ _ => trivial⟩
  | cons name rest ih =>
      have ih := ih hp.tail
      refine ⟨fun g hg h => ?_, fun g hg hobject hapart h => ?_⟩
      · by_cases hname : name = wildcard
        · subst hname
          have hobject : g.isObject = false := by
            -- an object would have a child under a name, which could be read
            apply Bool.eq_false_iff.mpr
            intro ho
            obtain ⟨hkeys, -, hobject, -, -⟩ := hg
            obtain ⟨hne, hnostar⟩ := hobject ho
            obtain ⟨⟨other, child⟩, more, hchildren⟩ := List.exists_cons_of_ne_nil hne
            have hmem : (other, child) ∈ g.children := by
              rw [hchildren]
              exact List.mem_cons_self
            have hother := hnostar _ hmem
            have hnone := (h [] other hother).1 ⟨rest, rfl⟩
            have hget := Table.get?_eq_some_of_mem hkeys hmem
            simp only [List.nil_append, find_name hother, ho, if_true, findAll, hget,
              Option.bind_some, find] at hnone
            cases hnone
          rw [Fits, if_pos rfl]
          exact ⟨hobject, ih.2 g hg hobject hp h⟩
        · have hitems : g.holdsItems = false := by
            apply Bool.eq_false_iff.mpr
            intro hitems
            have hnone := (h [] name hname).2 ⟨rest, rfl⟩
            simp only [List.nil_append, find_wildcard, hitems, if_true, findItem] at hnone
            cases hnone
          rw [Fits, if_neg hname]
          obtain ⟨-, -, -, -, hall⟩ := hg
          refine ⟨hitems, ih.1 _ (shaped_childD hall) (h.tail.imp fun q hq hnone => ?_)⟩
          refine find_childD_eq_none hq ?_
          rw [find_name hname] at hnone
          cases ho : g.isObject with
          | true => rwa [ho, if_pos rfl] at hnone
          | false => rw [children_eq_nil ho hitems]; rfl
      · obtain ⟨-, -, -, -, hall⟩ := hg
        have hname : name ≠ wildcard := by
          intro hn
          exact (List.isChain_cons_cons.mp hapart).1 ⟨rfl, hn⟩
        refine ⟨hname, ih.1 _ (shaped_childD hall) (h.tail.tail.imp fun q hq hnone => ?_)⟩
        refine find_childD_eq_none hq ?_
        rwa [find_wildcard, ite_findItem_cons hobject, findItem_name hname] at hnone

end Shape

end RuleGroup

end RuleSchema
