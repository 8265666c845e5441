import RuleSchema.Proofs.GroupRoutes
import RuleSchema.Proofs.MarkerEntries
import RuleSchema.Proofs.ResolvedTrees

/-!
# Growth of groups

Grouping only ever adds to groups. An insertion or a marker entry is made of two sorts of steps: a
group changes itself, keeps its children and stays an object if it is one, or one child of it grows.
So a group that is there once stays at its address, an object stays an object, and the children of a
group keep distinct names.
-/

namespace RuleSchema

namespace RuleGroup

/-- A group becomes another by the steps of grouping. -/
inductive Grows : RuleGroup → RuleGroup → Prop
  | refl {g : RuleGroup} : Grows g g
  | own {g g' g'' : RuleGroup} (h : Grows g g') (hchildren : g''.children = g'.children)
      (hobject : g'.isObject = true → g''.isObject = true) : Grows g g''
  | child {g g' : RuleGroup} (h : Grows g g') (name : String) (f : RuleGroup → RuleGroup)
      (below : Grows (childD g'.children name) (f (childD g'.children name))) :
      Grows g (g'.update name f)

section Steps

variable (g : RuleGroup) (value : RuleValue) (name : String)

@[simp] theorem children_setClass : (g.setClass name).children = g.children := by
  cases g; rfl

@[simp] theorem isObject_setClass : (g.setClass name).isObject = g.isObject := by
  cases g; rfl

theorem grows_setRules : Grows g (g.setRules value) :=
  .own .refl (children_setRules g value) fun h => by rwa [isObject_setRules]

theorem grows_setObject : Grows g g.setObject :=
  .own .refl (children_setObject g) fun _ => isObject_setObject g

theorem grows_setClass : Grows g (g.setClass name) :=
  .own .refl (children_setClass g name) fun h => by rwa [isObject_setClass]

end Steps

section Grows

variable {g g' : RuleGroup} {f : RuleGroup → RuleGroup}

theorem Grows.trans {g'' : RuleGroup} (h : Grows g g') (h' : Grows g' g'') : Grows g g'' := by
  induction h' with
  | refl => exact h
  | own _ hchildren hobject ih => exact (ih h).own hchildren hobject
  | child _ name f below ih => exact (ih h).child name f below

/-- An object stays an object. -/
theorem Grows.isObject (h : Grows g g') (hobject : g.isObject = true) : g'.isObject = true := by
  induction h with
  | refl => exact hobject
  | own _ _ hstays ih => exact hstays (ih hobject)
  | child _ name f _ ih =>
      rw [isObject_update]
      exact ih hobject

/-- A group stays at its address and grows there. -/
theorem Grows.at? (h : Grows g g') : ∀ {q : List String} {found : RuleGroup},
    at? q g = some found → ∃ found', at? q g' = some found' ∧ Grows found found' := by
  induction h with
  | refl => exact fun hfound => ⟨_, hfound, .refl⟩
  | own _ hchildren hobject ih =>
      intro q found hfound
      obtain ⟨found', hat, hgrows⟩ := ih hfound
      cases q with
      | nil =>
          cases hat
          exact ⟨_, rfl, hgrows.own hchildren hobject⟩
      | cons name rest => exact ⟨found', by rwa [RuleGroup.at?, hchildren], hgrows⟩
  | @child _ g' _ key f below ih ihbelow =>
      intro q found hfound
      obtain ⟨found', hat, hgrows⟩ := ih hfound
      cases q with
      | nil =>
          cases hat
          exact ⟨_, rfl, hgrows.child key f below⟩
      | cons name rest =>
          rw [RuleGroup.at?] at hat
          rw [RuleGroup.at?, children_update, get?_updateIn]
          by_cases hname : name = key
          · subst hname
            have hchild : RuleGroup.at? rest (childD g'.children name) = some found' := by
              obtain ⟨child, hchild, hrest⟩ := Option.bind_eq_some_iff.mp hat
              rwa [childD, hchild]
            obtain ⟨last, hlast, hgrows'⟩ := ihbelow hchild
            exact ⟨last, by rw [if_pos rfl, Option.bind_some, hlast], hgrows.trans hgrows'⟩
          · exact ⟨found', by rw [if_neg hname, hat], hgrows⟩

theorem grows_walk (hf : ∀ g, Grows g (f g)) (route : List Step) :
    ∀ g, Grows g (walk f route g) := by
  induction route with
  | nil => exact hf
  | cons s rest ih =>
      intro g
      refine Grows.child .refl s.name _ ?_
      have htake : Grows (childD g.children s.name) (s.take (childD g.children s.name)) := by
        rw [Step.take]
        split
        · exact grows_setObject _
        · exact .refl
      exact htake.trans (ih _)

theorem grows_ensure (hf : ∀ g, Grows g (f g)) (path : List String) :
    ∀ g, Grows g (Grouping.ensure f path g) := by
  induction path with
  | nil => exact hf
  | cons name rest ih =>
      intro g
      rw [Grouping.ensure]
      split
      · exact ih g
      · exact Grows.child .refl name _ (ih _)

theorem grows_describe (marker : String) (value : RuleValue) (g : RuleGroup) :
    Grows g (Marker.describe marker value g) := by
  rw [Marker.describe]
  split
  · exact (grows_setObject g).trans (grows_setClass _ _)
  · split
    · exact (grows_setObject g).trans (grows_setRules _ _)
    · exact grows_setObject g

theorem grows_override (name : String) (value : RuleValue) (g : RuleGroup) :
    Grows g (Marker.override name value g) :=
  .child (grows_setObject g) name _ (grows_setRules _ value)

theorem grows_applyMarker {key : String} {value : RuleValue}
    (h : Grouping.applyMarker g key value = .ok g') : Grows g g' := by
  rw [Marker.applyMarker_eq] at h
  split at h
  · cases h
    exact grows_ensure (grows_describe _ value) _ g
  · cases h
    exact grows_ensure (grows_override _ value) _ g
  · cases h
  · cases h
    exact .refl

end Grows

/-- The children of a group have distinct names, and so have those of every group below it. -/
inductive Distinct : RuleGroup → Prop
  | node {g : RuleGroup} (keys : (Table.keys g.children).Nodup)
      (below : ∀ p ∈ g.children, Distinct p.2) : Distinct g

theorem distinct_empty : Distinct empty := .node .nil fun _ h => by cases h

theorem Distinct.childD {children : List (String × RuleGroup)} {name : String}
    (h : ∀ p ∈ children, Distinct p.2) : Distinct (childD children name) := by
  unfold RuleGroup.childD
  cases hget : Table.get? children name with
  | none => exact distinct_empty
  | some g => exact h _ (Table.mem_of_get?_eq_some hget)

/-- Children keep distinct names while a group grows. -/
theorem Grows.distinct {g g' : RuleGroup} (h : Grows g g') (hg : Distinct g) : Distinct g' := by
  induction h with
  | refl => exact hg
  | own _ hchildren _ ih =>
      obtain ⟨hkeys, hbelow⟩ := ih hg
      exact .node (by rwa [hchildren]) (by rwa [hchildren])
  | child _ name f _ ih ihbelow =>
      obtain ⟨hkeys, hbelow⟩ := ih hg
      refine .node ?_ fun p hp => ?_
      · rw [children_update]
        exact nodup_keys_updateIn hkeys
      · rw [children_update] at hp
        rcases mem_updateIn hp with hp | rfl
        · exact hbelow p hp
        · exact ihbelow (Distinct.childD hbelow)

end RuleGroup

namespace Grouping

open RuleGroup

/-- What grouping knows of the paths of a rule map and its metadata. -/
def contextOf (rules : Table RuleValue) (metadata : Table FieldMetadata) : Context :=
  ⟨metadata, nestedObjectPaths rules metadata⟩

/-- The group that all ordinary entries of a rule map are inserted into. -/
def inserted (rules : Table RuleValue) (metadata : Table FieldMetadata) : RuleGroup :=
  (rules.filter fun e => !Marker.isMarked e.1).foldl
    (fun g e => insert (contextOf rules metadata) e.1 e.2 g) empty

/-- A group with marker entries applied, one after the other. -/
def marked (entries : Table RuleValue) (g : RuleGroup) : Except Fault RuleGroup :=
  entries.foldlM (fun g e => applyMarker g e.1 e.2) g

section Group

variable {rules : Table RuleValue} {metadata : Table FieldMetadata} {g g' : RuleGroup}

/-- Grouping inserts the ordinary entries first and applies the marker entries then. -/
theorem group_eq_marked (rules : Table RuleValue) (metadata : Table FieldMetadata) :
    group rules metadata = (marked rules (inserted rules metadata)).map RuleGroup.children := by
  change (do let g ← marked rules (inserted rules metadata); return g.children) = _
  cases marked rules (inserted rules metadata) <;> rfl

theorem marked_append (earlier later : Table RuleValue) (g : RuleGroup) :
    marked (earlier ++ later) g = marked earlier g >>= marked later := by
  simp only [marked, List.foldlM_append]
  rfl

theorem marked_cons (e : String × RuleValue) (later : Table RuleValue) (g : RuleGroup) :
    marked (e :: later) g = applyMarker g e.1 e.2 >>= marked later := List.foldlM_cons

theorem grows_foldl_insert (context : Context) (entries : Table RuleValue) (g : RuleGroup) :
    Grows g (entries.foldl (fun g e => insert context e.1 e.2 g) g) := by
  induction entries generalizing g with
  | nil => exact .refl
  | cons e rest ih =>
      have hinsert : Grows g (insert context e.1 e.2 g) := by
        rw [insert_eq_walk]
        exact grows_walk (fun g => grows_setRules g _) _ g
      exact hinsert.trans (ih _)

theorem grows_inserted (rules : Table RuleValue) (metadata : Table FieldMetadata) :
    Grows empty (inserted rules metadata) := grows_foldl_insert _ _ _

theorem grows_marked {entries : Table RuleValue} (h : marked entries g = .ok g') :
    Grows g g' := by
  induction entries generalizing g with
  | nil =>
      cases h
      exact .refl
  | cons e rest ih =>
      rw [marked_cons] at h
      obtain ⟨next, hnext, hrest⟩ := exists_of_bind h
      exact (grows_applyMarker hnext).trans (ih hrest)

/-- The groups of a rule map have distinct names, and so have the groups below them. -/
theorem distinct_of_group {groups : List (String × RuleGroup)}
    (h : group rules metadata = .ok groups) :
    (Table.keys groups).Nodup ∧ ∀ p ∈ groups, Distinct p.2 := by
  rw [group_eq_marked] at h
  obtain ⟨g, hg, rfl⟩ := exists_of_map h
  obtain ⟨hkeys, hbelow⟩ :=
    ((grows_inserted rules metadata).trans (grows_marked hg)).distinct distinct_empty
  exact ⟨hkeys, hbelow⟩

end Group

end Grouping

end RuleSchema
