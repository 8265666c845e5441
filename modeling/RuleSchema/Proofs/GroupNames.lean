import RuleSchema.Proofs.GroupGrowth
import RuleSchema.Proofs.SpelledRoutes

/-!
# Names of groups

What grouping adds to the names of groups is known exactly: the steps on the route of an ordinary
key, and the names that a marker entry goes along, its property included. So a marker is kept out of
the groups if and only if no marker entry has a further marker among these names. The one entry that
grouping cannot apply names a property without an object.
-/

namespace RuleSchema

open DottedPath

namespace RuleGroup

mutual
/-- The names of all groups below a group. -/
def labels : RuleGroup → List String
  | .node _ children _ _ => labelsOfAll children
/-- The names of groups and of all groups below them. -/
def labelsOfAll : List (String × RuleGroup) → List String
  | [] => []
  | (name, g) :: rest => name :: (labels g ++ labelsOfAll rest)
end

/-- A change of a group adds just these names to the names below it. -/
def Adds (added : List String) (f : RuleGroup → RuleGroup) : Prop :=
  ∀ g name, name ∈ labels (f g) ↔ name ∈ labels g ∨ name ∈ added

section Adds

variable {added further : List String} {f f' : RuleGroup → RuleGroup} {name : String}

theorem labels_eq (g : RuleGroup) : labels g = labelsOfAll g.children := by
  cases g
  rw [labels]
  rfl

theorem mem_labelsOfAll {groups : List (String × RuleGroup)} :
    name ∈ labelsOfAll groups ↔ ∃ p ∈ groups, name = p.1 ∨ name ∈ labels p.2 := by
  induction groups with
  | nil => simp only [labelsOfAll, List.not_mem_nil, false_and, exists_false]
  | cons p rest ih =>
      simp only [labelsOfAll, List.mem_cons, List.mem_append, ih, exists_eq_or_imp, or_assoc]

theorem adds_of_children (h : ∀ g, (f g).children = g.children) : Adds [] f := by
  intro g name
  rw [labels_eq, labels_eq, h]
  simp

theorem Adds.comp (hf : Adds added f) (hf' : Adds further f') :
    Adds (added ++ further) fun g => f' (f g) := by
  intro g name
  rw [hf', hf, List.mem_append, or_assoc]

/-- A changed child adds its name and what the change adds, also where it is made anew. -/
theorem Adds.update (hf : Adds added f) (key : String) : Adds (key :: added) (update key f) := by
  intro g name
  rw [labels_eq, labels_eq, children_update, List.mem_cons]
  induction g.children with
  | nil =>
      have hnew := hf empty name
      simp only [updateIn, labelsOfAll, List.mem_cons, List.mem_append, hnew]
      simp [empty, labels, labelsOfAll]
  | cons p rest ih =>
      obtain ⟨first, child⟩ := p
      rw [updateIn]
      split
      · rename_i hfirst
        subst hfirst
        simp only [labelsOfAll, List.mem_cons, List.mem_append, hf child name]
        grind
      · simp only [labelsOfAll, List.mem_cons, List.mem_append, ih]
        grind

theorem Adds.walk (hf : Adds added f) (route : List Step) :
    Adds (route.map Step.name ++ added) (walk f route) := by
  induction route with
  | nil => exact hf
  | cons s rest ih =>
      have htake : Adds [] s.take := adds_of_children (children_take s)
      exact (htake.comp ih).update s.name

theorem wildcard_mem_labels {g : RuleGroup} (h : g.isArray = true) : wildcard ∈ labels g := by
  obtain ⟨child, hchild⟩ := Option.isSome_iff_exists.mp h
  rw [labels_eq, mem_labelsOfAll]
  exact ⟨_, Table.mem_of_get?_eq_some hchild, .inl rfl⟩

/-- The way to a group adds its names except stars: these are passed over or there already. -/
theorem Adds.ensure (hf : Adds added f) (path : List String) :
    Adds (path.filter (· ≠ wildcard) ++ added) (Grouping.ensure f path) := by
  induction path with
  | nil => exact hf
  | cons key rest ih =>
      by_cases hkey : key = wildcard
      · subst hkey
        rw [List.filter_cons_of_neg (by simp)]
        intro g name
        rw [Grouping.ensure]
        split
        · exact ih g name
        · rename_i hstar
          have harray : g.isArray = true := by simpa using hstar
          have hthere : name = wildcard → name ∈ labels g :=
            fun h => h ▸ wildcard_mem_labels harray
          rw [ih.update wildcard g name, List.mem_cons]
          grind
      · have hensure : Grouping.ensure f (key :: rest) =
            RuleGroup.update key (Grouping.ensure f rest) := by
          funext g
          rw [Grouping.ensure, beq_false_of_ne hkey]
          rfl
        rw [hensure, List.filter_cons_of_pos (by simpa using hkey)]
        exact ih.update key

theorem adds_describe (marker : String) (value : RuleValue) :
    Adds [] (Marker.describe marker value) := by
  refine adds_of_children fun g => ?_
  rw [Marker.describe]
  split
  · rw [children_setClass, children_setObject]
  · split
    · rw [children_setRules, children_setObject]
    · rw [children_setObject]

theorem adds_override (property : String) (value : RuleValue) :
    Adds [property] (Marker.override property value) := by
  have hobject : Adds [] setObject := adds_of_children children_setObject
  have hrules : Adds [] (setRules value) := adds_of_children fun g => children_setRules g value
  exact hobject.comp (hrules.update property)

end Adds

end RuleGroup

namespace Marker

open RuleGroup

/-- The names that a marker entry adds to those of the groups. -/
def Reading.labels : Reading → List String
  | object path _ => path.filter (· ≠ wildcard)
  | property path name => path.filter (· ≠ wildcard) ++ [name]
  | headless => []
  | nothing => []

/-- A marker entry that can be applied without a marker among the names that it goes along. -/
def Reading.IsSound : Reading → Prop
  | object path _ => ∀ name ∈ path, name ∉ all
  | property path name => (∀ n ∈ path, n ∉ all) ∧ isMarked name = false
  | headless => False
  | nothing => True

section Sound

theorem isMarked_eq (key : String) : isMarked key = (names key).any all.contains := rfl

theorem isMarked_ofNames {path : List String} (h : IsAddress path) (hne : path ≠ []) :
    isMarked (ofNames path) = path.any all.contains := by
  rw [isMarked_eq, names_ofNames hne h]

theorem isMarked_eq_false_iff {name : String} (h : IsName name) :
    isMarked name = false ↔ name ∉ all := by
  have hsingle : isMarked (ofNames [name]) = [name].any all.contains :=
    isMarked_ofNames (isAddress_singleton h) (List.cons_ne_nil _ _)
  rw [show name = ofNames [name] from rfl, hsingle]
  simp [ofNames, Text.join]

/-- An entry is sound if and only if it can be applied and adds no name with a marker. -/
theorem isSound_iff (key : String) : (read (names key)).IsSound ↔
    read (names key) ≠ .headless ∧ ∀ name ∈ (read (names key)).labels, isMarked name = false := by
  have hpath : ∀ path : List String, path ⊆ names key →
      ((∀ n ∈ path, n ∉ all) ↔ ∀ n ∈ path.filter (· ≠ wildcard), isMarked n = false) := by
    intro path hsub
    have hname : ∀ n ∈ path, (isMarked n = false ↔ n ∉ all) := fun n hn =>
      isMarked_eq_false_iff (isName_of_mem_names (hsub hn))
    have hstar : wildcard ∉ all := by decide
    constructor
    · intro h n hn
      have hmem := (List.mem_filter.mp hn).1
      exact (hname n hmem).mpr (h n hmem)
    · intro h n hn
      by_cases hn' : n = wildcard
      · rw [hn']
        exact hstar
      · exact (hname n hn).mp (h n (List.mem_filter.mpr ⟨hn, by simpa using hn'⟩))
  rcases read_cases (names key) with
    ⟨path, marker, hread, hkey, -⟩ | ⟨path, after, hread, hkey, -⟩ | ⟨after, hread, -, -⟩ | hread
  · have hsub : path ⊆ names key := hkey ▸ List.subset_append_left path _
    rw [hread]
    simp [Reading.IsSound, Reading.labels, hpath path hsub]
  · have hsub : path ⊆ names key := hkey ▸ List.subset_append_left path _
    rw [hread]
    simp [Reading.IsSound, Reading.labels, hpath path hsub, or_imp, forall_and]
  · rw [hread]
    simp [Reading.IsSound]
  · rw [hread]
    simp [Reading.IsSound, Reading.labels]

/-- Two cuts of one list are made at the same place, or each cuts out a name on the other's side. -/
theorem cut_cases {before after before' after' : List String} {name name' : String}
    (h : before ++ name :: after = before' ++ name' :: after') :
    (before = before' ∧ name = name' ∧ after = after') ∨
      (name ∈ before' ∧ name' ∈ after) ∨ (name' ∈ before ∧ name ∈ after') := by
  rcases List.append_eq_append_iff.mp h with ⟨more, rfl, hmore⟩ | ⟨more, rfl, hmore⟩
  · cases more with
    | nil =>
        obtain ⟨hname, hafter⟩ := List.cons.inj hmore
        exact .inl ⟨(List.append_nil _).symm, hname, hafter⟩
    | cons first more =>
        obtain ⟨rfl, rfl⟩ := List.cons.inj hmore
        exact .inr (.inl ⟨by simp, by simp⟩)
  · cases more with
    | nil =>
        obtain ⟨hname, hafter⟩ := List.cons.inj hmore
        exact .inl ⟨List.append_nil _, hname.symm, hafter.symm⟩
    | cons first more =>
        obtain ⟨rfl, rfl⟩ := List.cons.inj hmore
        exact .inr (.inr ⟨by simp, by simp⟩)

end Sound

end Marker

namespace Grouping

open RuleGroup

section Places

variable {isObject : String → Bool}

/-- A step of a stretch goes by a name of it or by several of its names. -/
theorem mem_steps {stretch : List String} {above name : String}
    (h : name ∈ (steps isObject above stretch).map Step.name) :
    ∃ path, path ≠ [] ∧ path ⊆ stretch ∧ name = ofNames path := by
  induction stretch generalizing above with
  | nil => cases h
  | cons first rest ih =>
      cases rest with
      | nil =>
          rw [steps, List.map_singleton, List.mem_singleton] at h
          exact ⟨[first], List.cons_ne_nil _ _, List.Subset.refl _, h⟩
      | cons next more =>
          rw [steps] at h
          split at h
          · rw [List.map_cons, List.mem_cons] at h
            rcases h with hname | h
            · exact ⟨[first], List.cons_ne_nil _ _, by simp, hname⟩
            · obtain ⟨path, hne, hsub, hname⟩ := ih h
              exact ⟨path, hne, List.subset_cons_of_subset _ hsub, hname⟩
          · exact ⟨_, List.cons_ne_nil _ _, List.Subset.refl _, List.mem_singleton.mp h⟩

/-- A step of a route is a star or goes by names of one stretch. -/
theorem mem_route {paths : List (List String)} {above name : String}
    (h : name ∈ (route isObject above paths).map Step.name) :
    name = wildcard ∨
      ∃ path, path ≠ [] ∧ (∃ stretch ∈ paths, path ⊆ stretch) ∧ name = ofNames path := by
  induction paths generalizing above with
  | nil => cases h
  | cons stretch rest ih =>
      rw [route, List.map_append, List.mem_append] at h
      rcases h with h | h
      · obtain ⟨path, hne, hsub, hname⟩ := mem_steps h
        exact .inr ⟨path, hne, ⟨stretch, List.mem_cons_self, hsub⟩, hname⟩
      · split at h
        · exact .inl (List.mem_singleton.mp h)
        · rcases ih h with hstar | ⟨path, hne, ⟨other, hother, hsub⟩, hname⟩
          · exact .inl hstar
          · exact .inr ⟨path, hne, ⟨other, List.mem_cons_of_mem _ hother, hsub⟩, hname⟩

/-- The place of an ordinary key has no marker in its names. -/
theorem isMarked_of_mem_place {key name : String} (hkey : Marker.isMarked key = false)
    (h : name ∈ place isObject key) : Marker.isMarked name = false := by
  rcases mem_route h with rfl | ⟨path, hne, ⟨stretch, hstretch, hsub⟩, rfl⟩
  · decide
  · have hpath : path ⊆ names key := List.Subset.trans hsub (subset_of_mem_stretches hstretch)
    have haddress : IsAddress path := fun n hn => isName_of_mem_names (hpath hn)
    rw [Marker.isMarked_eq, List.any_eq_false] at hkey
    rw [Marker.isMarked_ofNames haddress hne, List.any_eq_false]
    exact fun n hn => hkey n (hpath hn)

end Places

section Ledger

variable {rules entries : Table RuleValue} {metadata : Table FieldMetadata} {g : RuleGroup}

theorem mem_labels_foldl_insert (context : Context) (entries : Table RuleValue) (g : RuleGroup)
    (name : String) :
    name ∈ labels (entries.foldl (fun g e => insert context e.1 e.2 g) g) ↔
      name ∈ labels g ∨ ∃ e ∈ entries, name ∈ place context.isNestedObject e.1 := by
  induction entries generalizing g with
  | nil => simp
  | cons e rest ih =>
      have hrules : Adds [] (setRules e.2) := adds_of_children fun g => children_setRules g e.2
      have hwalk := hrules.walk (routeOf context.isNestedObject e.1) g name
      rw [List.append_nil] at hwalk
      rw [List.foldl_cons, ih, insert_eq_walk, hwalk, or_assoc, List.exists_mem_cons_iff]
      rfl

/-- One marker entry is applied and adds its names, or it names no object. -/
theorem applyMarker_cases (g : RuleGroup) (key : String) (value : RuleValue) :
    (applyMarker g key value = .error (.invalidValue none) ∧
      Marker.read (names key) = .headless) ∨
    ∃ g', applyMarker g key value = .ok g' ∧ Marker.read (names key) ≠ .headless ∧
      ∀ name, name ∈ labels g' ↔ name ∈ labels g ∨ name ∈ (Marker.read (names key)).labels := by
  rw [Marker.applyMarker_eq]
  cases Marker.read (names key) with
  | object path marker =>
      refine .inr ⟨_, rfl, by simp, fun name => ?_⟩
      have hadds := (adds_describe marker value).ensure path g name
      rwa [List.append_nil] at hadds
  | property path property =>
      exact .inr ⟨_, rfl, by simp, fun name => (adds_override property value).ensure path g name⟩
  | headless => exact .inl ⟨rfl, rfl⟩
  | nothing => exact .inr ⟨_, rfl, by simp, fun name => by simp [Marker.Reading.labels]⟩

/-- All marker entries are applied and add their names, or one of them names no object. -/
theorem marked_cases (entries : Table RuleValue) (g : RuleGroup) :
    (marked entries g = .error (.invalidValue none) ∧
      ∃ e ∈ entries, Marker.read (names e.1) = .headless) ∨
    ∃ g', marked entries g = .ok g' ∧ (∀ e ∈ entries, Marker.read (names e.1) ≠ .headless) ∧
      ∀ name, name ∈ labels g' ↔
        name ∈ labels g ∨ ∃ e ∈ entries, name ∈ (Marker.read (names e.1)).labels := by
  induction entries generalizing g with
  | nil => exact .inr ⟨g, rfl, by simp, by simp⟩
  | cons e rest ih =>
      rw [marked_cons]
      rcases applyMarker_cases g e.1 e.2 with ⟨herror, hhead⟩ | ⟨next, hnext, hread, hlabels⟩
      · rw [herror]
        exact .inl ⟨rfl, e, List.mem_cons_self, hhead⟩
      · rw [hnext]
        rcases ih next with ⟨herror, e', he', hhead⟩ | ⟨g', hg', hreads, hall⟩
        · exact .inl ⟨herror, e', List.mem_cons_of_mem _ he', hhead⟩
        · refine .inr ⟨g', hg', List.forall_mem_cons.mpr ⟨hread, hreads⟩, fun name => ?_⟩
          rw [hall, hlabels, or_assoc, List.exists_mem_cons_iff]

/-- The names of the groups of a rule map are those on the routes of its ordinary keys and those
that its marker entries add. Grouping fails only where a marker entry names no object. -/
theorem group_cases (rules : Table RuleValue) (metadata : Table FieldMetadata) :
    (group rules metadata = .error (.invalidValue none) ∧
      ∃ e ∈ rules, Marker.read (names e.1) = .headless) ∨
    ∃ groups, group rules metadata = .ok groups ∧
      (∀ e ∈ rules, Marker.read (names e.1) ≠ .headless) ∧
      ∀ name, name ∈ labelsOfAll groups ↔
        (∃ e ∈ rules, Marker.isMarked e.1 = false ∧
          name ∈ place (contextOf rules metadata).isNestedObject e.1) ∨
        ∃ e ∈ rules, name ∈ (Marker.read (names e.1)).labels := by
  rw [group_eq_marked]
  rcases marked_cases rules (inserted rules metadata) with ⟨herror, hhead⟩ | ⟨g, hg, hreads, hall⟩
  · rw [herror]
    exact .inl ⟨rfl, hhead⟩
  · rw [hg]
    refine .inr ⟨g.children, rfl, hreads, fun name => ?_⟩
    rw [← labels_eq, hall, inserted, mem_labels_foldl_insert]
    simp [empty, labels, labelsOfAll, List.mem_filter, and_assoc]

/-- Grouping succeeds and keeps all markers out of the names of groups if and only if every marker
entry is sound. It fails exactly where an entry names a property without an object. -/
theorem group_keeps_markers_out_iff (rules : Table RuleValue) (metadata : Table FieldMetadata) :
    ((∃ groups, group rules metadata = .ok groups ∧
        ∀ name ∈ labelsOfAll groups, Marker.isMarked name = false) ↔
      ∀ e ∈ rules, (Marker.read (names e.1)).IsSound) ∧
    (group rules metadata = .error (.invalidValue none) ↔
      ∃ e ∈ rules, Marker.read (names e.1) = .headless) := by
  rcases group_cases rules metadata with ⟨herror, e, he, hhead⟩ | ⟨groups, hok, hreads, hlabels⟩
  · refine ⟨iff_of_false ?_ ?_, iff_of_true herror ⟨e, he, hhead⟩⟩
    · rintro ⟨groups, hok, -⟩
      rw [herror] at hok
      cases hok
    · exact fun hsound => ((Marker.isSound_iff e.1).mp (hsound e he)).1 hhead
  · refine ⟨?_, iff_of_false ?_ ?_⟩
    · constructor
      · rintro ⟨other, hother, hclean⟩ e he
        rw [← Except.ok.inj (hok.symm.trans hother)] at hclean
        refine (Marker.isSound_iff e.1).mpr ⟨hreads e he, fun name hname => hclean name ?_⟩
        exact (hlabels name).mpr (.inr ⟨e, he, hname⟩)
      · intro hsound
        refine ⟨groups, hok, fun name hname => ?_⟩
        rcases (hlabels name).mp hname with ⟨e, -, hkey, hplace⟩ | ⟨e, he, hname⟩
        · exact isMarked_of_mem_place hkey hplace
        · exact ((Marker.isSound_iff e.1).mp (hsound e he)).2 name hname
    · rw [hok]
      exact fun h => by cases h
    · rintro ⟨e, he, hhead⟩
      exact hreads e he hhead

/-- A property without an object cannot be grouped, and an entry with two markers makes a group that
is named by one of them. -/
theorem group_fails_and_leaks :
    group [("__nested.city", .text "string")] [] = .error (.invalidValue none) ∧
    ∃ groups, group [("address.__nested.geo.__class", .text "Geo")] [] = .ok groups ∧
      ∃ name ∈ labelsOfAll groups, Marker.isMarked name = true := by
  constructor
  · rcases group_cases [("__nested.city", .text "string")] [] with ⟨herror, -⟩ | ⟨_, -, hreads, -⟩
    · exact herror
    · exact absurd (by decide +kernel) (hreads _ List.mem_cons_self)
  · rcases group_cases [("address.__nested.geo.__class", .text "Geo")] [] with
      ⟨-, e, he, hhead⟩ | ⟨groups, hok, -, hlabels⟩
    · rw [List.mem_singleton.mp he] at hhead
      exact absurd hhead (by decide +kernel)
    · refine ⟨groups, hok, Marker.nested, ?_, by decide⟩
      exact (hlabels _).mpr (.inr ⟨_, List.mem_cons_self, by decide +kernel⟩)

end Ledger

end Grouping

end RuleSchema
