import RuleSchema.Proofs.GroupNames
import RuleSchema.Node.Declared

/-!
# Groups of marker entries

An ordinary entry and a marker entry go to the groups of a path in two ways. The route of an
ordinary key leaves stars out and makes a flat name where a path is no object. A marker entry goes
name by name and leaves a star out only as long as the group has no items of its own. Both name one
group exactly where neither a flat name nor an array with items of its own stands on the way.
-/

namespace RuleSchema

open DottedPath

namespace RuleGroup

/-- A group changed at an address below it. -/
def changeAt (f : RuleGroup → RuleGroup) : List String → RuleGroup → RuleGroup
  | [], g => f g
  | name :: rest, g => g.update name (changeAt f rest)

/-- The address that a path leads to when a star stays on a group without items of its own. -/
def landing : List String → RuleGroup → List String
  | [], _ => []
  | name :: rest, g =>
    if name == wildcard && !g.isArray then landing rest g
    else name :: landing rest (childD g.children name)

section Landing

variable {f f' : RuleGroup → RuleGroup} {path : List String} {name : String}

theorem updateIn_congr {children : List (String × RuleGroup)}
    (h : f (childD children name) = f' (childD children name)) :
    updateIn name f children = updateIn name f' children := by
  induction children with
  | nil => exact congrArg (fun g => [(name, g)]) h
  | cons p rest ih =>
      obtain ⟨key, g⟩ := p
      rw [updateIn, updateIn]
      by_cases hkey : key = name
      · rw [childD, Table.get?, if_pos hkey, Option.getD_some] at h
        rw [if_pos hkey, if_pos hkey, h]
      · rw [childD, Table.get?, if_neg hkey] at h
        rw [if_neg hkey, if_neg hkey, ih h]

theorem update_congr {g : RuleGroup}
    (h : f (childD g.children name) = f' (childD g.children name)) :
    g.update name f = g.update name f' := by
  cases g
  exact congrArg (fun children => node _ children _ _) (updateIn_congr h)

/-- The group at a path is changed at the address that the path leads to. -/
theorem ensure_eq_changeAt (f : RuleGroup → RuleGroup) (path : List String) (g : RuleGroup) :
    Grouping.ensure f path g = changeAt f (landing path g) g := by
  induction path generalizing g with
  | nil => rfl
  | cons name rest ih =>
      rw [Grouping.ensure, landing]
      split
      · exact ih g
      · exact update_congr (ih _)

theorem at?_changeAt (f : RuleGroup → RuleGroup) (a : List String) (g : RuleGroup) :
    ∃ before, at? a (changeAt f a g) = some (f before) := by
  induction a generalizing g with
  | nil => exact ⟨g, rfl⟩
  | cons name rest ih =>
      obtain ⟨before, hbefore⟩ := ih (childD g.children name)
      refine ⟨before, ?_⟩
      rw [changeAt, at?, children_update, get?_updateIn, if_pos rfl, Option.bind_some, hbefore]

theorem landing_subset (path : List String) (g : RuleGroup) : landing path g ⊆ path := by
  induction path generalizing g with
  | nil => exact List.Subset.refl _
  | cons name rest ih =>
      rw [landing]
      split
      · exact List.subset_cons_of_subset _ (ih g)
      · exact List.cons_subset_cons _ (ih _)

/-- Only stars are left out on the way to an address. -/
theorem filter_landing (path : List String) (g : RuleGroup) :
    (landing path g).filter (· ≠ wildcard) = path.filter (· ≠ wildcard) := by
  induction path generalizing g with
  | nil => rfl
  | cons name rest ih =>
      rw [landing]
      split
      · rename_i hstar
        have hname : name = wildcard := by
          rw [Bool.and_eq_true, beq_iff_eq] at hstar
          exact hstar.1
        rw [ih, List.filter_cons_of_neg (by simpa using hname)]
      · rw [List.filter_cons, List.filter_cons, ih]

/-- No group that a path has before a star has items of its own. -/
def PassesStars (path : List String) (g : RuleGroup) : Prop :=
  ∀ p, p ++ [wildcard] <+: path → ∀ found,
    at? (p.filter (· ≠ wildcard)) g = some found → found.isArray = false

theorem passesStars_star (rest : List String) (g : RuleGroup) :
    PassesStars (wildcard :: rest) g ↔ g.isArray = false ∧ PassesStars rest g := by
  have hcons : ∀ p, (wildcard :: p).filter (· ≠ wildcard) = p.filter (· ≠ wildcard) :=
    fun p => List.filter_cons_of_neg (by simp)
  constructor
  · intro h
    refine ⟨h [] (by simp) g rfl, fun p hp found hfound => ?_⟩
    exact h (wildcard :: p) (List.cons_prefix_cons.mpr ⟨rfl, hp⟩) found (by rwa [hcons])
  · rintro ⟨hg, h⟩ p hp found hfound
    cases p with
    | nil =>
        cases hfound
        exact hg
    | cons first p =>
        obtain ⟨rfl, hrest⟩ := List.cons_prefix_cons.mp hp
        exact h p hrest found (by rwa [← hcons])

theorem passesStars_name (hname : name ≠ wildcard) (rest : List String) (g : RuleGroup) :
    PassesStars (name :: rest) g ↔ PassesStars rest (childD g.children name) := by
  have hcons : ∀ p, (name :: p).filter (· ≠ wildcard) = name :: p.filter (· ≠ wildcard) :=
    fun p => List.filter_cons_of_pos (by simpa using hname)
  constructor
  · intro h p hp found hfound
    have hpre : name :: p ++ [wildcard] <+: name :: rest := List.cons_prefix_cons.mpr ⟨rfl, hp⟩
    -- a child that is missing holds nothing
    cases hget : Table.get? g.children name with
    | some child =>
        rw [childD, hget] at hfound
        exact h (name :: p) hpre found (by rw [hcons, at?, hget]; exact hfound)
    | none =>
        rw [childD, hget, Option.getD_none] at hfound
        cases hq : p.filter (· ≠ wildcard) with
        | nil =>
            rw [hq] at hfound
            cases hfound
            rfl
        | cons first more =>
            rw [hq] at hfound
            cases hfound
  · intro h p hp found hfound
    cases p with
    | nil => exact absurd (List.cons_prefix_cons.mp hp).1.symm hname
    | cons first p =>
        obtain ⟨rfl, hrest⟩ := List.cons_prefix_cons.mp hp
        rw [hcons, at?] at hfound
        obtain ⟨child, hchild, hat⟩ := Option.bind_eq_some_iff.mp hfound
        exact h p hrest found (by rwa [childD, hchild])

/-- A path leads to its names without the stars exactly if no group before a star has items of its
own. -/
theorem landing_eq_filter_iff (path : List String) (g : RuleGroup) :
    landing path g = path.filter (· ≠ wildcard) ↔ PassesStars path g := by
  induction path generalizing g with
  | nil =>
      refine iff_of_true rfl fun p hp => ?_
      exact absurd (List.prefix_nil.mp hp) (List.append_ne_nil_of_right_ne_nil _ (by simp))
  | cons name rest ih =>
      by_cases hname : name = wildcard
      · subst hname
        rw [landing, passesStars_star, List.filter_cons_of_neg (by simp)]
        cases harray : g.isArray with
        | false =>
            rw [beq_self_eq_true, Bool.not_false, Bool.and_self, if_pos rfl, ih]
            exact (and_iff_right rfl).symm
        | true =>
            rw [Bool.not_true, Bool.and_false, if_neg Bool.false_ne_true]
            refine iff_of_false (fun h => ?_) fun h => by cases h.1
            have hmem : wildcard ∈ rest.filter (· ≠ wildcard) := h ▸ List.mem_cons_self
            simpa using (List.mem_filter.mp hmem).2
      · rw [landing, passesStars_name hname, List.filter_cons_of_pos (by simpa using hname),
          beq_false_of_ne hname, Bool.false_and, if_neg Bool.false_ne_true, List.cons.injEq, ih]
        exact and_iff_right rfl

end Landing

end RuleGroup

namespace Marker

/-- The path that a marker entry leads along to the group that it changes. -/
def Reading.path? : Reading → Option (List String)
  | object path _ => some path
  | property path _ => some path
  | headless => none
  | nothing => none

/-- What a marker entry changes of the group that it leads to. -/
def Reading.change (value : RuleValue) : Reading → RuleGroup → RuleGroup
  | object _ marker => describe marker value
  | property _ name => override name value
  | headless => id
  | nothing => id

/-- A key has a marker right below a path: for base rules, for a class, or for a property. -/
def IsBelow (q : List String) (key : String) : Prop :=
  names key = q ++ [baseRules] ∨ names key = q ++ [className] ∨
    ∃ p, p ≠ [] ∧ names key = q ++ nested :: p

section Below

variable {q path : List String} {key : String}

/-- An entry right below a path without markers leads along this path or past a marker. -/
theorem path?_of_isBelow (h : IsBelow q key) (hq : ∀ n ∈ q, n ∉ all)
    (hpath : (read (names key)).path? = some path) : path = q ∨ nested ∈ path := by
  have hnested : nested ∉ q := fun hmem => hq nested hmem (by decide)
  rcases read_cases (names key) with
    ⟨path', marker, hread, hcut, -⟩ | ⟨path', after, hread, hcut, -⟩ | ⟨after, hread, -, -⟩ | hread
  · rw [hread] at hpath
    cases hpath
    rcases h with h | h | ⟨p, hne, h⟩
    · exact .inl (List.append_inj' (hcut.symm.trans h) rfl).1
    · exact .inl (List.append_inj' (hcut.symm.trans h) rfl).1
    · -- the property ends in a marker itself, so the entry leads past the one for nested rules
      rcases cut_cases (h.symm.trans hcut) with ⟨-, -, hnil⟩ | ⟨hmem, -⟩ | ⟨-, hmem⟩
      · exact absurd hnil hne
      · exact .inr hmem
      · cases hmem
  · rw [hread] at hpath
    cases hpath
    have hmarker : ∀ marker, marker ≠ nested → names key ≠ q ++ [marker] := by
      intro marker hmarker hkey
      rcases cut_cases (hkey.symm.trans hcut) with ⟨-, hsame, -⟩ | ⟨-, hmem⟩ | ⟨hmem, -⟩
      · exact hmarker hsame
      · cases hmem
      · exact hnested hmem
    rcases h with h | h | ⟨p, -, h⟩
    · exact absurd h (hmarker _ (by decide))
    · exact absurd h (hmarker _ (by decide))
    · rcases cut_cases (h.symm.trans hcut) with ⟨hsame, -, -⟩ | ⟨hmem, -⟩ | ⟨hmem, -⟩
      · exact .inl hsame.symm
      · exact .inr hmem
      · exact absurd hmem hnested
  · rw [hread] at hpath
    cases hpath
  · rw [hread] at hpath
    cases hpath

end Below

end Marker

namespace Grouping

open RuleGroup

section Spelled

/-- An ordinary key stands right below its path without the stars exactly if none of the names on
its place is flat. -/
theorem dropLast_place_iff (isObject : String → Bool) {key x : String} {q a : List String}
    (hkey : names key = q ++ [x]) (ha : a ⊆ q)
    (hfilter : a.filter (· ≠ wildcard) = q.filter (· ≠ wildcard)) :
    (place isObject key).dropLast = a ↔
      a = q.filter (· ≠ wildcard) ∧ IsAddress (place isObject key) := by
  have hspelled : (place isObject key).flatMap names = kept (names key) := flatMap_names_place key
  rw [hkey, kept_concat] at hspelled
  have haddress : IsAddress a := fun n hn =>
    isName_of_mem_names (hkey ▸ List.mem_append_left [x] (ha hn))
  constructor
  · intro hdrop
    have hne : place isObject key ≠ [] := by
      intro hnil
      rw [hnil] at hspelled
      exact List.append_ne_nil_of_right_ne_nil _ (List.cons_ne_nil x []) hspelled.symm
    have hplace := List.dropLast_concat_getLast hne
    generalize (place isObject key).getLast hne = last at hplace
    rw [hdrop] at hplace
    rw [← hplace, List.flatMap_append, flatMap_names_of_isAddress haddress,
      List.flatMap_singleton] at hspelled
    -- the last step has at least one name, and the steps before it all names that are kept
    have hlength : a.length = (q.filter (· ≠ wildcard)).length := by
      have hle := List.length_filter_le (· ≠ wildcard) a
      have hlast := List.length_pos_iff.mpr (names_ne_nil last)
      have hsum := congrArg List.length hspelled
      rw [hfilter] at hle
      simp only [List.length_append, List.length_singleton] at hsum
      omega
    obtain ⟨hbase, hx⟩ := List.append_inj hspelled hlength
    refine ⟨hbase, ?_⟩
    rw [← hplace]
    refine haddress.append (isAddress_singleton ?_)
    rw [← ofNames_names last, hx]
    exact isName_of_mem_names (hkey ▸ List.mem_append_right q List.mem_cons_self)
  · rintro ⟨hbase, hplace⟩
    rw [flatMap_names_of_isAddress hplace] at hspelled
    rw [hspelled, List.dropLast_concat, hbase]

end Spelled

section Recorded

variable {rules entries earlier later : Table RuleValue} {metadata : Table FieldMetadata}
  {key ordinary x : String} {value : RuleValue} {q : List String} {g : RuleGroup}
  {groups : List (String × RuleGroup)}

/-- The address at which a marker entry is recorded, unless it is not recorded at all. -/
def recordedAt? (g : RuleGroup) (key : String) : Option (List String) :=
  (Marker.read (names key)).path?.map fun path => landing path g

/-- A recorded entry changes the group at its address and leaves the others as they are. -/
theorem applyMarker_of_recordedAt? (value : RuleValue) {a : List String}
    (h : recordedAt? g key = some a) :
    applyMarker g key value = .ok (changeAt ((Marker.read (names key)).change value) a g) := by
  obtain ⟨path, hpath, rfl⟩ := Option.map_eq_some_iff.mp h
  rw [Marker.applyMarker_eq]
  cases hread : Marker.read (names key) with
  | object path' marker =>
      rw [hread] at hpath
      cases hpath
      exact congrArg Except.ok (ensure_eq_changeAt _ _ _)
  | property path' name =>
      rw [hread] at hpath
      cases hpath
      exact congrArg Except.ok (ensure_eq_changeAt _ _ _)
  | headless =>
      rw [hread] at hpath
      cases hpath
  | nothing =>
      rw [hread] at hpath
      cases hpath

/-- The group at the place of an ordinary key is there once the ordinary entries are inserted. -/
theorem exists_at_place (metadata : Table FieldMetadata) (h : (ordinary, value) ∈ rules)
    (hordinary : Marker.isMarked ordinary = false) :
    ∃ found, at? (place (contextOf rules metadata).isNestedObject ordinary)
      (inserted rules metadata) = some found := by
  have hmem : (ordinary, value) ∈ rules.filter fun e => !Marker.isMarked e.1 :=
    List.mem_filter.mpr ⟨h, by rw [hordinary]; rfl⟩
  obtain ⟨before, after, hsplit⟩ := List.append_of_mem hmem
  rw [inserted, hsplit, List.foldl_append, List.foldl_cons]
  generalize before.foldl _ empty = g
  have hplaced : (at? (place (contextOf rules metadata).isNestedObject ordinary)
      (walk (setRules value) (routeOf (contextOf rules metadata).isNestedObject ordinary) g)).map
        RuleGroup.rules = some value := by
    rw [rules_at?_walk, ← place, overlay, if_pos rfl]
  obtain ⟨found, hfound, -⟩ := Option.map_eq_some_iff.mp hplaced
  rw [insert_eq_walk]
  obtain ⟨found', hfound', -⟩ := (grows_foldl_insert _ after _).at? hfound
  exact ⟨found', hfound'⟩

theorem isObject_change {reading : Marker.Reading} {path : List String}
    (h : reading.path? = some path) (value : RuleValue) (g : RuleGroup) :
    (reading.change value g).isObject = true := by
  cases reading with
  | object path' marker =>
      rw [Marker.Reading.change, Marker.describe]
      split
      · rw [isObject_setClass, isObject_setObject]
      · split
        · rw [isObject_setRules, isObject_setObject]
        · rw [isObject_setObject]
  | property path' name =>
      rw [Marker.Reading.change, Marker.override, isObject_update, isObject_setObject]
  | headless => cases h
  | nothing => cases h

/-- A marker entry right below a path and an ordinary entry right below the same path speak of one
group if and only if the marker entry is read with this path, no array on the way has items of its
own when the entry is applied, and the ordinary entry has no flat name on its way. Both groups
stay in the result, that of the marker entry as an object. -/
theorem marker_meets_rules_iff (hrules : rules = earlier ++ (key, value) :: later)
    (hkey : Marker.IsBelow q key) {other : RuleValue} (hordinary : (ordinary, other) ∈ rules)
    (hnames : names ordinary = q ++ [x]) (hmarked : Marker.isMarked ordinary = false)
    (hgroups : group rules metadata = .ok groups) :
    let route := place (contextOf rules metadata).isNestedObject ordinary
    ∃ before result, marked earlier (inserted rules metadata) = .ok before ∧
      marked rules (inserted rules metadata) = .ok result ∧ groups = result.children ∧
      (∃ found, at? route result = some found) ∧
      (∀ a, recordedAt? before key = some a →
        applyMarker before key value =
            .ok (changeAt ((Marker.read (names key)).change value) a before) ∧
          ∃ found, at? a result = some found ∧ found.isObject = true) ∧
      (recordedAt? before key = some route.dropLast ↔
        (Marker.read (names key)).path? = some q ∧ PassesStars q before ∧ IsAddress route) := by
  intro route
  rw [group_eq_marked] at hgroups
  obtain ⟨result, hresult, rfl⟩ := exists_of_map hgroups
  have hrun : marked (earlier ++ (key, value) :: later) (inserted rules metadata) = .ok result :=
    hrules ▸ hresult
  rw [marked_append] at hrun
  obtain ⟨before, hbefore, hrun⟩ := exists_of_bind hrun
  rw [marked_cons] at hrun
  obtain ⟨after, hafter, hlater⟩ := exists_of_bind hrun
  have hq : ∀ n ∈ x :: q, n ∉ Marker.all := by
    intro n hn hall
    rw [Marker.isMarked_eq, hnames, List.any_eq_false] at hmarked
    exact hmarked n (by simpa [or_comm] using hn) (List.contains_iff_mem.mpr hall)
  refine ⟨before, result, hbefore, hresult, rfl, ?_, ?_, ?_⟩
  · obtain ⟨placed, hplaced⟩ := exists_at_place metadata hordinary hmarked
    obtain ⟨found, hfound, -⟩ := (grows_marked hresult).at? hplaced
    exact ⟨found, hfound⟩
  · intro a ha
    have happly := applyMarker_of_recordedAt? value ha
    refine ⟨happly, ?_⟩
    obtain ⟨path, hpath, -⟩ := Option.map_eq_some_iff.mp ha
    obtain ⟨g, hg⟩ := at?_changeAt ((Marker.read (names key)).change value) a before
    rw [← Except.ok.inj (hafter.symm.trans happly)] at hg
    obtain ⟨found, hfound, hgrows⟩ := (grows_marked hlater).at? hg
    exact ⟨found, hfound, hgrows.isObject (isObject_change hpath value g)⟩
  · have hplace := dropLast_place_iff (contextOf rules metadata).isNestedObject hnames
      (landing_subset q before) (filter_landing q before)
    rw [landing_eq_filter_iff] at hplace
    constructor
    · intro hrecorded
      obtain ⟨path, hpath, hland⟩ := Option.map_eq_some_iff.mp hrecorded
      rcases Marker.path?_of_isBelow hkey (fun n hn => hq n (List.mem_cons_of_mem _ hn)) hpath with
        rfl | hnested
      · exact ⟨hpath, hplace.mp hland.symm⟩
      · -- the place of an ordinary key has no marker on it
        have hmem : Marker.nested ∈ landing path before := by
          have hfilter : Marker.nested ∈ path.filter (· ≠ wildcard) :=
            List.mem_filter.mpr ⟨hnested, by decide⟩
          rw [← filter_landing path before] at hfilter
          exact (List.mem_filter.mp hfilter).1
        rw [hland] at hmem
        have hfalse := isMarked_of_mem_place hmarked (List.dropLast_subset _ hmem)
        exact absurd hfalse (by decide)
    · rintro ⟨hpath, hpasses, haddress⟩
      rw [recordedAt?, hpath, Option.map_some, hplace.mpr ⟨hpasses, haddress⟩]

/-- Rules of a basket whose items get a further property by a marker. -/
def basketRules : Table RuleValue :=
  [("address.__base_rules", .text "required"), ("address.city", .text "string"),
    ("items.*.price", .text "numeric"), ("items.*.__nested.tax", .text "numeric")]

theorem basket_marker_meets_rules :
    Marker.IsBelow ["items", "*"] "items.*.__nested.tax" ∧
    ("items.*.price", .text "numeric") ∈ basketRules ∧
    names "items.*.price" = ["items", "*"] ++ ["price"] ∧
    Marker.isMarked "items.*.price" = false ∧
    ∃ groups before, group basketRules [] = .ok groups ∧
      marked (basketRules.take 3) (inserted basketRules []) = .ok before ∧
      recordedAt? before "items.*.__nested.tax" = some ["items"] ∧
      PassesStars ["items", "*"] before := by
  have hbelow : Marker.IsBelow ["items", "*"] "items.*.__nested.tax" :=
    .inr (.inr ⟨["tax"], List.cons_ne_nil _ _, by decide +kernel⟩)
  have hrules : basketRules =
      basketRules.take 3 ++ ("items.*.__nested.tax", .text "numeric") :: [] := rfl
  have hmem : ("items.*.price", .text "numeric") ∈ basketRules := by simp [basketRules]
  have hnames : names "items.*.price" = ["items", "*"] ++ ["price"] := by decide +kernel
  have hmarked : Marker.isMarked "items.*.price" = false := by decide +kernel
  have hplace : place (contextOf basketRules []).isNestedObject "items.*.price" =
      ["items", "price"] := by decide +kernel
  have hrecorded : (marked (basketRules.take 3) (inserted basketRules [])).toOption.map
      (fun before => recordedAt? before "items.*.__nested.tax") = some (some ["items"]) := by
    decide +kernel
  have hrun : (group basketRules []).toOption.isSome = true := by decide +kernel
  refine ⟨hbelow, hmem, hnames, hmarked, ?_⟩
  cases hgroups : group basketRules [] with
  | error fault =>
      rw [hgroups] at hrun
      cases hrun
  | ok groups =>
      obtain ⟨before, result, hbefore, -, -, -, -, hiff⟩ :=
        marker_meets_rules_iff hrules hbelow hmem hnames hmarked hgroups
      rw [hbefore] at hrecorded
      have hitems : recordedAt? before "items.*.__nested.tax" = some ["items"] :=
        Option.some.inj hrecorded
      rw [hplace] at hiff
      exact ⟨groups, before, rfl, hbefore, hitems, (hiff.mp hitems).2.1⟩

/-- Where items have rules of their own, the property that a marker adds to them goes below the
star, and not to the array where their price is. The fields of the array leave it out. -/
theorem starred_property_misses_rules :
    ∃ groups, group [("items.*", .text "array"), ("items.*.price", .text "numeric"),
        ("items.*.__nested.tax", .text "numeric")] [] = .ok groups ∧
      (atAll? groups ["items"]).map (fun g => Table.keys g.children) = some ["*", "price"] ∧
      (atAll? groups ["items", "*"]).map (fun g => Table.keys g.children) = some ["tax"] ∧
      (Tree.headsOfAll (Declared.ofGroups [] groups)).map Declared.path =
        ["items", "items.*", "items.*.price"] := by
  have hrun : (group [("items.*", .text "array"), ("items.*.price", .text "numeric"),
      ("items.*.__nested.tax", .text "numeric")] []).toOption.map (fun groups =>
        ((atAll? groups ["items"]).map (fun g => Table.keys g.children),
          (atAll? groups ["items", "*"]).map (fun g => Table.keys g.children),
          (Tree.headsOfAll (Declared.ofGroups [] groups)).map Declared.path)) =
      some (some ["*", "price"], some ["tax"], ["items", "items.*", "items.*.price"]) := by
    decide +kernel
  cases hgroups : group [("items.*", .text "array"), ("items.*.price", .text "numeric"),
      ("items.*.__nested.tax", .text "numeric")] [] with
  | error fault =>
      rw [hgroups] at hrun
      cases hrun
  | ok groups =>
      rw [hgroups] at hrun
      have hread := Option.some.inj hrun
      exact ⟨groups, rfl, congrArg Prod.fst hread, congrArg (fun read => read.2.1) hread,
        congrArg (fun read => read.2.2) hread⟩

end Recorded

end Grouping

end RuleSchema
