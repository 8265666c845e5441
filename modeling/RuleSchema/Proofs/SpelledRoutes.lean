import RuleSchema.Proofs.GroupRoutes
import RuleSchema.Proofs.RuleNames

/-!
# Data paths along routes

The steps of a route spell the data path of its key, stars included. So a step that takes a group
for an object stands at a proper prefix of the key that is declared to be one, and a key that goes
on behind a prefix that is not declared has a dotted name on its route. A star is a step of its own
only at the end of a route.

## Implementation notes

Routes are cut at the stars of a path, as insertions are. `unstretch` puts a path together again, so
that the data path of a step can be compared with the names of a key.
-/

namespace RuleSchema.Grouping

open DottedPath RuleGroup

section Spelling

/-- A path put together from its stretches. -/
def unstretch : List (List String) → List String
  | [] => []
  | [stretch] => stretch
  | stretch :: rest => stretch ++ wildcard :: unstretch rest

theorem unstretch_cons (stretch : List String) {rest : List (List String)} (h : rest ≠ []) :
    unstretch (stretch :: rest) = stretch ++ wildcard :: unstretch rest := by
  obtain ⟨next, more, rfl⟩ := List.exists_cons_of_ne_nil h
  rfl

theorem unstretch_stretches (path : List String) : unstretch (stretches path) = path := by
  induction path with
  | nil => rfl
  | cons name rest ih =>
      by_cases hname : name = wildcard
      · subst hname
        change unstretch ([] :: stretches rest) = _
        rw [unstretch_cons _ (stretches_ne_nil rest), ih, List.nil_append]
      · obtain ⟨stretch, more, hrest, hall⟩ := stretches_cons hname rest
        rw [hall]
        rw [hrest] at ih
        cases more with
        | nil => exact congrArg (List.cons name) ih
        | cons next more => exact congrArg (List.cons name) ih

theorem ofNames_append {a b : List String} (ha : a ≠ []) (hb : b ≠ []) :
    ofNames (a ++ b) = ofNames a ++ "." ++ ofNames b := by
  induction b using List.reverseRecOn with
  | nil => exact absurd rfl hb
  | append_singleton init name ih =>
      rw [← List.append_assoc, ofNames_concat (List.append_ne_nil_of_left_ne_nil ha init)]
      by_cases hinit : init = []
      · rw [hinit, List.append_nil]
        rfl
      · rw [ih hinit, ofNames_concat hinit]
        simp only [String.append_assoc]

/-- A path of filled names is empty only without names. -/
theorem ofNames_ne_empty {path : List String} (hne : path ≠ []) (h : ∀ n ∈ path, n ≠ "") :
    ofNames path ≠ "" := by
  cases path with
  | nil => exact absurd rfl hne
  | cons name rest =>
      have hname : name ≠ "" := h name List.mem_cons_self
      cases rest with
      | nil => exact hname
      | cons next more =>
          have happend := ofNames_append (List.cons_ne_nil name []) (List.cons_ne_nil next more)
          rw [List.singleton_append] at happend
          intro hempty
          rw [happend, String.append_eq_empty_iff, String.append_eq_empty_iff] at hempty
          exact hname hempty.1.1

theorem under_ofNames {above b : List String} (h : ∀ n ∈ above, n ≠ "") (hb : b ≠ []) :
    under (ofNames above) (ofNames b) = ofNames (above ++ b) := by
  unfold under
  by_cases hne : above = []
  · rw [hne]
    rfl
  · rw [Text.isEmpty_eq_false (ofNames_ne_empty hne h), if_neg Bool.false_ne_true,
      ofNames_append hne hb]

/-- A stretch of names without stars, and the names above it. -/
structure IsStretch (above stretch : List String) : Prop where
  filled : ∀ n ∈ above ++ stretch, n ≠ ""
  named : wildcard ∉ stretch

/-- Stretches below the names of a data path, as they are cut from a path without a star behind a
star. -/
inductive Spells : List String → List (List String) → Prop
  | names {above stretch} (h : IsStretch above stretch) (hne : stretch ≠ []) :
      Spells above [stretch]
  | items {above stretch} (h : IsStretch above stretch) (hroot : stretch = [] → above = []) :
      Spells above [stretch, []]
  | further {above stretch next more} (h : IsStretch above stretch)
      (hroot : stretch = [] → above = []) (hnext : next ≠ [])
      (tail : Spells (above ++ stretch ++ [wildcard]) (next :: more)) :
      Spells above (stretch :: next :: more)

theorem wildcard_not_mem_stretches {path stretch : List String} (h : stretch ∈ stretches path) :
    wildcard ∉ stretch := by
  induction path generalizing stretch with
  | nil =>
      rw [List.mem_singleton.mp h]
      exact List.not_mem_nil
  | cons name rest ih =>
      by_cases hname : name = wildcard
      · subst hname
        rcases List.mem_cons.mp h with rfl | h
        · exact List.not_mem_nil
        · exact ih h
      · obtain ⟨first, more, hrest, hall⟩ := stretches_cons hname rest
        rw [hall] at h
        rw [hrest] at ih
        rcases List.mem_cons.mp h with rfl | h
        · rw [List.mem_cons, not_or]
          exact ⟨Ne.symm hname, ih List.mem_cons_self⟩
        · exact ih (List.mem_cons_of_mem _ h)

/-- The data path of the items behind a stretch. -/
theorem itemPath_ofNames {above stretch : List String} (h : IsStretch above stretch)
    (hroot : stretch = [] → above = []) :
    itemPath (ofNames above) stretch = ofNames (above ++ stretch ++ [wildcard]) := by
  have hstretch : under (ofNames above) (ofNames stretch) = ofNames (above ++ stretch) := by
    by_cases hne : stretch = []
    · rw [hne, hroot hne]
      rfl
    · exact under_ofNames (fun n hn => h.filled n (List.mem_append_left _ hn)) hne
  calc itemPath (ofNames above) stretch
      = under (under (ofNames above) (ofNames stretch)) (ofNames [wildcard]) := rfl
    _ = ofNames (above ++ stretch ++ [wildcard]) := by
      rw [hstretch, under_ofNames h.filled (List.cons_ne_nil _ _)]

end Spelling

section Flags

variable {isObject : String → Bool}

end Flags

section Names

variable {isObject : String → Bool}

theorem dot_mem_join (name next : String) (rest : List String) :
    '.' ∈ (Text.join "." (name :: next :: rest)).toList := by
  rw [Text.join, String.toList_append, String.toList_append]
  · exact List.mem_append_left _ (List.mem_append_right _ (List.mem_singleton.mpr rfl))
  · exact List.cons_ne_nil _ _

/-- A stretch that goes on behind a part that is no object has a dotted name among its steps. -/
theorem dotted_steps (stretch : List String) : ∀ (above before : List String) (name : String)
    (after : List String), (∀ n ∈ above ++ stretch, n ≠ "") → stretch = before ++ name :: after →
    before ≠ [] → isObject (ofNames (above ++ before)) = false →
    ∃ n ∈ (steps isObject (ofNames above) stretch).map Step.name, '.' ∈ n.toList := by
  induction stretch with
  | nil =>
      intro _ before name after _ hsplit _ _
      exact absurd hsplit.symm (List.append_ne_nil_of_right_ne_nil _ (List.cons_ne_nil _ _))
  | cons first rest ih =>
      intro above before name after hfilled hsplit hne hbefore
      obtain ⟨first', before, rfl⟩ := List.exists_cons_of_ne_nil hne
      rw [List.cons_append, List.cons.injEq] at hsplit
      obtain ⟨rfl, hrest⟩ := hsplit
      obtain ⟨next, more, rfl⟩ := List.exists_cons_of_ne_nil (l := rest)
        (hrest ▸ List.append_ne_nil_of_right_ne_nil _ (List.cons_ne_nil _ _))
      have hunder : under (ofNames above) first = ofNames (above ++ [first]) :=
        under_ofNames (fun n hn => hfilled n (List.mem_append_left _ hn))
          (List.cons_ne_nil first [])
      rw [steps, hunder]
      by_cases ho : isObject (ofNames (above ++ [first])) = true
      · have hbefore' : before ≠ [] := by
          rintro rfl
          rw [ho] at hbefore
          cases hbefore
        rw [List.append_cons] at hfilled hbefore
        obtain ⟨n, hn, hdot⟩ := ih _ before name after hfilled hrest hbefore' hbefore
        rw [if_pos ho, List.map_cons]
        exact ⟨n, List.mem_cons_of_mem _ hn, hdot⟩
      · rw [if_neg ho]
        exact ⟨_, List.mem_cons_self, dot_mem_join first next more⟩

/-- What stands before a name ends inside the stretch before a star, or behind the star. -/
theorem cut_at_wildcard {stretch later before after : List String} {name : String}
    (hsplit : stretch ++ wildcard :: later = before ++ name :: after) (hname : name ≠ wildcard) :
    (∃ rest, stretch = before ++ name :: rest) ∨
      ∃ more, before = stretch ++ wildcard :: more ∧ later = more ++ name :: after := by
  rcases List.append_eq_append_iff.mp hsplit with ⟨more, rfl, hmore⟩ | ⟨more, rfl, hmore⟩
  · cases more with
    | nil => exact absurd (List.cons.inj hmore).1.symm hname
    | cons star more =>
        rw [List.cons_append, List.cons.injEq] at hmore
        exact .inr ⟨more, by rw [← hmore.1], hmore.2⟩
  · cases more with
    | nil => exact absurd (List.cons.inj hmore).1 hname
    | cons first more =>
        rw [List.cons_append, List.cons.injEq] at hmore
        exact .inl ⟨more, by rw [← hmore.1]⟩

/-- A path that goes on with a name behind a name that is no object has a dotted name on its
route. -/
theorem dotted_route {above : List String} {paths : List (List String)} (h : Spells above paths) :
    ∀ (before : List String) (name : String) (after : List String),
      unstretch paths = before ++ name :: after → name ≠ wildcard → before ≠ [] →
      before.getLast? ≠ some wildcard → isObject (ofNames (above ++ before)) = false →
      ∃ n ∈ (route isObject (ofNames above) paths).map Step.name, '.' ∈ n.toList := by
  induction h with
  | @names above stretch h hne =>
      intro before name after hsplit _ hbefore _ hobject
      rw [route_singleton]
      exact dotted_steps stretch above before name after h.filled hsplit hbefore hobject
  | @items above stretch h hroot =>
      intro before name after hsplit hname hbefore _ hobject
      rcases cut_at_wildcard hsplit hname with ⟨rest, hstretch⟩ | ⟨more, -, hmore⟩
      · obtain ⟨n, hn, hdot⟩ :=
          dotted_steps stretch above before name rest h.filled hstretch hbefore hobject
        rw [route_items, List.map_append]
        exact ⟨n, List.mem_append_left _ hn, hdot⟩
      · exact absurd hmore.symm (List.append_ne_nil_of_right_ne_nil _ (List.cons_ne_nil _ _))
  | @further above stretch next more h hroot hnext tail ih =>
      intro before name after hsplit hname hbefore hlast hobject
      rw [route_further _ _ _ _ hnext, itemPath_ofNames h hroot, List.map_append]
      rcases cut_at_wildcard hsplit hname with ⟨rest, hstretch⟩ | ⟨later, rfl, hlater⟩
      · obtain ⟨n, hn, hdot⟩ :=
          dotted_steps stretch above before name rest h.filled hstretch hbefore hobject
        exact ⟨n, List.mem_append_left _ hn, hdot⟩
      · have hne : later ≠ [] := by
          rintro rfl
          exact hlast List.getLast?_concat
        rw [List.getLast?_append_of_ne_nil _ (List.cons_ne_nil _ _)] at hlast
        obtain ⟨n, hn, hdot⟩ := ih later name after hlater hname hne
          (by rwa [List.getLast?_cons_of_ne_nil hne] at hlast)
          (by rwa [List.append_assoc _ [wildcard], List.append_assoc, List.singleton_append])
        exact ⟨n, List.mem_append_right _ hn, hdot⟩

/-- No step of a stretch is a star: its names are none, and a flat name has a dot. -/
theorem wildcard_not_mem_steps {stretch : List String} (h : wildcard ∉ stretch) (above : String) :
    wildcard ∉ (steps isObject above stretch).map Step.name := by
  induction stretch generalizing above with
  | nil => exact List.not_mem_nil
  | cons name rest ih =>
      rw [List.mem_cons, not_or] at h
      cases rest with
      | nil =>
          rw [steps, List.map_singleton, List.mem_singleton]
          exact h.1
      | cons next more =>
          rw [steps]
          split
          · rw [List.map_cons, List.mem_cons, not_or]
            exact ⟨h.1, ih h.2 _⟩
          · intro hmem
            have hflat : wildcard = Text.join "." (name :: next :: more) :=
              List.mem_singleton.mp hmem
            have hdot := dot_mem_join name next more
            rw [← hflat] at hdot
            exact absurd hdot isName_wildcard

theorem wildcard_behind {a b before after : List String} (ha : wildcard ∉ a)
    (hsplit : a ++ b = before ++ wildcard :: after) : ∃ more, b = more ++ wildcard :: after := by
  rcases List.append_eq_append_iff.mp hsplit with ⟨more, rfl, hmore⟩ | ⟨more, rfl, hmore⟩
  · exact ⟨more, hmore⟩
  · cases more with
    | nil => exact ⟨[], hmore.symm⟩
    | cons first more =>
        rw [List.cons_append, List.cons.injEq] at hmore
        exact absurd (hmore.1 ▸ List.mem_append_right _ List.mem_cons_self) ha

/-- A star can only be the last step of a route. -/
theorem wildcard_ends_route {above : List String} {paths : List (List String)}
    (h : Spells above paths) : ∀ before after : List String,
      (route isObject (ofNames above) paths).map Step.name = before ++ wildcard :: after →
        after = [] := by
  induction h with
  | @names above stretch h hne =>
      intro before after hsplit
      rw [route_singleton] at hsplit
      have hmem : wildcard ∈ before ++ wildcard :: after :=
        List.mem_append_right _ List.mem_cons_self
      rw [← hsplit] at hmem
      exact absurd hmem (wildcard_not_mem_steps h.named _)
  | @items above stretch h hroot =>
      intro before after hsplit
      rw [route_items, List.map_append] at hsplit
      obtain ⟨more, hmore⟩ := wildcard_behind (wildcard_not_mem_steps h.named _) hsplit
      cases more with
      | nil => exact (List.cons.inj hmore).2.symm
      | cons first more =>
          exact absurd (List.cons.inj hmore).2.symm
            (List.append_ne_nil_of_right_ne_nil _ (List.cons_ne_nil _ _))
  | @further above stretch next more h hroot hnext tail ih =>
      intro before after hsplit
      rw [route_further _ _ _ _ hnext, itemPath_ofNames h hroot, List.map_append] at hsplit
      obtain ⟨later, hlater⟩ := wildcard_behind (wildcard_not_mem_steps h.named _) hsplit
      exact ih later after hlater

end Names

section Kept

variable {isObject : String → Bool}

theorem subset_of_mem_stretches {path stretch : List String} (h : stretch ∈ stretches path) :
    stretch ⊆ path := by
  induction path generalizing stretch with
  | nil =>
      rw [List.mem_singleton.mp h]
      exact List.Subset.refl _
  | cons name rest ih =>
      by_cases hname : name = wildcard
      · subst hname
        rcases List.mem_cons.mp h with rfl | h
        · exact List.nil_subset _
        · exact List.subset_cons_of_subset _ (ih h)
      · obtain ⟨first, more, hrest, hall⟩ := stretches_cons hname rest
        rw [hall] at h
        rw [hrest] at ih
        rcases List.mem_cons.mp h with rfl | h
        · exact List.cons_subset_cons _ (ih List.mem_cons_self)
        · exact List.subset_cons_of_subset _ (ih (List.mem_cons_of_mem _ h))

theorem flatMap_names_of_isAddress {path : List String} (h : IsAddress path) :
    path.flatMap names = path := by
  induction path with
  | nil => rfl
  | cons name rest ih =>
      have hname : names name = [name] :=
        names_ofNames (List.cons_ne_nil name []) (isAddress_singleton (h name List.mem_cons_self))
      rw [List.flatMap_cons, hname, ih fun n hn => h n (List.mem_cons_of_mem _ hn)]
      rfl

/-- The steps of a stretch spell its names. -/
theorem flatMap_names_steps {stretch : List String} (h : IsAddress stretch) (above : String) :
    ((steps isObject above stretch).map Step.name).flatMap names = stretch := by
  induction stretch generalizing above with
  | nil => rfl
  | cons name rest ih =>
      have hname : names name = [name] :=
        names_ofNames (List.cons_ne_nil name []) (isAddress_singleton (h name List.mem_cons_self))
      cases rest with
      | nil => exact (List.append_nil _).trans hname
      | cons next more =>
          rw [steps]
          split
          · rw [List.map_cons, List.flatMap_cons, hname,
              ih fun n hn => h n (List.mem_cons_of_mem _ hn)]
            rfl
          · exact (List.append_nil _).trans (names_ofNames (List.cons_ne_nil _ _) h)

/-- The names of a path that have a group: all but the stars, and a star at the end. -/
def kept (path : List String) : List String :=
  path.filter (· ≠ wildcard) ++ if path.getLast? = some wildcard then [wildcard] else []

theorem kept_concat (q : List String) (x : String) :
    kept (q ++ [x]) = q.filter (· ≠ wildcard) ++ [x] := by
  rw [kept, List.filter_append, List.getLast?_concat]
  by_cases hx : x = wildcard
  · simp [hx]
  · simp [hx]

theorem kept_append_star (a : List String) {rest : List String} (hne : rest ≠ []) :
    kept (a ++ wildcard :: rest) = a.filter (· ≠ wildcard) ++ kept rest := by
  have hlast : (a ++ wildcard :: rest).getLast? = rest.getLast? := by
    rw [List.getLast?_append_of_ne_nil _ (List.cons_ne_nil _ _), List.getLast?_cons_of_ne_nil hne]
  rw [kept, kept, hlast, List.filter_append, List.filter_cons_of_neg (by simp), List.append_assoc]

theorem unstretch_ne_nil {paths : List (List String)} (hne : paths ≠ []) (hcut : paths ≠ [[]]) :
    unstretch paths ≠ [] := by
  obtain ⟨stretch, rest, rfl⟩ := List.exists_cons_of_ne_nil hne
  cases rest with
  | nil =>
      rintro (rfl : stretch = [])
      exact hcut rfl
  | cons next more =>
      rw [unstretch_cons _ (List.cons_ne_nil _ _)]
      exact List.append_ne_nil_of_right_ne_nil _ (List.cons_ne_nil _ _)

/-- The steps of a route spell the names that are kept of its path. -/
theorem flatMap_names_route {paths : List (List String)} (haddress : ∀ s ∈ paths, IsAddress s)
    (hnamed : ∀ s ∈ paths, wildcard ∉ s) (above : String) :
    ((route isObject above paths).map Step.name).flatMap names = kept (unstretch paths) := by
  induction paths generalizing above with
  | nil => rfl
  | cons stretch rest ih =>
      have hsteps : ((steps isObject above stretch).map Step.name).flatMap names = stretch :=
        flatMap_names_steps (haddress stretch List.mem_cons_self) above
      have hstar : wildcard ∉ stretch := hnamed stretch List.mem_cons_self
      have hfilter : stretch.filter (· ≠ wildcard) = stretch :=
        List.filter_eq_self.mpr fun n hn => by simpa using fun h : n = wildcard => hstar (h ▸ hn)
      rw [route, List.map_append, List.flatMap_append, hsteps]
      cases rest with
      | nil =>
          have hlast : stretch.getLast? ≠ some wildcard :=
            fun h => hstar (List.mem_of_getLast? h)
          rw [unstretch, kept, if_neg hlast, hfilter]
          rfl
      | cons next more =>
          rw [unstretch_cons _ (List.cons_ne_nil _ _)]
          split
          · rename_i hend
            have hnames : names wildcard = [wildcard] := by decide
            rw [hend, unstretch, kept_concat, hfilter, List.map_singleton, List.flatMap_singleton,
              hnames]
          · rename_i hgoes
            rw [kept_append_star _ (unstretch_ne_nil (List.cons_ne_nil _ _) hgoes), hfilter, ih]
            · exact fun s hs => haddress s (List.mem_cons_of_mem _ hs)
            · exact fun s hs => hnamed s (List.mem_cons_of_mem _ hs)

/-- The place of a key spells the names that are kept of it. -/
theorem flatMap_names_place (key : String) :
    (place isObject key).flatMap names = kept (names key) := by
  rw [place, routeOf, flatMap_names_route, unstretch_stretches]
  · intro s hs n hn
    exact isName_of_mem_names (subset_of_mem_stretches hs hn)
  · exact fun s hs => wildcard_not_mem_stretches hs

end Kept

end RuleSchema.Grouping
