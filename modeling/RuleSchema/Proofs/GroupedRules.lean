import Mathlib.Data.List.Induction
import RuleSchema.Proofs.GroupPlacement

/-!
# Grouped rules

Grouping a rule map without markers and metadata places the value of every key at the names of the
key, one after the other. When no group is used both as an array and as an object, reading the
groups back gives the value of each key, and absent values exactly on the way to keys.
-/

namespace RuleSchema.Grouping

open DottedPath RuleGroup

section Insertion

variable {context : Context} {value : RuleValue}

theorem isNestedObject_of_metadata (h : context.metadata = []) (path : String) :
    context.isNestedObject path = true := by
  rw [Context.isNestedObject, h]
  exact Bool.or_true _

/-- Without metadata the path above the names does not matter to a descent. -/
theorem descend_path (h : context.metadata = []) {act act' : List String → RuleGroup → RuleGroup}
    (hact : ∀ leftover g, act leftover g = act' leftover g) (path : List String) :
    ∀ above above' g, descend context above path act g = descend context above' path act' g := by
  induction path with
  | nil => exact fun _ _ g => hact [] g
  | cons name rest ih =>
      intro above above' g
      cases rest with
      | nil => simp only [descend, funext (hact [])]
      | cons next more =>
          simp only [descend, isNestedObject_of_metadata h, if_true]
          congr 1
          funext child
          exact ih _ _ _

/-- What an insertion does to the group that the first stretch of names leads to. -/
def afterStretch (context : Context) (value : RuleValue) (above : String) :
    List (List String) → RuleGroup → RuleGroup
  | [] => setRules value
  | [[]] => RuleGroup.update wildcard (setRules value)
  | rest => insertAlong context value above rest

theorem insertAlong_cons (above : String) (stretch : List String) (rest : List (List String))
    (g : RuleGroup) : insertAlong context value above (stretch :: rest) g =
      descend context above stretch (fun leftover => atLeftover leftover (afterStretch context value
        (under (under above (Text.join "." stretch)) wildcard) rest)) g := by
  match rest with
  | [] => rfl
  | [[]] => rfl
  | [_ :: _] => rfl
  | _ :: _ :: _ => simp only [insertAlong, afterStretch]

theorem afterStretch_congr {above above' : String} (rest : List (List String))
    (h : ∀ g, insertAlong context value above rest g = insertAlong context value above' rest g) :
    afterStretch context value above rest = afterStretch context value above' rest := by
  unfold afterStretch
  split
  · rfl
  · rfl
  · exact funext h

/-- Without metadata the path above the names does not matter to an insertion. -/
theorem insertAlong_path (h : context.metadata = []) (paths : List (List String)) :
    ∀ above above' g,
      insertAlong context value above paths g = insertAlong context value above' paths g := by
  induction paths with
  | nil => exact fun _ _ _ => rfl
  | cons stretch rest ih =>
      intro above above' g
      rw [insertAlong_cons, insertAlong_cons]
      refine descend_path h (fun leftover g => ?_) stretch above above' g
      rw [afterStretch_congr rest (ih _ _)]

/-- A descent goes to the child under the first name, which is an object if names follow. -/
theorem descend_cons (h : context.metadata = []) (above name : String) (rest : List String)
    (f : RuleGroup → RuleGroup) (g : RuleGroup) :
    descend context above (name :: rest) (fun leftover => atLeftover leftover f) g =
      g.update name fun child => descend context (under above name) rest
        (fun leftover => atLeftover leftover f) (if rest = [] then child else child.setObject) := by
  cases rest with
  | nil => rfl
  | cons next more =>
      simp only [descend, isNestedObject_of_metadata h, if_true, List.cons_ne_nil, if_false]

theorem insertAlong_cons_cons (h : context.metadata = []) (above name : String)
    (stretch : List String) (rest : List (List String)) (g : RuleGroup) :
    insertAlong context value above ((name :: stretch) :: rest) g =
      g.update name fun child => insertAlong context value above (stretch :: rest)
        (if stretch = [] then child else child.setObject) := by
  rw [insertAlong_cons, descend_cons h]
  congr 1
  funext child
  rw [insertAlong_cons]
  refine descend_path h (fun leftover g => ?_) stretch _ _ _
  rw [afterStretch_congr rest (insertAlong_path h rest _ _)]

theorem stretches_ne_nil (path : List String) : stretches path ≠ [] := by
  cases path with
  | nil => exact List.cons_ne_nil _ _
  | cons name rest =>
      rw [stretches]
      split
      · exact List.cons_ne_nil _ _
      · split <;> exact List.cons_ne_nil _ _

theorem stretches_cons {name : String} (hname : name ≠ wildcard) (rest : List String) :
    ∃ stretch more, stretches rest = stretch :: more ∧
      stretches (name :: rest) = (name :: stretch) :: more := by
  obtain ⟨stretch, more, hs⟩ := List.exists_cons_of_ne_nil (stretches_ne_nil rest)
  refine ⟨stretch, more, hs, ?_⟩
  rw [stretches, beq_false_of_ne hname, hs]
  rfl

/-- An insertion along a path that starts with a name places the value below the child under that
name. -/
theorem insertAlong_stretches (h : context.metadata = []) (above : String) :
    ∀ (rest : List String) (name : String) (g : RuleGroup), name ≠ wildcard →
      Apart (name :: rest) →
      insertAlong context value above (stretches (name :: rest)) g = g.update name (put value rest)
  | [], name, g, hname, _ => by
      rw [stretches, beq_false_of_ne hname]
      rfl
  | next :: more, name, g, hname, hapart => by
      obtain ⟨stretch, paths, hrest, hall⟩ := stretches_cons hname (next :: more)
      rw [hall, insertAlong_cons_cons h]
      congr 1
      funext child
      rw [put]
      by_cases hnext : next = wildcard
      · subst hnext
        have hsplit : stretches (wildcard :: more) = [] :: stretches more := rfl
        rw [hrest, List.cons.injEq] at hsplit
        obtain ⟨rfl, rfl⟩ := hsplit
        rw [if_pos rfl, if_pos rfl, insertAlong_cons]
        cases more with
        | nil => rfl
        | cons other rest =>
            have hother : other ≠ wildcard := by
              intro ho
              exact (List.isChain_cons_cons.mp hapart.tail).1 ⟨rfl, ho⟩
            obtain ⟨stretch, paths, _, hmore⟩ := stretches_cons hother rest
            have hafter : ∀ path, afterStretch context value path (stretches (other :: rest)) =
                insertAlong context value path (stretches (other :: rest)) := by
              intro path
              rw [hmore]
              rfl
            rw [descend, atLeftover, hafter]
            exact insertAlong_stretches h _ rest other child hother hapart.tail.tail
      · obtain ⟨stretch', paths', _, hall'⟩ := stretches_cons hnext more
        rw [hrest, List.cons.injEq] at hall'
        rw [← hrest, if_neg (hall'.1 ▸ List.cons_ne_nil _ _), if_neg hnext]
        exact insertAlong_stretches h above more next child.setObject hnext hapart.tail

/-- Inserting a value at a path places it below the child under the first name. -/
theorem insert_eq (h : context.metadata = []) {path name : String} {rest : List String}
    (hpath : names path = name :: rest) (hname : name ≠ wildcard) (hapart : Apart (name :: rest))
    (g : RuleGroup) : insert context path value g = g.update name (put value rest) := by
  rw [insert, ← insertAlong_stretches h "" rest name g hname hapart, ← hpath]
  rfl

end Insertion

/-- Groups with a value placed at a path. -/
def placeAt (value : RuleValue) :
    List String → List (String × RuleGroup) → List (String × RuleGroup)
  | [], groups => groups
  | name :: rest, groups => updateIn name (put value rest) groups

/-- The groups of a rule map. -/
def placed (rules : Table RuleValue) : List (String × RuleGroup) :=
  rules.foldl (fun groups e => placeAt e.2 (names e.1) groups) []

/-- What is read at an address after the value of each key was placed, one after the other. -/
def overlays (place : String → List String) (rules : Table RuleValue) (q : List String) :
    Option RuleValue :=
  rules.foldl (fun before e => overlay e.2 (place e.1) q before) none

/-- What is read at an address in the groups of a rule map. -/
def reading (rules : Table RuleValue) (q : List String) : Option RuleValue :=
  rules.foldl (fun before e => overlay e.2 (names e.1) q before) none

/-- No key of a rule map starts with a star or has two that follow each other, and no two keys use
the same place as an array and as an object. -/
structure Coherent (rules : Table RuleValue) : Prop where
  head : ∀ e ∈ rules, (names e.1).head? ≠ some wildcard
  apart : ∀ e ∈ rules, Apart (names e.1)
  unmixed : ∀ e ∈ rules, ∀ e' ∈ rules, ∀ q name,
    q ++ [wildcard] <+: names e.1 → q ++ [name] <+: names e'.1 → name = wildcard

/-- Groups under distinct names without dots and stars, each of them shaped. -/
structure ShapedAll (groups : List (String × RuleGroup)) : Prop where
  keys : (groups.map Prod.fst).Nodup
  names : ∀ p ∈ groups, IsName p.1 ∧ p.1 ≠ wildcard
  shaped : ∀ p ∈ groups, Shaped p.2

section Overlays

variable {rules : Table RuleValue} (place : String → List String)

theorem overlays_concat (e : String × RuleValue) (q : List String) :
    overlays place (rules ++ [e]) q = overlay e.2 (place e.1) q (overlays place rules q) := by
  simp only [overlays, List.foldl_append, List.foldl_cons, List.foldl_nil]

/-- Nothing is read at an address exactly when it is not on the way to a place. -/
theorem overlays_eq_none_iff {q : List String} :
    overlays place rules q = none ↔ ∀ e ∈ rules, ¬ q <+: place e.1 := by
  induction rules using List.reverseRecOn with
  | nil => exact ⟨fun _ _ he => absurd he List.not_mem_nil, fun _ => rfl⟩
  | append_singleton earlier e ih =>
      rw [overlays_concat, overlay]
      simp only [List.mem_append, List.mem_singleton, or_imp, forall_and, forall_eq, ← ih]
      by_cases hq : q <+: place e.1
      · simp only [hq, if_true, not_true_eq_false, and_false, iff_false]
        split <;> exact Option.some_ne_none _
      · have hne : q ≠ place e.1 := fun heq => hq (heq ▸ List.prefix_rfl)
        simp only [hne, hq, if_false, not_false_eq_true, and_true]

/-- What is read is absent, or it is the value of a key with that place. -/
theorem overlays_origin {q : List String} {u : RuleValue} (h : overlays place rules q = some u) :
    u = .absent ∨ ∃ e ∈ rules, place e.1 = q ∧ e.2 = u := by
  induction rules using List.reverseRecOn generalizing u with
  | nil => cases h
  | append_singleton earlier e ih =>
      have hearlier : ∀ {u}, overlays place earlier q = some u →
          u = .absent ∨ ∃ e' ∈ earlier ++ [e], place e'.1 = q ∧ e'.2 = u := by
        intro u hu
        rcases ih hu with hu | ⟨e', he', hplace⟩
        · exact .inl hu
        · exact .inr ⟨e', List.mem_append_left _ he', hplace⟩
      rw [overlays_concat, overlay] at h
      split at h
      · rename_i hq
        exact .inr ⟨e, List.mem_append_right _ List.mem_cons_self, hq.symm, Option.some.inj h⟩
      · cases hread : overlays place earlier q with
        | none =>
            rw [hread] at h
            split at h
            · exact .inl (Option.some.inj h).symm
            · cases h
        | some before =>
            rw [hread, Option.getD_some, ite_self] at h
            exact hearlier (hread.trans h)

/-- At the place of a key its value is read, unless a later key has the same place. -/
theorem overlays_of_last {earlier later : Table RuleValue} {e : String × RuleValue}
    (h : ∀ e' ∈ later, place e'.1 ≠ place e.1) :
    overlays place (earlier ++ e :: later) (place e.1) = some e.2 := by
  induction later using List.reverseRecOn with
  | nil => rw [overlays_concat, overlay, if_pos rfl]
  | append_singleton later last ih =>
      have hlast : place e.1 ≠ place last.1 :=
        (h last (List.mem_append_right _ List.mem_cons_self)).symm
      have hsplit : earlier ++ e :: (later ++ [last]) = earlier ++ e :: later ++ [last] := by
        rw [List.append_assoc, List.cons_append]
      rw [hsplit, overlays_concat, ih fun e' he' => h e' (List.mem_append_left _ he'), overlay,
        if_neg hlast, Option.getD_some, ite_self]

end Overlays

section Placed

variable {rules : Table RuleValue}

theorem Coherent.of_append {more : Table RuleValue} (h : Coherent (rules ++ more)) :
    Coherent rules where
  head e he := h.head e (List.mem_append_left _ he)
  apart e he := h.apart e (List.mem_append_left _ he)
  unmixed e he e' he' := h.unmixed e (List.mem_append_left _ he) e' (List.mem_append_left _ he')

/-- The names of a key of a coherent rule map start with a name that is no star. -/
theorem Coherent.names_eq (h : Coherent rules) {e : String × RuleValue} (he : e ∈ rules) :
    ∃ name rest, names e.1 = name :: rest ∧ name ≠ wildcard := by
  obtain ⟨name, rest, hnames⟩ := List.exists_cons_of_ne_nil (names_ne_nil e.1)
  refine ⟨name, rest, hnames, fun hname => h.head e he ?_⟩
  rw [hnames, hname, List.head?_cons]

theorem children_foldl_insert (context : Context) (hcontext : context.metadata = [])
    (h : Coherent rules) (g : RuleGroup) :
    (rules.foldl (fun g e => insert context e.1 e.2 g) g).children =
      rules.foldl (fun groups e => placeAt e.2 (names e.1) groups) g.children := by
  induction rules generalizing g with
  | nil => rfl
  | cons e more ih =>
      obtain ⟨name, rest, hnames, hname⟩ := h.names_eq (e := e) List.mem_cons_self
      have hapart := h.apart e List.mem_cons_self
      rw [hnames] at hapart
      have hmore : Coherent more :=
        ⟨fun x hx => h.head x (List.mem_cons_of_mem _ hx),
          fun x hx => h.apart x (List.mem_cons_of_mem _ hx),
          fun x hx y hy => h.unmixed x (List.mem_cons_of_mem _ hx) y (List.mem_cons_of_mem _ hy)⟩
      rw [List.foldl_cons, List.foldl_cons, ih hmore, insert_eq hcontext hnames hname hapart,
        children_update, hnames, placeAt]

/-- Without markers the groups are those that the entries are inserted into, one after the other. -/
theorem group_of_not_isMarked (metadata : Table FieldMetadata)
    (hmarked : ∀ e ∈ rules, Marker.isMarked e.1 = false) :
    group rules metadata = .ok (rules.foldl
      (fun g e => insert ⟨metadata, nestedObjectPaths rules metadata⟩ e.1 e.2 g) empty).children := by
  have hfilter : (rules.filter fun e => !Marker.isMarked e.1) = rules :=
    List.filter_eq_self.mpr fun e he => by rw [hmarked e he]; rfl
  have hmarkers : ∀ g, rules.foldlM (fun g e => applyMarker g e.1 e.2) g = .ok g := by
    clear hfilter
    intro g
    induction rules generalizing g with
    | nil => rfl
    | cons e more ih =>
        rw [List.foldlM_cons, applyMarker_of_not_isMarked (hmarked e List.mem_cons_self)]
        exact ih (fun x hx => hmarked x (List.mem_cons_of_mem _ hx)) g
  simp only [group, hfilter, hmarkers]
  rfl

/-- The groups of a coherent rule map without markers and metadata. -/
theorem group_eq_placed (h : Coherent rules)
    (hmarked : ∀ e ∈ rules, Marker.isMarked e.1 = false) : group rules [] = .ok (placed rules) := by
  rw [group_of_not_isMarked [] hmarked]
  exact congrArg Except.ok (children_foldl_insert ⟨[], nestedObjectPaths rules []⟩ rfl h empty)

/-- Placing a value keeps groups shaped, and is read back as an overlay. -/
theorem placeAt_spec {groups : List (String × RuleGroup)} (value : RuleValue) {path : List String}
    (hgroups : ShapedAll groups) (hpath : IsAddress path) (hhead : path.head? ≠ some wildcard)
    (hapart : Apart path) (hunmixed : Unmixed path (findAll groups)) :
    ShapedAll (placeAt value path groups) ∧
      ∀ q, q ≠ [] → findAll (placeAt value path groups) q =
        overlay value path q (findAll groups q) := by
  cases path with
  | nil =>
      refine ⟨hgroups, fun q hq => ?_⟩
      obtain ⟨name, rest, rfl⟩ := List.exists_cons_of_ne_nil hq
      rw [overlay_nil_cons]
      rfl
  | cons name rest =>
      have hname : name ≠ wildcard := fun hname => hhead (by rw [hname, List.head?_cons])
      have hchild : Shaped (childD groups name) := shaped_childD hgroups.shaped
      have hfits := (fits_of_unmixed rest hapart.tail).1 _ hchild
        (hunmixed.tail.imp fun _ hq => find_childD_eq_none hq)
      have hrest : IsAddress rest := fun n hn => hpath n (List.mem_cons_of_mem _ hn)
      refine ⟨⟨nodup_keys_updateIn hgroups.keys, fun p hp => ?_, fun p hp => ?_⟩, fun q hq => ?_⟩
      · rcases mem_updateIn hp with hp | rfl
        · exact hgroups.names p hp
        · exact ⟨hpath name List.mem_cons_self, hname⟩
      · rcases mem_updateIn hp with hp | rfl
        · exact hgroups.shaped p hp
        · exact (shaped_put rest hrest).1 _ hchild hfits
      · obtain ⟨other, more, rfl⟩ := List.exists_cons_of_ne_nil hq
        exact findAll_updateIn ((find_put rest).1 _ hfits) other more

theorem placed_concat (e : String × RuleValue) :
    placed (rules ++ [e]) = placeAt e.2 (names e.1) (placed rules) := by
  simp only [placed, List.foldl_append, List.foldl_cons, List.foldl_nil]

theorem reading_concat (e : String × RuleValue) (q : List String) :
    reading (rules ++ [e]) q = overlay e.2 (names e.1) q (reading rules q) := overlays_concat names e q

/-- Nothing is read at an address exactly when it is not on the way to a key. -/
theorem reading_eq_none_iff {q : List String} :
    reading rules q = none ↔ ∀ e ∈ rules, ¬ q <+: names e.1 := overlays_eq_none_iff names

/-- At an address that is no key only absent values are read. -/
theorem reading_eq_absent {q : List String} {u : RuleValue} (h : reading rules q = some u)
    (hkey : ∀ e ∈ rules, names e.1 ≠ q) : u = .absent := by
  rcases overlays_origin names h with habsent | ⟨e, he, hplace, -⟩
  · exact habsent
  · exact absurd hplace (hkey e he)

/-- At a key its own value is read. -/
theorem reading_key (hkeys : rules.keys.Nodup) {e : String × RuleValue} (he : e ∈ rules) :
    reading rules (names e.1) = some e.2 := by
  obtain ⟨earlier, later, rfl⟩ := List.append_of_mem he
  refine overlays_of_last names fun e' he' heq => ?_
  rw [Table.keys, List.map_append, List.map_cons] at hkeys
  have hnew := (List.nodup_cons.mp (List.nodup_append.mp hkeys).2.1).1
  exact hnew (names_injective heq ▸ List.mem_map_of_mem he')

/-- Groups of a coherent rule map are shaped and read as the rule map. -/
theorem placed_spec (h : Coherent rules) :
    ShapedAll (placed rules) ∧ ∀ q, q ≠ [] → findAll (placed rules) q = reading rules q := by
  induction rules using List.reverseRecOn with
  | nil =>
      refine ⟨⟨.nil, fun _ hp => ?_, fun _ hp => ?_⟩, fun q hq => ?_⟩
      · cases hp
      · cases hp
      obtain ⟨name, rest, rfl⟩ := List.exists_cons_of_ne_nil hq
      rfl
  | append_singleton earlier e ih =>
      obtain ⟨hgroups, hread⟩ := ih h.of_append
      have he : e ∈ earlier ++ [e] := List.mem_append_right _ List.mem_cons_self
      have hunmixed : Unmixed (names e.1) (findAll (placed earlier)) := by
        intro q name hname
        constructor
        · intro hq
          rw [hread _ (by simp), reading_eq_none_iff]
          intro e' he' hq'
          exact hname (h.unmixed e he e' (List.mem_append_left _ he') q name hq hq')
        · intro hq
          rw [hread _ (by simp), reading_eq_none_iff]
          intro e' he' hq'
          exact hname (h.unmixed e' (List.mem_append_left _ he') e he q name hq' hq)
      obtain ⟨hshaped, hplaced⟩ := placeAt_spec e.2 hgroups
        (fun n hn => isName_of_mem_names hn) (h.head e he) (h.apart e he) hunmixed
      rw [placed_concat]
      exact ⟨hshaped, fun q hq => by rw [hplaced q hq, hread q hq, reading_concat]⟩

end Placed

end RuleSchema.Grouping
