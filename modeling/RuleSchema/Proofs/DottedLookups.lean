import RuleSchema.Message.Catalog
import RuleSchema.Proofs.DottedPaths

/-!
# Dotted look-ups

A dotted key can be cut at some of its dots into keys that may have dots themselves. A look-up takes
the uncut key where it is there, and otherwise a cut whose keys lead from map to map to a value. It
finds a value whenever there is such a cut.

## Implementation notes

The look-up grows a head and uses up the pieces behind it in one recursion through two maps.
`lookup?_eq` lists the cuts in two beside it and leaves one recursion into the smaller map.
-/

namespace RuleSchema

namespace Datum

/-- The value that keys lead to, from map to map. -/
def follow? : Datum → List Datum → Option Datum
  | d, [] => some d
  | map entries, key :: rest => (lookup? key entries).bind (follow? · rest)
  | _, _ :: _ => none

@[simp] theorem follow?_nil (d : Datum) : d.follow? [] = some d := by
  cases d <;> rfl

@[simp] theorem follow?_map_cons (entries : List (Datum × Datum)) (key : Datum)
    (rest : List Datum) :
    (map entries).follow? (key :: rest) = (lookup? key entries).bind (follow? · rest) := rfl

/-- Whether a datum is a map. -/
def isMap : Datum → Bool
  | map _ => true
  | _ => false

theorem exists_of_isMap {d : Datum} (h : d.isMap) : ∃ entries, d = map entries := by
  cases d with
  | map entries => exact ⟨entries, rfl⟩
  | _ => cases h

/-- Behind a key a path goes on in maps only. -/
theorem follow?_cons_of_not_isMap {d : Datum} (h : d.isMap = false) (key : Datum)
    (rest : List Datum) : d.follow? (key :: rest) = none := by
  cases d with
  | map entries => cases h
  | _ => rfl

mutual
/-- Whether a condition holds of a datum, where it is a map, and of every map among the values of
maps in it. -/
def everyMap (p : List (Datum × Datum) → Bool) : Datum → Bool
  | map entries => p entries && everyMapAmong p entries
  | _ => true
/-- Whether a condition holds of every map among the values of entries. -/
def everyMapAmong (p : List (Datum × Datum) → Bool) : List (Datum × Datum) → Bool
  | [] => true
  | (_, value) :: rest => everyMap p value && everyMapAmong p rest
end

variable {p : List (Datum × Datum) → Bool} {entries : List (Datum × Datum)} {key value : Datum}

theorem everyMap_map_iff :
    everyMap p (map entries) = true ↔ p entries = true ∧ everyMapAmong p entries = true := by
  rw [everyMap, Bool.and_eq_true]

theorem mem_of_lookup? (h : lookup? key entries = some value) : ∃ k, (k, value) ∈ entries := by
  induction entries with
  | nil => cases h
  | cons e rest ih =>
      obtain ⟨k, v⟩ := e
      rw [lookup?] at h
      split at h
      · cases h
        exact ⟨k, List.mem_cons_self⟩
      · obtain ⟨k', hk'⟩ := ih h
        exact ⟨k', List.mem_cons_of_mem _ hk'⟩

theorem everyMap_of_mem (h : everyMapAmong p entries = true) (hmem : (key, value) ∈ entries) :
    everyMap p value = true := by
  induction entries with
  | nil => cases hmem
  | cons e rest ih =>
      obtain ⟨k, v⟩ := e
      rw [everyMapAmong, Bool.and_eq_true] at h
      rcases List.mem_cons.mp hmem with heq | hmem
      · cases heq
        exact h.1
      · exact ih h.2 hmem

/-- What holds of every map holds of every map below a key. -/
theorem everyMap_of_lookup? (h : everyMap p (map entries) = true)
    (hvalue : lookup? key entries = some value) : everyMap p value = true := by
  obtain ⟨k, hmem⟩ := mem_of_lookup? hvalue
  exact everyMap_of_mem (everyMap_map_iff.mp h).2 hmem

end Datum

namespace MessageMap

open DottedPath

/-- Keys are a cut of a dotted key. -/
def IsCut (key : String) (keys : List String) : Prop := keys ≠ [] ∧ Text.join "." keys = key

/-- The value that texts lead to, from map to map. -/
def follow? (m : MessageMap) (keys : List String) : Option Datum :=
  (Datum.map m).follow? (keys.map .text)

/-- No map has a null value, at any depth. -/
def IsFilled (m : MessageMap) : Prop :=
  Datum.everyMap (fun entries => entries.all fun e => (present? e.2).isSome) (.map m) = true

instance (m : MessageMap) : Decidable m.IsFilled := inferInstanceAs (Decidable (_ = true))

section Filled

variable {m node : MessageMap} {key : String} {value : Datum}

theorem present?_eq_some_iff {d : Datum} : present? d = some value ↔ d = value ∧ d ≠ .absent := by
  unfold MessageMap.present?
  split
  · exact ⟨fun h => (Option.some_ne_none _ h.symm).elim, fun h => absurd rfl h.2⟩
  · rename_i hne
    exact ⟨fun h => ⟨Option.some.inj h, hne⟩, fun h => congrArg some h.1⟩

theorem IsFilled.present? (h : m.IsFilled) (hvalue : m.get? key = some value) :
    present? value = some value := by
  obtain ⟨k, hmem⟩ := Datum.mem_of_lookup? hvalue
  obtain ⟨d, hd⟩ := Option.isSome_iff_exists.mp
    (List.all_eq_true.mp (Datum.everyMap_map_iff.mp h).1 _ hmem)
  exact present?_eq_some_iff.mpr ⟨rfl, (present?_eq_some_iff.mp hd).2⟩

theorem IsFilled.below (h : m.IsFilled) (hnode : m.get? key = some (.map node)) : node.IsFilled :=
  Datum.everyMap_of_lookup? h hnode

end Filled

section Cuts

/-- The cuts in two behind a head, which takes over one piece after the other. -/
def cutsFrom (head : String) : List String → List (String × String)
  | [] => []
  | piece :: rest => (head, ofNames (piece :: rest)) :: cutsFrom (head ++ "." ++ piece) rest

/-- The cuts of a key in two, the earliest first. -/
def cuts (key : String) : List (String × String) :=
  match names key with
  | [] => []
  | head :: rest => cutsFrom head rest

theorem mem_cutsFrom_iff {head : String} {pieces : List String} {cut : String × String} :
    cut ∈ cutsFrom head pieces ↔ ∃ before after, pieces = before ++ after ∧ after ≠ [] ∧
      cut = (ofNames (head :: before), ofNames after) := by
  induction pieces generalizing head with
  | nil =>
      constructor
      · intro h
        cases h
      · rintro ⟨before, after, h, hne, -⟩
        exact absurd (List.append_eq_nil_iff.mp h.symm).2 hne
  | cons piece rest ih =>
      rw [cutsFrom, List.mem_cons, ih]
      constructor
      · rintro (rfl | ⟨before, after, rfl, hne, rfl⟩)
        · exact ⟨[], piece :: rest, rfl, List.cons_ne_nil _ _, rfl⟩
        · exact ⟨piece :: before, after, rfl, hne, by rw [ofNames_cons_cons]⟩
      · rintro ⟨before, after, h, hne, rfl⟩
        cases before with
        | nil =>
            obtain rfl : piece :: rest = after := h
            exact .inl rfl
        | cons first before =>
            obtain ⟨rfl, rfl⟩ := List.cons.inj h
            exact .inr ⟨before, after, rfl, hne, by rw [ofNames_cons_cons]⟩

theorem names_append_dot (head rest : String) :
    names (head ++ "." ++ rest) = names head ++ names rest := by
  have hdot : ".".toList = ['.'] := by decide
  rw [names, Text.splitOn, String.toList_append, String.toList_append, hdot, List.append_assoc,
    List.singleton_append, splitBy_append_sep, List.map_append]
  rfl

theorem ofNames_append {before after : List String} (hbefore : before ≠ []) (hafter : after ≠ []) :
    ofNames (before ++ after) = ofNames before ++ "." ++ ofNames after := by
  induction before with
  | nil => exact absurd rfl hbefore
  | cons name rest ih =>
      by_cases hrest : rest = []
      · subst hrest
        exact (ofNames_cons name hafter).trans String.append_assoc.symm
      · rw [List.cons_append, ofNames_cons name (List.append_ne_nil_of_left_ne_nil hrest _),
          ih hrest, ofNames_cons name hrest]
        simp only [String.append_assoc]

/-- The cuts of a key are its parts before and behind one of its dots. -/
theorem mem_cuts_iff {key head rest : String} :
    (head, rest) ∈ cuts key ↔ head ++ "." ++ rest = key := by
  obtain ⟨first, pieces, hnames⟩ := List.exists_cons_of_ne_nil (names_ne_nil key)
  simp only [cuts, hnames, mem_cutsFrom_iff, Prod.mk.injEq]
  constructor
  · rintro ⟨before, after, rfl, hne, rfl, rfl⟩
    rw [← ofNames_append (List.cons_ne_nil _ _) hne, List.cons_append, ← hnames, ofNames_names]
  · rintro rfl
    obtain ⟨start, before, hhead⟩ := List.exists_cons_of_ne_nil (names_ne_nil head)
    rw [names_append_dot, hhead, List.cons_append] at hnames
    obtain ⟨rfl, rfl⟩ := List.cons.inj hnames
    exact ⟨before, names rest, rfl, names_ne_nil rest, by rw [← hhead, ofNames_names],
      (ofNames_names rest).symm⟩

end Cuts

section Lookups

variable {m : MessageMap} {key : String} {value : Datum}

/-- The value under the second part of a cut in two, in the map under the first. -/
def below? (m : MessageMap) (cut : String × String) : Option Datum :=
  match m.get? cut.1 with
  | some (.map node) => lookup? node cut.2
  | _ => none

theorem below?_eq_some_iff {cut : String × String} :
    m.below? cut = some value ↔
      ∃ node, m.get? cut.1 = some (.map node) ∧ lookup? node cut.2 = some value := by
  rw [below?]
  split
  · rename_i node hnode
    rw [hnode]
    constructor
    · exact fun h => ⟨node, rfl, h⟩
    · rintro ⟨_, ⟨⟩, h⟩
      exact h
  · rename_i hother
    constructor
    · intro h
      cases h
    · rintro ⟨node, hnode, -⟩
      exact absurd hnode (hother node)

theorem lookup?_of_names {head : String} {rest : List String} (h : names key = head :: rest) :
    m.lookup? key = match m.get? key with
      | some value => present? value
      | none => m.descend? head rest := by
  have hpieces : Text.splitOn '.' key = head :: rest := h
  unfold lookup?
  cases m.get? key with
  | some value => rfl
  | none => simp only [hpieces]

/-- A descent tries the cuts in two, the earliest first. -/
theorem descend?_eq {pieces : List String} (h : IsAddress pieces) (m : MessageMap) (head : String) :
    m.descend? head pieces = (cutsFrom head pieces).findSome? m.below? := by
  induction pieces generalizing head with
  | nil => rfl
  | cons piece rest ih =>
      have hnames : names (Text.join "." (piece :: rest)) = piece :: rest :=
        names_ofNames (List.cons_ne_nil _ _) h
      have hrest : IsAddress rest := fun name hname => h name (List.mem_cons_of_mem _ hname)
      rw [descend?, cutsFrom, List.findSome?_cons, ← ih hrest, below?, ofNames]
      cases m.get? head with
      | none => rfl
      | some d =>
          cases d with
          | map node =>
              dsimp only
              rw [lookup?_of_names hnames]
              cases MessageMap.get? node (Text.join "." (piece :: rest)) with
              | none => cases descend? node piece rest <;> rfl
              | some value =>
                  dsimp only
                  cases present? value <;> rfl
          | _ => rfl

/-- A look-up takes the uncut key where it is there, and otherwise tries the cuts in two. -/
theorem lookup?_eq (m : MessageMap) (key : String) :
    m.lookup? key = match m.get? key with
      | some value => present? value
      | none => (cuts key).findSome? m.below? := by
  obtain ⟨head, rest, hnames⟩ := List.exists_cons_of_ne_nil (names_ne_nil key)
  have haddress : IsAddress rest := by
    intro name hname
    have hmem : name ∈ names key := hnames ▸ List.mem_cons_of_mem head hname
    exact isName_of_mem_names hmem
  rw [lookup?_of_names hnames, descend?_eq haddress]
  simp only [cuts, hnames]

theorem follow?_singleton (m : MessageMap) (key : String) : m.follow? [key] = m.get? key := by
  change (Datum.lookup? (.text key) m).bind _ = _
  simp [get?]

theorem follow?_cons {first : String} {rest : List String} (hne : rest ≠ []) :
    m.follow? (first :: rest) = some value ↔
      ∃ node, m.get? first = some (.map node) ∧ follow? node rest = some value := by
  obtain ⟨next, more, rfl⟩ := List.exists_cons_of_ne_nil hne
  rw [follow?, List.map_cons, Datum.follow?_map_cons, Option.bind_eq_some_iff]
  constructor
  · rintro ⟨d, hd, hrest⟩
    cases d with
    | map node => exact ⟨node, hd, hrest⟩
    | _ => cases hrest
  · rintro ⟨node, hnode, hrest⟩
    exact ⟨.map node, hnode, hrest⟩

theorem IsCut.cons {head rest : String} {keys : List String} (h : IsCut rest keys) :
    IsCut (head ++ "." ++ rest) (head :: keys) :=
  ⟨List.cons_ne_nil _ _, (ofNames_cons head h.1).trans
    (by rw [ofNames, h.2, String.append_assoc])⟩

/-- What a look-up finds is the value at the end of a cut. -/
theorem exists_cut_of_lookup? (h : m.lookup? key = some value) :
    ∃ keys, IsCut key keys ∧ m.follow? keys = some value := by
  induction hlength : key.length using Nat.strongRecOn generalizing m key with
  | _ length ih =>
      rw [lookup?_eq] at h
      split at h
      · rename_i found hfound
        obtain ⟨rfl, -⟩ := present?_eq_some_iff.mp h
        exact ⟨[key], ⟨List.cons_ne_nil _ _, rfl⟩, (follow?_singleton m key).trans hfound⟩
      · obtain ⟨⟨head, rest⟩, hcut, hbelow⟩ := List.exists_of_findSome?_eq_some h
        obtain ⟨node, hnode, hlookup⟩ := below?_eq_some_iff.mp hbelow
        obtain rfl := mem_cuts_iff.mp hcut
        have hshorter : rest.length < length := by
          have hdot : ".".length = 1 := by decide
          rw [← hlength, String.length_append, String.length_append, hdot]
          omega
        obtain ⟨keys, hkeys, hfollow⟩ := ih _ hshorter hlookup rfl
        exact ⟨head :: keys, hkeys.cons, (follow?_cons hkeys.1).mpr ⟨node, hnode, hfollow⟩⟩

/-- Without null values a look-up misses no cut that leads to a value. -/
theorem lookup?_isSome_of_cut (hm : m.IsFilled) {keys : List String} (hkeys : IsCut key keys)
    (hfollow : m.follow? keys = some value) : (m.lookup? key).isSome := by
  obtain ⟨hne, rfl⟩ := hkeys
  induction keys generalizing m with
  | nil => exact absurd rfl hne
  | cons first rest ih =>
      rw [lookup?_eq]
      split
      · rename_i found hfound
        rw [hm.present? hfound]
        rfl
      · rename_i hmissing
        by_cases hrest : rest = []
        · subst hrest
          rw [follow?_singleton] at hfollow
          cases hmissing.symm.trans hfollow
        · obtain ⟨node, hnode, hfollow⟩ := (follow?_cons hrest).mp hfollow
          have hbelow := ih (hm.below hnode) hfollow hrest
          have hcut : (first, Text.join "." rest) ∈ cuts (Text.join "." (first :: rest)) :=
            mem_cuts_iff.mpr ((ofNames_cons first hrest).trans String.append_assoc.symm).symm
          obtain ⟨found, hfound⟩ := Option.isSome_iff_exists.mp hbelow
          rw [List.findSome?_isSome_iff]
          exact ⟨_, hcut, Option.isSome_iff_exists.mpr
            ⟨found, below?_eq_some_iff.mpr ⟨node, hnode, hfound⟩⟩⟩

/-- In maps without null values a look-up finds something exactly when the key has a cut that leads
from map to map to a value, and then the value at the end of one of them. The uncut key comes
before all cuts. -/
theorem lookup_sound_complete (hm : m.IsFilled) (key : String) :
    ((m.lookup? key).isSome ↔ ∃ keys value, IsCut key keys ∧ m.follow? keys = some value) ∧
    (∀ value, m.lookup? key = some value → ∃ keys, IsCut key keys ∧ m.follow? keys = some value) ∧
    ∀ value, m.get? key = some value → m.lookup? key = some value := by
  refine ⟨⟨fun h => ?_, ?_⟩, fun value => exists_cut_of_lookup?, fun value hvalue => ?_⟩
  · obtain ⟨value, hvalue⟩ := Option.isSome_iff_exists.mp h
    obtain ⟨keys, hkeys, hfollow⟩ := exists_cut_of_lookup? hvalue
    exact ⟨keys, value, hkeys, hfollow⟩
  · rintro ⟨keys, value, hkeys, hfollow⟩
    exact lookup?_isSome_of_cut hm hkeys hfollow
  · rw [lookup?_eq, hvalue]
    exact hm.present? hvalue

/-- Messages with dots in their keys. Of the longest key, shorter starts are keys that lead
nowhere. -/
def dottedMessages : MessageMap :=
  [(.text "custom", .map [
      (.text "items", .map [(.text "*", .map [(.text "size", .text "Size.")])]),
      (.text "items.*", .map [(.text "name", .text "Name.")]),
      (.text "items.*.name", .map [(.text "required", .text "Name please.")])]),
    (.text "custom.items", .map [(.text "", .text "Items.")])]

/-- The look-up goes back to the first map and on to a longer key. -/
theorem lookup_goes_back :
    dottedMessages.IsFilled ∧
    dottedMessages.follow? ["custom", "items.*.name", "required"] = some (.text "Name please.") ∧
    (dottedMessages.lookup? "custom.items.*.name.required").isSome := by
  have hfilled : dottedMessages.IsFilled := by decide
  have hfollow : dottedMessages.follow? ["custom", "items.*.name", "required"] =
      some (.text "Name please.") := rfl
  exact ⟨hfilled, hfollow, (lookup_sound_complete hfilled _).1.mpr
    ⟨_, _, ⟨List.cons_ne_nil _ _, by decide⟩, hfollow⟩⟩

end Lookups

end MessageMap

end RuleSchema
