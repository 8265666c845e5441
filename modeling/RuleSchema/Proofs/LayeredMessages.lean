import RuleSchema.Proofs.DataEquality
import RuleSchema.Proofs.DottedLookups

/-!
# Layers of messages

A layer of messages replaces the values below it leaf by leaf. What it does not mention keeps its
value, also beside the keys of a map that it mentions in part. The keys of the lower layer stay in
their order, and new ones follow.

## Implementation notes

Each key of a map is a key once, up to the equality of data, which is not equality of terms. So the
lemmas about maps speak of all keys that are the same as a given one.
-/

namespace RuleSchema

namespace Datum

variable {entries : List (Datum × Datum)} {key other value : Datum}

theorem lookup?_eq_none_iff :
    lookup? key entries = none ↔ ∀ k ∈ entries.map Prod.fst, same k key = false := by
  induction entries with
  | nil => exact ⟨fun _ => List.forall_mem_nil _, fun _ => rfl⟩
  | cons e rest ih =>
      obtain ⟨k, v⟩ := e
      rw [lookup?, List.map_cons, List.forall_mem_cons, ← ih]
      split
      · rename_i hsame
        exact ⟨fun h => (Option.some_ne_none _ h).elim, fun h => absurd hsame (by simp [h.1])⟩
      · rename_i hsame
        exact ⟨fun h => ⟨Bool.eq_false_iff.mpr hsame, h⟩, And.right⟩

/-- The value under a key is the value under every key that is the same. -/
theorem lookup?_congr (h : same key other = true) (entries : List (Datum × Datum)) :
    lookup? key entries = lookup? other entries := by
  induction entries with
  | nil => rfl
  | cons e rest ih =>
      obtain ⟨k, v⟩ := e
      rw [lookup?, lookup?, ih, same_comm k key, same_comm k other, same_congr h k]

theorem lookup?_putEntry (entries : List (Datum × Datum)) (key other value : Datum) :
    lookup? other (putEntry entries key value) =
      if same key other then some value else lookup? other entries := by
  induction entries with
  | nil => rfl
  | cons e rest ih =>
      obtain ⟨k, v⟩ := e
      rw [putEntry]
      by_cases hkey : same k key = true
      · rw [if_pos hkey, lookup?, lookup?, same_congr hkey other]
        split <;> rfl
      · rw [if_neg hkey, lookup?, lookup?, ih]
        by_cases hother : same k other = true
        · have hne : ¬ same key other = true := fun h =>
            hkey (same_trans k hother (same_comm key other ▸ h))
          rw [if_pos hother, if_pos hother, if_neg hne]
        · rw [if_neg hother, if_neg hother]

/-- A present key keeps its place, and a new one comes last. -/
theorem keys_putEntry (entries : List (Datum × Datum)) (key value : Datum) :
    (putEntry entries key value).map Prod.fst =
      entries.map Prod.fst ++ if (lookup? key entries).isNone then [key] else [] := by
  induction entries with
  | nil => rfl
  | cons e rest ih =>
      obtain ⟨k, v⟩ := e
      rw [putEntry, lookup?]
      split
      · exact (List.append_nil _).symm
      · rw [List.map_cons, ih, List.map_cons, List.cons_append]

/-- No two keys of entries are the same. -/
def keysDiffer : List (Datum × Datum) → Bool
  | [] => true
  | (key, _) :: rest => (lookup? key rest).isNone && keysDiffer rest

end Datum

namespace MessageMap

open Datum

/-- Each key stands once in its map, at any depth. -/
def IsKeyed (m : MessageMap) : Prop := everyMap keysDiffer (.map m) = true

instance (m : MessageMap) : Decidable m.IsKeyed := inferInstanceAs (Decidable (_ = true))

section Merges

variable {base override : MessageMap} {value : Datum}

theorem overlay_of_not_isMap (h : value.isMap = false) (held : Option Datum) :
    overlay held value = value := by
  cases value with
  | map entries => cases h
  | _ => rw [overlay]; nofun

theorem overlay_map (base entries : MessageMap) :
    overlay (some (.map base)) (.map entries) = .map (merge base entries) := by
  rw [overlay]

/-- Where there is no map below it, a map replaces what there is. -/
theorem overlay_of_no_map {held : Option Datum} (h : ∀ base, held ≠ some (.map base))
    (entries : MessageMap) : overlay held (.map entries) = .map entries := by
  rw [overlay]
  exact h

/-- Under a key of a merged map is the value of the upper layer over that of the lower one. -/
theorem lookup?_merge (h : keysDiffer override = true) (base : MessageMap) (key : Datum) :
    Datum.lookup? key (merge base override) =
      match Datum.lookup? key override with
      | some value => some (overlay (Datum.lookup? key base) value)
      | none => Datum.lookup? key base := by
  induction override generalizing base with
  | nil => rw [merge]; rfl
  | cons e rest ih =>
      obtain ⟨first, value⟩ := e
      rw [keysDiffer, Bool.and_eq_true] at h
      rw [merge, ih h.2, put, lookup?_putEntry, Datum.lookup?]
      by_cases hkey : same first key = true
      · have hnone : Datum.lookup? key rest = none :=
          lookup?_congr hkey rest ▸ Option.isNone_iff_eq_none.mp h.1
        rw [if_pos hkey, if_pos hkey, hnone, lookup?_congr hkey base]
      · rw [if_neg hkey, if_neg hkey]

/-- The keys of a merged map are those of the lower layer and then the new ones. -/
theorem keys_merge (h : keysDiffer override = true) (base : MessageMap) :
    (merge base override).map Prod.fst = base.map Prod.fst ++
      (override.map Prod.fst).filter fun key => (Datum.lookup? key base).isNone := by
  induction override generalizing base with
  | nil => rw [merge]; exact (List.append_nil _).symm
  | cons e rest ih =>
      obtain ⟨first, value⟩ := e
      rw [keysDiffer, Bool.and_eq_true] at h
      have hlater : ∀ key ∈ rest.map Prod.fst,
          (Datum.lookup? key
              (putEntry base first (overlay (Datum.lookup? first base) value))).isNone =
            (Datum.lookup? key base).isNone := by
        intro key hkey
        have hother := Datum.lookup?_eq_none_iff.mp (Option.isNone_iff_eq_none.mp h.1) key hkey
        rw [lookup?_putEntry, same_comm, hother, if_neg Bool.false_ne_true]
      rw [merge, ih h.2, put, List.filter_congr hlater, keys_putEntry, List.append_assoc,
        List.map_cons, List.filter_cons]
      split <;> rfl

/-- A value of the upper layer that is no map replaces what stands below it. -/
theorem follow?_merge_of_leaf (h : override.IsKeyed) (base : MessageMap) {keys : List Datum}
    (hleaf : (Datum.map override).follow? keys = some value) (hvalue : value.isMap = false) :
    (Datum.map (merge base override)).follow? keys = some value := by
  induction keys generalizing base override with
  | nil =>
      cases hleaf
      cases hvalue
  | cons key rest ih =>
      obtain ⟨found, hfound, hrest⟩ := Option.bind_eq_some_iff.mp hleaf
      rw [follow?_map_cons, lookup?_merge (everyMap_map_iff.mp h).1, hfound]
      dsimp only
      rw [Option.bind_some]
      by_cases hmap : found.isMap = true
      · obtain ⟨entries, rfl⟩ := exists_of_isMap hmap
        by_cases hbase : ∃ below, Datum.lookup? key base = some (.map below)
        · obtain ⟨below, hbelow⟩ := hbase
          rw [hbelow, overlay_map]
          exact ih (everyMap_of_lookup? h hfound) below hrest
        · rw [overlay_of_no_map fun below hbelow => hbase ⟨below, hbelow⟩]
          exact hrest
      · rw [overlay_of_not_isMap (Bool.eq_false_iff.mpr hmap)]
        exact hrest

/-- What the upper layer neither has nor cuts off is what the lower layer has. -/
theorem follow?_merge_of_absent (h : override.IsKeyed) (base : MessageMap) {keys : List Datum}
    (habsent : (Datum.map override).follow? keys = none)
    (hmaps : ∀ before value, before <+: keys → before ≠ keys →
      (Datum.map override).follow? before = some value → value.isMap = true) :
    (Datum.map (merge base override)).follow? keys = (Datum.map base).follow? keys := by
  induction keys generalizing base override with
  | nil => cases habsent
  | cons key rest ih =>
      rw [follow?_map_cons, follow?_map_cons, lookup?_merge (everyMap_map_iff.mp h).1]
      rw [follow?_map_cons] at habsent
      cases hfound : Datum.lookup? key override with
      | none => rfl
      | some found =>
          rw [hfound, Option.bind_some] at habsent
          have hne : rest ≠ [] := by
            rintro rfl
            rw [follow?_nil] at habsent
            cases habsent
          have hmap : found.isMap = true := by
            refine hmaps [key] found ((List.prefix_cons_inj key).mpr rest.nil_prefix) ?_ ?_
            · exact fun heq => hne (List.cons.inj heq).2.symm
            · rw [follow?_map_cons, hfound, Option.bind_some, follow?_nil]
          obtain ⟨entries, rfl⟩ := exists_of_isMap hmap
          dsimp only
          rw [Option.bind_some]
          by_cases hbase : ∃ below, Datum.lookup? key base = some (.map below)
          · obtain ⟨below, hbelow⟩ := hbase
            rw [hbelow, overlay_map, Option.bind_some]
            refine ih (everyMap_of_lookup? h hfound) below habsent ?_
            intro before value hbefore hproper hvalue
            refine hmaps (key :: before) value ((List.prefix_cons_inj key).mpr hbefore) ?_ ?_
            · exact fun heq => hproper (List.cons.inj heq).2
            · rw [follow?_map_cons, hfound, Option.bind_some]
              exact hvalue
          · rw [overlay_of_no_map fun below hbelow => hbase ⟨below, hbelow⟩, habsent]
            -- below a leaf of the lower layer there is nothing either
            obtain ⟨next, more, rfl⟩ := List.exists_cons_of_ne_nil hne
            cases hheld : Datum.lookup? key base with
            | none => rfl
            | some held =>
                have hleaf : held.isMap = false := by
                  by_contra hmap
                  obtain ⟨below, rfl⟩ := exists_of_isMap (Bool.not_eq_false _ ▸ hmap)
                  exact hbase ⟨below, hheld⟩
                exact (follow?_cons_of_not_isMap hleaf next more).symm

/-- A layer replaces what it has leaf by leaf and keeps all that it does not mention; its new keys
come behind those of the layer below. -/
theorem merge_overrides_leaves (h : override.IsKeyed) (base : MessageMap) :
    (∀ keys value, (Datum.map override).follow? keys = some value → value.isMap = false →
      (Datum.map (merge base override)).follow? keys = some value) ∧
    (∀ keys, (Datum.map override).follow? keys = none →
      (∀ before value, before <+: keys → before ≠ keys →
        (Datum.map override).follow? before = some value → value.isMap = true) →
      (Datum.map (merge base override)).follow? keys = (Datum.map base).follow? keys) ∧
    (merge base override).map Prod.fst = base.map Prod.fst ++
      (override.map Prod.fst).filter fun key => (Datum.lookup? key base).isNone :=
  ⟨fun _ _ => follow?_merge_of_leaf h base, fun _ => follow?_merge_of_absent h base,
    keys_merge (everyMap_map_iff.mp h).1 base⟩

/-- Built-in messages, in part of maps. -/
def builtInLayer : MessageMap :=
  [(.text "min", .map [(.text "numeric", .text "At least :min."),
      (.text "string", .text "At least :min characters.")]),
    (.text "size", .map [(.text "file", .text ":size kilobytes.")]),
    (.text "required", .text "Required.")]

/-- Messages over them: a part of a map, a text in place of a map, a map in place of a text, and a
new key. -/
def projectLayer : MessageMap :=
  [(.text "required", .map [(.text "email", .text "Mail please.")]),
    (.text "url", .text "No address."),
    (.text "size", .text "Wrong size."),
    (.text "min", .map [(.text "numeric", .text "Too small.")])]

/-- The merged messages have the new leaf, the old one beside it, and all keys in order. -/
theorem projectLayer_overrides :
    projectLayer.IsKeyed ∧
    (Datum.map (merge builtInLayer projectLayer)).follow? [.text "min", .text "numeric"] =
      some (.text "Too small.") ∧
    (Datum.map (merge builtInLayer projectLayer)).follow? [.text "min", .text "string"] =
      some (.text "At least :min characters.") ∧
    (merge builtInLayer projectLayer).map Prod.fst =
      [.text "min", .text "size", .text "required", .text "url"] := by
  have hkeyed : projectLayer.IsKeyed := by decide
  obtain ⟨hleaf, habsent, hkeys⟩ := merge_overrides_leaves hkeyed builtInLayer
  refine ⟨hkeyed, hleaf _ _ rfl rfl, (habsent _ rfl ?_).trans rfl, hkeys.trans rfl⟩
  intro before value hbefore hproper hvalue
  change before <+: [Datum.text "min"] ++ [Datum.text "string"] at hbefore
  rcases List.prefix_concat_iff.mp hbefore with heq | hbefore
  · exact absurd heq hproper
  · change before <+: [] ++ [Datum.text "min"] at hbefore
    rcases List.prefix_concat_iff.mp hbefore with rfl | hbefore
    · cases hvalue
      rfl
    · obtain rfl := List.prefix_nil.mp hbefore
      cases hvalue
      rfl

end Merges

end MessageMap

end RuleSchema
