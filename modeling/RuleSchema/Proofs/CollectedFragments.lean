import Mathlib.Data.List.Basic
import Mathlib.Data.List.Induction
import Mathlib.Tactic.Tauto
import RuleSchema.Proofs.ResolvedTrees

/-!
# Collected fragments

The fragments of a field are merged in the order in which its rules carry them. A replacing fragment
that comes first stays. Appended code grows, and all that is kept of the fragments met so far is
their code laid end to end. So a fragment is known again only if its code is all that has been
collected. The fragments are combined once each exactly where that tells repeats from new code at
every step.
-/

namespace RuleSchema

/-- The fragment that an item of a rule list carries. -/
def RuleValue.fragment? : RuleValue → Option Fragment
  | .rule r => r.fragment
  | .datum (.object o) => o.fragment
  | _ => none

namespace Fragment

/-- Fragments merged from left to right. -/
def mergeAll (fragments : List Fragment) : Option Fragment :=
  fragments.foldl (fun held f => some (merge held f)) none

/-- The codes of the fragments that are appended, in order. -/
def appendedCodes (fragments : List Fragment) : List String :=
  (fragments.filter isAppend).map code

/-- The appended codes laid end to end, each once and where it is first met. -/
def combinedCode (fragments : List Fragment) : String :=
  String.join (appendedCodes fragments).eraseDups

/-- Whether the combined code tells if an appended fragment is a repeat of one met before. Code
without characters makes no difference. -/
def IsRecognized (met : List Fragment) (f : Fragment) : Prop :=
  f.mode = .append → f.code ≠ "" → (f.code ∈ appendedCodes met ↔ f.code = combinedCode met)

section Steps

variable {met rest : List Fragment} {f first : Fragment} {code : String}

theorem mergeAll_concat (met : List Fragment) (f : Fragment) :
    mergeAll (met ++ [f]) = some (merge (mergeAll met) f) := by
  rw [mergeAll, List.foldl_append]
  rfl

theorem isAppend_iff : f.isAppend = true ↔ f.mode = .append := beq_iff_eq

theorem appendedCodes_concat (met : List Fragment) (f : Fragment) :
    appendedCodes (met ++ [f]) =
      if f.mode = .append then appendedCodes met ++ [f.code] else appendedCodes met := by
  rw [appendedCodes, List.filter_append, List.map_append]
  by_cases hmode : f.mode = .append
  · rw [if_pos hmode, List.filter_singleton, isAppend_iff.mpr hmode]
    rfl
  · rw [if_neg hmode, List.filter_singleton, Bool.eq_false_iff.mpr (mt isAppend_iff.mp hmode)]
    exact List.append_nil _

theorem appendedCodes_first (h : first.mode = .append) : appendedCodes [first] = [first.code] := by
  rw [← List.nil_append [first], appendedCodes_concat, if_pos h]
  rfl

/-- Appended code that is held grows by appended code other than itself. -/
theorem merge_append (code : String) (f : Fragment) :
    merge (some ⟨code, .append⟩) f =
      ⟨if f.mode = .append ∧ f.code ≠ code then code ++ f.code else code, .append⟩ := by
  have hheld : isAppend ⟨code, .append⟩ = true := rfl
  simp only [merge, beq_iff_eq, hheld, Bool.true_and, isAppend_iff]
  by_cases hcode : f.code = code
  · rw [if_pos hcode.symm, if_neg fun h => h.2 hcode]
  · rw [if_neg (Ne.symm hcode)]
    by_cases hmode : f.mode = .append
    · rw [if_pos hmode, if_pos ⟨hmode, hcode⟩]
    · rw [if_neg hmode, if_neg fun h => hmode h.1]

/-- The combined code grows by appended code that has not been met. -/
theorem combinedCode_concat (met : List Fragment) (f : Fragment) :
    combinedCode (met ++ [f]) =
      if f.mode = .append ∧ f.code ∉ appendedCodes met then combinedCode met ++ f.code
      else combinedCode met := by
  rw [combinedCode, appendedCodes_concat]
  by_cases hmode : f.mode = .append
  · rw [if_pos hmode, List.eraseDups_append, List.cons_removeAll, List.nil_removeAll,
      String.join_append]
    by_cases hmet : f.code ∈ appendedCodes met
    · rw [if_neg (by simpa using hmet), if_neg fun h => h.2 hmet]
      exact String.append_empty
    · rw [if_pos (by simpa using hmet), if_pos ⟨hmode, hmet⟩]
      simp [combinedCode, List.eraseDups_cons]
  · rw [if_neg hmode, if_neg fun h => hmode h.1, combinedCode]

/-- A replacing fragment that is held is never given up. -/
theorem foldl_merge_replace (h : first.mode = .replace) (rest : List Fragment) :
    rest.foldl (fun held f => some (merge held f)) (some first) = some first := by
  induction rest with
  | nil => rfl
  | cons f rest ih => rw [List.foldl_cons, merge_replace h, ih]

theorem mergeAll_replace (h : first.mode = .replace) (rest : List Fragment) :
    mergeAll (first :: rest) = some first := foldl_merge_replace h rest

/-- Two conditions on whether a text grows by another come to the same unless the other is empty. -/
theorem grown_eq_iff {p q : Prop} [Decidable p] [Decidable q] {held more : String} :
    (if p then held ++ more else held) = (if q then held ++ more else held) ↔
      (more ≠ "" → (p ↔ q)) := by
  have hgrows : held ++ more = held ↔ more = "" := String.append_eq_left_iff
  by_cases hp : p <;> by_cases hq : q <;> simp [hp, hq, hgrows, eq_comm (a := held)]

/-- From what is combined, one more fragment gives what is combined exactly if it is recognized. -/
theorem mergeAll_concat_eq_iff (h : mergeAll met = some ⟨combinedCode met, .append⟩) :
    mergeAll (met ++ [f]) = some ⟨combinedCode (met ++ [f]), .append⟩ ↔ IsRecognized met f := by
  rw [mergeAll_concat, h, merge_append, combinedCode_concat, Option.some.injEq, Fragment.mk.injEq,
    and_iff_left rfl, grown_eq_iff, IsRecognized]
  tauto

/-- The fragments met are combined at every step exactly if each is recognized among those before
it. -/
theorem mergeAll_eq_combined_iff (h : first.mode = .append) (rest : List Fragment) :
    (∀ met, met <+: rest → mergeAll (first :: met) = some ⟨combinedCode (first :: met), .append⟩) ↔
      ∀ met f, met ++ [f] <+: rest → IsRecognized (first :: met) f := by
  have hfirst : mergeAll [first] = some ⟨combinedCode [first], .append⟩ := by
    rw [combinedCode, appendedCodes_first h, ← h, List.eraseDups_cons]
    simp [mergeAll]
  constructor
  · intro hall met f hmet
    refine (mergeAll_concat_eq_iff (hall met ?_)).mp (hall (met ++ [f]) hmet)
    exact (List.prefix_append met [f]).trans hmet
  · intro hall met
    induction met using List.reverseRecOn with
    | nil => exact fun _ => hfirst
    | append_singleton met f ih =>
        intro hmet
        have hbefore := ih ((List.prefix_append met [f]).trans hmet)
        exact (mergeAll_concat_eq_iff hbefore).mpr (hall met f hmet)

/-- Only appended code that is neither empty nor all of what is held changes what is held. -/
theorem merge_eq_self_iff :
    merge (some ⟨code, .append⟩) f = ⟨code, .append⟩ ↔
      (f.mode = .append → f.code = code ∨ f.code = "") := by
  rw [merge_append, Fragment.mk.injEq, and_iff_left rfl]
  by_cases hchanges : f.mode = .append ∧ f.code ≠ code
  · rw [if_pos hchanges, String.append_eq_left_iff]
    exact ⟨fun h _ => .inr h, fun h => (h hchanges.1).resolve_left hchanges.2⟩
  · rw [if_neg hchanges]
    simp only [true_iff]
    exact fun hmode => .inl (not_not.mp fun hcode => hchanges ⟨hmode, hcode⟩)

/-- Code that is one of several, where all others are the same or have no characters. -/
def IsOnlyOf (held : String) (codes : List String) : Prop :=
  held ∈ codes ∧ ∀ a ∈ codes, a = held ∨ a = ""

/-- What is held grows to the only code of the longer list if one of the two has no characters or
both are the same. -/
theorem IsOnlyOf.concat {held more : String} {codes : List String} (h : IsOnlyOf held codes)
    (hsame : more ≠ "" → held ≠ "" → more = held) :
    IsOnlyOf (if more ≠ held then held ++ more else held) (codes ++ [more]) := by
  obtain ⟨hheld, hothers⟩ := h
  by_cases hempty : held = ""
  · have hgrown : (if more ≠ held then held ++ more else held) = more := by
      rw [hempty, String.empty_append]
      by_cases hmore : more = "" <;> simp [hmore]
    rw [hgrown]
    refine ⟨List.mem_append_right _ (List.mem_singleton_self _), fun a ha => ?_⟩
    obtain ha | ha := List.mem_append.mp ha
    · exact .inr ((hothers a ha).elim (fun hsame => hsame.trans hempty) id)
    · exact .inl (List.mem_singleton.mp ha)
  · have hkept : more = held ∨ more = "" := by
      by_cases hmore : more = ""
      · exact .inr hmore
      · exact .inl (hsame hmore hempty)
    have hgrown : (if more ≠ held then held ++ more else held) = held := by
      rcases hkept with rfl | rfl <;> simp
    rw [hgrown]
    refine ⟨List.mem_append_left _ hheld, fun a ha => ?_⟩
    obtain ha | ha := List.mem_append.mp ha
    · exact hothers a ha
    · rwa [List.mem_singleton.mp ha]

/-- As long as no two codes with characters are different, what is held is the only one of them. -/
theorem exists_held_of_uniform (h : first.mode = .append) (met : List Fragment)
    (huniform : ∀ a ∈ appendedCodes (first :: met), ∀ b ∈ appendedCodes (first :: met),
      a ≠ "" → b ≠ "" → a = b) :
    ∃ held, mergeAll (first :: met) = some ⟨held, .append⟩ ∧
      IsOnlyOf held (appendedCodes (first :: met)) := by
  induction met using List.reverseRecOn with
  | nil =>
      refine ⟨first.code, h ▸ rfl, ?_⟩
      rw [appendedCodes_first h]
      exact ⟨List.mem_singleton_self _, fun a ha => .inl (List.mem_singleton.mp ha)⟩
  | append_singleton met f ih =>
      rw [← List.cons_append, appendedCodes_concat] at huniform ⊢
      rw [mergeAll_concat]
      by_cases hmode : f.mode = .append
      · rw [if_pos hmode] at huniform ⊢
        obtain ⟨held, hmerged, honly⟩ := ih fun a ha b hb =>
          huniform a (List.mem_append_left _ ha) b (List.mem_append_left _ hb)
        rw [hmerged, merge_append]
        refine ⟨_, by simp only [hmode, true_and], honly.concat ?_⟩
        exact huniform _ (List.mem_append_right _ (List.mem_singleton_self _)) _
          (List.mem_append_left _ honly.1)
      · rw [if_neg hmode] at huniform ⊢
        obtain ⟨held, hmerged, honly⟩ := ih huniform
        rw [hmerged, merge_append, if_neg fun h => hmode h.1]
        exact ⟨held, rfl, honly⟩

theorem exists_mergeAll_append (h : first.mode = .append) (met : List Fragment) :
    ∃ held, mergeAll (first :: met) = some ⟨held, .append⟩ := by
  induction met using List.reverseRecOn with
  | nil => exact ⟨first.code, h ▸ rfl⟩
  | append_singleton met f ih =>
      obtain ⟨held, hheld⟩ := ih
      rw [← List.cons_append, mergeAll_concat, hheld, merge_append]
      exact ⟨_, rfl⟩

/-- Merging any of the codes again changes nothing exactly if no two codes with characters are
different. -/
theorem merge_again_iff (h : first.mode = .append)
    (hmerged : mergeAll (first :: met) = some ⟨code, .append⟩) :
    (∀ f, f.code ∈ appendedCodes (first :: met) →
        merge (mergeAll (first :: met)) f = ⟨code, .append⟩) ↔
      ∀ a ∈ appendedCodes (first :: met), ∀ b ∈ appendedCodes (first :: met),
        a ≠ "" → b ≠ "" → a = b := by
  rw [hmerged]
  constructor
  · intro hsame
    have hall : ∀ a ∈ appendedCodes (first :: met), a ≠ "" → a = code := fun a ha hne =>
      (merge_eq_self_iff.mp (hsame ⟨a, .append⟩ ha) rfl).resolve_right hne
    intro a ha b hb hane hbne
    rw [hall a ha hane, hall b hb hbne]
  · intro huniform f hf
    obtain ⟨held, hheld, -, hothers⟩ := exists_held_of_uniform h met huniform
    obtain rfl : code = held := by
      rw [hmerged] at hheld
      cases hheld
      rfl
    exact merge_eq_self_iff.mpr fun _ => hothers f.code hf

end Steps

end Fragment

namespace NormalizedRules

open Fragment

/-- The fragment of one more item is merged into the collected one. -/
theorem fragment_of_addItem {n next : NormalizedRules} {item : RuleValue}
    (h : n.addItem item = .ok next) :
    next.fragment =
      item.fragment?.toList.foldl (fun held f => some (merge held f)) n.fragment := by
  cases item with
  | absent => cases h; rfl
  | text s =>
      rw [addItem] at h
      split at h
      · cases h; rfl
      · obtain ⟨_, -, h⟩ := exists_of_bind h
        cases h; rfl
  | list | tuple =>
      obtain ⟨_, -, h⟩ := exists_of_bind h
      cases h; rfl
  | rule r =>
      obtain ⟨_, -, h⟩ := exists_of_bind h
      cases h
      cases hfragment : r.fragment <;> simp [RuleValue.fragment?, addFragment, addEntries, hfragment]
  | datum d =>
      cases d with
      | object o =>
          obtain ⟨_, -, h⟩ := exists_of_bind h
          cases h
          cases hfragment : o.fragment <;>
            simp [RuleValue.fragment?, addFragment, addEntries, hfragment]
      | truth | absent | entry => cases h; rfl
      | _ =>
          obtain ⟨_, -, h⟩ := exists_of_bind h
          cases h; rfl

/-- The fragment of a list of rules is what the fragments of its items are merged into. -/
theorem fragment_of_normalize {items : List RuleValue} {n : NormalizedRules}
    (h : normalize (.list items) = .ok n) :
    n.fragment = mergeAll (items.filterMap RuleValue.fragment?) := by
  have hfold : ∀ start : NormalizedRules, items.foldlM addItem start = .ok n →
      n.fragment = (items.filterMap RuleValue.fragment?).foldl
        (fun held f => some (merge held f)) start.fragment := by
    clear h
    induction items with
    | nil =>
        rintro start ⟨⟩
        rfl
    | cons item rest ih =>
        intro start h
        obtain ⟨next, hnext, hrest⟩ := exists_of_bind h
        rw [ih next hrest, fragment_of_addItem hnext]
        cases hitem : item.fragment? <;> simp [hitem]
  exact hfold empty h

end NormalizedRules

namespace Fragment

/-- The fragment of a list of rules is what the fragments of its items are merged into. A replacing
fragment that comes first stays. After an appended one the result is appended code. It is each code
once at every step exactly where each fragment is recognized among those before it, and merging a
code again changes nothing exactly where no two codes with characters are different. -/
theorem combined_once_iff (first : Fragment) (rest : List Fragment) :
    (∀ items n, NormalizedRules.normalize (.list items) = .ok n →
      n.fragment = mergeAll (items.filterMap RuleValue.fragment?)) ∧
    (first.mode = .replace → mergeAll (first :: rest) = some first) ∧
    (first.mode = .append → ∃ code, mergeAll (first :: rest) = some ⟨code, .append⟩ ∧
      ((∀ met, met <+: rest →
          mergeAll (first :: met) = some ⟨combinedCode (first :: met), .append⟩) ↔
        ∀ met f, met ++ [f] <+: rest → IsRecognized (first :: met) f) ∧
      ((∀ f, f.code ∈ appendedCodes (first :: rest) →
          merge (mergeAll (first :: rest)) f = ⟨code, .append⟩) ↔
        ∀ a ∈ appendedCodes (first :: rest), ∀ b ∈ appendedCodes (first :: rest),
          a ≠ "" → b ≠ "" → a = b)) := by
  refine ⟨fun _ _ => NormalizedRules.fragment_of_normalize, fun h => mergeAll_replace h rest,
    fun h => ?_⟩
  obtain ⟨code, hmerged⟩ := exists_mergeAll_append h rest
  exact ⟨code, hmerged, mergeAll_eq_combined_iff h rest, merge_again_iff h hmerged⟩

/-- A repeat right after the first code, with a replacing fragment between them, is recognized. -/
theorem bounds_combined_once :
    (⟨".min(1)", .append⟩ : Fragment).mode = .append ∧
      mergeAll [⟨".min(1)", .append⟩, ⟨"z.any()", .replace⟩, ⟨".min(1)", .append⟩,
        ⟨".max(3)", .append⟩] = some ⟨".min(1).max(3)", .append⟩ := by
  refine ⟨rfl, ?_⟩
  obtain ⟨-, -, hiff, -⟩ := (combined_once_iff ⟨".min(1)", .append⟩ [⟨"z.any()", .replace⟩,
    ⟨".min(1)", .append⟩, ⟨".max(3)", .append⟩]).2.2 rfl
  refine hiff.mpr (fun met f hmet => ?_) _ List.prefix_rfl
  match met, hmet with
  | [], hmet =>
      obtain rfl : f = ⟨"z.any()", .replace⟩ := by simpa using hmet
      rintro ⟨⟩
  | [a], hmet =>
      obtain ⟨rfl, rfl⟩ : a = ⟨"z.any()", .replace⟩ ∧ f = ⟨".min(1)", .append⟩ := by simpa using hmet
      intro _ _
      decide
  | [a, b], hmet =>
      obtain ⟨rfl, rfl, rfl⟩ : a = ⟨"z.any()", .replace⟩ ∧ b = ⟨".min(1)", .append⟩ ∧
        f = ⟨".max(3)", .append⟩ := by simpa using hmet
      intro _ _
      decide
  | _ :: _ :: _ :: _, hmet =>
      have hlength := hmet.length_le
      simp only [List.length_append, List.length_cons, List.length_nil] at hlength
      omega

/-- After a second code the first one is not known again. -/
theorem bound_collected_twice :
    mergeAll [⟨".min(1)", .append⟩, ⟨".max(3)", .append⟩, ⟨".min(1)", .append⟩] =
        some ⟨".min(1).max(3).min(1)", .append⟩ ∧
      combinedCode [⟨".min(1)", .append⟩, ⟨".max(3)", .append⟩, ⟨".min(1)", .append⟩] =
        ".min(1).max(3)" ∧
      merge (mergeAll [⟨".min(1)", .append⟩, ⟨".max(3)", .append⟩]) ⟨".min(1)", .append⟩ ≠
        ⟨".min(1).max(3)", .append⟩ := by
  decide

end Fragment

end RuleSchema
