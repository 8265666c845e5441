import RuleSchema.Proofs.SegmentCounts

/-!
# Gaps between segments

A rule text is its segments in their order with a gap before, between and behind them, and a gap holds
nothing but pipes and blanks. Brackets and patterns that stay open and a backslash at the end make no
difference: what they hold up to the end of the text belongs to a segment.
-/

namespace RuleSchema

namespace Text

section Ends

variable {cs : List Char}

/-- A text without a blank at either end. -/
structure IsTrimmed (cs : List Char) : Prop where
  first : ∀ c ∈ cs.head?, isBlank c = false
  last : ∀ c ∈ cs.getLast?, isBlank c = false

theorem stripStart_eq_self_iff :
    stripStart isBlank cs = cs ↔ ∀ c ∈ cs.head?, isBlank c = false := by
  cases cs with
  | nil => simp [stripStart]
  | cons c rest =>
      have hless := (List.dropWhile_sublist isBlank (l := rest)).length_le
      cases hc : isBlank c with
      | true =>
          refine iff_of_false (fun heq => ?_) (by simp [hc])
          rw [stripStart, List.dropWhile_cons_of_pos hc] at heq
          rw [heq, List.length_cons] at hless
          omega
      | false => exact iff_of_true (List.dropWhile_cons_of_neg (by simp [hc])) (by simp [hc])

theorem stripEnd_eq_self_iff :
    stripEnd isBlank cs = cs ↔ ∀ c ∈ cs.getLast?, isBlank c = false := by
  rcases List.eq_nil_or_concat cs with rfl | ⟨init, c, rfl⟩
  · simp
  · rw [List.concat_eq_append]
    cases hc : isBlank c with
    | true =>
        refine iff_of_false (fun heq => ?_) (by simp [hc])
        obtain ⟨tail, hsplit, -⟩ := exists_append_stripEnd isBlank init
        rw [stripEnd_append_blank (List.forall_mem_singleton.mpr hc)] at heq
        have hlength := congrArg List.length hsplit
        rw [heq, List.length_append, List.length_append, List.length_singleton] at hlength
        omega
    | false => exact iff_of_true (Segment.stripEnd_append_cons hc init []) (by simp [hc])

theorem isTrimmed_iff : IsTrimmed cs ↔ trimChars cs = cs := by
  constructor
  · intro h
    rw [trimChars, strip, stripStart_eq_self_iff.mpr h.first, stripEnd_eq_self_iff.mpr h.last]
  · intro h
    have hstart := stripStart_trimChars cs
    rw [h] at hstart
    rw [trimChars, strip, hstart] at h
    exact ⟨stripStart_eq_self_iff.mp hstart, stripEnd_eq_self_iff.mp h⟩

end Ends

end Text

namespace Segment

open Text

/-- A text consists of segments in their order, with a gap of pipes and blanks before, between and
behind them. -/
inductive Spaced : List Char → List String → Prop
  | gap {gap} (hgap : ∀ c ∈ gap, isGap c = true) : Spaced gap []
  | segment {gap s rest segments} (hgap : ∀ c ∈ gap, isGap c = true)
      (tail : Spaced rest segments) : Spaced (gap ++ s.toList ++ rest) (s :: segments)

section Spaced

variable {cs a b gap : List Char} {segments first last : List String}

/-- A gap before a text becomes part of its first gap. -/
theorem Spaced.prepend (h : Spaced cs segments) (hgap : ∀ c ∈ gap, isGap c = true) :
    Spaced (gap ++ cs) segments := by
  cases h with
  | gap hcs => exact .gap (List.forall_mem_append.mpr ⟨hgap, hcs⟩)
  | segment hcs tail =>
      rw [← List.append_assoc, ← List.append_assoc]
      exact .segment (List.forall_mem_append.mpr ⟨hgap, hcs⟩) tail

theorem Spaced.append (h : Spaced a first) (h' : Spaced b last) :
    Spaced (a ++ b) (first ++ last) := by
  induction h with
  | gap hgap => exact h'.prepend hgap
  | segment hgap tail ih =>
      rw [List.append_assoc _ _ b]
      exact .segment hgap ih

/-- The segments of a text that is cut into raw segments. -/
def trimmedPieces (pieces : List (List Char)) : List String :=
  ((pieces.map trimChars).filter (! ·.isEmpty)).map String.ofList

theorem trimmedPieces_cons (piece : List Char) (pieces : List (List Char)) :
    trimmedPieces (piece :: pieces) = trimmedPieces [piece] ++ trimmedPieces pieces := by
  rw [trimmedPieces, trimmedPieces, trimmedPieces, ← List.map_append, ← List.filter_append,
    ← List.map_append, List.singleton_append]

/-- A raw segment is a segment between blanks, or blank. -/
theorem spaced_piece (piece : List Char) : Spaced piece (trimmedPieces [piece]) := by
  have hgap : ∀ cs : List Char, (∀ c ∈ cs, isBlank c = true) → ∀ c ∈ cs, isGap c = true :=
    fun cs h c hc => by rw [isGap, h c hc, Bool.or_true]
  have hbefore : ∀ c ∈ piece.takeWhile isBlank, isBlank c = true :=
    List.all_eq_true.mp List.all_takeWhile
  obtain ⟨behind, hsplit, hbehind⟩ := exists_append_stripEnd isBlank (stripStart isBlank piece)
  have hpiece : piece = piece.takeWhile isBlank ++ trimChars piece ++ behind := by
    rw [List.append_assoc, trimChars, strip, ← hsplit, stripStart, List.takeWhile_append_dropWhile]
  rw [trimmedPieces, List.map_singleton]
  generalize trimChars piece = kept at hpiece
  rw [hpiece]
  cases kept with
  | nil =>
      rw [List.append_nil]
      exact .gap (List.forall_mem_append.mpr ⟨hgap _ hbefore, hgap _ hbehind⟩)
  | cons c kept =>
      have hsegment := Spaced.segment (s := String.ofList (c :: kept)) (hgap _ hbefore)
        (.gap (hgap _ hbehind))
      rwa [String.toList_ofList] at hsegment

theorem isGap_pipe : ∀ c ∈ ['|'], isGap c = true := List.forall_mem_singleton.mpr rfl

theorem Spaced.of_dropPipe (h : Spaced (dropPipe cs) segments) : Spaced cs segments := by
  unfold dropPipe at h
  split at h
  · exact h.prepend isGap_pipe
  · exact h

/-- The scan leaves out nothing but pipes between the raw segments. -/
theorem spaced_scan (cs : List Char) : Spaced cs (trimmedPieces (scan [] [] cs)) := by
  induction hsize : cs.length using Nat.strongRecOn generalizing cs with
  | ind size ih =>
      cases starts cs with
      | @pattern span rest hspan hscan =>
          have htail := ih _ (hsize ▸ length_patternSpan?_lt hspan) (dropPipe rest) rfl
          rw [hscan, trimmedPieces_cons, (patternSpan?_append hspan).1]
          exact (spaced_piece span).append htail.of_dropPipe
      | whole hnone hpasses hscan =>
          rw [hscan]
          exact spaced_piece cs
      | @pipe init more hcs hnone hpasses hscan =>
          have hless : more.length < size := by
            rw [← hsize, hcs, List.length_append, List.length_cons]
            omega
          rw [hscan, trimmedPieces_cons, hcs]
          exact (spaced_piece init).append ((ih _ hless more rfl).prepend isGap_pipe)

end Spaced

/-- A rule text is its segments with gaps of pipes and blanks around them; the segments are not empty
and have no blank at either end. -/
theorem split_conserves (rules : String) :
    (∀ s ∈ split rules, s ≠ "" ∧ IsTrimmed s.toList) ∧ Spaced rules.toList (split rules) := by
  refine ⟨fun s hs => ?_, spaced_scan rules.toList⟩
  obtain ⟨piece, -, hkept, rfl⟩ := exists_piece_of_mem_split hs
  constructor
  · intro hempty
    rw [← String.toList_inj, String.toList_ofList] at hempty
    exact hkept hempty
  · rw [String.toList_ofList]
    exact isTrimmed_iff.mpr (trimChars_trimChars piece)

/-- A bracket that stays open and a backslash at the end belong to the last segment. -/
example : split " max:3 || in:(a|b\\" = ["max:3", "in:(a|b\\"] := by decide +kernel

end Segment

end RuleSchema
