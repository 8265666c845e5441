import Mathlib.Algebra.GroupWithZero.Nat
import Mathlib.Algebra.Order.BigOperators.Group.List
import Mathlib.Algebra.Order.Group.Nat
import Mathlib.Data.Finset.Card
import Mathlib.Data.List.Perm.Subperm
import RuleSchema.Inheritance
import RuleSchema.Proofs.ResolvedTrees
import RuleSchema.Proofs.SegmentCounts

/-!
# Inherited rules

A rule value that is inherited is turned into the list of its items first. A rule text becomes the
list of its rules, and repeats of a rule are left out, so it keeps its meaning. The texts of a list
are single rules to the reader of rules, but they are split once more when they are inherited. So a
list keeps its meaning exactly where each of its texts is one rule to both.

## Implementation notes

That nothing else keeps the meaning is a matter of counting. A text that is split at a pipe has more
pipes than its segments, and a pattern that loses what follows it is shorter than before. Leaving out
repeats makes nothing longer, so no text that is split can be made good by the others.
-/

namespace RuleSchema

namespace RuleValue

section Merge

variable {existing incoming v item other : RuleValue} {items : List RuleValue}

theorem itemList_of_mem_itemList (h : item ∈ v.itemList) : item.itemList = [item] := by
  cases v with
  | text s =>
      obtain ⟨segment, hsegment, rfl⟩ := List.mem_map.mp h
      rw [itemList, Segment.split_of_mem_split hsegment, List.map_singleton]
  | absent | list | tuple | rule | datum =>
      obtain rfl := List.mem_singleton.mp h
      rfl

/-- The items of a rule value are items of themselves. -/
theorem itemList_of_mem_toList (h : item ∈ v.toList) : item.itemList = [item] := by
  cases v with
  | absent => cases h
  | text s => exact itemList_of_mem_itemList (v := .text s) h
  | list items | tuple items =>
      obtain ⟨given, -, hitem⟩ := List.mem_flatMap.mp h
      exact itemList_of_mem_itemList hitem
  | rule | datum =>
      obtain rfl := List.mem_singleton.mp h
      rfl

/-- Only a text itself is found as the text. -/
theorem any_isSame_iff {s : String} : items.any (addItem.isSame s) = true ↔ text s ∈ items := by
  constructor
  · intro hany
    obtain ⟨found, hfound, hs⟩ := List.any_eq_true.mp hany
    cases found with
    | text t => rwa [beq_iff_eq.mp hs]
    | absent | list | tuple | rule | datum => cases hs
  · exact fun hmem => List.any_eq_true.mpr ⟨text s, hmem, beq_self_eq_true s⟩

theorem mem_addItem : other ∈ addItem items item ↔ other ∈ items ∨ other = item := by
  cases item with
  | text s =>
      rw [addItem]
      split
      · rename_i hsame
        exact ⟨.inl, fun h => h.elim id (fun heq => heq ▸ any_isSame_iff.mp hsame)⟩
      · rw [List.mem_append, List.mem_singleton]
  | absent | list | tuple | rule | datum => simp [addItem]

theorem mem_foldl_addItem {more : List RuleValue} :
    item ∈ more.foldl addItem items ↔ item ∈ items ∨ item ∈ more := by
  induction more generalizing items with
  | nil => simp
  | cons first rest ih => rw [List.foldl_cons, ih, mem_addItem, List.mem_cons, or_assoc]

/-- Merging has the items of both values. -/
theorem mem_merge :
    item ∈ merge existing incoming ↔ item ∈ existing.toList ∨ item ∈ incoming.toList := by
  rw [merge, mem_foldl_addItem]

/-- Merged items are not split any further. -/
theorem toList_list_merge : (list (merge existing incoming)).toList = merge existing incoming := by
  have hfixed : ∀ item ∈ merge existing incoming, item.itemList = [item] := fun item h =>
    (mem_merge.mp h).elim itemList_of_mem_toList itemList_of_mem_toList
  rw [toList, List.flatMap_congr hfixed]
  exact List.flatMap_singleton' _

end Merge

end RuleValue

/-- Texts without those that stood before. -/
def withoutRepeats (seen : List String) : List String → List String
  | [] => []
  | s :: rest =>
    if s ∈ seen then withoutRepeats seen rest else s :: withoutRepeats (seen ++ [s]) rest

/-- Texts are kept except for some that stood before. -/
inductive DropsRepeats : List String → List String → List String → Prop
  | nil {seen} : DropsRepeats seen [] []
  | keep {seen s rest kept} (tail : DropsRepeats (seen ++ [s]) rest kept) :
      DropsRepeats seen (s :: rest) (s :: kept)
  | drop {seen s rest kept} (hs : s ∈ seen) (tail : DropsRepeats seen rest kept) :
      DropsRepeats seen (s :: rest) kept

section Repeats

variable {seen texts kept : List String} {s : String}

theorem dropsRepeats_withoutRepeats (seen texts : List String) :
    DropsRepeats seen texts (withoutRepeats seen texts) := by
  fun_induction withoutRepeats seen texts with
  | case1 => exact .nil
  | case2 seen s rest hs ih => exact .drop hs ih
  | case3 seen s rest hs ih => exact .keep ih

theorem DropsRepeats.mem_iff (h : DropsRepeats seen texts kept) :
    s ∈ seen ∨ s ∈ kept ↔ s ∈ seen ∨ s ∈ texts := by
  induction h with
  | nil => rfl
  | keep tail ih =>
      simp only [List.mem_append, List.mem_cons, List.not_mem_nil, or_false, ← or_assoc] at ih ⊢
      exact ih
  | drop hs tail ih =>
      rw [ih, List.mem_cons]
      constructor
      · exact fun h => h.imp_right .inr
      · rintro (h | rfl | h)
        · exact .inl h
        · exact .inl hs
        · exact .inr h

theorem nodup_withoutRepeats (seen texts : List String) :
    (withoutRepeats seen texts).Nodup ∧ ∀ s ∈ withoutRepeats seen texts, s ∉ seen := by
  fun_induction withoutRepeats seen texts with
  | case1 => exact ⟨.nil, fun _ h => absurd h List.not_mem_nil⟩
  | case2 seen s rest hs ih => exact ih
  | case3 seen s rest hs ih =>
      refine ⟨List.nodup_cons.mpr ⟨fun hmem => ih.2 s hmem (by simp), ih.1⟩, fun t ht => ?_⟩
      rcases List.mem_cons.mp ht with rfl | ht
      · exact hs
      · exact fun hseen => ih.2 t ht (List.mem_append_left _ hseen)

/-- Adding texts to texts leaves out those that are there. -/
theorem foldl_addItem_texts (seen texts : List String) :
    (texts.map RuleValue.text).foldl RuleValue.addItem (seen.map .text) =
      (seen ++ withoutRepeats seen texts).map .text := by
  fun_induction withoutRepeats seen texts with
  | case1 => rw [List.append_nil]; rfl
  | case2 seen s rest hs ih =>
      have hsame : (seen.map RuleValue.text).any (RuleValue.addItem.isSame s) = true :=
        RuleValue.any_isSame_iff.mpr (List.mem_map_of_mem hs)
      rw [List.map_cons, List.foldl_cons, RuleValue.addItem, if_pos hsame, ih]
  | case3 seen s rest hs ih =>
      have hsame : ¬ (seen.map RuleValue.text).any (RuleValue.addItem.isSame s) = true := by
        intro hany
        obtain ⟨t, ht, heq⟩ := List.mem_map.mp (RuleValue.any_isSame_iff.mp hany)
        exact hs (RuleValue.text.inj heq ▸ ht)
      have hadded : seen.map RuleValue.text ++ [.text s] = (seen ++ [s]).map .text := by
        rw [List.map_append, List.map_singleton]
      rw [List.map_cons, List.foldl_cons, RuleValue.addItem, if_neg hsame, hadded, ih,
        List.append_assoc, List.singleton_append]

/-- A value whose items are texts is inherited as these texts without repeats. -/
theorem merge_absent_of_texts {v : RuleValue} (h : v.toList = texts.map .text) :
    RuleValue.merge .absent v = (withoutRepeats [] texts).map .text := by
  rw [RuleValue.merge, h]
  exact foldl_addItem_texts [] texts

end Repeats

namespace Segment

open RuleEntry

/-- Whether a text of a list is read as a rule: a blank text is not. -/
def isRule (s : String) : Bool := ! Text.isEmpty (Text.trim s)

section Rules

variable {s t : String} {cs : List Char}

theorem trimChars_eq_nil_iff : Text.trimChars cs = [] ↔ visible cs = 0 := by
  constructor
  · intro h
    rw [← visible_trimChars, h]
    rfl
  · intro h
    rw [visible, List.countP_eq_zero] at h
    refine Text.stripEnd_eq_nil_iff.mpr fun c hc => ?_
    simpa using h c ((List.dropWhile_sublist _).mem hc)

theorem isRule_iff : isRule s = true ↔ 0 < visible s.toList := by
  rw [Nat.pos_iff_ne_zero, Ne, ← trimChars_eq_nil_iff, isRule, Text.isEmpty, Text.trim,
    String.toList_ofList]
  simp

/-- The segments of a text are rules. -/
theorem isRule_of_mem_split (h : t ∈ split s) : isRule t = true ∧ Text.trim t = t := by
  obtain ⟨piece, -, hkept, rfl⟩ := exists_piece_of_mem_split h
  have htrim := Text.trimChars_trimChars piece
  simp only [isRule, Text.isEmpty, Text.trim, String.toList_ofList, htrim]
  exact ⟨by simpa using hkept, trivial⟩

theorem visible_flatten_splitChars_le (cs : List Char) :
    visible (splitChars cs).flatten ≤ visible cs :=
  (loses_splitChars cs).countP_le _

/-- A text with a segment is a rule itself. -/
theorem isRule_of_split (h : t ∈ split s) : isRule s = true := by
  have ht := isRule_iff.mp (isRule_of_mem_split h).1
  rw [isRule_iff]
  refine Nat.lt_of_lt_of_le ?_ (visible_flatten_splitChars_le s.toList)
  obtain ⟨segment, hsegment, rfl⟩ := List.mem_map.mp h
  rw [String.toList_ofList] at ht
  obtain ⟨c, hc, hvisible⟩ := List.countP_pos_iff.mp ht
  exact List.countP_pos_iff.mpr ⟨c, List.mem_flatten.mpr ⟨segment, hsegment, hc⟩, hvisible⟩

theorem sum_map_split (p : Char → Bool) (s : String) :
    ((split s).map fun t => t.toList.countP p).sum = (splitChars s.toList).flatten.countP p := by
  rw [split, List.map_map, List.countP_flatten]
  congr 1
  exact List.map_congr_left fun segment _ => by rw [Function.comp_apply, String.toList_ofList]

end Rules

end Segment

namespace RuleEntry

theorem parse_trim (s : String) : parse (Text.trim s) = parse s := by
  rw [parse, parse, Text.trim, String.toList_ofList, Text.trimChars_trimChars]

/-- The length of the pattern that a text is read as. -/
def patternWeight (s : String) : Nat :=
  match parse s with
  | .ok e => e.patternSize
  | .error _ => 0

theorem patternWeight_of_parse {s : String} {e : RuleEntry} (h : parse s = .ok e) :
    patternWeight s = e.patternSize := by
  rw [patternWeight, h]

theorem patternWeight_trim (s : String) : patternWeight (Text.trim s) = patternWeight s := by
  rw [patternWeight, patternWeight, parse_trim]

theorem patternWeight_lt {s : String} (h : 0 < visible s.toList) :
    patternWeight s < visible s.toList := by
  cases hparse : parse s with
  | ok e =>
      rw [patternWeight_of_parse hparse]
      exact patternSize_lt hparse h
  | error fault =>
      rw [patternWeight, hparse]
      exact h

theorem patternWeight_le_of_head {head raw : List Char} (hhead : Segment.IsHead head) :
    patternWeight (String.ofList (head ++ ':' :: raw)) ≤ visible raw := by
  cases hparse : parse (String.ofList (head ++ ':' :: raw)) with
  | ok e => exact (patternWeight_of_parse hparse).trans_le (patternSize_of_head hhead hparse).le
  | error fault =>
      rw [patternWeight, hparse]
      exact Nat.zero_le _

end RuleEntry

namespace Segment

open RuleEntry

section Weights

variable {s : String} {e : RuleEntry}

theorem sum_patternWeight_lt {rules : String} (h : split rules ≠ []) :
    ((split rules).map patternWeight).sum < visible rules.toList := by
  have hless : ∀ t ∈ split rules, patternWeight t < visible t.toList := fun t ht =>
    patternWeight_lt (isRule_iff.mp (isRule_of_mem_split ht).1)
  calc ((split rules).map patternWeight).sum
      < ((split rules).map fun t => visible t.toList).sum :=
        List.sum_lt_sum_of_ne_nil h _ _ hless
    _ = visible (splitChars rules.toList).flatten := sum_map_split _ rules
    _ ≤ visible rules.toList := visible_flatten_splitChars_le _

theorem isRule_iff_trimChars : isRule s = true ↔ Text.trimChars s.toList ≠ [] := by
  rw [isRule_iff, Nat.pos_iff_ne_zero, Ne, ← trimChars_eq_nil_iff]

/-- A text that starts with a pattern is split behind it. -/
theorem split_of_span {head pattern span rest : List Char} (hspan : span = head ++ ':' :: pattern)
    (hpattern : patternSpan? s.toList = some (span, rest)) :
    split s = Text.trim (String.ofList span) :: split (String.ofList (dropPipe rest)) := by
  have hvisible : Text.trimChars span ≠ [] := by
    rw [Ne, trimChars_eq_nil_iff, hspan, visible, List.countP_append,
      List.countP_cons_of_pos (by rfl)]
    omega
  rw [split, splitChars, scan_pattern hpattern, List.map_cons,
    List.filter_cons_of_pos (by simpa using hvisible), List.map_cons, split, splitChars, Text.trim,
    String.toList_ofList, String.toList_ofList]

/-- Behind a pattern that only blanks follow there is no segment. -/
theorem split_dropPipe_eq_nil {rest : List Char} (h : visible rest = 0) :
    split (String.ofList (dropPipe rest)) = [] := by
  refine List.eq_nil_iff_forall_not_mem.mpr fun t ht => ?_
  have hpos := isRule_iff.mp (isRule_of_split ht)
  have hdrop : visible (dropPipe rest) ≤ visible rest := (loses_dropPipe rest).countP_le _
  rw [String.toList_ofList] at hpos
  omega

/-- The patterns behind a pattern are shorter than what follows it. -/
theorem sum_patternWeight_dropPipe_lt {rest : List Char} (h : visible rest ≠ 0) :
    ((split (String.ofList (dropPipe rest))).map patternWeight).sum < visible rest := by
  by_cases hnone : split (String.ofList (dropPipe rest)) = []
  · rw [hnone]
    exact Nat.pos_of_ne_zero h
  · have hless := sum_patternWeight_lt hnone
    rw [String.toList_ofList] at hless
    exact hless.trans_le ((loses_dropPipe rest).countP_le _)

/-- Blanks at the end of a pattern are all that may follow it in the text of one rule. -/
theorem split_of_patternSpan? {span rest : List Char}
    (hpattern : patternSpan? s.toList = some (span, rest)) (hparse : parse s = .ok e) :
    split s = [Text.trim s] ∨
      ((split s).map patternWeight).sum < patternWeight s := by
  obtain ⟨head, delimiter, body, hhead, hd, -, hspan⟩ := exists_head_of_patternSpan? hpattern
  generalize delimiter :: (closePattern delimiter body).1 = pattern at hspan
  have hs : s = String.ofList (head ++ ':' :: (pattern ++ rest)) := by
    rw [← List.cons_append, ← List.append_assoc, ← hspan, ← (patternSpan?_append hpattern).1,
      String.ofList_toList]
  by_cases hrest : visible rest = 0
  · left
    have hblank : ∀ c ∈ rest, Text.isBlank c = true := by
      rw [visible, List.countP_eq_zero] at hrest
      simpa using hrest
    have htrim : Text.trim (String.ofList span) = Text.trim s := by
      rw [hs, Text.trim, Text.trim, String.toList_ofList, String.toList_ofList, hspan,
        Text.trimChars_append_cons rfl, Text.trimChars_append_cons rfl,
        Text.stripEnd_append_blank hblank]
    rw [split_of_span hspan hpattern, split_dropPipe_eq_nil hrest, htrim]
  · right
    have hweight : patternWeight s = visible pattern + visible rest := by
      rw [patternWeight_of_parse hparse, visible, visible, ← List.countP_append]
      exact patternSize_of_head hhead (hs ▸ hparse)
    have hlater := sum_patternWeight_dropPipe_lt hrest
    have hfirst : patternWeight (Text.trim (String.ofList span)) ≤ visible pattern := by
      rw [patternWeight_trim, hspan]
      exact patternWeight_le_of_head hhead
    rw [split_of_span hspan hpattern, List.map_cons, List.sum_cons, hweight]
    omega

/-- A text that is split where it is one rule to the reader of rules loses a pipe, or what follows
its pattern. -/
theorem split_cases (hs : isRule s = true) (hparse : parse s = .ok e) :
    split s = [Text.trim s] ∨
      ((split s).map fun t => t.toList.count '|').sum < s.toList.count '|' ∨
      ((split s).map patternWeight).sum < patternWeight s := by
  cases hpattern : patternSpan? s.toList with
  | none =>
      by_cases hcut : scan [] [] s.toList = [s.toList]
      · left
        rw [isRule_iff_trimChars] at hs
        simp [split, splitChars, hcut, hs, Text.trim]
      · right; left
        exact (sum_map_split _ s).trans_lt (count_splitChars_lt hpattern hcut)
  | some found => exact (split_of_patternSpan? hpattern hparse).imp_right .inr

end Weights

end Segment

namespace NormalizedRules

open Segment

/-- A list of texts is read text by text. -/
theorem normalize_texts (texts : List String) :
    normalize (.list (texts.map .text)) =
      ((texts.filter isRule).mapM RuleEntry.parse).map fun entries => ⟨entries, none, 0⟩ := by
  have hblank : ∀ n : NormalizedRules,
      (texts.map RuleValue.text).foldlM addItem n =
        ((texts.filter isRule).map RuleValue.text).foldlM addItem n := by
    intro n
    induction texts generalizing n with
    | nil => rfl
    | cons s rest ih =>
        rw [List.map_cons, List.foldlM_cons]
        by_cases hs : isRule s = true
        · rw [List.filter_cons_of_pos hs, List.map_cons, List.foldlM_cons]
          exact bind_congr fun m => ih m
        · have hempty : Text.isEmpty (Text.trim s) = true := by simpa [isRule] using hs
          rw [List.filter_cons_of_neg hs, addItem, if_pos hempty]
          exact ih n
  rw [normalize, hblank, foldlM_addItem_text fun s hs => ?_]
  · cases (texts.filter isRule).mapM RuleEntry.parse <;> rfl
  · simpa [isRule] using (List.mem_filter.mp hs).2

section Lists

variable {items kept texts more : List String} {entries : List RuleEntry}

/-- Texts that are read as the same entries have the same weights, where a weight depends on the
entry. -/
theorem map_eq_of_mapM (weight : String → Nat)
    (hweight : ∀ {s t e}, RuleEntry.parse s = .ok e → RuleEntry.parse t = .ok e →
      weight s = weight t)
    (h : texts.mapM RuleEntry.parse = .ok entries) (h' : more.mapM RuleEntry.parse = .ok entries) :
    texts.map weight = more.map weight := by
  have hrel := forall₂_of_mapM h
  have hrel' := forall₂_of_mapM h'
  clear h h'
  induction hrel generalizing more with
  | nil =>
      cases hrel'
      rfl
  | cons hs _ ih =>
      cases hrel' with
      | cons ht hrest => rw [List.map_cons, List.map_cons, hweight hs ht, ih hrest]

/-- Distinct texts among others weigh no more. -/
theorem sum_map_le_of_nodup (weight : String → Nat) (hnodup : texts.Nodup) (hsub : texts ⊆ more) :
    (texts.map weight).sum ≤ (more.map weight).sum := by
  obtain ⟨found, hperm, hsublist⟩ := hnodup.subperm hsub
  calc (texts.map weight).sum = (found.map weight).sum := (hperm.map weight).sum_eq.symm
    _ ≤ (more.map weight).sum :=
        (hsublist.map weight).sum_le_sum fun _ _ => Nat.zero_le _

/-- Where no text weighs less than its segments, and all texts together weigh as much as distinct
ones of the segments, each text weighs what its segments weigh. -/
theorem weights_balance (weight : String → Nat) (hnodup : texts.Nodup)
    (hsub : texts ⊆ more.flatMap split) (hsame : texts.map weight = more.map weight)
    (hle : ∀ s ∈ more, ((split s).map weight).sum ≤ weight s) :
    ∀ s ∈ more, ((split s).map weight).sum = weight s := by
  have hge : (more.map weight).sum ≤ (more.map fun s => ((split s).map weight).sum).sum := by
    have hall := sum_map_le_of_nodup weight hnodup hsub
    rwa [hsame, List.map_flatMap, List.flatMap, List.sum_flatten, List.map_map] at hall
  intro s hs
  refine Nat.le_antisymm (hle s hs) (Nat.le_of_not_lt fun hless => ?_)
  exact absurd (List.sum_lt_sum _ _ hle ⟨s, hs, hless⟩) (Nat.not_lt_of_le hge)

/-- The segments of the texts of a list are all read as rules. -/
theorem filter_isRule_withoutRepeats (items : List String) :
    (withoutRepeats [] (items.flatMap split)).filter isRule =
      withoutRepeats [] (items.flatMap split) := by
  refine List.filter_eq_self.mpr fun t ht => ?_
  have hmem := (dropsRepeats_withoutRepeats [] _).mem_iff.mp (.inr ht)
  obtain ⟨s, -, hs⟩ := List.mem_flatMap.mp (hmem.resolve_left List.not_mem_nil)
  exact (isRule_of_mem_split hs).1

theorem mem_kept_iff (hkept : DropsRepeats [] items kept) {s : String} : s ∈ kept ↔ s ∈ items := by
  simpa using hkept.mem_iff (s := s)

/-- The segments without repeats are segments of kept texts. -/
theorem withoutRepeats_subset (hkept : DropsRepeats [] items kept) :
    withoutRepeats [] (items.flatMap split) ⊆ (kept.filter isRule).flatMap split := by
  intro t ht
  have hmem := (dropsRepeats_withoutRepeats [] _).mem_iff.mp (.inr ht)
  obtain ⟨s, hs, hsegment⟩ := List.mem_flatMap.mp (hmem.resolve_left List.not_mem_nil)
  refine List.mem_flatMap.mpr ⟨s, List.mem_filter.mpr ⟨?_, isRule_of_split hsegment⟩, hsegment⟩
  exact (mem_kept_iff hkept).mpr hs

section Same

variable (hkept : DropsRepeats [] items kept)
  (hread : (kept.filter isRule).mapM RuleEntry.parse = .ok entries)
  (hmerged : (withoutRepeats [] (items.flatMap split)).mapM RuleEntry.parse = .ok entries)

include hkept hread hmerged

/-- Where the segments of texts are read as the texts themselves, no text is split. -/
theorem split_of_same : ∀ s ∈ kept.filter isRule, split s = [Text.trim s] := by
  have hnodup := (nodup_withoutRepeats [] (items.flatMap split)).1
  have hsub := withoutRepeats_subset hkept
  have hcases : ∀ s ∈ kept.filter isRule, split s = [Text.trim s] ∨
      ((split s).map fun t => t.toList.count '|').sum < s.toList.count '|' ∨
      ((split s).map RuleEntry.patternWeight).sum < RuleEntry.patternWeight s := by
    intro s hs
    obtain ⟨e, he⟩ := succeeds_of_mem_mapM hread hs
    exact split_cases (List.mem_filter.mp hs).2 he
  -- first no pipe is lost, then nothing behind a pattern
  have hpipes := weights_balance (fun s => s.toList.count '|') hnodup hsub
    (map_eq_of_mapM _ (fun hs ht =>
      (RuleEntry.pipes_of_parse hs).symm.trans (RuleEntry.pipes_of_parse ht)) hmerged hread)
    (fun s _ => (sum_map_split _ s).trans_le ((loses_splitChars s.toList).countP_le _))
  have hpatterns := weights_balance RuleEntry.patternWeight hnodup hsub
    (map_eq_of_mapM _ (fun hs ht => by
      rw [RuleEntry.patternWeight_of_parse hs, RuleEntry.patternWeight_of_parse ht]) hmerged hread)
    (fun s hs => by
      rcases hcases s hs with hsingle | hpipe | hpattern
      · rw [hsingle, List.map_singleton, List.sum_singleton, RuleEntry.patternWeight_trim]
      · exact absurd (hpipes s hs) hpipe.ne
      · exact hpattern.le)
  intro s hs
  rcases hcases s hs with hsingle | hpipe | hpattern
  · exact hsingle
  · exact absurd (hpipes s hs) hpipe.ne
  · exact absurd (hpatterns s hs) hpattern.ne

/-- Where the segments of texts are read as the texts themselves, texts that differ in blanks only
are the same. -/
theorem eq_of_same : ∀ s ∈ kept.filter isRule, ∀ t ∈ kept.filter isRule,
    Text.trim s = Text.trim t → s = t := by
  have hsplit := split_of_same hkept hread hmerged
  have hlength : (withoutRepeats [] (items.flatMap split)).length = (kept.filter isRule).length := by
    have hsame := map_eq_of_mapM (fun _ => 0) (fun _ _ => rfl) hmerged hread
    simpa using congrArg List.length hsame
  have hsub : (withoutRepeats [] (items.flatMap split)).toFinset ⊆
      (kept.filter isRule).toFinset.image Text.trim := by
    intro segment hsegment
    obtain ⟨s, hs, hmem⟩ :=
      List.mem_flatMap.mp (withoutRepeats_subset hkept (List.mem_toFinset.mp hsegment))
    rw [hsplit s hs, List.mem_singleton] at hmem
    exact Finset.mem_image.mpr ⟨s, List.mem_toFinset.mpr hs, hmem.symm⟩
  have hcard : ((kept.filter isRule).toFinset.image Text.trim).card =
      (kept.filter isRule).toFinset.card := by
    refine Nat.le_antisymm Finset.card_image_le ?_
    calc (kept.filter isRule).toFinset.card ≤ (kept.filter isRule).length :=
          List.toFinset_card_le _
      _ = (withoutRepeats [] (items.flatMap split)).toFinset.card := by
          rw [List.toFinset_card_of_nodup (nodup_withoutRepeats [] _).1, hlength]
      _ ≤ _ := Finset.card_le_card hsub
  intro s hs t ht
  exact Finset.card_image_iff.mp hcard (by simpa using hs) (by simpa using ht)

end Same

/-- The texts of a list that are single rules however they are read: none of them is split, and those
that differ in blanks only are the same. -/
structure SingleRules (items : List String) : Prop where
  unsplit : ∀ s ∈ items, isRule s = true → split s = [Text.trim s]
  spelled : ∀ s ∈ items, ∀ t ∈ items, isRule s = true → Text.trim s = Text.trim t → s = t

theorem split_of_not_isRule {s : String} (h : ¬ isRule s = true) : split s = [] :=
  List.eq_nil_iff_forall_not_mem.mpr fun _ ht => h (isRule_of_split ht)

theorem SingleRules.mono (h : SingleRules more) (hsub : texts ⊆ more) : SingleRules texts where
  unsplit s hs := h.unsplit s (hsub hs)
  spelled s hs t ht := h.spelled s (hsub hs) t (hsub ht)

/-- Among the segments of single rules there is one of them where it is among the rules. -/
theorem SingleRules.trim_mem_flatMap_iff {s : String} (h : SingleRules texts) (hs : s ∈ texts)
    (hrule : isRule s = true) (hsub : more ⊆ texts) :
    Text.trim s ∈ more.flatMap split ↔ s ∈ more := by
  constructor
  · intro hmem
    obtain ⟨t, ht, hsegment⟩ := List.mem_flatMap.mp hmem
    rw [h.unsplit t (hsub ht) (isRule_of_split hsegment), List.mem_singleton] at hsegment
    exact h.spelled s hs t (hsub ht) hrule hsegment ▸ ht
  · intro hmem
    exact List.mem_flatMap.mpr ⟨s, hmem, h.unsplit s hs hrule ▸ List.mem_singleton_self _⟩

/-- The segments of single rules without repeats are those of the rules without repeats. -/
theorem SingleRules.withoutRepeats_flatMap (seen : List String) (h : SingleRules (seen ++ items)) :
    withoutRepeats (seen.flatMap split) (items.flatMap split) =
      (withoutRepeats seen items).flatMap split := by
  induction items generalizing seen with
  | nil => rfl
  | cons s rest ih =>
      have hrest : SingleRules (seen ++ rest) :=
        h.mono ((List.sublist_cons_self s rest).append_left seen).subset
      have hnext : SingleRules (seen ++ [s] ++ rest) := by
        rwa [List.append_assoc, List.singleton_append]
      have hadded : (seen ++ [s]).flatMap split = seen.flatMap split ++ split s := by
        rw [List.flatMap_append, List.flatMap_singleton]
      have hall : s ∈ seen ++ s :: rest := List.mem_append_right _ List.mem_cons_self
      rw [List.flatMap_cons, withoutRepeats]
      by_cases hs : isRule s = true
      · have hsingle := h.unsplit s hall hs
        have hseen : Text.trim s ∈ seen.flatMap split ↔ s ∈ seen :=
          h.trim_mem_flatMap_iff hall hs (List.subset_append_left _ _)
        rw [hsingle] at hadded
        rw [hsingle, List.singleton_append, withoutRepeats]
        by_cases hmem : s ∈ seen
        · rw [if_pos (hseen.mpr hmem), if_pos hmem, ih _ hrest]
        · rw [if_neg (fun hfound => hmem (hseen.mp hfound)), if_neg hmem, List.flatMap_cons, hsingle,
            List.singleton_append, ← hadded, ih _ hnext]
      · have hnone := split_of_not_isRule hs
        rw [hnone, List.append_nil] at hadded
        rw [hnone, List.nil_append]
        split
        · exact ih _ hrest
        · rw [List.flatMap_cons, hnone, List.nil_append, ← hadded, ih _ hnext]

/-- Single rules are read as their segments. -/
theorem SingleRules.normalize_flatMap (h : SingleRules texts) :
    normalize (.list ((texts.flatMap split).map .text)) = normalize (.list (texts.map .text)) := by
  have hrules : (texts.flatMap split).filter isRule = texts.flatMap split := by
    refine List.filter_eq_self.mpr fun t ht => ?_
    obtain ⟨s, -, hs⟩ := List.mem_flatMap.mp ht
    exact (isRule_of_mem_split hs).1
  rw [normalize_texts, normalize_texts, hrules]
  congr 1
  clear hrules
  induction texts with
  | nil => rfl
  | cons s rest ih =>
      have hrest := ih (h.mono (List.subset_cons_self s rest))
      rw [List.flatMap_cons]
      by_cases hs : isRule s = true
      · rw [h.unsplit s List.mem_cons_self hs, List.singleton_append, List.filter_cons_of_pos hs,
          List.mapM_cons, List.mapM_cons, RuleEntry.parse_trim, hrest]
      · rw [split_of_not_isRule hs, List.nil_append, List.filter_cons_of_neg hs, hrest]

theorem exists_normalize_of_subset {n : NormalizedRules} (hsub : kept ⊆ texts)
    (h : normalize (.list (texts.map .text)) = .ok n) :
    ∃ m, normalize (.list (kept.map .text)) = .ok m := by
  rw [normalize_texts] at h
  obtain ⟨entries, hentries, -⟩ := exists_of_map h
  have hkept : Succeeds ((kept.filter isRule).mapM RuleEntry.parse) := Succeeds.mapM fun s hs => by
    obtain ⟨hmem, hrule⟩ := List.mem_filter.mp hs
    exact succeeds_of_mem_mapM hentries (List.mem_filter.mpr ⟨hsub hmem, hrule⟩)
  rw [normalize_texts]
  exact hkept.map _

end Lists

/-- A rule value that is written in texts: a text with pipes between its rules, or a list of texts. -/
inductive Written where
  | piped (rules : String)
  | listed (items : List String)

namespace Written

/-- The rule value. -/
def value : Written → RuleValue
  | piped rules => .text rules
  | listed items => .list (items.map .text)

/-- The rule strings, as rules are read. -/
def rules : Written → List String
  | piped rules => split rules
  | listed items => items

/-- Inheriting the value does not split its rule strings. -/
def IsSingle : Written → Prop
  | piped _ => True
  | listed items => SingleRules items

end Written

/-- Normalized rules are those of rule strings, except for repeats of an earlier one. -/
def KeepsRules (rules : List String) (n : NormalizedRules) : Prop :=
  ∃ kept, DropsRepeats [] rules kept ∧ normalize (.list (kept.map .text)) = .ok n

theorem normalize_piped (rules : String) :
    normalize (.text rules) = normalize (.list ((split rules).map .text)) := by
  have hrules : (split rules).filter isRule = split rules :=
    List.filter_eq_self.mpr fun _ ht => (isRule_of_mem_split ht).1
  rw [normalize_texts, hrules, normalize, entriesOfText]
  cases (split rules).mapM RuleEntry.parse <;> rfl

theorem toList_listed (items : List String) :
    (RuleValue.list (items.map .text)).toList = (items.flatMap split).map .text := by
  rw [RuleValue.toList, List.flatMap_map, List.map_flatMap]
  rfl

/-- A list of texts keeps its rules when it is inherited exactly where they are single rules. -/
theorem list_keeps_rules_iff {items : List String} {n : NormalizedRules}
    (hn : normalize (.list (items.map .text)) = .ok n) :
    (∃ m, normalize (.list (RuleValue.merge .absent (.list (items.map .text)))) = .ok m ∧
      KeepsRules items m) ↔ SingleRules items := by
  rw [merge_absent_of_texts (toList_listed items)]
  constructor
  · rintro ⟨m, hm, kept, hkept, hread⟩
    rw [normalize_texts, filter_isRule_withoutRepeats] at hm
    rw [normalize_texts] at hread
    obtain ⟨entries, hmerged, rfl⟩ := exists_of_map hm
    obtain ⟨entries', hentries, heq⟩ := exists_of_map hread
    obtain rfl : entries' = entries := congrArg NormalizedRules.entries heq
    have hmem : ∀ s ∈ items, isRule s = true → s ∈ kept.filter isRule := fun s hs hrule =>
      List.mem_filter.mpr ⟨(mem_kept_iff hkept).mpr hs, hrule⟩
    refine ⟨fun s hs hrule => split_of_same hkept hentries hmerged s (hmem s hs hrule), ?_⟩
    intro s hs t ht hrule htrim
    have hrule' : isRule t = true := by rwa [isRule, ← htrim]
    exact eq_of_same hkept hentries hmerged s (hmem s hs hrule) t (hmem t ht hrule') htrim
  · intro h
    have hdrops := dropsRepeats_withoutRepeats [] items
    have hsub : withoutRepeats [] items ⊆ items := fun _ hs => (mem_kept_iff hdrops).mp hs
    obtain ⟨m, hm⟩ := exists_normalize_of_subset hsub hn
    have hsplit := SingleRules.withoutRepeats_flatMap [] h
    rw [List.flatMap_nil] at hsplit
    rw [hsplit, (h.mono hsub).normalize_flatMap]
    exact ⟨m, hm, _, hdrops, hm⟩

/-- A rule value that is inherited as it stands keeps its rules in their order, except for repeats,
exactly where its texts are single rules; the rules of a rule text are. -/
theorem inherited_keeps_rules_iff (w : Written) {n : NormalizedRules}
    (hn : normalize w.value = .ok n) :
    normalize (.list (w.rules.map .text)) = .ok n ∧
      ((∃ m, normalize (.list (RuleValue.merge .absent w.value)) = .ok m ∧
        KeepsRules w.rules m) ↔ w.IsSingle) := by
  cases w with
  | listed items => exact ⟨hn, list_keeps_rules_iff hn⟩
  | piped rules =>
      have hlist : normalize (.list ((split rules).map .text)) = .ok n :=
        (normalize_piped rules).symm.trans hn
      refine ⟨hlist, iff_of_true ?_ trivial⟩
      have hdrops := dropsRepeats_withoutRepeats [] (split rules)
      obtain ⟨m, hm⟩ := exists_normalize_of_subset
        (fun _ hs => (mem_kept_iff hdrops).mp hs) hlist
      have hmerge : RuleValue.merge .absent (.text rules) =
          (withoutRepeats [] (split rules)).map .text := merge_absent_of_texts rfl
      refine ⟨m, ?_, _, hdrops, hm⟩
      change normalize (.list (RuleValue.merge .absent (.text rules))) = .ok m
      rw [hmerge, hm]

/-- A list with a pattern that has a pipe between its delimiters, and a repeated rule. -/
def codeRules : List String := ["regex:/^a|b$/", "max:80", "in:(a|b),c", "max:80"]

/-- The rules of the list are inherited as they are, the repeated one once. -/
theorem codeRules_kept :
    normalize (Written.listed codeRules).value = .ok ⟨[⟨"regex", [.text "/^a|b$/"]⟩,
      ⟨"max", [.text "80"]⟩, ⟨"in", [.text "(a|b)", .text "c"]⟩, ⟨"max", [.text "80"]⟩], none, 0⟩ ∧
    (∃ m, normalize (.list (RuleValue.merge .absent (Written.listed codeRules).value)) = .ok m ∧
      KeepsRules (Written.listed codeRules).rules m) := by
  have hn : normalize (Written.listed codeRules).value = .ok ⟨[⟨"regex", [.text "/^a|b$/"]⟩,
      ⟨"max", [.text "80"]⟩, ⟨"in", [.text "(a|b)", .text "c"]⟩, ⟨"max", [.text "80"]⟩], none, 0⟩ := by
    rfl
  refine ⟨hn, (inherited_keeps_rules_iff (.listed codeRules) hn).2.mpr ⟨?_, ?_⟩⟩
  · decide +kernel
  · decide +kernel

/-- A text of a list with a pipe in its parameters is cut in two when it is inherited. -/
theorem choice_not_kept :
    normalize (.list [.text "in:a|b,c"]) =
      .ok ⟨[⟨"in", [.text "a|b", .text "c"]⟩], none, 0⟩ ∧
    normalize (.list (RuleValue.merge .absent (.list [.text "in:a|b,c"]))) =
      .ok ⟨[⟨"in", [.text "a"]⟩, ⟨"b,c", []⟩], none, 0⟩ ∧
    ¬ ∃ m, normalize (.list (RuleValue.merge .absent (.list [.text "in:a|b,c"]))) = .ok m ∧
      KeepsRules ["in:a|b,c"] m := by
  have hn : normalize (.list ((["in:a|b,c"] : List String).map .text)) =
      .ok ⟨[⟨"in", [.text "a|b", .text "c"]⟩], none, 0⟩ := by
    rfl
  refine ⟨hn, by decide +kernel, fun hkept => ?_⟩
  have hsingle := ((list_keeps_rules_iff hn).mp hkept).unsplit _ List.mem_cons_self (by decide)
  revert hsingle
  decide +kernel

end NormalizedRules

end RuleSchema
