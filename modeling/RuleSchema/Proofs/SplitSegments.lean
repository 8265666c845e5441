import RuleSchema.Proofs.JoinedRules

/-!
# Segments of segments

A segment of a rule text has no pipe at which a text is split, so splitting it again gives it back.
A plain segment is read without meeting such a pipe, whatever brackets it leaves open, and a pattern
takes what follows its head whole. Both stay what they are without the blanks around them: of a
pattern whose delimiters are blanks only the head may be left, and it has no character that matters
to reading.
-/

namespace RuleSchema

namespace Text

theorem stripEnd_stripEnd (p : Char → Bool) (cs : List Char) :
    stripEnd p (stripEnd p cs) = stripEnd p cs := by
  induction cs with
  | nil => rfl
  | cons c rest ih =>
      cases hr : stripEnd p rest with
      | nil => by_cases hc : p c = true <;> simp [stripEnd, hr, hc]
      | cons d kept =>
          have hkept : stripEnd p (c :: rest) = c :: d :: kept := by simp [stripEnd, hr]
          rw [hr] at ih
          rw [hkept, stripEnd, ih]

/-- A trimmed text starts with no blank. -/
theorem stripStart_trimChars (cs : List Char) :
    stripStart isBlank (trimChars cs) = trimChars cs := by
  obtain ⟨tail, split, -⟩ := exists_append_stripEnd isBlank (stripStart isBlank cs)
  change _ = trimChars cs ++ tail at split
  cases htrim : trimChars cs with
  | nil => rfl
  | cons c rest =>
      rw [htrim] at split
      have hc : isBlank c = false := by
        have hdrop := List.head?_dropWhile_not isBlank cs
        rw [stripStart] at split
        rw [split] at hdrop
        simpa using hdrop
      rw [stripStart, List.dropWhile_cons_of_neg (by rw [hc]; exact Bool.false_ne_true)]

theorem trimChars_trimChars (cs : List Char) : trimChars (trimChars cs) = trimChars cs := by
  have hstart := stripStart_trimChars cs
  rw [trimChars, strip, hstart, trimChars, strip, stripEnd_stripEnd]

theorem trimChars_cons_blank {b : Char} (hb : isBlank b = true) (cs : List Char) :
    trimChars (b :: cs) = trimChars cs := by
  rw [trimChars, strip, stripStart, List.dropWhile_cons_of_pos hb]
  rfl

theorem not_mem_cutFirst (sep : Char) (cs : List Char) : sep ∉ (cutFirst sep cs).1 := by
  induction cs with
  | nil => simp [cutFirst]
  | cons c rest ih =>
      rw [cutFirst]
      split
      · exact List.not_mem_nil
      · rename_i hc
        rw [beq_iff_eq] at hc
        exact List.not_mem_cons_of_ne_of_not_mem (Ne.symm hc) ih

end Text

namespace Segment

/-- Reading characters up to their end meets no pipe at which a text is split; a backslash may be
the last character. -/
def Passes (awaited cs : List Char) : Prop :=
  ∃ init left, Reads awaited init left ∧ (cs = init ∨ cs = init ++ ['\\'])

/-- Characters that are one segment, blanks around it included: a pattern, or a stretch without a
pipe at which a text is split. -/
def IsRaw (cs : List Char) : Prop :=
  patternSpan? cs = some (cs, []) ∨ (patternSpan? cs = none ∧ Passes [] cs)

section Reading

variable {awaited middle left cs a b : List Char}

theorem Reads.trans (first : Reads awaited a middle) (last : Reads middle b left) :
    Reads awaited (a ++ b) left := by
  induction first with
  | done => exact last
  | escaped tail ih => exact .escaped (ih last)
  | opened ho tail ih => exact .opened ho (ih last)
  | closed hb ho tail ih => exact .closed hb ho (ih last)
  | other hb ho hc hp tail ih => exact .other hb ho hc hp (ih last)

theorem Reads.of_forall (h : ∀ c ∈ cs, c ∉ splitters) : Reads [] cs [] := by
  induction cs with
  | nil => exact .done
  | cons c rest ih =>
      have hc := h c List.mem_cons_self
      simp only [splitters, List.mem_cons, List.not_mem_nil, or_false, not_or] at hc
      obtain ⟨hpipe, hback, hround, hsquare, hcurly⟩ := hc
      have hopen : closerOf? c = none := by simp [closerOf?, hround, hsquare, hcurly]
      exact .other hback hopen (by simp) (fun hp => absurd hp hpipe)
        (ih fun d hd => h d (List.mem_cons_of_mem _ hd))

/-- Reading goes on to the end of a text, to a last backslash, or to the first pipe that is met
while no closer is awaited. -/
theorem exists_reads (awaited cs : List Char) :
    ∃ init left rest, cs = init ++ rest ∧ Reads awaited init left ∧
      (rest = [] ∨ rest = ['\\'] ∨ (left = [] ∧ ∃ more, rest = '|' :: more)) := by
  induction hsize : cs.length using Nat.strongRecOn generalizing cs awaited with
  | ind size ih =>
      -- one character, or a backslash with the next one, and then the rest of the text
      have go : ∀ first middle rest, cs = first ++ rest → first ≠ [] →
          Reads awaited first middle →
          ∃ init left rest, cs = init ++ rest ∧ Reads awaited init left ∧
            (rest = [] ∨ rest = ['\\'] ∨ (left = [] ∧ ∃ more, rest = '|' :: more)) := by
        intro first middle rest hcs hne reads
        have hless : rest.length < size := by
          have hpos := List.length_pos_iff.mpr hne
          have hlength := congrArg List.length hcs
          rw [List.length_append] at hlength
          omega
        obtain ⟨init, left, last, hrest, htail, hend⟩ := ih _ hless middle rest rfl
        exact ⟨first ++ init, left, last, by rw [hcs, hrest, List.append_assoc],
          reads.trans htail, hend⟩
      cases cs with
      | nil => exact ⟨[], awaited, [], rfl, .done, .inl rfl⟩
      | cons c rest =>
          by_cases hb : c = '\\'
          · subst hb
            cases rest with
            | nil => exact ⟨[], awaited, ['\\'], rfl, .done, .inr (.inl rfl)⟩
            | cons d rest => exact go ['\\', d] awaited rest rfl (by simp) (.escaped .done)
          · cases ho : closerOf? c with
            | some closer => exact go [c] _ rest rfl (by simp) (.opened ho .done)
            | none =>
                by_cases hc : awaited.head? = some c
                · obtain ⟨outer, rfl⟩ := List.head?_eq_some_iff.mp hc
                  exact go [c] outer rest rfl (by simp) (.closed hb ho .done)
                · by_cases hp : c = '|' ∧ awaited = []
                  · obtain ⟨rfl, rfl⟩ := hp
                    exact ⟨[], [], '|' :: rest, rfl, .done, .inr (.inr ⟨rfl, rest, rfl⟩)⟩
                  · refine go [c] awaited rest rfl (by simp) (.other hb ho hc ?_ .done)
                    exact fun hpipe hnone => hp ⟨hpipe, hnone⟩

theorem Reads.passes (h : Reads awaited cs left) : Passes awaited cs := ⟨cs, left, h, .inl rfl⟩

theorem Passes.prepend (first : Reads awaited a middle) (h : Passes middle b) :
    Passes awaited (a ++ b) := by
  obtain ⟨init, left, reads, hend⟩ := h
  refine ⟨a ++ init, left, first.trans reads, ?_⟩
  rcases hend with rfl | rfl
  · exact .inl rfl
  · exact .inr (List.append_assoc _ _ _).symm

/-- The start of what is read passes too; it may end behind a backslash. -/
theorem Reads.passes_of_append (h : Reads awaited cs left) (hcs : cs = a ++ b) :
    Passes awaited a := by
  -- one character is read in each case but that of a backslash
  have step : ∀ {awaited middle rest c}, Reads awaited [c] middle →
      (∀ {a}, rest = a ++ b → Passes middle a) → ∀ {a}, c :: rest = a ++ b → Passes awaited a := by
    intro awaited middle rest c first ih a hcs
    cases a with
    | nil => exact Reads.done.passes
    | cons d a =>
        obtain ⟨rfl, hrest⟩ := List.cons.inj hcs
        exact .prepend first (ih hrest)
  induction h generalizing a with
  | done =>
      obtain ⟨rfl, -⟩ := List.append_eq_nil_iff.mp hcs.symm
      exact Reads.done.passes
  | @escaped awaited c rest left tail ih =>
      match a, hcs with
      | [], _ => exact Reads.done.passes
      | [_], hcs =>
          obtain ⟨rfl, -⟩ := List.cons.inj hcs
          exact ⟨[], awaited, .done, .inr rfl⟩
      | _ :: _ :: a, hcs =>
          simp only [List.cons_append, List.cons.injEq] at hcs
          obtain ⟨rfl, rfl, hrest⟩ := hcs
          exact Passes.prepend (.escaped .done) (ih hrest)
  | opened ho tail ih => exact step (.opened ho .done) ih hcs
  | closed hb ho tail ih => exact step (.closed hb ho .done) ih hcs
  | other hb ho hc hp tail ih => exact step (.other hb ho hc hp .done) ih hcs

theorem Passes.of_append (h : Passes awaited (a ++ b)) : Passes awaited a := by
  obtain ⟨init, left, reads, hinit | hlast⟩ := h
  · exact reads.passes_of_append hinit.symm
  · rcases List.eq_nil_or_concat b with rfl | ⟨b', d, rfl⟩
    · exact ⟨init, left, reads, .inr (by rw [← hlast, List.append_nil])⟩
    · rw [List.concat_eq_append, ← List.append_assoc] at hlast
      exact reads.passes_of_append (List.append_inj' hlast rfl).1.symm

theorem Passes.of_cons_blank {b : Char} (hb : Text.isBlank b = true) (h : Passes [] (b :: cs)) :
    Passes [] cs := by
  have hnone : b ∉ splitters := by
    intro hsplitter
    have hvisible : (splitters.all (! Text.isBlank ·)) = true := by decide
    have hnot := List.all_eq_true.mp hvisible b hsplitter
    rw [hb] at hnot
    cases hnot
  obtain ⟨init, left, reads, hend⟩ := h
  cases init with
  | nil =>
      rcases hend with hnil | hlast
      · cases hnil
      · obtain ⟨rfl, -⟩ := List.cons.inj hlast
        exact absurd (by decide) hnone
  | cons c rest =>
      have hc : b = c ∧ (cs = rest ∨ cs = rest ++ ['\\']) := by
        rcases hend with hall | hlast
        · exact ⟨(List.cons.inj hall).1, .inl (List.cons.inj hall).2⟩
        · exact ⟨(List.cons.inj hlast).1, .inr (List.cons.inj hlast).2⟩
      obtain ⟨rfl, hrest⟩ := hc
      cases reads with
      | escaped tail => exact absurd (by decide) hnone
      | opened ho tail =>
          simp only [splitters, List.mem_cons, List.not_mem_nil, or_false, not_or] at hnone
          simp [closerOf?, hnone] at ho
      | other hback ho hh hp tail => exact ⟨rest, left, tail, hrest⟩

end Reading

section Patterns

variable {cs span rest head body a b : List Char} {delimiter : Char}

/-- The head of a pattern: the name of a rule that takes one. -/
structure IsHead (head : List Char) : Prop where
  noColon : ':' ∉ head
  named : RuleName.canonical (String.ofList head) ∈ Family.wholeParameter.rules

theorem IsHead.cutFirst (h : IsHead head) (body : List Char) :
    Text.cutFirst ':' (head ++ ':' :: body) = (head, some body) := by
  rw [cutFirst_append_of_not_mem _ h.noColon]
  simp [Text.cutFirst]

theorem IsHead.patternSpan? (h : IsHead head) (hd : isDelimiter delimiter = true)
    (body : List Char) :
    Segment.patternSpan? (head ++ ':' :: delimiter :: body) =
      some (head ++ ':' :: delimiter :: (closePattern delimiter body).1,
        (closePattern delimiter body).2) := by
  rw [Segment.patternSpan?, h.cutFirst]
  simp [Family.contains, h.named, hd]

theorem exists_head_of_patternSpan? (h : patternSpan? cs = some (span, rest)) :
    ∃ head delimiter body, IsHead head ∧ isDelimiter delimiter = true ∧
      cs = head ++ ':' :: delimiter :: body ∧
      span = head ++ ':' :: delimiter :: (closePattern delimiter body).1 := by
  unfold patternSpan? at h
  split at h
  · rename_i head delimiter body hcut
    rw [Option.ite_none_right_eq_some, Bool.and_eq_true, Option.some.injEq, Prod.mk.injEq] at h
    obtain ⟨⟨hnamed, hd⟩, hspan, -⟩ := h
    have hcolon : ':' ∉ head := by
      have hnot := Text.not_mem_cutFirst ':' cs
      rwa [hcut] at hnot
    exact ⟨head, delimiter, body, ⟨hcolon, List.contains_iff_mem.mp hnamed⟩, hd,
      cutFirst_append hcut, hspan.symm⟩
  · cases h

/-- A head with its colon is no pattern yet, and reading passes it. -/
theorem IsHead.colon (h : IsHead head) :
    Segment.patternSpan? (head ++ [':']) = none ∧ Passes [] (head ++ [':']) := by
  refine ⟨by rw [Segment.patternSpan?, h.cutFirst], ?_⟩
  refine (Reads.of_forall fun c hc hsplitter => ?_).passes
  rcases List.mem_append.mp hc with hhead | hcolon
  · exact canonical_not_mem_of_splitter hsplitter hhead h.named
  · rw [List.mem_singleton] at hcolon
    subst hcolon
    revert hsplitter
    decide

/-- Where no pattern starts, none starts in a part of the text. -/
theorem patternSpan?_eq_none_of_append (h : patternSpan? (a ++ b) = none) :
    patternSpan? a = none := by
  cases ha : patternSpan? a with
  | none => rfl
  | some found =>
      obtain ⟨head, delimiter, body, hhead, hd, rfl, -⟩ := exists_head_of_patternSpan? ha
      rw [List.append_assoc, List.cons_append, List.cons_append, hhead.patternSpan? hd] at h
      cases h

/-- The start of a pattern is taken whole by the pattern, closed or not. -/
theorem closePattern_of_append (h : (closePattern delimiter cs).1 = a ++ b) :
    closePattern delimiter a = (a, []) := by
  fun_induction closePattern delimiter cs generalizing a with
  | case1 =>
      obtain ⟨rfl, -⟩ := List.append_eq_nil_iff.mp h.symm
      rfl
  | case2 c =>
      rcases a with _ | ⟨d, _ | ⟨e, a⟩⟩
      · rfl
      · rfl
      · simp at h
  | case3 c next rest hback span after hclose ih =>
      rcases a with _ | ⟨d, _ | ⟨e, a⟩⟩
      · rfl
      · rfl
      · simp only [List.cons_append, List.cons.injEq] at h
        obtain ⟨rfl, rfl, h⟩ := h
        rw [beq_iff_eq] at hback
        subst hback
        rw [hclose] at ih
        rw [closePattern_escaped, ih h]
  | case4 c next rest hback hdelimiter =>
      cases a with
      | nil => rfl
      | cons d a =>
          simp only [List.cons_append, List.cons.injEq] at h
          obtain ⟨rfl, h⟩ := h
          rw [beq_iff_eq] at hback hdelimiter
          subst hdelimiter
          have hflags : ∀ d ∈ a, Text.isLetter d = true := by
            intro d hd
            have hmem : d ∈ (next :: rest).takeWhile Text.isLetter :=
              h ▸ List.mem_append_left b hd
            exact List.all_eq_true.mp List.all_takeWhile d hmem
          rw [closePattern_delimiter _ hback, ← List.append_nil a,
            List.takeWhile_append_of_pos hflags, List.dropWhile_append_of_pos hflags]
          rfl
  | case5 c next rest hback hdelimiter span after hclose ih =>
      cases a with
      | nil => rfl
      | cons d a =>
          simp only [List.cons_append, List.cons.injEq] at h
          obtain ⟨rfl, h⟩ := h
          rw [beq_iff_eq] at hback hdelimiter
          rw [hclose] at ih
          rw [closePattern_other _ hback hdelimiter, ih h]

/-- The start of a pattern is one segment. -/
theorem isRaw_of_patternSpan? (h : patternSpan? cs = some (a ++ b, rest)) : IsRaw a := by
  obtain ⟨head, delimiter, body, hhead, hd, -, hspan⟩ := exists_head_of_patternSpan? h
  rw [← List.singleton_append, ← List.append_assoc] at hspan
  rcases List.append_eq_append_iff.mp hspan with ⟨c, hcolon, -⟩ | ⟨c, rfl, hbody⟩
  · -- it ends before the delimiter
    obtain ⟨hnone, hpasses⟩ := hhead.colon
    rw [hcolon] at hnone hpasses
    exact .inr ⟨patternSpan?_eq_none_of_append hnone, hpasses.of_append⟩
  · cases c with
    | nil =>
        rw [List.append_nil]
        exact .inr hhead.colon
    | cons d a =>
        obtain ⟨rfl, hclosed⟩ := List.cons.inj hbody
        left
        rw [List.append_assoc, List.singleton_append, hhead.patternSpan? hd,
          closePattern_of_append hclosed]

end Patterns

theorem IsRaw.of_append {a b : List Char} (h : IsRaw (a ++ b)) : IsRaw a := by
  rcases h with hspan | ⟨hnone, hpasses⟩
  · exact isRaw_of_patternSpan? hspan
  · exact .inr ⟨patternSpan?_eq_none_of_append hnone, hpasses.of_append⟩

/-- A blank before a text goes into the head of a pattern. -/
theorem patternSpan?_cons_blank {b : Char} (hb : Text.isBlank b = true) (cs : List Char) :
    patternSpan? (b :: cs) = (patternSpan? cs).map fun found => (b :: found.1, found.2) := by
  have hcolon : b ≠ ':' := by
    rintro rfl
    cases hb
  have hcut : Text.cutFirst ':' (b :: cs) =
      (b :: (Text.cutFirst ':' cs).1, (Text.cutFirst ':' cs).2) := by
    rw [Text.cutFirst, if_neg (by simpa using hcolon)]
  have hname : ∀ head, RuleName.canonical (String.ofList (b :: head)) =
      RuleName.canonical (String.ofList head) := by
    intro head
    simp only [RuleName.canonical, String.toList_ofList, Text.trimChars_cons_blank hb]
  rw [patternSpan?, patternSpan?, hcut]
  rcases Text.cutFirst ':' cs with ⟨head, _ | _ | ⟨delimiter, body⟩⟩
  · rfl
  · rfl
  · dsimp only
    rw [hname]
    split <;> rfl

theorem IsRaw.of_cons_blank {b : Char} {cs : List Char} (hb : Text.isBlank b = true)
    (h : IsRaw (b :: cs)) : IsRaw cs := by
  rcases h with hspan | ⟨hnone, hpasses⟩
  · rw [patternSpan?_cons_blank hb, Option.map_eq_some_iff] at hspan
    obtain ⟨⟨span, rest⟩, hfound, heq⟩ := hspan
    obtain ⟨hspan, rfl⟩ := Prod.mk.inj heq
    obtain ⟨-, rfl⟩ := List.cons.inj hspan
    exact .inl hfound
  · rw [patternSpan?_cons_blank hb, Option.map_eq_none_iff] at hnone
    exact .inr ⟨hnone, hpasses.of_cons_blank hb⟩

theorem IsRaw.trimChars {cs : List Char} (h : IsRaw cs) : IsRaw (Text.trimChars cs) := by
  induction cs with
  | nil => exact h
  | cons c rest ih =>
      cases hc : Text.isBlank c with
      | true =>
          rw [Text.trimChars_cons_blank hc]
          exact ih (h.of_cons_blank hc)
      | false =>
          have hstart : Text.stripStart Text.isBlank (c :: rest) = c :: rest :=
            List.dropWhile_cons_of_neg (by rw [hc]; exact Bool.false_ne_true)
          obtain ⟨tail, hsplit, -⟩ := Text.exists_append_stripEnd Text.isBlank (c :: rest)
          rw [hsplit] at h
          rw [Text.trimChars, Text.strip, hstart]
          exact h.of_append

theorem scan_backslash {current awaited : List Char} :
    scan current awaited ['\\'] = [('\\' :: current).reverse] := by
  rw [scan]
  split
  · rename_i hs
    split at hs
    · cases hs
    · cases hs
  · rfl

/-- The scan of one segment leaves at most an empty segment behind. -/
theorem IsRaw.scan {cs : List Char} (h : IsRaw cs) :
    scan [] [] cs = [cs] ∨ scan [] [] cs = [cs, []] := by
  rcases h with hspan | ⟨hnone, init, left, reads, hend⟩
  · exact .inr (by rw [scan_pattern hspan]; simp [dropPipe, scan_nil])
  · left
    rcases hend with rfl | rfl
    · have hscan := scan_reads reads [] [] (fun _ _ => by rwa [List.append_nil])
      rwa [List.append_nil, scan_nil, List.append_nil, List.reverse_reverse] at hscan
    · rw [scan_reads reads [] ['\\'] fun _ _ => hnone, scan_backslash]
      simp

/-- The scan of a text starts with a pattern, or it reads a stretch up to the end of the text or up
to a pipe. -/
inductive Starts (cs : List Char) : Prop
  | pattern {span rest} (hspan : patternSpan? cs = some (span, rest))
      (hscan : Segment.scan [] [] cs = span :: Segment.scan [] [] (dropPipe rest))
  | whole (hnone : patternSpan? cs = none) (hpasses : Passes [] cs)
      (hscan : Segment.scan [] [] cs = [cs])
  | pipe {init more} (hcs : cs = init ++ '|' :: more) (hnone : patternSpan? init = none)
      (hpasses : Passes [] init) (hscan : Segment.scan [] [] cs = init :: Segment.scan [] [] more)

theorem starts (cs : List Char) : Starts cs := by
  cases hpattern : patternSpan? cs with
  | some found => exact .pattern hpattern (scan_pattern hpattern)
  | none =>
      obtain ⟨init, left, rest, rfl, reads, hrest⟩ := exists_reads [] cs
      have hscan := scan_reads reads [] rest fun _ _ => hpattern
      rw [List.append_nil] at hscan
      rcases hrest with rfl | rfl | ⟨rfl, more, rfl⟩
      · rw [scan_nil, List.reverse_reverse] at hscan
        rw [List.append_nil] at hpattern hscan ⊢
        exact .whole hpattern reads.passes hscan
      · rw [scan_backslash, List.reverse_cons, List.reverse_reverse] at hscan
        exact .whole hpattern ⟨init, left, reads, .inr rfl⟩ hscan
      · have hstart : init.reverse = [] → ([] : List Char) = [] →
            patternSpan? ('|' :: more) = none := by
          intro hinit _
          rwa [List.reverse_eq_nil_iff.mp hinit] at hpattern
        rw [scan_cons hstart (by decide)] at hscan
        exact .pipe rfl (patternSpan?_eq_none_of_append hpattern) reads.passes
          (by simpa [closerOf?] using hscan)

/-- What the scan of a text cuts off is one segment. -/
theorem isRaw_of_mem_scan {cs piece : List Char} (h : piece ∈ Segment.scan [] [] cs) :
    IsRaw piece := by
  induction hsize : cs.length using Nat.strongRecOn generalizing cs with
  | ind size ih =>
      cases starts cs with
      | @pattern span rest hspan hscan =>
          rw [hscan] at h
          rcases List.mem_cons.mp h with rfl | hlater
          · exact isRaw_of_patternSpan? (b := []) (by rw [hspan, List.append_nil])
          · exact ih _ (hsize ▸ length_patternSpan?_lt hspan) hlater rfl
      | whole hnone hpasses hscan =>
          rw [hscan, List.mem_singleton] at h
          subst h
          exact .inr ⟨hnone, hpasses⟩
      | @pipe init more hcs hnone hpasses hscan =>
          rw [hscan] at h
          rcases List.mem_cons.mp h with rfl | hlater
          · exact .inr ⟨hnone, hpasses⟩
          · refine ih _ ?_ hlater rfl
            rw [← hsize, hcs, List.length_append, List.length_cons]
            omega

theorem splitChars_of_isRaw {cs : List Char} (h : IsRaw cs) (htrim : Text.trimChars cs = cs)
    (hne : cs ≠ []) : splitChars cs = [cs] := by
  rcases h.scan with hscan | hscan <;> simp [splitChars, hscan, htrim, hne, trimChars_nil]

/-- A segment of a rule text is what is left of a piece that the scan cuts off. -/
theorem exists_piece_of_mem_split {s t : String} (h : t ∈ split s) :
    ∃ piece ∈ Segment.scan [] [] s.toList, Text.trimChars piece ≠ [] ∧
      t = String.ofList (Text.trimChars piece) := by
  obtain ⟨segment, hsegment, rfl⟩ := List.mem_map.mp h
  obtain ⟨hmem, hkept⟩ := List.mem_filter.mp hsegment
  obtain ⟨piece, hpiece, rfl⟩ := List.mem_map.mp hmem
  exact ⟨piece, hpiece, by simpa using hkept, rfl⟩

/-- A segment of a rule text splits into itself. -/
theorem split_of_mem_split {s t : String} (h : t ∈ split s) : split t = [t] := by
  obtain ⟨piece, hpiece, hkept, rfl⟩ := exists_piece_of_mem_split h
  have hchars := splitChars_of_isRaw (isRaw_of_mem_scan hpiece).trimChars
    (Text.trimChars_trimChars piece) hkept
  rw [split, String.toList_ofList, hchars, List.map_singleton]

end Segment

end RuleSchema
