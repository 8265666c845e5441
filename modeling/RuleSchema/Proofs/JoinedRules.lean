import RuleSchema.Proofs.RuleNames

/-!
# Rules joined with pipes

A plain segment is read with a stack of awaited closers; a pattern segment runs from its head to the
first delimiter that no backslash takes. Joining such segments with pipes and splitting the text
gives them back, so a rule text and the list of its segments have the same normalized form.
-/

namespace RuleSchema.Segment

/-- Reading characters turns one stack of awaited closers into another. A backslash takes the next
character with it, and a pipe is read only while a closer is awaited. -/
inductive Reads : List Char → List Char → List Char → Prop
  | done {awaited} : Reads awaited [] awaited
  | escaped {awaited c cs left} (tail : Reads awaited cs left) :
      Reads awaited ('\\' :: c :: cs) left
  | opened {awaited c closer cs left} (ho : closerOf? c = some closer)
      (tail : Reads (closer :: awaited) cs left) : Reads awaited (c :: cs) left
  | closed {awaited c cs left} (hb : c ≠ '\\') (ho : closerOf? c = none)
      (tail : Reads awaited cs left) : Reads (c :: awaited) (c :: cs) left
  | other {awaited c cs left} (hb : c ≠ '\\') (ho : closerOf? c = none)
      (hc : awaited.head? ≠ some c) (hp : c = '|' → awaited ≠ [])
      (tail : Reads awaited cs left) : Reads awaited (c :: cs) left

/-- A trimmed rule that is no pattern rule and in which brackets end balanced. -/
structure IsPlain (s : String) : Prop where
  nonempty : s ≠ ""
  trimmed : Text.trim s = s
  head : ∀ head tail, Text.cutFirst ':' s.toList = (head, some tail) →
    RuleName.canonical (String.ofList head) ∉ Family.wholeParameter.rules
  balanced : Reads [] s.toList []

/-- The body of a pattern: a backslash takes the next character with it, and the delimiter does not
stand alone. -/
inductive IsBody (delimiter : Char) : List Char → Prop
  | nil : IsBody delimiter []
  | escaped {c cs} (tail : IsBody delimiter cs) : IsBody delimiter ('\\' :: c :: cs)
  | other {c cs} (hb : c ≠ '\\') (hd : c ≠ delimiter) (tail : IsBody delimiter cs) :
      IsBody delimiter (c :: cs)

/-- A rule that takes a pattern, with the delimiters and the flags of the pattern. -/
inductive IsPattern : String → Prop
  | intro {name : String} {delimiter : Char} {body flags : List Char}
      (hn : name ∈ Family.wholeParameter.rules)
      (ha : Text.isAlphanumeric delimiter = false) (hs : Text.isBlank delimiter = false)
      (hb : delimiter ≠ '\\') (hp : delimiter ≠ '|')
      (hbody : IsBody delimiter body) (hflags : ∀ c ∈ flags, c.isAlpha = true) :
      IsPattern (name ++ ":" ++ String.ofList (delimiter :: body ++ delimiter :: flags))

theorem patternSpan?_nil : patternSpan? [] = none := rfl

theorem scan_nil (current awaited : List Char) : scan current awaited [] = [current.reverse] := by
  rw [scan]
  split
  · rename_i h
    split at h <;> simp [patternSpan?_nil] at h
  · rfl

theorem scan_escaped {current awaited cs : List Char} {c : Char}
    (h : current = [] → awaited = [] → patternSpan? ('\\' :: c :: cs) = none) :
    scan current awaited ('\\' :: c :: cs) = scan (c :: '\\' :: current) awaited cs := by
  rw [scan]
  split
  · rename_i hs
    split at hs <;> simp_all
  · simp

/-- One step of the scan on a character that is no backslash, whatever follows it. -/
theorem scan_cons {current awaited cs : List Char} {c : Char}
    (h : current = [] → awaited = [] → patternSpan? (c :: cs) = none) (hb : c ≠ '\\') :
    scan current awaited (c :: cs) =
      match closerOf? c with
      | some closer => scan (c :: current) (closer :: awaited) cs
      | none =>
        if awaited.head? = some c then scan (c :: current) awaited.tail cs
        else if c = '|' ∧ awaited = [] then current.reverse :: scan [] [] cs
        else scan (c :: current) awaited cs := by
  rw [scan]
  split
  · rename_i hs
    split at hs <;> simp_all
  · cases cs with
    | nil =>
        cases ho : closerOf? c with
        | some closer =>
            have hc : c ≠ '|' := by rintro rfl; simp [closerOf?] at ho
            simp [scan_nil, hc]
        | none =>
            by_cases hp : c = '|' ∧ awaited = []
            · simp [scan_nil, hp]
            · simp_all [scan_nil]
    | cons next rest =>
        cases ho : closerOf? c with
        | some closer => simp [hb, ho]
        | none => simp [hb, ho]

theorem ne_backslash_of_closerOf? {c closer : Char} (h : closerOf? c = some closer) :
    c ≠ '\\' := by
  rintro rfl
  simp [closerOf?] at h

/-- The scan takes a pattern at the start of a text as one segment. -/
theorem scan_pattern {cs span rest : List Char} (h : patternSpan? cs = some (span, rest)) :
    scan [] [] cs = span :: scan [] [] (dropPipe rest) := by
  rw [scan]
  split
  · rename_i hs
    rw [if_pos (by rfl), h] at hs
    obtain ⟨rfl, rfl⟩ := Prod.mk.inj (Option.some.inj hs)
    rfl
  · rename_i hs
    rw [if_pos (by rfl), h] at hs
    cases hs

theorem scan_pipe (current cs : List Char) (h : current ≠ []) :
    scan current [] ('|' :: cs) = current.reverse :: scan [] [] cs := by
  rw [scan_cons (fun hc => absurd hc h) (by decide)]
  simp [closerOf?]

/-- The scan moves along characters as reading does, once it cannot meet a pattern. -/
theorem scan_reads {awaited cs left : List Char} (reads : Reads awaited cs left)
    (current rest : List Char)
    (h : current = [] → awaited = [] → patternSpan? (cs ++ rest) = none) :
    scan current awaited (cs ++ rest) = scan (cs.reverse ++ current) left rest := by
  induction reads generalizing current with
  | done => rfl
  | escaped tail ih =>
      simp only [List.cons_append] at h ⊢
      rw [scan_escaped h, ih _ (by simp)]
      simp
  | opened ho tail ih =>
      simp only [List.cons_append] at h ⊢
      rw [scan_cons h (ne_backslash_of_closerOf? ho)]
      simp only [ho]
      rw [ih _ (by simp)]
      simp
  | closed hb ho tail ih =>
      simp only [List.cons_append] at h ⊢
      rw [scan_cons h hb]
      simp only [ho, List.head?_cons, if_true, List.tail_cons]
      rw [ih _ (by simp)]
      simp
  | other hb ho hc hp tail ih =>
      simp only [List.cons_append] at h ⊢
      rw [scan_cons h hb]
      simp only [ho, if_neg hc]
      rw [if_neg (fun h => hp h.1 h.2), ih _ (by simp)]
      simp

theorem cutFirst_append_of_some {sep : Char} {cs head tail : List Char} (rest : List Char)
    (h : Text.cutFirst sep cs = (head, some tail)) :
    Text.cutFirst sep (cs ++ rest) = (head, some (tail ++ rest)) := by
  induction cs generalizing head with
  | nil => simp [Text.cutFirst] at h
  | cons c cs ih =>
      simp only [Text.cutFirst] at h
      split at h
      · simp_all [Text.cutFirst]
      · rename_i hc
        obtain ⟨rfl, ht⟩ := Prod.mk.inj h
        have hi := @ih (Text.cutFirst sep cs).1 (Prod.ext rfl ht)
        simp [Text.cutFirst, hc, hi]

theorem cutFirst_append_of_not_mem {sep : Char} {cs : List Char} (rest : List Char)
    (h : sep ∉ cs) : Text.cutFirst sep (cs ++ rest) =
      (cs ++ (Text.cutFirst sep rest).1, (Text.cutFirst sep rest).2) := by
  induction cs with
  | nil => rfl
  | cons c cs ih =>
      have hc : c ≠ sep := fun e => h (e ▸ List.mem_cons_self)
      have ht : sep ∉ cs := fun m => h (List.mem_cons_of_mem _ m)
      simp [Text.cutFirst, hc, ih ht]

theorem exists_cutFirst_of_mem {sep : Char} {cs : List Char} (h : sep ∈ cs) :
    ∃ head tail, Text.cutFirst sep cs = (head, some tail) := by
  obtain ⟨head, tail, rfl, hn⟩ := List.eq_append_cons_of_mem h
  refine ⟨head, tail, ?_⟩
  rw [cutFirst_append_of_not_mem _ hn]
  simp [Text.cutFirst]

/-- The characters that matter to reading while no closer is awaited. -/
def splitters : List Char := ['|', '\\', '(', '[', '\x7b']

/-- An ASCII character that is its own lower case is still there in lower case. -/
theorem mem_lowerAfter {before cs : List Char} {c : Char} (hascii : c.toNat < 128)
    (hlower : c.toLower = c) (h : c ∈ cs) : c ∈ Text.lowerAfter before cs := by
  induction cs generalizing before with
  | nil => simp at h
  | cons d cs ih =>
      simp only [Text.lowerAfter, List.mem_append]
      rcases List.mem_cons.mp h with rfl | h
      · have hsigma : c.toNat ≠ 0x3A3 := by omega
        have hdotted : c.toNat ≠ 0x130 := by omega
        exact Or.inl (by simp [Text.lowerChar, hascii, hlower, hsigma, hdotted])
      · exact Or.inr (ih h)

/-- No short name stands for a rule that takes a pattern. -/
theorem spelled_of_canonical_mem {name : String}
    (h : RuleName.canonical name ∈ Family.wholeParameter.rules) :
    String.ofList (RuleName.snakeChars (Text.trimChars name.toList)) ∈
      Family.wholeParameter.rules := by
  unfold RuleName.canonical at h
  generalize String.ofList (RuleName.snakeChars (Text.trimChars name.toList)) = spelled at h ⊢
  by_cases hi : spelled = "int"
  · subst hi
    revert h
    decide
  · by_cases hb : spelled = "bool"
    · subst hb
      revert h
      decide
    · have hi : (spelled == "int") = false := beq_false_of_ne hi
      have hb : (spelled == "bool") = false := beq_false_of_ne hb
      simpa [RuleName.aliases, List.lookup_cons, hi, hb] using h

/-- A head with a character that matters to reading names no rule that takes a pattern. -/
theorem canonical_not_mem_of_splitter {head : List Char} {c : Char} (hc : c ∈ splitters)
    (h : c ∈ head) : RuleName.canonical (String.ofList head) ∉ Family.wholeParameter.rules := by
  have hall : (splitters.all fun c =>
      ! Text.isBlank c && decide (c.toNat < 128) && c.toLower == c) = true := by decide
  have hfixed := List.all_eq_true.mp hall c hc
  simp only [Bool.and_eq_true, Bool.not_eq_true', decide_eq_true_eq, beq_iff_eq] at hfixed
  obtain ⟨⟨hblank, hascii⟩, hlower⟩ := hfixed
  have hm : c ∈ RuleName.snakeChars (Text.trimChars head) :=
    mem_lowerAfter hascii hlower (RuleName.mem_separateWords (RuleName.mem_trimChars h hblank))
  intro hw
  have hs := spelled_of_canonical_mem hw
  rw [String.toList_ofList] at hs
  have hn : ∀ name ∈ Family.wholeParameter.rules,
      (splitters.all fun c => decide (c ∉ name.toList)) = true := by decide
  have hnot := of_decide_eq_true (List.all_eq_true.mp (hn _ hs) c hc)
  exact hnot (by rwa [String.toList_ofList])

theorem patternSpan?_eq_none {cs : List Char}
    (h : ∀ head tail, Text.cutFirst ':' cs = (head, some tail) →
      RuleName.canonical (String.ofList head) ∉ Family.wholeParameter.rules) :
    patternSpan? cs = none := by
  unfold patternSpan?
  split
  · rename_i head delimiter body hc
    have hn := h head _ hc
    simp [Family.contains, hn]
  · rfl

/-- What may follow a segment: nothing, or a pipe with the next segments. -/
def IsRest (rest : List Char) : Prop := rest = [] ∨ ∃ cs, rest = '|' :: cs

theorem IsPlain.patternSpan? {s : String} (hs : IsPlain s) {rest : List Char}
    (hr : IsRest rest) : patternSpan? (s.toList ++ rest) = none := by
  apply patternSpan?_eq_none
  intro head tail hc
  by_cases hm : ':' ∈ s.toList
  · obtain ⟨first, last, hcut⟩ := exists_cutFirst_of_mem hm
    rw [cutFirst_append_of_some rest hcut] at hc
    obtain ⟨rfl, -⟩ := Prod.mk.inj hc
    exact hs.head _ _ hcut
  · rw [cutFirst_append_of_not_mem rest hm] at hc
    obtain ⟨rfl, ht⟩ := Prod.mk.inj hc
    rcases hr with rfl | ⟨cs, rfl⟩
    · simp [Text.cutFirst] at ht
    · exact canonical_not_mem_of_splitter (c := '|') (by decide) (by simp [Text.cutFirst])

theorem closePattern_escaped (delimiter c : Char) (cs : List Char) :
    closePattern delimiter ('\\' :: c :: cs) =
      ('\\' :: c :: (closePattern delimiter cs).1, (closePattern delimiter cs).2) := by
  simp [closePattern]

theorem closePattern_other {delimiter c : Char} (cs : List Char) (hb : c ≠ '\\')
    (hd : c ≠ delimiter) : closePattern delimiter (c :: cs) =
      (c :: (closePattern delimiter cs).1, (closePattern delimiter cs).2) := by
  cases cs with
  | nil => simp [closePattern]
  | cons next rest => simp [closePattern, hb, hd]

theorem closePattern_delimiter {delimiter : Char} (cs : List Char) (hb : delimiter ≠ '\\') :
    closePattern delimiter (delimiter :: cs) =
      (delimiter :: cs.takeWhile Text.isLetter, cs.dropWhile Text.isLetter) := by
  cases cs with
  | nil => simp [closePattern]
  | cons next rest => simp [closePattern, hb]

/-- A pattern closes at the delimiter after its body and takes the flags with it. -/
theorem closePattern_body {delimiter : Char} {body flags rest : List Char}
    (hbody : IsBody delimiter body) (hb : delimiter ≠ '\\')
    (hflags : ∀ c ∈ flags, c.isAlpha = true) (hr : IsRest rest) :
    closePattern delimiter (body ++ delimiter :: (flags ++ rest)) =
      (body ++ delimiter :: flags, rest) := by
  induction hbody with
  | nil =>
      have hf : ∀ c ∈ flags, Text.isLetter c = true :=
        fun c hc => Text.isLetter_of_isAlpha (hflags c hc)
      have ht : rest.takeWhile Text.isLetter = [] ∧ rest.dropWhile Text.isLetter = rest := by
        rcases hr with rfl | ⟨cs, rfl⟩
        · simp
        · have hp : Text.isLetter '|' = false := by decide
          simp [hp]
      rw [List.nil_append, closePattern_delimiter _ hb, List.takeWhile_append_of_pos hf,
        List.dropWhile_append_of_pos hf, ht.1, ht.2]
      simp
  | escaped tail ih =>
      simp only [List.cons_append]
      rw [closePattern_escaped, ih]
  | other hc hd tail ih =>
      simp only [List.cons_append]
      rw [closePattern_other _ hc hd, ih]

/-- A pattern at the start of a text is recognized, whatever segments follow. -/
theorem IsPattern.patternSpan? {s : String} (hs : IsPattern s) {rest : List Char}
    (hr : IsRest rest) :
    Segment.patternSpan? (s.toList ++ rest) = some (s.toList, rest) := by
  obtain @⟨name, delimiter, body, flags, hn, ha, hblank, hb, hp, hbody, hflags⟩ := hs
  have hname : ':' ∉ name.toList ∧ RuleName.canonical name = name := by
    revert name
    decide
  have hcut : Text.cutFirst ':' ((name ++ ":" ++
      String.ofList (delimiter :: body ++ delimiter :: flags)).toList ++ rest) =
      (name.toList, some (delimiter :: (body ++ delimiter :: (flags ++ rest)))) := by
    simp only [String.toList_append, String.toList_ofList, List.append_assoc]
    rw [cutFirst_append_of_not_mem _ hname.1]
    simp [Text.cutFirst]
  have hspace : delimiter ≠ ' ' := by
    rintro rfl
    simp [Text.isBlank] at hblank
  unfold Segment.patternSpan?
  rw [hcut]
  simp only [String.ofList_toList, hname.2, Family.contains, List.contains_iff_mem.mpr hn]
  rw [closePattern_body hbody hb hflags hr]
  simp [isDelimiter, ha, hb, hp, hspace]

/-- Up to an element without the property nothing is trimmed at the end. -/
theorem stripEnd_append_cons {p : Char → Bool} {c : Char} (h : p c = false)
    (before after : List Char) :
    Text.stripEnd p (before ++ c :: after) = before ++ c :: Text.stripEnd p after := by
  induction before with
  | nil =>
      rw [List.nil_append, Text.stripEnd]
      cases Text.stripEnd p after with
      | nil => rw [h, if_neg Bool.false_ne_true]; rfl
      | cons d kept => rfl
  | cons d before ih =>
      rw [List.cons_append, Text.stripEnd, ih]
      cases before <;> rfl

/-- A text whose first and last characters are no blanks is trimmed. -/
theorem trimChars_of_ends {first last : Char} {cs : List Char} (hf : Text.isBlank first = false)
    (hl : Text.isBlank last = false) :
    Text.trimChars (first :: cs ++ [last]) = first :: cs ++ [last] := by
  have hstart : Text.stripStart Text.isBlank (first :: cs ++ [last]) = first :: cs ++ [last] := by
    simp [Text.stripStart, hf]
  rw [Text.trimChars, Text.strip, hstart]
  exact stripEnd_append_cons hl _ []

theorem isBlank_of_isAlpha {c : Char} (h : c.isAlpha = true) : Text.isBlank c = false := by
  have hcode := Text.toNat_of_isAlpha h
  simp only [Text.isBlank, Bool.or_eq_false_iff, Bool.and_eq_false_iff, decide_eq_false_iff_not,
    beq_eq_false_iff_ne]
  omega

theorem isBlank_of_isLetter {c : Char} (h : Text.isLetter c = true) : Text.isBlank c = false := by
  rw [Text.isLetter, Bool.or_eq_true] at h
  rcases h with halpha | hruns
  · exact isBlank_of_isAlpha halpha
  · have hnone : ∀ n ∈ RuleName.blankCodes, Text.inRuns Text.letterRuns n = false := by
      decide +kernel
    rw [Bool.eq_false_iff, Ne, RuleName.isBlank_iff]
    intro hblank
    rw [hnone _ hblank] at hruns
    cases hruns

theorem IsPattern.trimmed {s : String} (hs : IsPattern s) :
    Text.trimChars s.toList = s.toList := by
  obtain @⟨name, delimiter, body, flags, hn, -, hblank, -, -, -, hflags⟩ := hs
  obtain ⟨init, last, hlast, hl⟩ : ∃ init last, delimiter :: flags = init ++ [last] ∧
      Text.isBlank last = false := by
    refine ⟨(delimiter :: flags).dropLast, (delimiter :: flags).getLast (by simp),
      (List.dropLast_concat_getLast _).symm, ?_⟩
    rcases List.mem_cons.mp (List.getLast_mem (l := delimiter :: flags) (by simp)) with hc | hc
    · rw [hc, hblank]
    · exact isBlank_of_isAlpha (hflags _ hc)
  obtain ⟨first, more, hfirst, hf⟩ : ∃ first more, name.toList = first :: more ∧
      Text.isBlank first = false := by
    rcases List.mem_cons.mp hn with rfl | hn
    · exact ⟨'r', "egex".toList, by decide, by decide⟩
    · rw [List.mem_singleton.mp hn]
      exact ⟨'n', "ot_regex".toList, by decide, by decide⟩
  have hs : (name ++ ":" ++ String.ofList (delimiter :: body ++ delimiter :: flags)).toList =
      first :: (more ++ ':' :: delimiter :: body ++ init) ++ [last] := by
    simp [hfirst, hlast]
  rw [hs]
  exact trimChars_of_ends hf hl

theorem IsPlain.trimChars {s : String} (hs : IsPlain s) :
    Text.trimChars s.toList = s.toList := by
  have h := congrArg String.toList hs.trimmed
  simpa [Text.trim] using h

theorem Reads.of_isAlpha {cs : List Char} (h : ∀ c ∈ cs, c.isAlpha = true) : Reads [] cs [] := by
  induction cs with
  | nil => exact .done
  | cons c rest ih =>
      have hc := h c List.mem_cons_self
      have hother : ∀ d : Char, d.isAlpha = false → c ≠ d := fun d hd heq => by
        rw [heq, hd] at hc
        cases hc
      have hopen : closerOf? c = none := by
        simp only [closerOf?, beq_false_of_ne (hother '(' rfl), beq_false_of_ne (hother '[' rfl),
          beq_false_of_ne (hother '\x7b' rfl), Bool.false_eq_true, if_false]
      refine .other (hother '\\' rfl) hopen (by simp)
        (fun hpipe => absurd hpipe (hother '|' rfl)) ?_
      exact ih fun d hd => h d (List.mem_cons_of_mem _ hd)

/-- A word of letters is a plain segment. -/
theorem IsPlain.of_isAlpha {s : String} (hne : s ≠ "") (hall : s.toList.all Char.isAlpha = true) :
    IsPlain s := by
  have h : ∀ c ∈ s.toList, c.isAlpha = true := List.all_eq_true.mp hall
  exact {
    nonempty := hne
    trimmed := by
      rw [Text.trim, Text.trimChars, Text.strip_of_forall fun c hc => isBlank_of_isAlpha (h c hc),
        String.ofList_toList]
    head := by
      intro head tail hc
      have hcolon := h ':' (cutFirst_append hc ▸ List.mem_append_right _ List.mem_cons_self)
      cases hcolon
    balanced := .of_isAlpha h }

/-- A segment is a plain or a pattern segment. -/
def IsSegment (s : String) : Prop := IsPlain s ∨ IsPattern s

theorem IsSegment.trimmed {s : String} (hs : IsSegment s) :
    Text.trimChars s.toList = s.toList :=
  hs.elim IsPlain.trimChars IsPattern.trimmed

theorem IsSegment.ne_nil {s : String} (hs : IsSegment s) : s.toList ≠ [] := by
  rcases hs with hs | ⟨hn, -, -, -, -, -, -⟩
  · simpa using hs.nonempty
  · simp

/-- The scan of a segment at the end of a text leaves at most an empty segment behind. -/
theorem IsSegment.scan_last {s : String} (hs : IsSegment s) :
    scan [] [] s.toList = [s.toList] ∨ scan [] [] s.toList = [s.toList, []] := by
  rcases hs with hs | hs
  · left
    have h := scan_reads hs.balanced [] [] (fun _ _ => hs.patternSpan? (Or.inl rfl))
    simpa [scan_nil] using h
  · right
    have h : Segment.patternSpan? (s.toList ++ []) = _ := hs.patternSpan? (Or.inl rfl)
    rw [List.append_nil] at h
    rw [scan_pattern h]
    simp [dropPipe, scan_nil]

theorem IsSegment.scan_pipe {s : String} (hs : IsSegment s) (cs : List Char) :
    scan [] [] (s.toList ++ '|' :: cs) = s.toList :: scan [] [] cs := by
  rcases hs with hs | hs
  · have h := scan_reads hs.balanced [] ('|' :: cs)
      (fun _ _ => hs.patternSpan? (Or.inr ⟨cs, rfl⟩))
    rw [h, List.append_nil, Segment.scan_pipe _ _ (by simpa using hs.nonempty),
      List.reverse_reverse]
  · rw [scan_pattern (hs.patternSpan? (Or.inr ⟨cs, rfl⟩))]
    rfl

theorem trimChars_nil : Text.trimChars [] = [] := rfl

/-- The characters of segments joined with pipes split into the segments. -/
theorem splitChars_joinChars {segments : List String} (h : ∀ s ∈ segments, IsSegment s) :
    splitChars (Text.joinChars ['|'] (segments.map String.toList)) =
      segments.map String.toList := by
  induction segments with
  | nil => simp [splitChars, Text.joinChars, scan_nil, trimChars_nil]
  | cons s rest ih =>
      have hs := h s List.mem_cons_self
      have hr := ih fun t ht => h t (List.mem_cons_of_mem _ ht)
      have hkept : (! s.toList.isEmpty) = true := by simp [hs.ne_nil]
      cases rest with
      | nil =>
          rcases hs.scan_last with hl | hl <;>
            simp [splitChars, Text.joinChars, hl, hs.trimmed, hkept, trimChars_nil]
      | cons t more =>
          have hj : Text.joinChars ['|'] ((s :: t :: more).map String.toList) =
              s.toList ++ '|' :: Text.joinChars ['|'] ((t :: more).map String.toList) := by
            simp [Text.joinChars]
          rw [splitChars] at hr
          rw [hj, splitChars, hs.scan_pipe, List.map_cons, hs.trimmed,
            List.filter_cons_of_pos (by simp [hs.ne_nil]), hr, List.map_cons, List.map_cons,
            List.map_cons]

theorem split_join_pipe {segments : List String} (h : ∀ s ∈ segments, IsSegment s) :
    split (Text.join "|" segments) = segments := by
  have hc := splitChars_joinChars h
  rw [split, Text.toList_join]
  change (splitChars (Text.joinChars ['|'] _)).map String.ofList = segments
  rw [hc]
  simp

end RuleSchema.Segment

namespace RuleSchema.NormalizedRules

open Segment

/-- Segments joined with pipes are read one by one. -/
theorem normalize_join (segments : List String) {entries : List RuleEntry}
    (h : ∀ s ∈ segments, IsSegment s) (hparse : segments.mapM RuleEntry.parse = .ok entries) :
    normalize (.text (Text.join "|" segments)) = .ok ⟨entries, none, 0⟩ := by
  rw [normalize, entriesOfText, split_join_pipe h, hparse]
  rfl

theorem addEntries_addEntries (n : NormalizedRules) (first more : List RuleEntry) :
    (n.addEntries first).addEntries more = n.addEntries (first ++ more) := by
  simp [addEntries]

/-- Texts that are not blank add their entries one after the other. -/
theorem foldlM_addItem_text {segments : List String}
    (h : ∀ s ∈ segments, Text.isEmpty (Text.trim s) = false) (n : NormalizedRules) :
    (segments.map RuleValue.text).foldlM addItem n =
      (segments.mapM RuleEntry.parse).map n.addEntries := by
  induction segments generalizing n with
  | nil => simp [addEntries, Except.map, pure, Except.pure]
  | cons s rest ih =>
      have hs : addItem n (.text s) = (RuleEntry.parse s).map fun e => n.addEntries [e] := by
        rw [addItem, h s List.mem_cons_self]
        cases RuleEntry.parse s <;> rfl
      have hr := fun m => ih (fun t ht => h t (List.mem_cons_of_mem _ ht)) m
      rw [List.map_cons, List.foldlM_cons, hs, List.mapM_cons]
      cases RuleEntry.parse s with
      | error fault => rfl
      | ok e =>
          change (rest.map RuleValue.text).foldlM addItem (n.addEntries [e]) = _
          rw [hr]
          cases hm : rest.mapM RuleEntry.parse with
          | error fault => simp [Except.map, bind, Except.bind]
          | ok es =>
              simp [Except.map, bind, Except.bind, pure, Except.pure, addEntries_addEntries]

/-- Segments joined with pipes are the segments of the joined text, and the text has the same
normalized form as the list of the segments. -/
theorem pipe_form_eq_list_form (segments : List String) (h : ∀ s ∈ segments, IsSegment s) :
    split (Text.join "|" segments) = segments ∧
      normalize (.text (Text.join "|" segments)) =
        normalize (.list (segments.map RuleValue.text)) := by
  have hsplit := split_join_pipe h
  refine ⟨hsplit, ?_⟩
  have hkept : ∀ s ∈ segments, Text.isEmpty (Text.trim s) = false := by
    intro s hs
    simp [Text.isEmpty, Text.trim, (h s hs).trimmed, (h s hs).ne_nil]
  rw [normalize, normalize, foldlM_addItem_text hkept, entriesOfText, hsplit]
  cases segments.mapM RuleEntry.parse <;> rfl

/-- Pipes inside brackets and inside the delimiters of patterns split nothing. -/
theorem pipe_form_of_patterns_and_brackets :
    (∀ s ∈ ["regex:/^(a|b)\\/$/i", "in:(a|b),\\|", "not_regex:#x|y#"], IsSegment s) ∧
      split (Text.join "|" ["regex:/^(a|b)\\/$/i", "in:(a|b),\\|", "not_regex:#x|y#"]) =
        ["regex:/^(a|b)\\/$/i", "in:(a|b),\\|", "not_regex:#x|y#"] ∧
      normalize (.text (Text.join "|" ["regex:/^(a|b)\\/$/i", "in:(a|b),\\|", "not_regex:#x|y#"])) =
        normalize (.list (["regex:/^(a|b)\\/$/i", "in:(a|b),\\|", "not_regex:#x|y#"].map .text)) := by
  have first : IsPattern "regex:/^(a|b)\\/$/i" := by
    refine @IsPattern.intro "regex" '/' "^(a|b)\\/$".toList ['i'] (by decide) (by decide)
      (by decide) (by decide) (by decide) ?_ (List.all_eq_true.mp (by decide))
    repeat (first
      | exact .nil
      | refine .escaped ?_
      | refine .other (by decide) (by decide) ?_)
  have second : IsPlain "in:(a|b),\\|" := by
    refine ⟨by decide, by decide, ?_, ?_⟩
    · intro head tail hc
      have hcut : Text.cutFirst ':' "in:(a|b),\\|".toList =
          (['i', 'n'], some "(a|b),\\|".toList) := by decide
      rw [hcut] at hc
      obtain ⟨rfl, -⟩ := Prod.mk.inj hc
      decide
    · repeat (first
        | exact .done
        | refine .escaped ?_
        | refine .opened rfl ?_
        | refine .closed (by decide) (by decide) ?_
        | refine .other (by decide) (by decide) (by decide) (by decide) ?_)
  have third : IsPattern "not_regex:#x|y#" := by
    refine @IsPattern.intro "not_regex" '#' "x|y".toList [] (by decide) (by decide)
      (by decide) (by decide) (by decide) ?_ (List.all_eq_true.mp (by decide))
    repeat (first
      | exact .nil
      | refine .other (by decide) (by decide) ?_)
  have h : ∀ s ∈ ["regex:/^(a|b)\\/$/i", "in:(a|b),\\|", "not_regex:#x|y#"], IsSegment s := by
    intro s hs
    simp only [List.mem_cons, List.not_mem_nil, or_false] at hs
    rcases hs with rfl | rfl | rfl
    · exact Or.inr first
    · exact Or.inl second
    · exact Or.inr third
  exact ⟨h, pipe_form_eq_list_form _ h⟩

end RuleSchema.NormalizedRules
