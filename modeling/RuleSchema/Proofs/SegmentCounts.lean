import RuleSchema.Proofs.SplitSegments

/-!
# Characters of segments and entries

Splitting a rule text loses pipes and blanks only, and reading a rule loses blanks, commas and double
quotes only. So the pipes of an entry are those of the rule it was read from, and a text that is
split at a pipe has more of them than its segments.
-/

namespace RuleSchema

namespace Text

/-- A text is what is left of another one that loses some of its characters with a property. -/
inductive Loses (q : Char → Bool) : List Char → List Char → Prop
  | nil : Loses q [] []
  | keep {c whole kept} (tail : Loses q whole kept) : Loses q (c :: whole) (c :: kept)
  | lose {c whole kept} (hc : q c = true) (tail : Loses q whole kept) : Loses q (c :: whole) kept

namespace Loses

variable {p q : Char → Bool} {whole kept a b c d : List Char}

theorem refl (cs : List Char) : Loses q cs cs := by
  induction cs with
  | nil => exact .nil
  | cons c rest ih => exact .keep ih

theorem append (h : Loses q a b) (h' : Loses q c d) : Loses q (a ++ c) (b ++ d) := by
  induction h with
  | nil => exact h'
  | keep tail ih => exact .keep ih
  | lose hc tail ih => exact .lose hc ih

theorem of_forall (h : ∀ c ∈ whole, q c = true) : Loses q whole [] := by
  induction whole with
  | nil => exact .nil
  | cons c rest ih =>
      exact .lose (h c List.mem_cons_self) (ih fun d hd => h d (List.mem_cons_of_mem _ hd))

/-- A character may be lost from within. -/
theorem insert {x : Char} (hx : q x = true) (h : Loses q (a ++ b) kept) :
    Loses q (a ++ x :: b) kept := by
  induction a generalizing kept with
  | nil => exact .lose hx h
  | cons y a ih =>
      cases h with
      | keep tail => exact .keep (ih tail)
      | lose hy tail => exact .lose hy (ih tail)

theorem countP_le (h : Loses q whole kept) (p : Char → Bool) : kept.countP p ≤ whole.countP p := by
  induction h with
  | nil => exact Nat.le_refl _
  | keep tail ih =>
      rw [List.countP_cons, List.countP_cons]
      exact Nat.add_le_add_right ih _
  | lose hc tail ih =>
      rw [List.countP_cons]
      exact Nat.le_add_right_of_le ih

theorem trans (h : Loses q a b) (h' : Loses q b c) : Loses q a c := by
  induction h generalizing c with
  | nil => exact h'
  | keep tail ih =>
      cases h' with
      | keep tail' => exact .keep (ih tail')
      | lose hc tail' => exact .lose hc (ih tail')
  | lose hc tail ih => exact .lose hc (ih h')

theorem mono {q' : Char → Bool} (hq : ∀ c, q c = true → q' c = true) (h : Loses q a b) :
    Loses q' a b := by
  induction h with
  | nil => exact .nil
  | keep tail ih => exact .keep ih
  | lose hc tail ih => exact .lose (hq _ hc) ih

/-- What the parts of a text lose, the text loses. -/
theorem flatten {f : List Char → List Char} (h : ∀ cs, Loses q cs (f cs))
    (parts : List (List Char)) : Loses q parts.flatten (parts.map f).flatten := by
  induction parts with
  | nil => exact .nil
  | cons part rest ih =>
      rw [List.flatten_cons, List.map_cons, List.flatten_cons]
      exact (h part).append ih

/-- Characters without the property are not lost. -/
theorem countP_eq (h : Loses q whole kept) (hp : ∀ c, q c = true → p c = false) :
    kept.countP p = whole.countP p := by
  induction h with
  | nil => rfl
  | keep tail ih => rw [List.countP_cons, List.countP_cons, ih]
  | lose hc tail ih =>
      rw [List.countP_cons_of_neg (by rw [hp _ hc]; exact Bool.false_ne_true), ih]

theorem count_eq {x : Char} (h : Loses q whole kept) (hx : q x = false) :
    kept.count x = whole.count x := by
  refine h.countP_eq fun c hc => ?_
  rw [beq_eq_false_iff_ne]
  rintro rfl
  rw [hx] at hc
  cases hc

/-- A text that has as many of the characters that it may lose as before is unchanged. -/
theorem eq_of_countP_le (h : Loses q whole kept) (hle : whole.countP q ≤ kept.countP q) :
    kept = whole := by
  induction h with
  | nil => rfl
  | keep tail ih =>
      rw [List.countP_cons, List.countP_cons] at hle
      rw [ih (Nat.le_of_add_le_add_right hle)]
  | lose hc tail ih =>
      rw [List.countP_cons_of_pos hc] at hle
      have hless := tail.countP_le q
      omega

end Loses

theorem loses_stripStart (cs : List Char) : Loses isBlank cs (stripStart isBlank cs) := by
  have hstart : Loses isBlank (cs.takeWhile isBlank) [] :=
    .of_forall (List.all_eq_true.mp List.all_takeWhile)
  have hall := hstart.append (.refl (stripStart isBlank cs))
  rwa [stripStart, List.takeWhile_append_dropWhile] at hall

theorem loses_stripEnd (cs : List Char) : Loses isBlank cs (stripEnd isBlank cs) := by
  obtain ⟨tail, hsplit, hblank⟩ := exists_append_stripEnd isBlank cs
  have hall := (Loses.refl (stripEnd isBlank cs)).append (.of_forall hblank)
  rwa [List.append_nil, ← hsplit] at hall

/-- Trimming loses blanks. -/
theorem loses_trimChars (cs : List Char) : Loses isBlank cs (trimChars cs) :=
  (loses_stripStart cs).trans (loses_stripEnd _)

/-- Blanks at the end of a text are trimmed. -/
theorem stripEnd_append_blank {cs tail : List Char} (h : ∀ c ∈ tail, isBlank c = true) :
    stripEnd isBlank (cs ++ tail) = stripEnd isBlank cs := by
  induction cs with
  | nil => exact stripEnd_eq_nil_iff.mpr h
  | cons c rest ih => rw [List.cons_append, stripEnd, stripEnd, ih]

/-- Behind a character that is no blank only the end of a text is trimmed. -/
theorem trimChars_append_cons {c : Char} (hc : isBlank c = false) (before after : List Char) :
    trimChars (before ++ c :: after) = stripStart isBlank before ++ c :: stripEnd isBlank after := by
  have hstart : stripStart isBlank (before ++ c :: after) =
      stripStart isBlank before ++ c :: after := by
    induction before with
    | nil => exact List.dropWhile_cons_of_neg (by rw [hc]; exact Bool.false_ne_true)
    | cons d before ih =>
        rw [List.cons_append, stripStart, stripStart]
        cases hd : isBlank d with
        | true => rwa [List.dropWhile_cons_of_pos hd, List.dropWhile_cons_of_pos hd]
        | false =>
            have hneg : ¬ isBlank d = true := by rw [hd]; exact Bool.false_ne_true
            rw [List.dropWhile_cons_of_neg hneg, List.dropWhile_cons_of_neg hneg, List.cons_append]
  rw [trimChars, strip, hstart, Segment.stripEnd_append_cons hc]

namespace Record

/-- The characters that reading a record may lose. -/
def isSeparator (c : Char) : Bool := c == ',' || c == '"' || isBlank c

theorem isSeparator_of_isBreak {c : Char} (h : isBreak c = true) : isSeparator c = true := by
  rw [isBreak, Bool.or_eq_true, beq_iff_eq, beq_iff_eq] at h
  rcases h with rfl | rfl <;> rfl

/-- A separator that ends a field is lost. -/
theorem loses_ends {c : Char} {field rest : List Char} {fields : List (List Char)}
    {more : Option (List (List Char))} (hc : isSeparator c = true)
    (ih : ∀ {fields}, more = some fields → Loses isSeparator rest fields.flatten)
    (h : more.map (field.reverse :: ·) = some fields) :
    Loses isSeparator (field.reverse ++ c :: rest) fields.flatten := by
  obtain ⟨more, hmore, rfl⟩ := Option.map_eq_some_iff.mp h
  rw [List.flatten_cons]
  exact (Loses.refl _).append (.lose hc (ih hmore))

/-- Reading a record loses separators. -/
theorem loses_scan {place : Place} {field cs : List Char} {fields : List (List Char)}
    (hplace : place = .recordStart ∨ place = .afterBreak → field = [])
    (h : scan place field cs = some fields) :
    Loses isSeparator (field.reverse ++ cs) fields.flatten := by
  fun_induction scan place field cs generalizing fields with
  | case1 field | case2 field =>
      obtain rfl := Option.some.inj h
      obtain rfl := hplace (by simp)
      exact .nil
  | case3 =>
      obtain rfl := Option.some.inj h
      rw [List.append_nil, List.flatten_singleton]
      exact .refl _
  | case5 => cases h
  -- the character is left out
  | case4 | case20 =>
      rename_i hc ih
      exact (ih (fun _ => hplace (by simp)) h).insert (isSeparator_of_isBreak hc)
  | case6 | case16 | case17 | case21 | case22 =>
      rename_i hc ih
      rw [beq_iff_eq] at hc
      subst hc
      exact (ih (by simp) h).insert rfl
  -- the character is added to the field
  | case7 | case10 | case11 | case14 | case19 | case24 =>
      rename_i ih
      simpa using ih (by simp) h
  -- the character ends the field
  | case8 | case13 | case15 =>
      rename_i hc ih
      exact loses_ends (isSeparator_of_isBreak hc) (ih fun _ => rfl) h
  | case9 | case12 | case18 | case23 =>
      rename_i hc ih
      rw [beq_iff_eq] at hc
      subst hc
      exact loses_ends rfl (ih fun _ => rfl) h

theorem loses_read? {cs : List Char} {fields : List (List Char)} (h : read? cs = some fields) :
    Loses isSeparator cs fields.flatten := by
  obtain ⟨found, hscan, hlimit⟩ := Option.bind_eq_some_iff.mp h
  rw [Option.ite_none_right_eq_some, Option.some.injEq] at hlimit
  obtain ⟨-, rfl⟩ := hlimit
  exact loses_scan (fun _ => rfl) hscan

end Record

end Text

namespace Segment

open Text

/-- The characters that splitting a rule text may lose. -/
def isGap (c : Char) : Bool := c == '|' || isBlank c

theorem loses_dropPipe (cs : List Char) : Loses (· == '|') cs (dropPipe cs) := by
  unfold dropPipe
  split
  · exact .lose rfl (.refl _)
  · exact .refl _

/-- The scan of a text loses pipes. -/
theorem loses_scan (cs : List Char) : Loses (· == '|') cs (scan [] [] cs).flatten := by
  induction hsize : cs.length using Nat.strongRecOn generalizing cs with
  | ind size ih =>
      cases starts cs with
      | @pattern span rest hspan hscan =>
          have hrest := ih _ (hsize ▸ length_patternSpan?_lt hspan) (dropPipe rest) rfl
          rw [hscan, List.flatten_cons, (patternSpan?_append hspan).1]
          exact (Loses.refl span).append ((loses_dropPipe rest).trans hrest)
      | whole hnone hpasses hscan =>
          rw [hscan, List.flatten_singleton]
          exact .refl cs
      | @pipe init more hcs hnone hpasses hscan =>
          have hless : more.length < size := by
            rw [← hsize, hcs, List.length_append, List.length_cons]
            omega
          rw [hscan, hcs, List.flatten_cons]
          exact (Loses.refl init).append (.lose rfl (ih _ hless more rfl))

theorem flatten_splitChars (cs : List Char) :
    (splitChars cs).flatten = ((scan [] [] cs).map trimChars).flatten := by
  rw [splitChars]
  induction (scan [] [] cs).map trimChars with
  | nil => rfl
  | cons piece rest ih =>
      cases piece with
      | nil => exact ih
      | cons c piece => rw [List.filter_cons_of_pos rfl, List.flatten_cons, List.flatten_cons, ih]

/-- Splitting a text loses pipes and blanks. -/
theorem loses_splitChars (cs : List Char) : Loses isGap cs (splitChars cs).flatten := by
  rw [flatten_splitChars]
  have htrim : ∀ piece, Loses isGap piece (trimChars piece) := fun piece =>
    (loses_trimChars piece).mono fun c hc => by rw [isGap, hc, Bool.or_true]
  refine ((loses_scan cs).mono fun c hc => ?_).trans (.flatten htrim _)
  rw [isGap, hc, Bool.true_or]

/-- A text without a pattern at its start that is split has more pipes than its segments. -/
theorem count_splitChars_lt {cs : List Char} (hnone : patternSpan? cs = none)
    (hcut : scan [] [] cs ≠ [cs]) : (splitChars cs).flatten.count '|' < cs.count '|' := by
  have htrim : (splitChars cs).flatten.count '|' = (scan [] [] cs).flatten.count '|' := by
    rw [flatten_splitChars]
    exact (Loses.flatten loses_trimChars _).count_eq rfl
  cases starts cs with
  | pattern hspan hscan =>
      rw [hnone] at hspan
      cases hspan
  | whole hnone hpasses hscan => exact absurd hscan hcut
  | @pipe init more hcs _ hpasses hscan =>
      have hless := (loses_scan more).countP_le (· == '|')
      rw [htrim, hscan, hcs, List.flatten_cons, List.count_append, List.count_append,
        List.count_cons_self]
      exact Nat.add_lt_add_left (Nat.lt_succ_of_le hless) _

end Segment

namespace RuleName

open Text

/-- No stretch of lower-case counterparts meets the pipe. -/
theorem lowerShifts_avoid_pipe : (lowerShifts.all fun s =>
    decide ((s.last : Int) + s.distance < 124) || decide ((124 : Int) < s.first + s.distance)) =
      true := by
  decide +kernel

theorem shiftCode_ne_pipe {n : Nat} (h : n ≠ 124) : shiftCode lowerShifts n ≠ 124 := by
  unfold shiftCode
  split
  · rename_i s hfound
    have hcovers := List.find?_some hfound
    have havoid := List.all_eq_true.mp lowerShifts_avoid_pipe s (List.mem_of_find?_eq_some hfound)
    simp only [Bool.and_eq_true, Bool.or_eq_true, decide_eq_true_eq] at hcovers havoid
    omega
  · exact h

theorem toLower_eq_pipe : ∀ n < 128, (Char.ofNat n).toLower = '|' → n = 124 := by
  decide +kernel

/-- The pipe has no counterpart in lower case. -/
theorem lowerChar_eq_pipe_iff (c : Char) : lowerChar c = '|' ↔ c = '|' := by
  refine ⟨fun h => ?_, fun h => by rw [h]; rfl⟩
  have hcode : c.toNat = 124 := by
    rw [lowerChar] at h
    split at h
    · rename_i hascii
      exact toLower_eq_pipe c.toNat hascii (by rwa [Char.ofNat_toNat])
    · refine Classical.byContradiction fun hne => ?_
      have hshift := congrArg Char.toNat h
      rw [toNat_ofNat] at hshift
      split at hshift
      · exact shiftCode_ne_pipe hne hshift
      · cases hshift
  rw [← Char.ofNat_toNat c, hcode]

theorem count_lowerAfter (before cs : List Char) :
    (lowerAfter before cs).count '|' = cs.count '|' := by
  induction cs generalizing before with
  | nil => rfl
  | cons c rest ih =>
      rw [lowerAfter, List.count_append, ih, List.count_cons, Nat.add_comm]
      congr 1
      split
      · rename_i hsigma
        have hc : c ≠ '|' := by
          rintro rfl
          cases hsigma
        rw [beq_false_of_ne hc]
        split <;> rfl
      · split
        · rename_i hdotted
          have hc : c ≠ '|' := by
            rintro rfl
            cases hdotted
          rw [beq_false_of_ne hc]
          rfl
        · simp only [List.count_singleton, beq_iff_eq, lowerChar_eq_pipe_iff]

theorem count_separateWords (afterWord : Bool) (cs : List Char) :
    (separateWords afterWord cs).count '|' = cs.count '|' := by
  induction cs generalizing afterWord with
  | nil => rfl
  | cons c rest ih =>
      rw [separateWords]
      split
      · rw [List.count_cons_of_ne (by decide), List.count_cons, List.count_cons, ih]
      · rw [List.count_cons, List.count_cons, ih]

/-- A canonical name has the pipes of the name. -/
theorem count_canonical (name : String) :
    (canonical name).toList.count '|' = name.toList.count '|' := by
  have hspelled : (snakeChars (trimChars name.toList)).count '|' = name.toList.count '|' := by
    rw [snakeChars, lowerChars, count_lowerAfter, count_separateWords]
    exact (loses_trimChars _).count_eq rfl
  rw [canonical, ← hspelled]
  cases hfound : aliases.lookup (String.ofList (snakeChars (trimChars name.toList))) with
  | none => rw [Option.getD_none, String.toList_ofList]
  | some word =>
      have hmem := Table.mem_of_lookup_eq_some hfound
      have hnone : ∀ p ∈ aliases, p.2.toList.count '|' = p.1.toList.count '|' := by decide
      have hcount := hnone _ hmem
      rwa [String.toList_ofList] at hcount

end RuleName

namespace RuleEntry

open Text

/-- The characters of the parameters of an entry. -/
def written (parameters : List Parameter) : List Char :=
  parameters.flatMap fun parameter => parameter.display.toList

/-- The pipes of an entry. -/
def pipes (e : RuleEntry) : Nat := e.name.toList.count '|' + (written e.parameters).count '|'

/-- The number of characters of a text that are no blanks. -/
def visible (cs : List Char) : Nat := cs.countP (! isBlank ·)

theorem visible_trimChars (cs : List Char) : visible (trimChars cs) = visible cs :=
  (loses_trimChars cs).countP_eq fun c hc => by rw [hc, Bool.not_true]

/-- The characters of the pattern of a rule that takes one, blanks left out. -/
def patternSize (e : RuleEntry) : Nat :=
  if e.name ∈ Family.wholeParameter.rules then visible (written e.parameters) else 0

/-- Reading parameters loses separators. -/
theorem loses_parametersOf {name : String} {raw : List Char} {parameters : List Parameter}
    (h : parametersOf name raw = .ok parameters) :
    Loses Record.isSeparator raw (written parameters) := by
  rw [parametersOf] at h
  split at h
  · obtain rfl := Except.ok.inj h
    rw [written, List.flatMap_singleton, Parameter.display_text, String.toList_ofList]
    exact .refl raw
  · split at h
    · rename_i fields hread
      obtain rfl := Except.ok.inj h
      have htrim : ∀ field, Loses Record.isSeparator field (trimChars field) := fun field =>
        (loses_trimChars field).mono fun c hc => by rw [Record.isSeparator, hc, Bool.or_true]
      have hwritten : written (fields.map fun field => .text (String.ofList (trimChars field))) =
          (fields.map trimChars).flatten := by
        simp [written, List.flatMap, Function.comp_def]
      rw [hwritten]
      exact (Record.loses_read? hread).trans (.flatten htrim fields)
    · cases h

/-- The text of a rule: a head, and behind a colon the parameters. -/
inductive Parsed (cs : List Char) (e : RuleEntry) : Prop
  | bare {head} (htrim : trimChars cs = head) (hcolon : ':' ∉ head)
      (hname : e.name = RuleName.canonical (RuleName.canonical (String.ofList head)))
      (hparameters : e.parameters = [])
  | called {head raw} (htrim : trimChars cs = head ++ ':' :: raw) (hcolon : ':' ∉ head)
      (hname : e.name = RuleName.canonical (RuleName.canonical (String.ofList head)))
      (hparameters : parametersOf (RuleName.canonical (String.ofList head)) raw = .ok e.parameters)

theorem eq_of_cutFirst {sep : Char} {cs head : List Char} (h : cutFirst sep cs = (head, none)) :
    cs = head := by
  induction cs generalizing head with
  | nil => exact congrArg Prod.fst h
  | cons c rest ih =>
      rw [cutFirst] at h
      split at h
      · cases h
      · obtain ⟨rfl, hnone⟩ := Prod.mk.inj h
        exact congrArg (c :: ·) (ih (Prod.ext rfl hnone))

theorem eq_of_make? {name : String} {parameters : List Parameter} {e : RuleEntry}
    (h : make? name parameters = .ok e) : e = ⟨RuleName.canonical name, parameters⟩ := by
  rw [make?] at h
  split at h
  · cases h
  · exact (Except.ok.inj h).symm

theorem parsed_of_parse {s : String} {e : RuleEntry} (h : parse s = .ok e) :
    Parsed s.toList e := by
  simp only [parse] at h
  cases hcut : cutFirst ':' (trimChars s.toList) with
  | mk head tail =>
      rw [hcut] at h
      have hcolon := not_mem_cutFirst ':' (trimChars s.toList)
      rw [hcut] at hcolon
      cases tail with
      | none =>
          simp only at h
          obtain ⟨name, parameters⟩ := e
          obtain ⟨hname, hparameters⟩ := RuleEntry.mk.inj (eq_of_make? h)
          exact .bare (eq_of_cutFirst hcut) hcolon hname hparameters
      | some raw =>
          simp only at h
          cases hparameters : parametersOf (RuleName.canonical (String.ofList head)) raw with
          | error fault =>
              simp only [hparameters, bind, Except.bind] at h
              cases h
          | ok parameters =>
              simp only [hparameters, bind, Except.bind] at h
              obtain ⟨name, given⟩ := e
              obtain ⟨hname, rfl⟩ := RuleEntry.mk.inj (eq_of_make? h)
              exact .called (Segment.cutFirst_append hcut) hcolon hname hparameters

/-- An entry has the pipes of the rule that it was read from. -/
theorem pipes_of_parse {s : String} {e : RuleEntry} (h : parse s = .ok e) :
    e.pipes = s.toList.count '|' := by
  rw [← (loses_trimChars s.toList).count_eq (x := '|') rfl, pipes]
  cases parsed_of_parse h with
  | bare htrim hcolon hname hparameters =>
      rw [hname, hparameters, RuleName.count_canonical, RuleName.count_canonical,
        String.toList_ofList, htrim]
      rfl
  | called htrim hcolon hname hparameters =>
      have hwritten := (loses_parametersOf hparameters).count_eq (x := '|') rfl
      rw [hname, RuleName.count_canonical, RuleName.count_canonical, String.toList_ofList, htrim,
        hwritten, List.count_append, List.count_cons_of_ne (by decide)]

/-- A pattern is shorter than the rule that it is the parameter of. -/
theorem patternSize_lt {s : String} {e : RuleEntry} (h : parse s = .ok e)
    (hs : 0 < visible s.toList) : e.patternSize < visible s.toList := by
  have hle : e.patternSize ≤ visible (written e.parameters) := by
    rw [patternSize]
    split
    · exact Nat.le_refl _
    · exact Nat.zero_le _
  refine Nat.lt_of_le_of_lt hle ?_
  cases parsed_of_parse h with
  | bare htrim hcolon hname hparameters =>
      rw [hparameters]
      exact hs
  | called htrim hcolon hname hparameters =>
      rw [← visible_trimChars s.toList, htrim, visible, visible, List.countP_append,
        List.countP_cons_of_pos (by rfl)]
      have hloses := (loses_parametersOf hparameters).countP_le (! isBlank ·)
      omega

theorem canonical_stripStart (head : List Char) :
    RuleName.canonical (String.ofList (stripStart isBlank head)) =
      RuleName.canonical (String.ofList head) := by
  have htrim : trimChars (stripStart isBlank head) = trimChars head := by
    induction head with
    | nil => rfl
    | cons c rest ih =>
        rw [stripStart]
        cases hc : isBlank c with
        | true => rw [List.dropWhile_cons_of_pos hc, trimChars_cons_blank hc, ← ih, stripStart]
        | false => rw [List.dropWhile_cons_of_neg (by rw [hc]; exact Bool.false_ne_true)]
  simp only [RuleName.canonical, String.toList_ofList, htrim]

/-- The pattern of a rule that takes one is all that stands behind the colon. -/
theorem patternSize_of_head {head raw : List Char} {e : RuleEntry} (hhead : Segment.IsHead head)
    (h : parse (String.ofList (head ++ ':' :: raw)) = .ok e) : e.patternSize = visible raw := by
  have htrim := trimChars_append_cons (c := ':') rfl head raw
  have hnamed : RuleName.canonical (String.ofList (stripStart isBlank head)) ∈
      Family.wholeParameter.rules := by
    rw [canonical_stripStart]
    exact hhead.named
  have hstripped : Segment.IsHead (stripStart isBlank head) :=
    ⟨fun hmem => hhead.noColon ((List.dropWhile_sublist isBlank).mem hmem), hnamed⟩
  have hfixed : ∀ name ∈ Family.wholeParameter.rules, RuleName.canonical name = name := by decide
  have hparsed := parsed_of_parse h
  rw [String.toList_ofList] at hparsed
  cases hparsed with
  | bare hbare hcolon _ _ =>
      rw [htrim] at hbare
      exact absurd (hbare ▸ List.mem_append_right _ List.mem_cons_self) hcolon
  | @called head' raw' hcalled hcolon hname hparameters =>
      rw [htrim] at hcalled
      have hcut := hstripped.cutFirst (stripEnd isBlank raw)
      rw [hcalled, Segment.cutFirst_append_of_not_mem _ hcolon] at hcut
      simp only [cutFirst, beq_self_eq_true, if_true, List.append_nil, Prod.mk.injEq,
        Option.some.injEq] at hcut
      obtain ⟨rfl, rfl⟩ := hcut
      generalize RuleName.canonical (String.ofList (stripStart isBlank head)) = name at *
      rw [parametersOf, Family.contains, if_pos (List.contains_iff_mem.mpr hnamed),
        Except.ok.injEq] at hparameters
      rw [patternSize, hname, hfixed _ hnamed, if_pos hnamed, ← hparameters, written,
        List.flatMap_singleton, Parameter.display_text, String.toList_ofList]
      exact (loses_stripEnd raw).countP_eq fun c hc => by rw [hc, Bool.not_true]

end RuleEntry

end RuleSchema
