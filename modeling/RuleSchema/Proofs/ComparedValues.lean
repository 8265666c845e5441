import RuleSchema.Proofs.WrittenEntries
import RuleSchema.Rule.Object

/-!
# Values that a rule is conditional on

A condition on a field is written as one rule text, with the field and the values between commas,
and the text is read as an entry. Empty values are left out when it is written, and the entry is
read as a record, so a value comes back as one parameter exactly when it is a field that a record
gives back and is not empty.

## Implementation notes

Reading a record and trimming its fields can only lose characters, and so can leaving out values.
Between the values that go in and the parameters that come out stands a chain of lengths; where they
are the same, each of its steps has lost nothing.
-/

namespace RuleSchema

namespace Text

theorem Loses.sublist {q : Char → Bool} {whole kept : List Char} (h : Loses q whole kept) :
    kept.Sublist whole := by
  induction h with
  | nil => exact .slnil
  | keep tail ih => exact ih.cons_cons _
  | lose hc tail ih => exact ih.cons _

theorem isBlank_of_isWord {c : Char} (h : isWord c = true) : isBlank c = false := by
  have hnone : ∀ n ∈ RuleName.blankCodes, isLetter (Char.ofNat n) = false ∧
      (Char.ofNat n).isDigit = false ∧ inRuns numeralRuns n = false ∧ n ≠ '_'.toNat := by
    decide +kernel
  rw [Bool.eq_false_iff, Ne, RuleName.isBlank_iff]
  intro hblank
  obtain ⟨hletter, hdigit, hnumeral, hunderscore⟩ := hnone _ hblank
  rw [Char.ofNat_toNat] at hletter hdigit
  rw [isWord, isAlphanumeric, hletter, hdigit, hnumeral] at h
  exact hunderscore (congrArg Char.toNat (beq_iff_eq.mp h))

/-- The length of fields with a comma behind each of them. -/
def closedLength : List (List Char) → Nat
  | [] => 0
  | field :: fields => field.length + 1 + closedLength fields

section Lengths

variable {field : List Char} {fields : List (List Char)}

theorem closedLength_cons (field : List Char) (fields : List (List Char)) :
    closedLength (field :: fields) = field.length + 1 + closedLength fields := rfl

theorem length_joinChars (hne : fields ≠ []) :
    (joinChars [','] fields).length + 1 = closedLength fields := by
  induction fields with
  | nil => exact absurd rfl hne
  | cons field rest ih =>
      cases rest with
      | nil => rfl
      | cons next more =>
          have hmore := ih (List.cons_ne_nil next more)
          rw [joinChars_cons_cons, List.length_append, List.length_cons, closedLength_cons, ← hmore]
          omega

/-- Fields without the empty ones are shorter, unless there are none. -/
theorem closedLength_filter_le (fields : List (List Char)) :
    closedLength (fields.filter (! ·.isEmpty)) ≤ closedLength fields ∧
      (closedLength fields ≤ closedLength (fields.filter (! ·.isEmpty)) →
        ∀ field ∈ fields, field ≠ []) := by
  induction fields with
  | nil => exact ⟨Nat.le_refl _, fun _ => nofun⟩
  | cons field rest ih =>
      cases field with
      | nil =>
          rw [List.filter_cons_of_neg (by simp), closedLength_cons]
          exact ⟨by omega, fun h => by omega⟩
      | cons c field =>
          rw [List.filter_cons_of_pos rfl, closedLength_cons, closedLength_cons]
          refine ⟨by omega, fun h => List.forall_mem_cons.mpr ⟨List.cons_ne_nil _ _, ih.2 ?_⟩⟩
          omega

/-- Trimmed fields are shorter, unless they are the same. -/
theorem closedLength_trimmed_le (fields : List (List Char)) :
    closedLength (fields.map trimChars) ≤ closedLength fields ∧
      (closedLength fields ≤ closedLength (fields.map trimChars) →
        fields.map trimChars = fields) := by
  induction fields with
  | nil => exact ⟨Nat.le_refl _, fun _ => rfl⟩
  | cons field rest ih =>
      have hkept := (loses_trimChars field).sublist
      have hle := hkept.length_le
      rw [List.map_cons, closedLength_cons, closedLength_cons]
      refine ⟨by omega, fun h => ?_⟩
      rw [hkept.eq_of_length (by omega), ih.2 (by omega)]

end Lengths

namespace Record

section Scans

variable {place : Place} {read cs field rest : List Char} {fields : List (List Char)}

theorem joinChars_singleton (field : List Char) : joinChars [','] [field] = field := rfl

theorem length_joinChars_cons (field : List Char) (hne : fields ≠ []) :
    (joinChars [','] (field :: fields)).length =
      field.length + 1 + (joinChars [','] fields).length := by
  have hall := length_joinChars (List.cons_ne_nil field fields)
  have hrest := length_joinChars hne
  rw [closedLength_cons] at hall
  omega

/-- A character that ends a field makes up for the comma behind it. -/
theorem length_ends_le {more : Option (List (List Char))}
    (ih : ∀ {fields}, more = some fields → (joinChars [','] fields).length ≤ rest.length)
    (h : more.map (field.reverse :: ·) = some fields) :
    (joinChars [','] fields).length ≤ field.length + (rest.length + 1) := by
  obtain ⟨more, hmore, rfl⟩ := Option.map_eq_some_iff.mp h
  have hrest := ih hmore
  by_cases hne : more = []
  · rw [hne, joinChars_singleton, List.length_reverse]
    omega
  · rw [length_joinChars_cons _ hne, List.length_reverse]
    omega

/-- Joined with commas again, the fields of a text are no longer than the text. -/
theorem length_scan_le (h : scan place read cs = some fields) :
    (joinChars [','] fields).length ≤ read.length + cs.length := by
  fun_induction scan place read cs generalizing fields with
  | case1 | case2 =>
      obtain rfl := Option.some.inj h
      exact Nat.zero_le _
  | case3 =>
      obtain rfl := Option.some.inj h
      simp [joinChars]
  | case5 => cases h
  -- the character ends the field
  | case8 | case9 | case12 | case13 | case15 | case18 | case23 =>
      rename_i ih
      exact length_ends_le (fun hmore => by simpa using ih hmore) h
  -- the character is left out or added to the field
  | case4 | case6 | case7 | case10 | case11 | case14 | case16 | case17 | case19 | case20 | case21 |
      case22 | case24 =>
      rename_i ih
      have hrest := ih h
      simp only [List.length_cons] at *
      omega

theorem eq_nil_of_scan_afterBreak (h : scan .afterBreak read cs = some fields) : fields = [] := by
  induction cs with
  | nil => exact (Option.some.inj h).symm
  | cons c rest ih =>
      rw [scan] at h
      split at h
      · exact ih h
      · cases h

/-- No comma makes up for a line break that ends a field. -/
theorem length_ends_break (h : (scan .afterBreak [] rest).map (field.reverse :: ·) = some fields) :
    (joinChars [','] fields).length = field.length := by
  obtain ⟨more, hmore, rfl⟩ := Option.map_eq_some_iff.mp h
  rw [eq_nil_of_scan_afterBreak hmore, joinChars_singleton, List.length_reverse]

/-- If nothing is lost up to the end of a field, nothing is lost behind it. -/
theorem exists_of_ends_comma
    (h : (scan .fieldStart [] rest).map (field.reverse :: ·) = some fields)
    (hlength : field.length + (rest.length + 1) ≤ (joinChars [','] fields).length) :
    ∃ more, scan .fieldStart [] rest = some more ∧ fields = field.reverse :: more ∧
      rest.length ≤ (joinChars [','] more).length := by
  obtain ⟨more, hmore, rfl⟩ := Option.map_eq_some_iff.mp h
  refine ⟨more, hmore, rfl, ?_⟩
  by_cases hne : more = []
  · rw [hne, joinChars_singleton, List.length_reverse] at hlength
    omega
  · rw [length_joinChars_cons _ hne, List.length_reverse] at hlength
    omega

theorem isUnquoted_nil : IsUnquoted [] := ⟨List.forall_mem_nil _, by simp⟩

/-- Read from the start of a field, a text that loses nothing has no quotes around its fields. -/
def StartsExact (cs : List Char) : Prop :=
  ∀ fields, scan .fieldStart [] cs = some fields → cs.length ≤ (joinChars [','] fields).length →
    ∀ field ∈ fields, IsUnquoted field

/-- Read from within a field, a text that loses nothing runs on to the end of the field. -/
def RunsExact (cs : List Char) : Prop :=
  ∀ read fields, scan .inPlain read cs = some fields →
    read.length + cs.length ≤ (joinChars [','] fields).length →
    ∃ piece pieces, fields = (read.reverse ++ piece) :: pieces ∧
      (∀ c ∈ piece, isBreak c = false ∧ c ≠ ',') ∧ ∀ field ∈ pieces, IsUnquoted field

theorem runsExact_cons {c : Char} (hstart : StartsExact rest) (hrun : RunsExact rest) :
    RunsExact (c :: rest) := by
  intro read fields h hlength
  rw [List.length_cons] at hlength
  rw [scan] at h
  split at h
  · have hless := length_ends_break h
    omega
  · rename_i hbreak
    split at h
    · obtain ⟨more, hmore, rfl, hle⟩ := exists_of_ends_comma h hlength
      exact ⟨[], more, by rw [List.append_nil], List.forall_mem_nil _, hstart more hmore hle⟩
    · rename_i hcomma
      obtain ⟨piece, pieces, rfl, hpiece, hpieces⟩ :=
        hrun (c :: read) fields h (by rw [List.length_cons]; omega)
      refine ⟨c :: piece, pieces, by simp, ?_, hpieces⟩
      exact List.forall_mem_cons.mpr ⟨⟨by simpa using hbreak, by simpa using hcomma⟩, hpiece⟩

theorem startsExact_cons {c : Char} (hstart : StartsExact rest) (hrun : RunsExact rest) :
    StartsExact (c :: rest) := by
  intro fields h hlength
  -- a quote and a space before the field are lost
  have hlost : ∀ place, scan place [] rest ≠ some fields := fun place hscan => by
    have hless := length_scan_le hscan
    rw [List.length_nil] at hless
    rw [List.length_cons] at hlength
    omega
  rw [List.length_cons] at hlength
  rw [scan] at h
  split at h
  · have hless := length_ends_break h
    rw [List.length_nil] at hless
    omega
  · rename_i hbreak
    split at h
    · exact absurd h (hlost _)
    · rename_i hquote
      split at h
      · exact absurd h (hlost _)
      · split at h
        · obtain ⟨more, hmore, rfl, hle⟩ :=
            exists_of_ends_comma h (by rw [List.length_nil]; omega)
          exact List.forall_mem_cons.mpr ⟨isUnquoted_nil, hstart more hmore hle⟩
        · rename_i hcomma
          obtain ⟨piece, pieces, rfl, hpiece, hpieces⟩ :=
            hrun [c] fields h (by rw [List.length_singleton]; omega)
          refine List.forall_mem_cons.mpr ⟨⟨?_, by simpa using hquote⟩, hpieces⟩
          exact List.forall_mem_cons.mpr ⟨⟨by simpa using hbreak, by simpa using hcomma⟩, hpiece⟩

theorem exact_scan (cs : List Char) : StartsExact cs ∧ RunsExact cs := by
  induction cs with
  | nil =>
      refine ⟨fun fields h _ => ?_, fun read fields h _ => ?_⟩
      · obtain rfl := Option.some.inj h
        exact List.forall_mem_singleton.mpr isUnquoted_nil
      · obtain rfl := Option.some.inj h
        exact ⟨[], [], by rw [List.append_nil], List.forall_mem_nil _, List.forall_mem_nil _⟩
  | cons c rest ih => exact ⟨startsExact_cons ih.1 ih.2, runsExact_cons ih.1 ih.2⟩

theorem length_read?_le (h : read? cs = some fields) :
    (joinChars [','] fields).length ≤ cs.length := by
  obtain ⟨found, hscan, hlimit⟩ := Option.bind_eq_some_iff.mp h
  rw [Option.ite_none_right_eq_some, Option.some.injEq] at hlimit
  obtain ⟨-, rfl⟩ := hlimit
  simpa using length_scan_le hscan

/-- A record that loses nothing has no quotes around its fields. -/
theorem isUnquoted_of_read? (h : read? cs = some fields) (hne : cs ≠ [])
    (hlength : cs.length ≤ (joinChars [','] fields).length) :
    ∀ field ∈ fields, IsUnquoted field ∧ field.length ≤ fieldLimit := by
  obtain ⟨found, hscan, hlimit⟩ := Option.bind_eq_some_iff.mp h
  rw [Option.ite_none_right_eq_some, Option.some.injEq] at hlimit
  obtain ⟨hlimit, rfl⟩ := hlimit
  simp only [List.all_eq_true, decide_eq_true_eq] at hlimit
  match cs, hne with
  | c :: rest, _ =>
      cases hbreak : isBreak c with
      | true =>
          rw [scan, if_pos hbreak] at hscan
          rw [eq_nil_of_scan_afterBreak hscan] at hlength
          exact absurd hlength (Nat.not_succ_le_zero _)
      | false =>
          rw [scan_recordStart hbreak] at hscan
          exact fun field hfield =>
            ⟨(exact_scan (c :: rest)).1 found hscan hlength field hfield, hlimit field hfield⟩

end Scans

/-- A field that is left in a record and given back by it. -/
structure IsKept (field : List Char) : Prop extends IsBare field where
  nonempty : field ≠ []
  fits : field.length ≤ fieldLimit

theorem isKept_iff {field : List Char} : IsKept field ↔
    field.all (fun c => !isBreak c && c != ',') = true ∧ field.head? ≠ some '"' ∧
      trimChars field = field ∧ field ≠ [] ∧ field.length ≤ fieldLimit := by
  have hall : field.all (fun c => !isBreak c && c != ',') = true ↔
      ∀ c ∈ field, isBreak c = false ∧ c ≠ ',' := by
    simp only [List.all_eq_true, Bool.and_eq_true, Bool.not_eq_true', bne_iff_ne]
  rw [hall]
  constructor
  · rintro ⟨⟨⟨hplain, hstart⟩, htrimmed⟩, hne, hfits⟩
    exact ⟨hplain, hstart, isTrimmed_iff.mp htrimmed, hne, hfits⟩
  · rintro ⟨hplain, hstart, htrimmed, hne, hfits⟩
    exact ⟨⟨⟨hplain, hstart⟩, isTrimmed_iff.mpr htrimmed⟩, hne, hfits⟩

instance (field : List Char) : Decidable (IsKept field) := decidable_of_iff' _ isKept_iff

/-- The text of a record of fields without the empty ones. -/
def writtenFields (fields : List (List Char)) : List Char :=
  stripEnd isBlank (joinChars [','] (fields.filter (! ·.isEmpty)))

section Kept

variable {fields read : List (List Char)}

theorem filter_of_isKept (h : ∀ field ∈ fields, IsKept field) :
    fields.filter (! ·.isEmpty) = fields :=
  List.filter_eq_self.mpr fun field hfield => by simpa using (h field hfield).nonempty

theorem read?_of_isKept (hne : fields ≠ []) (h : ∀ field ∈ fields, IsKept field) :
    read? (writtenFields fields) = some fields := by
  have hblank : fields ≠ [[]] := by
    rintro rfl
    exact (h [] List.mem_cons_self).nonempty rfl
  have hends : ∀ field ∈ fields, stripEnd isBlank field = field :=
    fun field hfield => stripEnd_eq_self_iff.mpr (h field hfield).trimmed.last
  rw [writtenFields, filter_of_isKept h, stripEnd_joinChars hends,
    read?_joinChars hne hblank fun field hfield => (h field hfield).toIsBare,
    if_pos fun field hfield => (h field hfield).fits]

/-- Fields that are read back, once trimmed, have lost nothing on the way. -/
theorem isKept_of_read? (hread : read? (writtenFields fields) = some read)
    (hfields : read.map trimChars = fields) (hne : ∃ field ∈ fields, field ≠ []) :
    ∀ field ∈ fields, IsKept field := by
  obtain ⟨shown, hshown, hvisible⟩ := hne
  have hleft : fields.filter (! ·.isEmpty) ≠ [] :=
    List.ne_nil_of_mem (List.mem_filter.mpr ⟨hshown, by simpa using hvisible⟩)
  have hnil : read ≠ [] := by
    rintro rfl
    rw [← hfields] at hshown
    cases hshown
  have hne : writtenFields fields ≠ [] := fun heq => by
    rw [heq, read?_nil] at hread
    exact hnil (Option.some.inj hread).symm
  -- fields, what is read, what is written and what is left, each no longer than the next
  have htrimmed := closedLength_trimmed_le read
  have hscanned := length_read?_le hread
  have hstripped :=
    (loses_stripEnd (joinChars [','] (fields.filter (! ·.isEmpty)))).sublist.length_le
  have hfiltered := closedLength_filter_le fields
  have hread_length := length_joinChars hnil
  have hleft_length := length_joinChars hleft
  rw [hfields] at htrimmed
  rw [← writtenFields] at hstripped
  have hsame := htrimmed.2 (by omega)
  have hfilled := hfiltered.2 (by omega)
  have hunquoted := isUnquoted_of_read? hread hne (by omega)
  intro field hfield
  obtain ⟨hopen, hfits⟩ := hunquoted field (hsame ▸ hfield)
  obtain ⟨raw, -, rfl⟩ := List.mem_map.mp (hfields ▸ hfield)
  exact ⟨⟨hopen, isTrimmed_iff.mpr (trimChars_trimChars raw)⟩, hfilled _ hfield, hfits⟩

end Kept

end Record

end Text

namespace RuleEntry

open Text

/-- Behind the colon a text is read without the blanks at its end. -/
theorem IsName.parse_behind {name : String} (h : IsName name) (raw : List Char) :
    parse (String.ofList (name.toList ++ ':' :: raw)) =
      (parametersOf name (stripEnd isBlank raw)).map (⟨name, ·⟩) := by
  have htrim : Text.trimChars (name.toList ++ ':' :: raw) =
      Text.trimChars (name.toList ++ ':' :: stripEnd isBlank raw) := by
    rw [trimChars_append_cons rfl, trimChars_append_cons rfl, stripEnd_stripEnd]
  rw [← h.parse_called (stripEnd_stripEnd isBlank raw)]
  simp only [parse, String.toList_ofList, htrim]

/-- The parameters of a record are texts that were written exactly when the texts are kept. -/
theorem parametersOf_writtenFields_iff {name : String} {texts : List String}
    (hname : name ∉ Family.wholeParameter.rules) (hne : ∃ t ∈ texts, t ≠ "") :
    parametersOf name (Record.writtenFields (texts.map String.toList)) = .ok (texts.map .text) ↔
      ∀ t ∈ texts, Record.IsKept t.toList := by
  rw [parametersOf, Family.contains, if_neg (by simpa using hname)]
  constructor
  · intro h
    cases hread : Record.read? (Record.writtenFields (texts.map String.toList)) with
    | none =>
        rw [hread] at h
        cases h
    | some read =>
        rw [hread] at h
        have htexts : read.map trimChars = texts.map String.toList := by
          have hmap := congrArg (List.map Parameter.display) (Except.ok.inj h)
          rw [List.map_map, List.map_map] at hmap
          have hlists := congrArg (List.map String.toList) hmap
          rw [List.map_map, List.map_map] at hlists
          simpa [Function.comp_def] using hlists
        obtain ⟨t, ht, hvisible⟩ := hne
        have hshown : ∃ field ∈ texts.map String.toList, field ≠ [] :=
          ⟨t.toList, List.mem_map_of_mem ht, fun heq => hvisible (String.toList_injective heq)⟩
        exact List.forall_mem_map.mp (Record.isKept_of_read? hread htexts hshown)
  · intro h
    have hfields : ∀ field ∈ texts.map String.toList, Record.IsKept field :=
      List.forall_mem_map.mpr h
    obtain ⟨t, ht, -⟩ := hne
    rw [Record.read?_of_isKept (List.ne_nil_of_mem (List.mem_map_of_mem ht)) hfields]
    refine congrArg Except.ok ?_
    rw [List.map_map]
    refine List.map_congr_left fun t ht => ?_
    rw [Function.comp_apply, isTrimmed_iff.mp (h t ht).trimmed, String.ofList_toList]

end RuleEntry

namespace FieldComparison

open Text

variable {field : String} {values : List Datum} {texts : List String}

theorem filterMap_comparand? (hvalues : values.map Datum.comparand? = texts.map some) :
    values.filterMap Datum.comparand? = texts := by
  have hall : (values.map Datum.comparand?).filterMap id = (texts.map some).filterMap id :=
    congrArg (List.filterMap id) hvalues
  rw [List.filterMap_map, List.filterMap_map] at hall
  simpa [Function.comp_def] using hall

theorem isEmpty_toList (s : String) : s.toList.isEmpty = Text.isEmpty s := rfl

/-- The rule that a comparison stands for is a record of the field and the values. -/
theorem rule?_eq (keyword : String) (hvalues : values.map Datum.comparand? = texts.map some)
    (hfield : field ≠ "") (htexts : ∃ t ∈ texts, t ≠ "") :
    rule? ⟨field, values, false⟩ keyword = some (String.ofList (keyword.toList ++ ':' ::
      joinChars [','] (((field :: texts).map String.toList).filter (! ·.isEmpty)))) := by
  have hkept : texts.filter (! Text.isEmpty ·) ≠ [] := by
    obtain ⟨t, ht, hvisible⟩ := htexts
    refine List.ne_nil_of_mem (List.mem_filter.mpr ⟨ht, ?_⟩)
    rw [isEmpty_eq_false hvisible, Bool.not_false]
  obtain ⟨first, more, hfilter⟩ := List.exists_cons_of_ne_nil hkept
  have hrecord : ((field :: texts).map String.toList).filter (! ·.isEmpty) =
      field.toList :: first.toList :: more.map String.toList := by
    rw [List.filter_map, Function.comp_def]
    simp only [isEmpty_toList]
    rw [List.filter_cons_of_pos (by rw [isEmpty_eq_false hfield, Bool.not_false]), hfilter]
    rfl
  rw [rule?, filterMap_comparand? hvalues, hfilter, hrecord, joinChars_cons_cons,
    if_neg (by simp [isEmpty_eq_false hfield])]
  refine congrArg some ?_
  rw [← String.toList_inj, String.toList_ofList]
  simp only [String.toList_append, toList_join, Bool.false_and, Bool.false_eq_true,
    if_false, List.append_assoc, List.map_cons]
  rfl

end FieldComparison

namespace RuleObject

open Text RuleEntry

/-- A rule object that requires a field under a condition. -/
def requiredIf (condition : Condition) : RuleObject :=
  .ofKind "RequiredIf" (.conditional "required" "required_if" condition)

section Conditions

variable {r : RuleObject} {base keyword field : String} {values : List Datum} {texts : List String}

/-- A condition on a field stands for one rule, which is read from the field and the values. -/
theorem entries_fieldIs (hkind : r.kind = .conditional base keyword (.fieldIs field values))
    (hname : IsName keyword) (hvalues : values.map Datum.comparand? = texts.map some)
    (hfield : field ≠ "") (htexts : ∃ t ∈ texts, t ≠ "") :
    r.entries = (parametersOf keyword
      (Record.writtenFields ((field :: texts).map String.toList))).map ([⟨keyword, ·⟩]) := by
  have hrule := FieldComparison.rule?_eq keyword hvalues hfield htexts
  have hwritten : Text.isEmpty (String.ofList (keyword.toList ++ ':' :: joinChars [',']
      (((field :: texts).map String.toList).filter (! ·.isEmpty)))) = false := by
    simp [Text.isEmpty]
  simp only [entries, hkind, Condition.rule, Condition.comparison?, Option.bind_some, hrule,
    hwritten, Bool.false_eq_true, if_false, hname.parse_behind]
  rw [Record.writtenFields]
  cases parametersOf keyword _ with
  | error fault => rfl
  | ok parameters => rfl

/-- Without a value that is not empty there is no rule. -/
theorem entries_fieldIs_of_empty
    (hkind : r.kind = .conditional base keyword (.fieldIs field values))
    (hvalues : values.map Datum.comparand? = texts.map some) (htexts : ∀ t ∈ texts, t = "") :
    r.entries = .ok [] := by
  have hnone : texts.filter (! Text.isEmpty ·) = [] :=
    List.filter_eq_nil_iff.mpr fun t ht => by simp [htexts t ht, Text.isEmpty]
  have hrule : FieldComparison.rule? ⟨field, values, false⟩ keyword = none := by
    rw [FieldComparison.rule?, FieldComparison.filterMap_comparand? hvalues, hnone]
    simp
  simp only [entries, hkind, Condition.rule, Condition.comparison?, Option.bind_some, hrule]
  rfl

end Conditions

/-- A field name of letters, digits, underscores, dots and stars. -/
structure IsFieldName (field : String) : Prop where
  nonempty : field ≠ ""
  plain : ∀ c ∈ field.toList, isWord c = true ∨ c = '.' ∨ c = '*'

theorem isFieldName_iff {field : String} : IsFieldName field ↔
    field ≠ "" ∧ field.toList.all (fun c => isWord c || c == '.' || c == '*') = true := by
  simp only [List.all_eq_true, Bool.or_eq_true, beq_iff_eq, or_assoc]
  exact ⟨fun h => ⟨h.nonempty, h.plain⟩, fun h => ⟨h.1, h.2⟩⟩

instance (field : String) : Decidable (IsFieldName field) := decidable_of_iff' _ isFieldName_iff

/-- A field name stands in a record as it is. -/
theorem IsFieldName.isField {field : String} (h : IsFieldName field) :
    Record.IsField field.toList := by
  have hvisible : ∀ c ∈ field.toList, isBlank c = false ∧ c ≠ ',' ∧ c ≠ '"' := by
    intro c hc
    rcases h.plain c hc with hword | rfl | rfl
    · refine ⟨isBlank_of_isWord hword, ?_, ?_⟩
      · rintro rfl
        cases hword
      · rintro rfl
        cases hword
    · exact ⟨rfl, by decide, by decide⟩
    · exact ⟨rfl, by decide, by decide⟩
  refine ⟨fun c hc => ?_, ⟨fun c hc => ?_, fun c hc => ?_⟩⟩
  · obtain ⟨hblank, hcomma, hquote⟩ := hvisible c hc
    refine ⟨hcomma, hquote, ?_, ?_⟩
    · rintro rfl
      cases hblank
    · rintro rfl
      cases hblank
  · exact (hvisible c (List.mem_of_mem_head? hc)).1
  · exact (hvisible c (List.mem_of_getLast? hc)).1

/-- A record gives a field name back, up to the length that a field may have. -/
theorem IsFieldName.isKept_iff {field : String} (h : IsFieldName field) :
    Record.IsKept field.toList ↔ field.length ≤ Record.fieldLimit := by
  rw [← String.length_toList]
  refine ⟨fun hkept => hkept.fits, fun hfits => ⟨h.isField.isBare, ?_, hfits⟩⟩
  exact fun hempty => h.nonempty (String.toList_injective hempty)

/-- A rule that depends on a field and values is read with the field and every value as parameters,
exactly when a record gives back the field and each of the values. -/
theorem requiredIf_keeps_values_iff {field : String} {values : List Datum} {texts : List String}
    (hfield : IsFieldName field) (hne : values ≠ [])
    (hvalues : values.map Datum.comparand? = texts.map some) :
    (requiredIf (.fieldIs field values)).entries =
        .ok [⟨"required_if", (field :: texts).map .text⟩] ↔
      field.length ≤ Record.fieldLimit ∧ ∀ t ∈ texts, Record.IsKept t.toList := by
  have hname : IsName "required_if" := ⟨by decide, by decide, by decide⟩
  have hkind : (requiredIf (.fieldIs field values)).kind =
      .conditional "required" "required_if" (.fieldIs field values) := rfl
  rw [← hfield.isKept_iff]
  by_cases htexts : ∃ t ∈ texts, t ≠ ""
  · have hnamed : "required_if" ∉ Family.wholeParameter.rules := by decide
    have hiff := parametersOf_writtenFields_iff hnamed
      ⟨field, List.mem_cons_self (l := texts), hfield.nonempty⟩
    rw [List.forall_mem_cons] at hiff
    rw [← hiff, entries_fieldIs hkind hname hvalues hfield.nonempty htexts]
    cases parametersOf "required_if"
      (Record.writtenFields ((field :: texts).map String.toList)) with
    | error fault => exact ⟨nofun, nofun⟩
    | ok parameters => simp [Except.map]
  · have hempty : ∀ t ∈ texts, t = "" := by simpa using htexts
    rw [entries_fieldIs_of_empty hkind hvalues hempty]
    refine ⟨nofun, fun ⟨_, hkept⟩ => ?_⟩
    -- there is a value, and its text is empty
    obtain ⟨value, more, rfl⟩ := List.exists_cons_of_ne_nil hne
    obtain ⟨t, rest, rfl⟩ : ∃ t rest, texts = t :: rest := by
      cases texts with
      | nil => cases hvalues
      | cons t rest => exact ⟨t, rest, rfl⟩
    have hfirst := hempty t List.mem_cons_self
    exact absurd (congrArg String.toList hfirst) (hkept t List.mem_cons_self).nonempty

/-- Values of several sorts are kept, and a field with dots and a star. -/
theorem requiredIf_keeps_sorts :
    IsFieldName "items.*.type" ∧ ([.text "a b", .truth true, .whole 3] : List Datum) ≠ [] ∧
      (requiredIf (.fieldIs "items.*.type" [.text "a b", .truth true, .whole 3])).entries =
        .ok [⟨"required_if", ["items.*.type", "a b", "true", "3"].map .text⟩] := by
  have hfield : IsFieldName "items.*.type" := by decide
  have hvalues : ([.text "a b", .truth true, .whole 3] : List Datum).map Datum.comparand? =
      ["a b", "true", "3"].map some := by decide
  have hkept : ∀ t ∈ ["a b", "true", "3"], Record.IsKept t.toList := by decide
  have hiff := requiredIf_keeps_values_iff hfield (by simp) hvalues
  exact ⟨hfield, by simp, hiff.mpr ⟨by decide, hkept⟩⟩

/-- A value with a comma becomes two parameters. -/
theorem requiredIf_splits_value :
    IsFieldName "type" ∧ ([.text "a,b"] : List Datum).map Datum.comparand? = ["a,b"].map some ∧
      (requiredIf (.fieldIs "type" [.text "a,b"])).entries =
        .ok [⟨"required_if", ["type", "a", "b"].map .text⟩] ∧
      (requiredIf (.fieldIs "type" [.text "a,b"])).entries ≠
        .ok [⟨"required_if", ["type", "a,b"].map .text⟩] := by
  have hread : (requiredIf (.fieldIs "type" [.text "a,b"])).entries =
      .ok [⟨"required_if", ["type", "a", "b"].map .text⟩] := rfl
  refine ⟨by decide, by decide, hread, ?_⟩
  rw [hread]
  simp

end RuleObject

end RuleSchema
