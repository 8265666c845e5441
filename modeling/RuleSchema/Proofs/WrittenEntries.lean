import RuleSchema.Proofs.SegmentGaps

/-!
# Entries and their written forms

The written form of an entry is read back as the entry. A canonical name has no blank at either end, so
it is all that stands before the first colon. Parameters that hold no comma, quote or line break are
the fields of the record behind the colon, up to the length that a field may have; a rule that takes a
pattern has the pattern there as it stands.

## Implementation notes

That a canonical name is trimmed is a matter of counting blanks. Neither separating words nor lower
case adds one, so where a name is its own canonical form, trimming it has lost none.
-/

namespace RuleSchema

namespace Text

theorem joinChars_cons_cons (sep : Char) (piece next : List Char) (more : List (List Char)) :
    joinChars [sep] (piece :: next :: more) = piece ++ sep :: joinChars [sep] (next :: more) := by
  rw [joinChars, List.append_assoc, List.singleton_append]
  exact List.cons_ne_nil next more

namespace Record

/-- A field that stands in a record as it is. -/
structure IsField (field : List Char) : Prop where
  plain : ∀ c ∈ field, c ≠ ',' ∧ c ≠ '"' ∧ c ≠ '\r' ∧ c ≠ '\n'
  trimmed : IsTrimmed field

/-- A field without quotes around it. Behind its start a quote is a character like others. -/
structure IsUnquoted (field : List Char) : Prop where
  plain : ∀ c ∈ field, isBreak c = false ∧ c ≠ ','
  start : field.head? ≠ some '"'

/-- A field that a record gives back. -/
structure IsBare (field : List Char) : Prop extends IsUnquoted field where
  trimmed : IsTrimmed field

section Fields

variable {c : Char} {field rest : List Char} {fields : List (List Char)}

theorem IsField.isBare (h : IsField field) : IsBare field where
  plain c hc := by
    obtain ⟨hcomma, -, hreturn, hfeed⟩ := h.plain c hc
    exact ⟨by simp [isBreak, hreturn, hfeed], hcomma⟩
  start heq := (h.plain _ (List.mem_of_mem_head? heq)).2.1 rfl
  trimmed := h.trimmed

/-- The characters of a field are read one by one up to its end. -/
theorem scan_inPlain (hplain : ∀ c ∈ field, isBreak c = false ∧ c ≠ ',') (read rest : List Char) :
    scan .inPlain read (field ++ rest) = scan .inPlain (field.reverse ++ read) rest := by
  induction field generalizing read with
  | nil => rfl
  | cons c field ih =>
      obtain ⟨hbreak, hcomma⟩ := hplain c List.mem_cons_self
      rw [List.cons_append, scan, if_neg (by simp [hbreak]), if_neg (by simpa using hcomma),
        ih fun d hd => hplain d (List.mem_cons_of_mem _ hd), List.reverse_cons, List.append_assoc,
        List.singleton_append]

/-- A field is read from its start, empty or not. -/
theorem IsBare.scan_fieldStart (h : IsBare field) (hrest : rest = [] ∨ ∃ more, rest = ',' :: more) :
    scan .fieldStart [] (field ++ rest) = scan .inPlain field.reverse rest := by
  cases field with
  | nil =>
      rcases hrest with rfl | ⟨more, rfl⟩
      · rfl
      · rfl
  | cons c tail =>
      obtain ⟨hbreak, hcomma⟩ := h.plain c List.mem_cons_self
      have hquote : c ≠ '"' := fun heq => h.start (congrArg some heq)
      have hspace : c ≠ ' ' := by
        rintro rfl
        have hblank := h.trimmed.first ' ' rfl
        cases hblank
      rw [List.cons_append, scan, if_neg (by simp [hbreak]), if_neg (by simpa using hquote),
        if_neg (by simpa using hspace), if_neg (by simpa using hcomma),
        scan_inPlain fun d hd => h.plain d (List.mem_cons_of_mem _ hd), List.reverse_cons]

theorem scan_inPlain_comma (read rest : List Char) :
    scan .inPlain read (',' :: rest) = (scan .fieldStart [] rest).map (read.reverse :: ·) := rfl

/-- Fields joined with commas are read as the fields. -/
theorem scan_joinChars (hne : fields ≠ []) (h : ∀ field ∈ fields, IsBare field) :
    scan .fieldStart [] (joinChars [','] fields) = some fields := by
  induction fields with
  | nil => exact absurd rfl hne
  | cons field rest ih =>
      have hfield := h field List.mem_cons_self
      cases rest with
      | nil =>
          have hscan := hfield.scan_fieldStart (.inl rfl)
          rw [List.append_nil] at hscan
          rw [joinChars, hscan]
          simp [scan]
      | cons next more =>
          have hmore := ih (List.cons_ne_nil _ _) fun f hf => h f (List.mem_cons_of_mem _ hf)
          rw [joinChars_cons_cons, hfield.scan_fieldStart (.inr ⟨_, rfl⟩), scan_inPlain_comma, hmore,
            List.reverse_reverse, Option.map_some]

/-- The start of a record is the start of a field, if it does not break the record. -/
theorem scan_recordStart (hc : isBreak c = false) :
    scan .recordStart [] (c :: rest) = scan .fieldStart [] (c :: rest) := by
  simp only [scan, hc, Bool.false_eq_true, if_false]

/-- Fields that are not just one empty field start with a character that breaks no record. -/
theorem exists_cons_joinChars (hne : fields ≠ []) (hblank : fields ≠ [[]])
    (h : ∀ field ∈ fields, IsBare field) :
    ∃ c rest, joinChars [','] fields = c :: rest ∧ isBreak c = false := by
  match fields, h with
  | [[]], _ => exact absurd rfl hblank
  | [c :: tail], h =>
      exact ⟨c, tail, rfl, ((h _ List.mem_cons_self).plain c List.mem_cons_self).1⟩
  | [] :: next :: more, _ => exact ⟨',', _, joinChars_cons_cons _ _ _ _, rfl⟩
  | (c :: tail) :: next :: more, h =>
      exact ⟨c, _, joinChars_cons_cons _ _ _ _,
        ((h _ List.mem_cons_self).plain c List.mem_cons_self).1⟩

/-- A record of fields is read as the fields, if none is too long. -/
theorem read?_joinChars (hne : fields ≠ []) (hblank : fields ≠ [[]])
    (h : ∀ field ∈ fields, IsBare field) :
    read? (joinChars [','] fields) =
      if ∀ field ∈ fields, field.length ≤ fieldLimit then some fields else none := by
  obtain ⟨c, rest, hjoin, hc⟩ := exists_cons_joinChars hne hblank h
  have hscan := scan_joinChars hne h
  rw [hjoin] at hscan ⊢
  rw [read?, scan_recordStart hc, hscan, Option.bind_some]
  simp only [List.all_eq_true, decide_eq_true_eq]

end Fields

end Record

/-- Trimmed fields joined with commas end with no blank. -/
theorem stripEnd_joinChars {fields : List (List Char)}
    (h : ∀ field ∈ fields, stripEnd isBlank field = field) :
    stripEnd isBlank (joinChars [','] fields) = joinChars [','] fields := by
  induction fields with
  | nil => rfl
  | cons field rest ih =>
      cases rest with
      | nil => exact h field List.mem_cons_self
      | cons next more =>
          rw [joinChars_cons_cons, Segment.stripEnd_append_cons rfl,
            ih fun f hf => h f (List.mem_cons_of_mem _ hf)]

end Text

namespace RuleName

open Text

theorem countP_isBlank_lowerAfter_le (before cs : List Char) :
    (lowerAfter before cs).countP isBlank ≤ cs.countP isBlank := by
  induction cs generalizing before with
  | nil => exact Nat.le_refl _
  | cons c rest ih =>
      rw [lowerAfter, List.countP_append, List.countP_cons, Nat.add_comm]
      refine Nat.add_le_add (ih _) ?_
      split
      · split <;> exact Nat.zero_le _
      · split
        · exact Nat.zero_le _
        · cases hc : isBlank c with
          | true => exact List.countP_le_length
          | false => simp [isBlank_lowerChar hc]

theorem countP_isBlank_separateWords (afterWord : Bool) (cs : List Char) :
    (separateWords afterWord cs).countP isBlank = cs.countP isBlank := by
  induction cs generalizing afterWord with
  | nil => rfl
  | cons c rest ih =>
      rw [separateWords]
      split
      · rw [List.countP_cons_of_neg (by decide), List.countP_cons, List.countP_cons, ih]
      · rw [List.countP_cons, List.countP_cons, ih]

/-- A name that is its own canonical form has no blank at either end. -/
theorem trimChars_of_canonical {name : String} (h : canonical name = name) :
    trimChars name.toList = name.toList := by
  rw [canonical] at h
  cases hfound : aliases.lookup (String.ofList (snakeChars (trimChars name.toList))) with
  | some word =>
      have hwords : ∀ p ∈ aliases, trimChars p.2.toList = p.2.toList := by decide
      rw [hfound, Option.getD_some] at h
      exact h ▸ hwords _ (Table.mem_of_lookup_eq_some hfound)
  | none =>
      rw [hfound, Option.getD_none] at h
      have hspelled := congrArg String.toList h
      rw [String.toList_ofList] at hspelled
      refine (loses_trimChars name.toList).eq_of_countP_le ?_
      calc name.toList.countP isBlank
          = (snakeChars (trimChars name.toList)).countP isBlank := by rw [hspelled]
        _ ≤ (separateWords false (trimChars name.toList)).countP isBlank :=
            countP_isBlank_lowerAfter_le _ _
        _ = (trimChars name.toList).countP isBlank := countP_isBlank_separateWords _ _

end RuleName

namespace RuleEntry

open Text

/-- A name as it stands before the colon of a written rule. -/
structure IsName (name : String) : Prop where
  canonical : RuleName.canonical name = name
  nonempty : name ≠ ""
  noColon : ':' ∉ name.toList

/-- An entry with texts that stand in a record as they are. A record of one empty field is read as no
field. -/
structure IsListed (e : RuleEntry) (texts : List String) : Prop where
  named : e.name ∉ Family.wholeParameter.rules
  parameters : e.parameters = texts.map .text
  fields : ∀ t ∈ texts, Record.IsField t.toList
  notBlank : texts ≠ [""]

/-- An entry with a pattern that has no blank at its end. -/
structure IsWhole (e : RuleEntry) (pattern : String) : Prop where
  named : e.name ∈ Family.wholeParameter.rules
  parameters : e.parameters = [.text pattern]
  last : ∀ c ∈ pattern.toList.getLast?, isBlank c = false

section Written

variable {e : RuleEntry} {name : String} {raw : List Char} {texts : List String}

theorem isName_of_wholeParameter (h : name ∈ Family.wholeParameter.rules) : IsName name := by
  have hall : ∀ rule ∈ Family.wholeParameter.rules,
      RuleName.canonical rule = rule ∧ rule ≠ "" ∧ ':' ∉ rule.toList := by decide
  obtain ⟨hcanonical, hne, hcolon⟩ := hall name h
  exact ⟨hcanonical, hne, hcolon⟩

theorem IsName.make? (h : IsName name) (parameters : List Parameter) :
    RuleEntry.make? name parameters = .ok ⟨name, parameters⟩ := by
  rw [RuleEntry.make?, isEmpty_eq_false h.nonempty, if_neg Bool.false_ne_true, h.canonical]

theorem IsName.trimChars (h : IsName name) : Text.trimChars name.toList = name.toList :=
  RuleName.trimChars_of_canonical h.canonical

/-- A name alone is read as a rule without parameters. -/
theorem IsName.parse_bare (h : IsName name) : parse name = .ok ⟨name, []⟩ := by
  have hcut := Segment.cutFirst_append_of_not_mem [] h.noColon
  rw [List.append_nil] at hcut
  simp only [parse, h.trimChars, hcut, cutFirst, List.append_nil, String.ofList_toList, h.canonical,
    h.make?]

/-- Behind a name and a colon only the end is trimmed. -/
theorem IsName.trimChars_called (h : IsName name) (hraw : stripEnd isBlank raw = raw) :
    Text.trimChars (name.toList ++ ':' :: raw) = name.toList ++ ':' :: raw := by
  have hstart := stripStart_eq_self_iff.mpr (isTrimmed_iff.mpr h.trimChars).first
  rw [trimChars_append_cons rfl, hstart, hraw]

/-- Behind a name and a colon stand the parameters. -/
theorem IsName.parse_called (h : IsName name) (hraw : stripEnd isBlank raw = raw) :
    parse (String.ofList (name.toList ++ ':' :: raw)) =
      (parametersOf name raw).map (⟨name, ·⟩) := by
  have hcut : cutFirst ':' (name.toList ++ ':' :: raw) = (name.toList, some raw) := by
    rw [Segment.cutFirst_append_of_not_mem _ h.noColon]
    simp [cutFirst]
  simp only [parse, String.toList_ofList, h.trimChars_called hraw, hcut, String.ofList_toList,
    h.canonical]
  cases parametersOf name raw with
  | error fault => rfl
  | ok parameters => exact h.make? parameters

theorem display_of_ne_nil (hne : e.parameters ≠ []) :
    e.display = String.ofList (e.name.toList ++
      ':' :: joinChars [','] (e.parameters.map (·.display.toList))) := by
  have hjoin := toList_join "," (e.parameters.map Parameter.display)
  rw [List.map_map] at hjoin
  rw [display, if_neg (by simpa using hne), ← String.toList_inj, String.toList_ofList,
    String.toList_append, String.toList_append, hjoin, List.append_assoc]
  rfl

/-- Fields are read as parameters, if none is too long. -/
theorem IsListed.parametersOf_eq (h : IsListed e texts) (hne : texts ≠ []) :
    parametersOf e.name (joinChars [','] (texts.map String.toList)) =
      if ∀ t ∈ texts, t.length ≤ Record.fieldLimit then .ok e.parameters
      else .error .malformedParameters := by
  have hfields : ∀ field ∈ texts.map String.toList, Record.IsBare field :=
    List.forall_mem_map.mpr fun t ht => (h.fields t ht).isBare
  have hblank : texts.map String.toList ≠ [[]] := by
    intro heq
    obtain ⟨t, rfl, ht⟩ := List.map_eq_singleton_iff.mp heq
    exact h.notBlank (congrArg (fun s => [s]) (String.toList_injective ht))
  have hread := Record.read?_joinChars (by simpa using hne) hblank hfields
  have htexts : (texts.map String.toList).map (fun field =>
      Parameter.text (String.ofList (Text.trimChars field))) = texts.map .text := by
    rw [List.map_map]
    refine List.map_congr_left fun t ht => ?_
    rw [Function.comp_apply, isTrimmed_iff.mp (h.fields t ht).trimmed, String.ofList_toList]
  rw [parametersOf, Family.contains, if_neg (by simpa using h.named), hread]
  simp only [List.forall_mem_map, String.length_toList]
  by_cases hfits : ∀ t ∈ texts, t.length ≤ Record.fieldLimit
  · rw [if_pos hfits, if_pos hfits]
    exact congrArg Except.ok (htexts.trans h.parameters.symm)
  · rw [if_neg hfits, if_neg hfits]

/-- The written form of an entry with fields is read back as the entry, if no field is too long. -/
theorem IsListed.parse_display (hname : IsName e.name) (h : IsListed e texts) :
    parse e.display =
      if ∀ t ∈ texts, t.length ≤ Record.fieldLimit then .ok e
      else .error .malformedParameters := by
  by_cases hne : texts = []
  · have hnone : e.parameters = [] := by rw [h.parameters, hne, List.map_nil]
    rw [hne, if_pos (by simp), display, if_pos (by simp [hnone]), hname.parse_bare, ← hnone]
  · have hsome : e.parameters ≠ [] := by simpa [h.parameters] using hne
    have hwritten : e.parameters.map (·.display.toList) = texts.map String.toList := by
      rw [h.parameters, List.map_map]
      rfl
    have hends : ∀ field ∈ texts.map String.toList, stripEnd isBlank field = field :=
      List.forall_mem_map.mpr fun t ht => stripEnd_eq_self_iff.mpr (h.fields t ht).trimmed.last
    rw [display_of_ne_nil hsome, hwritten, hname.parse_called (stripEnd_joinChars hends),
      h.parametersOf_eq hne]
    split <;> rfl

/-- The written form of an entry with a pattern is read back as the entry. -/
theorem IsWhole.parse_display {pattern : String} (hname : IsName e.name) (h : IsWhole e pattern) :
    parse e.display = .ok e := by
  have hsome : e.parameters ≠ [] := by simp [h.parameters]
  have hread : parametersOf e.name pattern.toList = .ok e.parameters := by
    rw [parametersOf, Family.contains, if_pos (List.contains_iff_mem.mpr h.named),
      String.ofList_toList, h.parameters]
  rw [display_of_ne_nil hsome, h.parameters]
  change parse (String.ofList (e.name.toList ++ ':' :: pattern.toList)) = .ok e
  rw [hname.parse_called (stripEnd_eq_self_iff.mpr h.last), hread]
  rfl

/-- A rule that takes a pattern is read with the pattern that stands behind its colon. -/
theorem parse_pattern {pattern : String} (hname : name ∈ Family.wholeParameter.rules)
    (hlast : ∀ c ∈ pattern.toList.getLast?, isBlank c = false) :
    parse (name ++ ":" ++ pattern) = .ok ⟨name, [.text pattern]⟩ := by
  have hwhole : IsWhole ⟨name, [.text pattern]⟩ pattern := ⟨hname, rfl, hlast⟩
  have hdisplay : display ⟨name, [.text pattern]⟩ = name ++ ":" ++ pattern := rfl
  rw [← hdisplay]
  exact hwhole.parse_display (isName_of_wholeParameter hname)

end Written

/-- The written form of an entry with a canonical name is read back as the entry, whether its parameters
are texts that stand in a record as they are or one pattern. Only a text that is longer than a field may
be makes the reading fail. -/
theorem parse_display_eq (e : RuleEntry) (hname : IsName e.name) :
    (∀ texts, IsListed e texts → parse e.display =
      if ∀ t ∈ texts, t.length ≤ Record.fieldLimit then .ok e
      else .error .malformedParameters) ∧
    ∀ pattern, IsWhole e pattern → parse e.display = .ok e :=
  ⟨fun _ h => h.parse_display hname, fun _ h => h.parse_display hname⟩

/-- Empty fields, colons in parameters and a pattern with a comma are read back. -/
theorem parse_display_of_empty_fields :
    IsName "in" ∧ IsListed ⟨"in", [.text "a:b", .text "", .text "c d"]⟩ ["a:b", "", "c d"] ∧
      parse (display ⟨"in", [.text "a:b", .text "", .text "c d"]⟩) =
        .ok ⟨"in", [.text "a:b", .text "", .text "c d"]⟩ ∧
      IsName "not_regex" ∧ IsWhole ⟨"not_regex", [.text " /^a,b$/"]⟩ " /^a,b$/" ∧
      parse (display ⟨"not_regex", [.text " /^a,b$/"]⟩) =
        .ok ⟨"not_regex", [.text " /^a,b$/"]⟩ := by
  have hin : IsName "in" := ⟨by decide, by decide, by decide⟩
  have hfields : ∀ t ∈ ["a:b", "", "c d"], Record.IsField t.toList := by
    have hall : (["a:b", "", "c d"].all fun t =>
        t.toList.all (fun c => c != ',' && c != '"' && c != '\r' && c != '\n') &&
          Text.trimChars t.toList == t.toList) = true := by decide
    intro t ht
    have h := List.all_eq_true.mp hall t ht
    simp only [Bool.and_eq_true, List.all_eq_true, bne_iff_ne, beq_iff_eq, and_assoc] at h
    exact ⟨h.1, isTrimmed_iff.mpr h.2⟩
  have hlisted : IsListed ⟨"in", [.text "a:b", .text "", .text "c d"]⟩ ["a:b", "", "c d"] :=
    ⟨by decide, rfl, hfields, by decide⟩
  have hregex : IsName "not_regex" := ⟨by decide, by decide, by decide⟩
  have hwhole : IsWhole ⟨"not_regex", [.text " /^a,b$/"]⟩ " /^a,b$/" :=
    ⟨by decide, rfl, stripEnd_eq_self_iff.mp (by decide)⟩
  refine ⟨hin, hlisted, ?_, hregex, hwhole, (parse_display_eq _ hregex).2 _ hwhole⟩
  rw [(parse_display_eq _ hin).1 _ hlisted, if_pos (by decide)]

/-- A text that is one character longer than a field may be. -/
def longText : String := String.ofList (List.replicate (Record.fieldLimit + 1) 'a')

/-- An entry with a text that is too long for a field has a written form that is not read. -/
theorem long_text_not_read :
    IsName "in" ∧ IsListed ⟨"in", [.text longText]⟩ [longText] ∧
      parse (display ⟨"in", [.text longText]⟩) = .error .malformedParameters := by
  have hname : IsName "in" := ⟨by decide, by decide, by decide⟩
  have hchars : ∀ c ∈ longText.toList, c = 'a' := fun c hc => by
    rw [longText, String.toList_ofList] at hc
    exact List.eq_of_mem_replicate hc
  have hfield : Record.IsField longText.toList := by
    refine ⟨fun c hc => ?_, ⟨fun c hc => ?_, fun c hc => ?_⟩⟩
    · rw [hchars c hc]
      decide
    · rw [hchars c (List.mem_of_mem_head? hc)]
      rfl
    · rw [hchars c (List.mem_of_getLast? hc)]
      rfl
  have hlength : longText.length = Record.fieldLimit + 1 := by
    rw [longText, String.length_ofList, List.length_replicate]
  have hlisted : IsListed ⟨"in", [.text longText]⟩ [longText] := by
    refine ⟨by decide, rfl, List.forall_mem_singleton.mpr hfield, fun heq => ?_⟩
    rw [(List.cons.inj heq).1] at hlength
    cases hlength
  refine ⟨hname, hlisted, ?_⟩
  rw [hlisted.parse_display hname, if_neg]
  rw [List.forall_mem_singleton, hlength]
  exact Nat.not_succ_le_self _

end RuleEntry

end RuleSchema
