import Mathlib.Tactic.ByContra
import RuleSchema.Proofs.RuleNames
import RuleSchema.Refinement.Branch

/-!
# Dates among the parameters of rules

A message shows the parameter of a rule on dates as it stands where it takes it for a date, and by
its display name where it takes it for a field. A check compares with a date or with the value of
another field. Messages go by the first characters and checks by the whole text: every date of a
message is a date of a check, and the reverse fails exactly for texts that have their first digit
further inside, such as a date that starts with the name of its month.
-/

namespace RuleSchema

namespace Text

/-- Decimal digits are the ASCII ones or lie far beyond ASCII. -/
theorem toNat_of_isDecimalDigit {c : Char} (h : isDecimalDigit c = true) :
    (48 ≤ c.toNat ∧ c.toNat ≤ 57) ∨ 1632 ≤ c.toNat := by
  rw [isDecimalDigit, decimalDigit?] at h
  split at h
  · rename_i hascii
    exact .inl hascii
  · rw [Option.isSome_map, List.find?_isSome] at h
    obtain ⟨first, hmem, hz⟩ := h
    have hlow : ∀ z ∈ decimalZeros, 1632 ≤ z := by decide
    rw [Bool.and_eq_true, decide_eq_true_eq, decide_eq_true_eq] at hz
    exact .inr (Nat.le_trans (hlow first hmem) hz.1)

/-- Characters open with a digit of decimal notation, behind a sign or not. -/
def OpensWithDigit (cs : List Char) : Prop :=
  ∃ d rest, isDecimalDigit d = true ∧
    (cs = d :: rest ∨ cs = '+' :: d :: rest ∨ cs = '-' :: d :: rest)

end Text

open Text

/-- A message takes a text for a date if it is a word for a date or opens with a digit. -/
theorem Messages.isDateText_iff {p : String} :
    isDateText p = true ↔ Text.lower p ∈ dateWords ∨ OpensWithDigit p.toList := by
  rw [isDateText, Bool.or_eq_true, List.contains_iff_mem]
  refine or_congr_right ?_
  rcases p.toList with _ | ⟨c, _ | ⟨next, rest⟩⟩
  · simp [OpensWithDigit]
  · simp [OpensWithDigit]
  · simp only [Bool.or_eq_true, Bool.and_eq_true, beq_iff_eq]
    constructor
    · rintro (hc | ⟨rfl | rfl, hnext⟩)
      · exact ⟨c, next :: rest, hc, .inl rfl⟩
      · exact ⟨next, rest, hnext, .inr (.inl rfl)⟩
      · exact ⟨next, rest, hnext, .inr (.inr rfl)⟩
    · rintro ⟨d, more, hd, h | h | h⟩
      · obtain ⟨rfl, -⟩ := List.cons.inj h
        exact .inl hd
      · obtain ⟨hc, h⟩ := List.cons.inj h
        exact .inr ⟨.inl hc, (List.cons.inj h).1 ▸ hd⟩
      · obtain ⟨hc, h⟩ := List.cons.inj h
        exact .inr ⟨.inr hc, (List.cons.inj h).1 ▸ hd⟩

namespace Refinement

variable {p : String}

/-- A text whose first character starts no name is not the path of a field. -/
theorem isFieldPath_eq_false {c : Char} {rest : List Char} (hp : p.toList = c :: rest)
    (hstart : Script.isPlainStart c = false) (hdot : c ≠ '.') (hfeed : c ≠ '\n') :
    isFieldPath p = false := by
  obtain ⟨more, hmore⟩ : ∃ more, Script.dropFinalFeed (c :: rest) = c :: more := by
    unfold Script.dropFinalFeed
    split
    · rename_i hlast
      cases rest with
      | nil => exact absurd (Option.some.inj hlast) hfeed
      | cons d rest => exact ⟨_, List.dropLast_cons_cons⟩
    · exact ⟨rest, rfl⟩
  have hpiece : ∃ piece pieces, splitBy (· == '.') (c :: more) = (c :: piece) :: pieces := by
    rw [splitBy, if_neg (by simpa using hdot)]
    split
    · exact ⟨_, _, rfl⟩
    · exact ⟨_, _, rfl⟩
  obtain ⟨piece, pieces, hpiece⟩ := hpiece
  rw [isFieldPath, hp, hmore, hpiece]
  simp only [hstart, Bool.false_and]

/-- No digit of decimal notation starts a name. -/
theorem isPlainStart_of_isDecimalDigit {c : Char} (h : isDecimalDigit c = true) :
    Script.isPlainStart c = false := by
  have hbounds := toNat_of_isDecimalDigit h
  rw [← Bool.not_eq_true]
  intro hstart
  rw [Script.isPlainStart, Bool.or_eq_true] at hstart
  rcases hstart with halpha | hunderscore
  · have hcode := toNat_of_isAlpha halpha
    omega
  · obtain rfl := beq_iff_eq.mp hunderscore
    exact absurd hbounds (by decide)

/-- A text that opens with a digit is a date of a check. -/
theorem isDateLiteral_of_opensWithDigit (h : OpensWithDigit p.toList) :
    isDateLiteral p = true := by
  obtain ⟨d, rest, hd, hp⟩ := h
  have hdigit : isDigit d = true := by rw [isDigit, hd, Bool.true_or]
  have hbounds := toNat_of_isDecimalDigit hd
  have hplain : Script.isPlainStart d = false ∧ d ≠ '.' ∧ d ≠ '\n' := by
    refine ⟨isPlainStart_of_isDecimalDigit hd, ?_, ?_⟩
    · rintro rfl
      exact absurd hbounds (by decide)
    · rintro rfl
      exact absurd hbounds (by decide)
  have hany : p.toList.any isDigit = true := by
    refine List.any_eq_true.mpr ⟨d, ?_, hdigit⟩
    rcases hp with hp | hp | hp
    · rw [hp]
      exact List.mem_cons_self
    · rw [hp]
      exact List.mem_cons_of_mem _ List.mem_cons_self
    · rw [hp]
      exact List.mem_cons_of_mem _ List.mem_cons_self
  have hpath : isFieldPath p = false := by
    rcases hp with hp | hp | hp
    · exact isFieldPath_eq_false hp hplain.1 hplain.2.1 hplain.2.2
    · exact isFieldPath_eq_false hp (by decide) (by decide) (by decide)
    · exact isFieldPath_eq_false hp (by decide) (by decide) (by decide)
  rw [isDateLiteral, hany, hpath]
  rfl

/-- A check compares with one date, wherever it runs. -/
def ReadsDate (p : String) : Prop := ∃ date, ∀ scope path, dateReference? scope path p = some date

/-- A check compares with what the text refers to, which may be out of its reach. -/
def ReadsField (p : String) : Prop :=
  ∃ read, ∀ scope path, dateReference? scope path p = (reference? scope path p).map read

/-- No field can be read from an object that lies below it. -/
theorem exists_reference?_eq_none (path p : String) : ∃ scope, reference? scope path p = none := by
  let target := besideField (Messages.siblingPath (Text.trim p) path) path
  have hfull : Text.isEmpty (target ++ "x") = false := by
    rw [Text.isEmpty, String.toList_append]
    exact List.isEmpty_eq_false_iff.mpr (List.append_ne_nil_of_right_ne_nil _ (by decide))
  have hlong : Text.startsWith target (target ++ "x") = false := by
    rw [Text.startsWith, ← Bool.not_eq_true, List.isPrefixOf_iff_prefix]
    intro hprefix
    have hle := hprefix.length_le
    rw [String.toList_append, List.length_append] at hle
    have hone : "x".toList.length = 1 := by decide
    omega
  refine ⟨target ++ "x", ?_⟩
  rw [reference?]
  simp only [hfull, hlong, Bool.false_eq_true, if_false, target]

theorem isSome_relativeDates_iff (word : String) :
    (relativeDates.lookup word).isSome = true ↔ word ∈ Messages.dateWords := by
  have hkeys : relativeDates.map Prod.fst = Messages.dateWords := rfl
  rw [← hkeys, Option.isSome_iff_ne_none, ne_eq, List.lookup_eq_none_iff, List.mem_map]
  push Not
  refine exists_congr fun entry => and_congr_right fun _ => ?_
  rw [ne_eq, bne_iff_ne, not_not, eq_comm]

theorem readsDate_of_mem_dateWords (h : Text.lower p ∈ Messages.dateWords) : ReadsDate p := by
  obtain ⟨date, hdate⟩ := Option.isSome_iff_exists.mp ((isSome_relativeDates_iff _).mpr h)
  refine ⟨date, fun scope path => ?_⟩
  rw [dateReference?, hdate]

theorem lookup_of_not_mem_dateWords (h : Text.lower p ∉ Messages.dateWords) :
    relativeDates.lookup (Text.lower p) = none := by
  rwa [← Option.not_isSome_iff_eq_none, isSome_relativeDates_iff]

theorem readsDate_of_isDateLiteral (h : isDateLiteral p = true) : ReadsDate p := by
  by_cases hword : Text.lower p ∈ Messages.dateWords
  · exact readsDate_of_mem_dateWords hword
  · apply Exists.intro
    intro scope path
    rw [dateReference?, lookup_of_not_mem_dateWords hword]
    exact if_pos h

theorem readsField_of_not (hword : Text.lower p ∉ Messages.dateWords)
    (hliteral : isDateLiteral p = false) : ReadsField p := by
  apply Exists.intro
  intro scope path
  rw [dateReference?, lookup_of_not_mem_dateWords hword]
  exact if_neg (by rw [hliteral]; exact Bool.false_ne_true)

/-- Where a field is read, some object is out of its reach. -/
theorem ReadsField.not_readsDate (h : ReadsField p) : ¬ ReadsDate p := by
  rintro ⟨date, hdate⟩
  obtain ⟨read, hread⟩ := h
  obtain ⟨scope, hscope⟩ := exists_reference?_eq_none "" p
  have hnone := hread scope ""
  rw [hscope, hdate] at hnone
  cases hnone

/-- A check takes a text for a date if it is a word for a date, or has a digit and is no path. -/
theorem readsDate_iff :
    ReadsDate p ↔ Text.lower p ∈ Messages.dateWords ∨ isDateLiteral p = true := by
  constructor
  · intro h
    by_contra hnot
    rw [not_or, Bool.not_eq_true] at hnot
    exact (readsField_of_not hnot.1 hnot.2).not_readsDate h
  · rintro (hword | hliteral)
    · exact readsDate_of_mem_dateWords hword
    · exact readsDate_of_isDateLiteral hliteral

theorem not_readsDate_iff : ¬ ReadsDate p ↔ ReadsField p := by
  refine ⟨fun h => ?_, ReadsField.not_readsDate⟩
  rw [readsDate_iff, not_or, Bool.not_eq_true] at h
  exact readsField_of_not h.1 h.2

end Refinement

/-- A text that a check takes for a date and a message does not: it has a digit and is no path, but
it is no word for a date and does not open with a digit. -/
structure IsUntoldDate (p : String) : Prop where
  digit : ∃ c ∈ p.toList, isDigit c = true
  noPath : Refinement.isFieldPath p = false
  noWord : Text.lower p ∉ Messages.dateWords
  noLead : ¬ OpensWithDigit p.toList

theorem isUntoldDate_iff {p : String} :
    IsUntoldDate p ↔ Refinement.ReadsDate p ∧ Messages.isDateText p = false := by
  rw [Refinement.readsDate_iff, ← Bool.not_eq_true, Messages.isDateText_iff, not_or,
    Refinement.isDateLiteral, Bool.and_eq_true, Bool.not_eq_true', List.any_eq_true]
  constructor
  · rintro ⟨hdigit, hpath, hword, hlead⟩
    exact ⟨.inr ⟨hdigit, hpath⟩, hword, hlead⟩
  · rintro ⟨hreads, hword, hlead⟩
    obtain ⟨hdigit, hpath⟩ := hreads.resolve_left hword
    exact ⟨hdigit, hpath, hword, hlead⟩

/-- Every date of a message is a date of a check. -/
theorem Messages.readsDate_of_isDateText {p : String} (h : isDateText p = true) :
    Refinement.ReadsDate p := by
  rcases isDateText_iff.mp h with hword | hlead
  · exact Refinement.readsDate_of_mem_dateWords hword
  · exact Refinement.readsDate_of_isDateLiteral (Refinement.isDateLiteral_of_opensWithDigit hlead)

/-- What the message of a rule on dates shows for its parameter. -/
theorem Messages.placeholders_of_dateRule (m : Messages) (field p : String) (rest : List String)
    {rule : String} (h : rule ∈ dateRules) :
    m.placeholders field rule (p :: rest) =
      if isDateText p then .ok [("date", p)]
      else (m.fieldName p).map fun name => [("date", name)] := by
  have hplain : m.placeholders field rule (p :: rest) =
      (do return [("date", ← if isDateText p then pure p else m.fieldName p)]) := by
    simp only [dateRules, List.mem_cons, List.not_mem_nil, or_false] at h
    rcases h with rfl | rfl | rfl | rfl | rfl <;> rfl
  rw [hplain]
  split
  · rfl
  · cases m.fieldName p <;> rfl

/-- A message shows the parameter of a rule on dates as it stands or by the display name of a field,
and a check compares with one date or reads a field, never both. The message and the check agree
exactly unless the text is a date only for the check: it has a digit, is no path and no word for a
date, and does not open with a digit. The reverse does not occur. -/
theorem date_readings_agree_iff (p : String) :
    (∀ (m : Messages) field rest, ∀ rule ∈ Messages.dateRules,
      m.placeholders field rule (p :: rest) =
        if Messages.isDateText p then .ok [("date", p)]
        else (m.fieldName p).map fun name => [("date", name)]) ∧
    (¬ Refinement.ReadsDate p ↔ Refinement.ReadsField p) ∧
    (Messages.isDateText p = true → Refinement.ReadsDate p) ∧
    ((Messages.isDateText p = true ↔ Refinement.ReadsDate p) ↔ ¬ IsUntoldDate p) := by
  refine ⟨fun m field rest rule h => m.placeholders_of_dateRule field p rest h,
    Refinement.not_readsDate_iff, Messages.readsDate_of_isDateText, ?_⟩
  rw [isUntoldDate_iff, ← Bool.not_eq_true, not_and, not_not]
  exact ⟨Iff.mpr, fun h => ⟨Messages.readsDate_of_isDateText, h⟩⟩

/-- A date with a sign in front is one for the message and for the check. -/
theorem date_readings_agree_shift : "after" ∈ Messages.dateRules ∧
    (⟨none, [], []⟩ : Messages).placeholders "end" "after" ["+1 day"] =
      .ok [("date", "+1 day")] ∧ Refinement.ReadsDate "+1 day" := by
  obtain ⟨hmessage, -, hdate, -⟩ := date_readings_agree_iff "+1 day"
  have hrule : "after" ∈ Messages.dateRules := by decide
  exact ⟨hrule, hmessage _ "end" [] "after" hrule, hdate rfl⟩

/-- A date that starts with the name of its month is a date of the check, and the message takes it
for a field, so that it shows the text in lower case. -/
theorem date_readings_differ : Text.trim "Jan 5 2024" = "Jan 5 2024" ∧
    (⟨none, [], []⟩ : Messages).placeholders "end" "after" ["Jan 5 2024"] =
      .ok [("date", "jan 5 2024")] ∧
    Messages.isDateText "Jan 5 2024" = false ∧ Refinement.ReadsDate "Jan 5 2024" ∧
    Refinement.dateReference? "" "end" "Jan 5 2024" = some ("(() => \x7b const ts = " ++
      "Date.parse('Jan 5 2024'); return Number.isNaN(ts) ? NaN : ts; \x7d)()") := by
  refine ⟨by decide +kernel, by rfl, by decide +kernel, ?_, by decide +kernel⟩
  exact Refinement.readsDate_iff.mpr (.inr (by decide +kernel))

end RuleSchema
