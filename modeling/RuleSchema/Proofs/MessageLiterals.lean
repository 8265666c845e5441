import RuleSchema.Builder.Setting
import RuleSchema.Handler.Compile
import RuleSchema.Proofs.BaseMessages
import RuleSchema.Proofs.BranchMessages
import RuleSchema.Proofs.RuleMessages

/-!
# Messages as literals

Inside single quotes every text is one literal that denotes it, and nothing else of the code depends
on a message: rules, base expressions and branches have it in slots only. Between double quotes the
message of an enumeration is a literal exactly where it has neither a line break nor a null
character before a digit.
-/

namespace RuleSchema

open Chain Script

namespace Script

/-- No text breaks out of single quotes: it has no line break and no quote or backslash of its own,
all of its backslashes have a character behind them, and it denotes the text. -/
structure IsEnclosed (t : String) : Prop where
  replaced : replaceAll escapeReplacements t = escape t
  noBreak : ∀ c ∈ (escape t).toList, c ≠ '\n' ∧ c ≠ '\r'
  paired : ∀ token ∈ Pattern.tokens (escape t).toList, token ≠ .plain '\'' ∧ token ≠ .plain '\\'
  decoded : unescape (escape t) = t
  read : ∀ rest, StringLiteral.read? ((literal t).toList ++ rest) = some (units t.toList, rest)
  argument : messageArgument (some t) = ", " ++ literal t

theorem isEnclosed (t : String) : IsEnclosed t where
  replaced := replaceAll_escape t
  noBreak := escape_no_break t
  paired := by
    rw [tokens_escape]
    intro token htoken
    obtain ⟨c, -, rfl⟩ := List.mem_map.mp htoken
    exact ⟨escapeToken_ne_plain (.inr (.inl rfl)), escapeToken_ne_plain (.inl rfl)⟩
  decoded := unescape_escape t
  read := read?_literal t
  argument := messageArgument_some t

end Script

/-- Every message stays inside its literal. A text inside single quotes is one literal that denotes
it; a check has its message in a slot; and the slots of a rule, of a run of rules, of a base
expression and of a branch between fields do not depend on any message. -/
theorem messages_stay_enclosed :
    (∀ t, IsEnclosed t) ∧ messageArgument none = "" ∧
    (∀ (s : Slot) message t, s.spot.shown? message = some t →
      StringLiteral.read? ((s.text message).toList.drop s.lead.length) =
        some (units t.toList, s.trail.toList)) ∧
    (∀ condition fallback message, TextRule.refine condition (escapedOr message fallback) =
      (Slot.check fallback condition "").text message) ∧
    (∀ base : Base, ∀ p ∈ base.methods, ∀ arguments, Told (p.2 arguments)) ∧
    (∀ (base : Base) rules, ∃ slots spots, ∀ checks b next, Compiler.forms checks = rules →
      b.base.sort = base.sort → checks.foldlM Compiler.applyCheck b = .ok next →
      Speaks slots spots (checks.map Check.message) b next) ∧
    (∀ b : Builder, Written fun message =>
      ({ b with requiredMessage := message.map escape }).baseExpression) ∧
    (∀ b : Builder, Written fun message =>
      ({ b with base := b.base.withOwnMessage (message.map escape) }).baseExpression) ∧
    (∀ scope field r, ∀ code ∈ Refinement.branches scope field r, ∃ check ∈ r.checks,
      ∃ kind ∈ Refinement.kinds scope field r, kind check = some code ∧
        Refinement.BranchTold kind) := by
  refine ⟨isEnclosed, rfl, fun s message t h => Slot.read?_text h,
    fun condition fallback message => ?_, Base.told_methods, Compiler.exists_speaks_applyChecks,
    fun b => ?_, fun b => ?_, fun scope field r code hcode => ?_⟩
  · rw [Slot.text_check_nil]
  · simp only [Builder.baseExpression_eq]
    exact Builder.written_required b.base
  · simp only [Builder.baseExpression_eq]
    exact Builder.written_own b.base b.requiredMessage
  · obtain ⟨check, hcheck, kind, hkind, heq⟩ :=
      Refinement.exists_kind_of_mem_branches scope field r hcode
    exact ⟨check, hcheck, kind, hkind, heq, Refinement.branchTold_kinds scope field r kind hkind⟩

/-- A message with a quote in a run of one rule. -/
theorem messages_stay_enclosed_uuid : ∃ slots spots, Speaks slots spots [some "it's"]
    (.ofBase (.text none)) { Builder.ofBase (.text none) with chain := [".uuid('it\\'s')"] } := by
  obtain ⟨-, -, -, -, -, hruns, -⟩ := messages_stay_enclosed
  obtain ⟨slots, spots, hrun⟩ := hruns (.text none) [("uuid", [])]
  exact ⟨slots, spots, hrun [⟨"uuid", [], some "it's", false, false⟩] _ _ rfl rfl rfl⟩

namespace Script

/-- A text with slashes between double quotes. -/
def slashed (m : String) : String := "\"" ++ addSlashes m ++ "\""

/-- Whether a text has neither a line break nor a null character right before a digit. -/
def KeepsSlashed (m : String) : Prop :=
  (∀ c ∈ m.toList, c ≠ '\n' ∧ c ≠ '\r') ∧ ∀ d, d.isDigit = true → ¬ ['\x00', d] <:+: m.toList

theorem read?_slashed (m : String) (rest : List Char) :
    StringLiteral.read? ((slashed m).toList ++ rest) =
      if isSlashable m.toList then some (units m.toList, rest) else none := by
  have hquote : "\"".toList = ['"'] := by decide
  rw [← read?_addSlashes, slashed, String.toList_append, String.toList_append, hquote]
  simp only [List.cons_append, List.nil_append, List.append_assoc]

theorem read?_slashed_of_keeps {m : String} (h : KeepsSlashed m) (rest : List Char) :
    StringLiteral.read? ((slashed m).toList ++ rest) = some (units m.toList, rest) := by
  rw [read?_slashed, if_pos (isSlashable_iff.mpr h)]

theorem read?_slashed_of_not_keeps {m : String} (h : ¬ KeepsSlashed m) (rest : List Char) :
    StringLiteral.read? ((slashed m).toList ++ rest) = none := by
  rw [read?_slashed, if_neg fun hsafe => h (isSlashable_iff.mp hsafe)]

end Script

namespace Builder

/-- The code of an enumeration up to its message. -/
def enumerationLead (values : List String) (reference : Option String) : String :=
  (match Text.nonEmpty? reference with
    | some name => "z.enum(" ++ name
    | none => "z.enum([" ++ Text.join ", " (values.map Text.Json.encode) ++ "]") ++
  ", " ++ "\x7b message: "

/-- The code of an enumeration with a message. -/
def enumerationCode (values : List String) (reference : Option String) (m : String) : String :=
  enumerationLead values reference ++ slashed m ++ (" \x7d" ++ ")")

theorem isEmpty_addSlashes (m : String) : Text.isEmpty (addSlashes m) = Text.isEmpty m :=
  Text.isEmpty_flatMap (fun c => by unfold addSlash; split_ifs <;> exact List.cons_ne_nil _ _) m

theorem nonEmpty?_some {m : String} (hm : Text.isEmpty m = false) :
    Text.nonEmpty? (some m) = some m := by
  rw [Text.nonEmpty?, Option.filter_some, hm]
  rfl

/-- An enumeration has its message between double quotes. -/
theorem expression_enumeration (values : List String) (reference : Option String) {m : String}
    (hm : m ≠ "") : (Base.enumeration values reference (some (addSlashes m))).expression none =
      enumerationCode values reference m := by
  have hfilled : Text.nonEmpty? (some (addSlashes m)) = some (addSlashes m) :=
    nonEmpty?_some ((isEmpty_addSlashes m).trans (Text.isEmpty_eq_false hm))
  have hbraces : TextRule.braces (" message: \"" ++ addSlashes m ++ "\" ") =
      "\x7b message: " ++ ("\"" ++ addSlashes m ++ "\"") ++ " \x7d" :=
    Slot.braces_quoted (by decide) (by decide) (addSlashes m)
  unfold Base.expression baseExpression ofBase enumerationCode enumerationLead slashed
  dsimp only
  rw [hfilled]
  dsimp only
  rw [hbraces]
  cases Text.nonEmpty? reference with
  | some name => simp only [-String.reduceAppend, String.append_assoc]
  | none => simp only [-String.reduceAppend, String.append_assoc]

end Builder

/-- The message of an enumeration stands between double quotes, set by itself, by the required rule
or by the required field. It is one literal that denotes the message exactly where the message has
neither a line break nor a null character right before a digit; otherwise there is no literal at
all. -/
theorem enumeration_literal_iff (values : List String) (reference held : Option String)
    (m : String) :
    (m ≠ "" →
      ((Base.enumeration values reference held).withMessage? (some m)).map (·.expression none) =
        some (Builder.enumerationCode values reference m) ∧
      (∀ arguments, (after (Builder.enumerationRequired arguments (some m))
        (.ofBase (.enumeration values reference held))).baseExpression =
          Builder.enumerationCode values reference m) ∧
      ∀ r, r.isRequired = true → r.message? "required" = some m →
        (Compiler.withEnumerationMessage
          (.ofBase (.enumeration values reference held)) r).baseExpression =
          Builder.enumerationCode values reference m) ∧
    replaceAll slashReplacements m = addSlashes m ∧
    (∀ token ∈ Pattern.tokens (addSlashes m).toList, token ≠ .plain '"' ∧ token ≠ .plain '\\') ∧
    ((∀ rest, StringLiteral.read? ((slashed m).toList ++ rest) = some (units m.toList, rest)) ↔
      KeepsSlashed m) ∧
    (¬ KeepsSlashed m → ∀ rest, StringLiteral.read? ((slashed m).toList ++ rest) = none) := by
  refine ⟨fun hm => ?_, replaceAll_addSlashes m, ?_,
    ⟨fun hread => ?_, read?_slashed_of_keeps⟩, read?_slashed_of_not_keeps⟩
  · have hcode := Builder.expression_enumeration values reference hm
    have hfilled := Builder.nonEmpty?_some (Text.isEmpty_eq_false hm)
    refine ⟨?_, fun arguments => ?_, fun r hrequired hmessage => ?_⟩
    · rw [Base.withMessage?, hfilled]
      exact congrArg some hcode
    · rw [Builder.enumerationRequired, hfilled]
      exact hcode
    · unfold Compiler.withEnumerationMessage
      rw [hrequired, if_pos rfl, hmessage, hfilled]
      exact hcode
  · rw [tokens_addSlashes]
    intro token htoken
    obtain ⟨c, -, rfl⟩ := List.mem_map.mp htoken
    exact ⟨slashToken_ne_plain (.inr (.inr rfl)), slashToken_ne_plain (.inl rfl)⟩
  · by_contra hbroken
    have hnone := read?_slashed_of_not_keeps hbroken []
    rw [hread] at hnone
    cases hnone

/-- A message with double quotes is one literal. -/
theorem enumeration_literal_quotes : "Pick \"one\"" ≠ "" ∧
    ((Base.enumeration ["a"] none none).withMessage? (some "Pick \"one\"")).map
      (·.expression none) = some (Builder.enumerationCode ["a"] none "Pick \"one\"") ∧
    KeepsSlashed "Pick \"one\"" ∧
    StringLiteral.read? ((slashed "Pick \"one\"").toList ++ []) =
      some (units "Pick \"one\"".toList, []) := by
  have hiff := enumeration_literal_iff ["a"] none none "Pick \"one\""
  have hne : "Pick \"one\"" ≠ "" := by decide
  have hkeeps : KeepsSlashed "Pick \"one\"" := isSlashable_iff.mp (by decide)
  exact ⟨hne, (hiff.1 hne).1, hkeeps, hiff.2.2.2.1.mpr hkeeps []⟩

/-- A message of two lines leaves an open literal behind. -/
theorem enumeration_literal_breaks :
    ((Base.enumeration ["a"] none none).withMessage? (some "one\ntwo")).map (·.expression none) =
      some "z.enum([\"a\"], \x7b message: \"one\ntwo\" \x7d)" ∧
    '\n' ∈ (slashed "one\ntwo").toList ∧
    StringLiteral.read? (slashed "one\ntwo").toList = none := by
  have hcode : ((Base.enumeration ["a"] none none).withMessage? (some "one\ntwo")).map
      (·.expression none) = some "z.enum([\"a\"], \x7b message: \"one\ntwo\" \x7d)" := by decide
  have hfeed : '\n' ∈ (slashed "one\ntwo").toList := by decide
  have hnone : StringLiteral.read? (slashed "one\ntwo").toList = none := by decide
  exact ⟨hcode, hfeed, hnone⟩

end RuleSchema
