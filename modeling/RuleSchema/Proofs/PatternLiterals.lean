import RuleSchema.Proofs.OutsideClasses

/-!
# Closed pattern literals

A pattern literal ends at the first slash that stands on its own outside of the classes, so its body
must not hold such a slash. Rewriting between brackets changes nothing about slashes. Where another
delimiter is given, each slash is escaped unless it stands behind a backslash, which may itself be
escaped.
-/

namespace RuleSchema.Script.Pattern

/-- The body of a literal is not empty, does not open a comment, and has no slash on its own outside
of its classes. -/
structure IsClosed (body : List Char) : Prop where
  nonempty : body ≠ []
  no_comment : body.head? ≠ some '*'
  slashes : ∀ before t behind, tokens body = before ++ t :: behind → t = .plain '/' →
    inClass before = true

/-- A text is one closed literal with distinct flags that the target knows. -/
def IsLiteral (cs : List Char) : Prop :=
  ∃ body flags, cs = '/' :: (body ++ '/' :: flags) ∧ IsClosed body ∧ flags.Nodup ∧
    ∀ f ∈ flags, f ∈ ['i', 'm', 's', 'u']

/-- A pattern without its delimiters fits into a literal. A slash on its own outside of the classes
is escaped where the delimiter is another one, but not behind an escaped backslash. -/
structure Parts.Fits (p : Parts) : Prop where
  nonempty : p.body ≠ []
  no_comment : p.body.head? ≠ some '*'
  slashes : ∀ before t behind, tokens p.body = before ++ t :: behind → t = .plain '/' →
    inClass before = true ∨ p.delimiter ≠ '/' ∧ before.getLast? ≠ some (.escaped '\\')

/-- Tokens in which each slash is escaped that does not stand behind a backslash; `escaped` tells
whether an escaped one precedes. -/
def guarded (escaped : Bool) : List Token → List Token
  | [] => []
  | t :: ts =>
    (if t = .plain '/' ∧ escaped = false then .escaped '/' else t) ::
      guarded (decide (t = .escaped '\\')) ts

section Guarded

variable {ts : List Token}

theorem escapeSlashes_eq (escaped : Bool) (cs : List Char) :
    escapeSlashes escaped cs = spelling (guarded escaped (tokens cs)) := by
  fun_induction tokens cs generalizing escaped with
  | case1 => rfl
  | case2 c =>
      cases escaped <;> by_cases hc : c = '/' <;> simp [escapeSlashes, guarded, Token.spell, hc]
  | case3 next rest ih =>
      simp [escapeSlashes, guarded, Token.spell, ← ih]
      rfl
  | case4 c next rest hc ih =>
      have hback : (c == '\\') = false := beq_false_of_ne hc
      rw [escapeSlashes, guarded, spelling_cons, hback, decide_eq_false Token.noConfusion, ← ih]
      cases escaped <;> by_cases hs : c = '/' <;> simp [Token.spell, hs]

theorem isRead_guarded {escaped : Bool} (h : IsRead ts) : IsRead (guarded escaped ts) := by
  induction ts generalizing escaped with
  | nil => trivial
  | cons t ts ih =>
      refine ⟨fun ht => ?_, ih h.2⟩
      split at ht
      · cases ht
      · rw [h.1 ht]
        rfl

/-- What is said of slashes that stand on their own. -/
def SlashesHold (P : List Token → Prop) (ts : List Token) : Prop :=
  ∀ before t behind, ts = before ++ t :: behind → t = .plain '/' → P before

theorem slashesHold_cons {P : List Token → Prop} {t : Token} :
    SlashesHold P (t :: ts) ↔ (t = .plain '/' → P []) ∧ SlashesHold (fun us => P (t :: us)) ts :=
  forall_split_cons (P := fun before u _ => u = .plain '/' → P before)

theorem slashesHold_rewritten (p : Place) (open? : Bool) (ts : List Token) :
    SlashesHold (·.foldl classStep open? = true) (rewritten p ts) ↔
      SlashesHold (·.foldl classStep open? = true) ts := by
  induction ts generalizing p open? with
  | nil => rfl
  | cons t ts ih =>
      rw [rewritten, slashesHold_cons, slashesHold_cons, rewritten_eq_plain_iff (by decide)]
      simp only [List.foldl_cons, List.foldl_nil, classStep_rewritten]
      rw [ih]

theorem classStep_guarded {open? escaped : Bool} {t : Token} :
    classStep open? (if t = .plain '/' ∧ escaped = false then .escaped '/' else t) =
      classStep open? t := by
  split
  · rename_i h
    rw [h.1]
    cases open? <;> rfl
  · rfl

/-- Of the slashes on their own those stay that stand behind an escaped backslash. -/
theorem slashesHold_guarded (escaped open? : Bool) (ts : List Token) :
    SlashesHold (·.foldl classStep open? = true) (guarded escaped ts) ↔
      SlashesHold (fun before => before.foldl classStep open? = true ∨
        before.foldl (fun _ t => decide (t = .escaped '\\')) escaped = false) ts := by
  induction ts generalizing escaped open? with
  | nil => simp [SlashesHold, guarded]
  | cons t ts ih =>
      have hslash : (if t = .plain '/' ∧ escaped = false then .escaped '/' else t) = .plain '/' ↔
          t = .plain '/' ∧ escaped = true := by
        split
        · rename_i h
          simp [h.2]
        · rename_i h
          simp_all
      rw [guarded, slashesHold_cons, slashesHold_cons, hslash]
      simp only [List.foldl_cons, List.foldl_nil, classStep_guarded, ih]
      refine and_congr_left fun _ => ?_
      cases escaped <;> simp

theorem foldl_endsEscaped (before : List Token) :
    before.foldl (fun _ t => decide (t = .escaped '\\')) false = false ↔
      before.getLast? ≠ some (.escaped '\\') := by
  induction before using List.reverseRecOn with
  | nil => simp
  | append_singleton before t _ => simp

end Guarded

section Bodies

variable {body flags : List Char}

theorem rewriteClasses_eq_nil_iff : rewriteClasses none body = [] ↔ body = [] := by
  rw [← tokens_eq_nil_iff, tokens_rewriteClasses, ← @tokens_eq_nil_iff body]
  cases tokens body <;> simp [rewritten]

/-- The first character is outside of all brackets. -/
theorem head?_rewriteClasses (body : List Char) :
    (rewriteClasses none body).head? = body.head? := by
  conv_rhs => rw [← spelling_tokens body]
  rw [rewriteClasses_eq, head?_spelling, head?_spelling]
  cases tokens body with
  | nil => rfl
  | cons t ts => rw [rewritten, if_neg fun h => h.1 rfl]; rfl

theorem isClosed_iff : IsClosed body ↔ body ≠ [] ∧ body.head? ≠ some '*' ∧
    SlashesHold (inClass · = true) (tokens body) :=
  ⟨fun ⟨hne, hhead, h⟩ => ⟨hne, hhead, h⟩, fun ⟨hne, hhead, h⟩ => ⟨hne, hhead, h⟩⟩

theorem isClosed_rewriteClasses_iff : IsClosed (rewriteClasses none body) ↔ IsClosed body := by
  have hslashes : SlashesHold (inClass · = true) (tokens (rewriteClasses none body)) ↔
      SlashesHold (inClass · = true) (tokens body) := by
    rw [tokens_rewriteClasses]
    exact slashesHold_rewritten .outside false (tokens body)
  rw [isClosed_iff, isClosed_iff, hslashes, head?_rewriteClasses, ne_eq, rewriteClasses_eq_nil_iff]

theorem escapeSlashes_eq_nil_iff : escapeSlashes false body = [] ↔ body = [] := by
  cases body with
  | nil => rfl
  | cons c rest => rw [escapeSlashes]; split <;> simp

theorem head?_escapeSlashes_iff :
    (escapeSlashes false body).head? = some '*' ↔ body.head? = some '*' := by
  cases body with
  | nil => rfl
  | cons c rest =>
      rw [escapeSlashes]
      split
      · rename_i hc
        obtain rfl : c = '/' := by simpa using hc
        simp
      · rfl

theorem isClosed_escapeSlashes_iff : IsClosed (escapeSlashes false body) ↔
    body ≠ [] ∧ body.head? ≠ some '*' ∧ SlashesHold (fun before => inClass before = true ∨
      before.getLast? ≠ some (.escaped '\\')) (tokens body) := by
  have hslashes := slashesHold_guarded false false (tokens body)
  rw [← tokens_spelling (isRead_guarded (isRead_tokens body)), ← escapeSlashes_eq] at hslashes
  simp only [foldl_endsEscaped] at hslashes
  rw [isClosed_iff, ne_eq, escapeSlashes_eq_nil_iff, ne_eq, head?_escapeSlashes_iff]
  exact and_congr_right fun _ => and_congr_right fun _ => hslashes

theorem fits_iff (p : Parts) : p.Fits ↔
    IsClosed (if p.delimiter == '/' then p.body else escapeSlashes false p.body) := by
  have hfits : p.Fits ↔ p.body ≠ [] ∧ p.body.head? ≠ some '*' ∧
      SlashesHold (fun before => inClass before = true ∨
        p.delimiter ≠ '/' ∧ before.getLast? ≠ some (.escaped '\\')) (tokens p.body) :=
    ⟨fun ⟨hne, hhead, h⟩ => ⟨hne, hhead, h⟩, fun ⟨hne, hhead, h⟩ => ⟨hne, hhead, h⟩⟩
  rw [hfits]
  by_cases hd : p.delimiter = '/'
  · rw [if_pos (beq_iff_eq.mpr hd), isClosed_iff]
    simp only [hd, ne_eq, not_true_eq_false, false_and, or_false]
  · rw [if_neg (mt beq_iff_eq.mp hd), isClosed_escapeSlashes_iff]
    simp only [hd, ne_eq, not_false_eq_true, true_and]

theorem mem_knownFlags {f : Char} (hf : f ∈ flags.eraseDups.filter isKnownFlag) :
    f ∈ ['i', 'm', 's', 'u'] := by
  simpa [isKnownFlag, or_assoc] using (List.mem_filter.mp hf).2

theorem not_mem_of_known (hflags : ∀ f ∈ flags, f ∈ ['i', 'm', 's', 'u']) : '/' ∉ flags :=
  fun h => absurd (hflags _ h) (by decide)

/-- Of a text with known flags behind its last slash, what stands before it decides. -/
theorem isLiteral_iff (hnodup : flags.Nodup) (hflags : ∀ f ∈ flags, f ∈ ['i', 'm', 's', 'u']) :
    IsLiteral ('/' :: (body ++ '/' :: flags)) ↔ IsClosed body := by
  constructor
  · rintro ⟨other, known, heq, hclosed, -, hknown⟩
    obtain ⟨rfl, rfl⟩ := append_slash_inj (not_mem_of_known hflags) (not_mem_of_known hknown)
      (List.cons.inj heq).2
    exact hclosed
  · intro hclosed
    exact ⟨body, flags, rfl, hclosed, hnodup, hflags⟩

end Bodies

/-- A converted pattern is a slash, a body, a slash and distinct known flags. It is a closed literal
exactly when what stands between the delimiters fits into one. -/
theorem isLiteral_convert_iff (s : String) :
    (∃ body flags, (convert s).toList = '/' :: (body ++ '/' :: flags) ∧ flags.Nodup ∧
      ∀ f ∈ flags, f ∈ ['i', 'm', 's', 'u']) ∧
    (IsLiteral (convert s).toList ↔ (parts s.toList).Fits) := by
  let p := parts s.toList
  let body := if p.delimiter == '/' then p.body else escapeSlashes false p.body
  have hconvert : (convert s).toList =
      '/' :: (rewriteClasses none body ++ '/' :: p.flags.eraseDups.filter isKnownFlag) := by
    rw [convert, String.toList_ofList, convertChars]
  have hnodup : (p.flags.eraseDups.filter isKnownFlag).Nodup := (Table.nodup_eraseDups _).filter _
  refine ⟨⟨_, _, hconvert, hnodup, fun f => mem_knownFlags⟩, ?_⟩
  rw [hconvert, isLiteral_iff hnodup fun f => mem_knownFlags, isClosed_rewriteClasses_iff, fits_iff]

/-- A slash behind an escaped backslash is not escaped, so it ends the literal too early. -/
theorem slash_behind_backslash_open :
    ¬ ∀ s : String, (∀ c ∈ s.toList, c ∉ ['\n', '\r', '\u2028', '\u2029']) →
      IsLiteral (convert s).toList := by
  intro h
  have hliteral := h "#a\\\\/b#" (by simp)
  have hconverted : (convert "#a\\\\/b#").toList = '/' :: ("a\\\\/b".toList ++ '/' :: []) := by
    decide
  rw [hconverted, isLiteral_iff .nil nofun] at hliteral
  have hopen :=
    hliteral.slashes [.plain 'a', .escaped '\\'] (.plain '/') [.plain 'b'] (by decide) rfl
  revert hopen
  decide

end RuleSchema.Script.Pattern
