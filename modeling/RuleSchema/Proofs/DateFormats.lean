import Mathlib.Data.List.Induction
import RuleSchema.Proofs.PatternTokens
import RuleSchema.Script.DateFormat

/-!
# Date formats piece by piece

A backslash of a format belongs to the character behind it, so a format may be cut wherever its part
up to there does not end in an odd number of backslashes. The pattern of the whole is then the
pattern of one part behind that of the other, and there is none exactly where a letter that no
backslash escapes has no entry.

## Implementation notes

The format is read as the tokens of a pattern, one piece for each of them. That an odd number of
backslashes at the end is one lone token follows from what a further character does to both.
-/

namespace RuleSchema.Script.Pattern

variable {c : Char} {cs rest : List Char}

/-- The number of backslashes that a text ends with. -/
def trailingBackslashes (cs : List Char) : Nat := (cs.reverse.takeWhile (· == '\\')).length

/-- A text whose last backslash escapes the character that is put behind it: the backslashes before
it escape one another in pairs. -/
def EndsEscaping (cs : List Char) : Prop := trailingBackslashes cs % 2 = 1

instance (cs : List Char) : Decidable (EndsEscaping cs) :=
  inferInstanceAs (Decidable (_ = _))

@[simp] theorem not_endsEscaping_nil : ¬ EndsEscaping [] := by decide

/-- A further backslash escapes what follows it unless it is escaped itself. -/
theorem endsEscaping_concat : EndsEscaping (cs ++ [c]) ↔ c = '\\' ∧ ¬ EndsEscaping cs := by
  rw [EndsEscaping, EndsEscaping, trailingBackslashes, trailingBackslashes, List.reverse_append,
    List.reverse_singleton, List.singleton_append, List.takeWhile_cons]
  by_cases hc : c = '\\'
  · rw [if_pos (beq_iff_eq.mpr hc), List.length_cons, and_iff_right hc]
    omega
  · rw [if_neg (mt beq_iff_eq.mp hc)]
    simp [hc]

/-- A further character is escaped by a lone backslash, or else is a token of its own. -/
theorem plain_backslash_mem_concat :
    .plain '\\' ∈ tokens (cs ++ [c]) ↔ c = '\\' ∧ .plain '\\' ∉ tokens cs := by
  rcases (isRead_tokens cs).cases with hnone | ⟨ts, hts, hnone⟩
  · have htokens : tokens (cs ++ [c]) = tokens cs ++ [.plain c] := by
      conv_lhs => rw [← spelling_tokens cs]
      exact tokens_spelling_append hnone [c]
    simp [htokens, hnone, eq_comm]
  · have htokens : tokens (cs ++ [c]) = ts ++ [.escaped c] := by
      conv_lhs => rw [← spelling_tokens cs, hts]
      exact tokens_spelling_backslash hnone c []
    simp [htokens, hts, hnone]

/-- Read from the left, a text has a lone backslash exactly where it ends in an odd number of
them. -/
theorem plain_backslash_mem_iff : .plain '\\' ∈ tokens cs ↔ EndsEscaping cs := by
  induction cs using List.reverseRecOn with
  | nil => simp
  | append_singleton cs c ih => rw [plain_backslash_mem_concat, endsEscaping_concat, ih]

/-- What stands behind a text does not change how it is read, unless its end escapes it. -/
theorem tokens_append (h : ¬ EndsEscaping cs) (rest : List Char) :
    tokens (cs ++ rest) = tokens cs ++ tokens rest := by
  conv_lhs => rw [← spelling_tokens cs]
  exact tokens_spelling_append (mt plain_backslash_mem_iff.mp h) rest

/-- What precedes a token has no lone backslash. -/
theorem plain_backslash_not_mem {ts us : List Token} {t : Token} (h : IsRead (ts ++ t :: us)) :
    .plain '\\' ∉ ts := by
  induction ts with
  | nil => exact List.not_mem_nil
  | cons u ts ih =>
      rw [List.mem_cons, not_or]
      refine ⟨fun hu => ?_, ih h.2⟩
      simpa using h.1 hu.symm

/-- A character is a token of its own where it stands behind a part whose end does not escape it. -/
theorem plain_mem_tokens_iff (hc : c ≠ '\\') :
    .plain c ∈ tokens cs ↔
      ∃ before behind, cs = before ++ c :: behind ∧ ¬ EndsEscaping before := by
  constructor
  · intro hmem
    obtain ⟨ts, us, hsplit⟩ := List.append_of_mem hmem
    have hread : IsRead (ts ++ .plain c :: us) := hsplit ▸ isRead_tokens cs
    have hnone := plain_backslash_not_mem hread
    have hbefore : tokens (spelling ts) = ts := by simpa using tokens_spelling_append hnone []
    refine ⟨spelling ts, spelling us, ?_, ?_⟩
    · rw [← spelling_tokens cs, hsplit, spelling_append]
      rfl
    · rwa [← plain_backslash_mem_iff, hbefore]
  · rintro ⟨before, behind, rfl, hbefore⟩
    rw [tokens_append hbefore, tokens_plain hc]
    simp

end RuleSchema.Script.Pattern

namespace RuleSchema.Script.DateFormat

open Pattern (Token EndsEscaping)

/-- The characters that the syntax of patterns uses, and the slash that ends a pattern. -/
def syntaxCharacters : List Char :=
  ['^', '$', '\\', '.', '*', '+', '?', '(', ')', '[', ']', '\x7b', '\x7d', '|', '/']

/-- A character in a pattern that matches it: behind a backslash if the syntax uses it. -/
def quoted (c : Char) : List Char := if c ∈ syntaxCharacters then ['\\', c] else [c]

/-- What a token of a format adds to the pattern; a letter on its own needs an entry. -/
def piece? : Token → Option (List Char)
  | .plain c => if Text.isLetter c then (tokens.lookup c).map String.toList else some (quoted c)
  | .escaped c => some (quoted c)

/-- The body of the pattern of the tokens of a format. -/
def bodyOf? : List Token → Option (List Char)
  | [] => some []
  | t :: ts => (piece? t).bind fun piece => (bodyOf? ts).map (piece ++ ·)

/-- The body of the pattern of a format, between the marks for its start and its end. -/
def HasBody (format body : String) : Prop := pattern? format = some ("/^" ++ body ++ "$/")

/-- What a stretch of a format adds to the pattern: a letter the pattern of its entry, and a literal
character itself, quoted. A character is literal behind a backslash or if it is no letter; a
backslash is so only at the end. -/
inductive Adds (behind : List Char) : List Char → List Char → Prop
  | escaped (c : Char) : Adds behind ['\\', c] (quoted c)
  | literal (c : Char) (hletter : Text.isLetter c = false) (hback : c = '\\' → behind = []) :
      Adds behind [c] (quoted c)
  | entry (c : Char) (text : String) (hletter : Text.isLetter c = true)
      (hentry : tokens.lookup c = some text) : Adds behind [c] text.toList

section Pieces

variable {c : Char} {before unit behind shown : List Char} {ts us : List Token}

theorem ne_backslash_of_isLetter (h : Text.isLetter c = true) : c ≠ '\\' := by
  rintro rfl
  exact absurd h (by decide)

theorem literalChar_eq (c : Char) : literalChar c = quoted c := by
  have hspecial : isSpecial c = true ↔ c ∈ syntaxCharacters := by
    rw [isSpecial, List.contains_iff_mem]
    exact List.Perm.mem_iff (by decide)
  simp only [literalChar, quoted, hspecial]

theorem body?_eq (cs : List Char) : body? cs = bodyOf? (Pattern.tokens cs) := by
  fun_induction Pattern.tokens cs with
  | case1 => rfl
  | case2 c =>
      rw [body?, literalChar_eq, bodyOf?, piece?]
      split
      · cases tokens.lookup c <;> simp [bodyOf?]
      · simp [bodyOf?]
  | case3 next rest ih =>
      rw [body?, literalChar_eq, ih]
      rfl
  | case4 c next rest hc ih =>
      rw [body?, literalChar_eq c, if_neg (by simpa using hc), ih, bodyOf?, piece?]
      split
      · cases tokens.lookup c <;> rfl
      · rfl

/-- The body of tokens is that of the first ones with that of the others behind it. -/
theorem bodyOf?_append (ts us : List Token) :
    bodyOf? (ts ++ us) = (bodyOf? ts).bind fun p => (bodyOf? us).map (p ++ ·) := by
  induction ts with
  | nil => simp [bodyOf?]
  | cons t ts ih =>
      rw [List.cons_append, bodyOf?, bodyOf?, ih]
      cases piece? t <;> cases bodyOf? ts <;> cases bodyOf? us <;> simp

theorem bodyOf?_eq_none_iff : bodyOf? ts = none ↔ ∃ t ∈ ts, piece? t = none := by
  induction ts with
  | nil => simp [bodyOf?]
  | cons t ts ih =>
      rw [bodyOf?, List.exists_mem_cons_iff, ← ih]
      cases piece? t <;> simp

theorem piece?_eq_none_iff {t : Token} :
    piece? t = none ↔ ∃ c, t = .plain c ∧ Text.isLetter c = true ∧ tokens.lookup c = none := by
  cases t with
  | escaped c => simp [piece?]
  | plain c => rw [piece?]; split <;> simp_all

/-- A format cut where no backslash is separated from the character behind it. -/
theorem body?_append (h : ¬ EndsEscaping before) (behind : List Char) :
    body? (before ++ behind) = (body? before).bind fun p => (body? behind).map (p ++ ·) := by
  rw [body?_eq, Pattern.tokens_append h, bodyOf?_append, ← body?_eq, ← body?_eq]

/-- A stretch of a format is one token. -/
theorem Adds.body?_append (h : Adds behind unit shown) :
    body? (unit ++ behind) = (body? behind).map (shown ++ ·) := by
  rw [body?_eq, body?_eq]
  cases h with
  | escaped c => rw [List.cons_append, List.singleton_append, Pattern.tokens_escaped]; rfl
  | literal c hletter hlast =>
      have htokens : Pattern.tokens (c :: behind) = .plain c :: Pattern.tokens behind := by
        by_cases hc : c = '\\'
        · rw [hlast hc]
          rfl
        · exact Pattern.tokens_plain hc behind
      rw [List.singleton_append, htokens, bodyOf?, piece?, hletter]
      rfl
  | entry c text hletter hentry =>
      rw [List.singleton_append, Pattern.tokens_plain (ne_backslash_of_isLetter hletter), bodyOf?,
        piece?, hletter, hentry]
      rfl

theorem body?_eq_none_iff {cs : List Char} : body? cs = none ↔
    ∃ before c behind, cs = before ++ c :: behind ∧ ¬ EndsEscaping before ∧
      Text.isLetter c = true ∧ tokens.lookup c = none := by
  simp only [body?_eq, bodyOf?_eq_none_iff, piece?_eq_none_iff]
  constructor
  · rintro ⟨-, hmem, c, rfl, hletter, hentry⟩
    obtain ⟨before, behind, heq, hbefore⟩ :=
      (Pattern.plain_mem_tokens_iff (ne_backslash_of_isLetter hletter)).mp hmem
    exact ⟨before, c, behind, heq, hbefore, hletter, hentry⟩
  · rintro ⟨before, c, behind, heq, hbefore, hletter, hentry⟩
    have hmem := (Pattern.plain_mem_tokens_iff (ne_backslash_of_isLetter hletter)).mpr
      ⟨before, behind, heq, hbefore⟩
    exact ⟨.plain c, hmem, c, rfl, hletter, hentry⟩

end Pieces

section Bodies

variable {format body : String}

theorem pattern?_eq_none_iff : pattern? format = none ↔ body? format.toList = none := by
  rw [pattern?, Option.map_eq_none_iff]

theorem eq_none_or_hasBody (format : String) :
    pattern? format = none ∨ ∃ body, HasBody format body := by
  unfold HasBody pattern?
  cases body? format.toList with
  | none => exact .inl rfl
  | some cs => exact .inr ⟨.ofList cs, rfl⟩

theorem hasBody_iff : HasBody format body ↔ body? format.toList = some body.toList := by
  rw [HasBody, pattern?, Option.map_eq_some_iff]
  constructor
  · rintro ⟨cs, hcs, heq⟩
    have hchars := congrArg String.toList heq
    simp only [String.toList_append, String.toList_ofList, List.append_cancel_right_eq,
      List.append_cancel_left_eq] at hchars
    rw [hcs, hchars]
  · intro h
    exact ⟨body.toList, h, by rw [String.ofList_toList]⟩

theorem pattern?_append_eq_none_iff {f : String} (hf : ¬ EndsEscaping f.toList) (g : String) :
    pattern? (f ++ g) = none ↔ pattern? f = none ∨ pattern? g = none := by
  rw [pattern?_eq_none_iff, pattern?_eq_none_iff, pattern?_eq_none_iff, String.toList_append,
    body?_append hf]
  cases body? f.toList <;> cases body? g.toList <;> simp

theorem hasBody_append_iff {f : String} (hf : ¬ EndsEscaping f.toList) (g : String) :
    HasBody (f ++ g) body ↔ ∃ p q, HasBody f p ∧ HasBody g q ∧ body = p ++ q := by
  simp only [hasBody_iff, String.toList_append, body?_append hf, Option.bind_eq_some_iff,
    Option.map_eq_some_iff, ← String.toList_inj]
  constructor
  · rintro ⟨p, hp, q, hq, hbody⟩
    exact ⟨.ofList p, .ofList q, by simpa using hp, by simpa using hq, by simp [hbody]⟩
  · rintro ⟨p, q, hp, hq, hbody⟩
    exact ⟨p.toList, hp, q.toList, hq, hbody.symm⟩

theorem Adds.hasBody_append_iff {unit behind shown : String}
    (h : Adds behind.toList unit.toList shown.toList) :
    HasBody (unit ++ behind) body ↔ ∃ q, HasBody behind q ∧ body = shown ++ q := by
  simp only [hasBody_iff, String.toList_append, h.body?_append, Option.map_eq_some_iff,
    ← String.toList_inj]
  constructor
  · rintro ⟨q, hq, hbody⟩
    exact ⟨.ofList q, by simpa using hq, by simp [hbody]⟩
  · rintro ⟨q, hq, hbody⟩
    exact ⟨q.toList, hq, hbody.symm⟩

end Bodies

/-- A format may be cut wherever no backslash is separated from the character that it escapes: there
is a pattern exactly if both parts have one, and its body is that of the first part with that of the
second behind it. There is no pattern exactly if some letter that no backslash escapes has no entry. A
letter adds the pattern of its entry, and a literal character adds itself, behind a backslash if the
syntax of patterns uses it. -/
theorem pattern_compositional :
    (∀ f g : String, ¬ EndsEscaping f.toList →
      (pattern? (f ++ g) = none ↔ pattern? f = none ∨ pattern? g = none) ∧
      ∀ body, HasBody (f ++ g) body ↔ ∃ p q, HasBody f p ∧ HasBody g q ∧ body = p ++ q) ∧
    (∀ f : String, (pattern? f = none ∨ ∃ body, HasBody f body) ∧
      (pattern? f = none ↔ ∃ before c behind, f.toList = before ++ c :: behind ∧
        ¬ EndsEscaping before ∧ Text.isLetter c = true ∧ tokens.lookup c = none)) ∧
    ∀ before unit behind shown : String, ¬ EndsEscaping before.toList →
      Adds behind.toList unit.toList shown.toList →
      ∀ body, HasBody (before ++ unit ++ behind) body ↔
        ∃ p q, HasBody before p ∧ HasBody behind q ∧ body = p ++ shown ++ q := by
  refine ⟨fun f g hf => ⟨pattern?_append_eq_none_iff hf g, fun body => hasBody_append_iff hf g⟩,
    fun f => ⟨eq_none_or_hasBody f, by rw [pattern?_eq_none_iff, body?_eq_none_iff]⟩,
    fun before unit behind shown hbefore hadds body => ?_⟩
  rw [String.append_assoc, hasBody_append_iff hbefore]
  constructor
  · rintro ⟨p, r, hp, hr, rfl⟩
    obtain ⟨q, hq, rfl⟩ := hadds.hasBody_append_iff.mp hr
    exact ⟨p, q, hp, hq, by rw [String.append_assoc]⟩
  · rintro ⟨p, q, hp, hq, rfl⟩
    exact ⟨p, shown ++ q, hp, hadds.hasBody_append_iff.mpr ⟨q, hq, rfl⟩, String.append_assoc⟩

/-- A day, a word behind backslashes and a month; the stop behind the day has a meaning in patterns
and the letters of the word have not. -/
theorem pattern_of_day_and_month :
    ¬ EndsEscaping "j. \\d\\e ".toList ∧ ¬ EndsEscaping "j".toList ∧
      Adds " \\d\\e ".toList ".".toList "\\.".toList ∧
      HasBody "j. \\d\\e F" "\\d\x7b1,2\x7d\\. de [A-Za-z]+" := by
  have hcut : ¬ EndsEscaping "j. \\d\\e ".toList := by decide
  have hday : ¬ EndsEscaping "j".toList := by decide
  have hstop : Adds " \\d\\e ".toList ".".toList "\\.".toList := .literal '.' (by decide) nofun
  have hrest : HasBody " \\d\\e " " de " := by unfold HasBody; decide
  have hmonth : HasBody "F" "[A-Za-z]+" := by unfold HasBody; decide
  have hnumber : HasBody "j" "\\d\x7b1,2\x7d" := by unfold HasBody; decide
  obtain ⟨hparts, -, hstretches⟩ := pattern_compositional
  have hleft : HasBody "j. \\d\\e " "\\d\x7b1,2\x7d\\. de " :=
    (hstretches "j" "." " \\d\\e " "\\." hday hstop _).mpr ⟨_, _, hnumber, hrest, rfl⟩
  exact ⟨hcut, hday, hstop, ((hparts _ "F" hcut).2 _).mpr ⟨_, _, hleft, hmonth, rfl⟩⟩

end RuleSchema.Script.DateFormat
