import Mathlib.Tactic.SplitIfs
import RuleSchema.Proofs.PatternTokens
import RuleSchema.Script.Literal
import RuleSchema.Text.Escape

/-!
# String literals read as scripts read them

A literal is read one character at a time, from its opening quote up to the quote that closes it, by
the rules of strict code: a line feed or a carriage return ends the reading without a literal, and
so does an octal escape. What is read is the code units of the literal's text and what stands behind
it.

A text escaped for single quotes is read back whatever it holds. A text with slashes is read back
between double quotes unless it holds a line break or a null character before a digit.

## Implementation notes

The place within a literal is what the reader knows of the characters before it. A digit decides
only afterwards whether the `\0` in front of it was a null character, so that is a place of its own.
Both ways of escaping write each character as one token, on its own or behind a backslash, and what
they write is read back token by token.
-/

namespace RuleSchema

namespace Text

/-- A single character is replaced wherever it stands. -/
theorem replaceChars_singleton (c : Char) (by' cs : List Char) :
    replaceChars [c] by' cs = cs.flatMap fun d => if d = c then by' else [d] := by
  unfold replaceChars
  induction cs with
  | nil => rfl
  | cons d rest ih =>
      rw [replaceFrom, List.flatMap_cons, ← ih]
      by_cases hd : d = c
      · rw [if_pos (by simp [hd]), if_pos hd]
        rfl
      · rw [if_neg (by simp [Ne.symm hd]), if_neg hd]
        rfl

/-- A text is empty where it was, if no character is lost. -/
theorem isEmpty_flatMap {f : Char → List Char} (h : ∀ c, f c ≠ []) (s : String) :
    isEmpty (String.ofList (s.toList.flatMap f)) = isEmpty s := by
  rw [isEmpty, isEmpty, String.toList_ofList]
  cases s.toList with
  | nil => rfl
  | cons c rest =>
      rw [List.flatMap_cons, List.isEmpty_cons]
      exact List.isEmpty_eq_false_iff.mpr (List.append_ne_nil_of_left_ne_nil (h c) _)

end Text

namespace Script

/-- The code units of a code point. -/
def codeUnits (n : Nat) : List Nat :=
  if n < 0x10000 then [n] else [0xD800 + (n - 0x10000) / 0x400, 0xDC00 + (n - 0x10000) % 0x400]

/-- The code units of a text. -/
def units (cs : List Char) : List Nat := cs.flatMap fun c => codeUnits c.toNat

namespace StringLiteral

/-- A place within a literal. -/
inductive Place where
  | plain
  /-- Behind a backslash. -/
  | escaped
  /-- Behind `\0`, which is a null character if no digit follows. -/
  | zero
  /-- Behind a backslash and a carriage return, which go on over a line feed. -/
  | carriage
  /-- Within an escape of hexadecimal digits, with the digits left and the value so far. -/
  | hex (left value : Nat)
  /-- Behind `\u`. -/
  | unicode
  /-- Within the braces of a code point, with the value of its digits. -/
  | braced (value : Option Nat)
deriving DecidableEq, Repr

/-- What a character of a literal gives: its code units, and the next place or the end. -/
abbrev Move := List Nat × Option Place

/-- The escapes of one letter. -/
def letters : List (Char × Nat) :=
  [('b', 8), ('t', 9), ('n', 10), ('v', 11), ('f', 12), ('r', 13)]

/-- A character that stands on its own. -/
def plainMove? (quote c : Char) : Option Move :=
  if c = quote then some ([], none)
  else if c = '\\' then some ([], some .escaped)
  else if c = '\n' ∨ c = '\r' then none
  else some (codeUnits c.toNat, some .plain)

/-- A character behind a backslash. A line terminator there is left out of the text. -/
def escapedMove? (c : Char) : Option Move :=
  if c = '0' then some ([], some .zero)
  else if c.isDigit then none
  else if c = 'x' then some ([], some (.hex 2 0))
  else if c = 'u' then some ([], some .unicode)
  else if c = '\r' then some ([], some .carriage)
  else if c = '\n' ∨ c = '\u2028' ∨ c = '\u2029' then some ([], some .plain)
  else some (((letters.lookup c).map ([·])).getD (codeUnits c.toNat), some .plain)

/-- A character at a place. -/
def move? (quote : Char) : Place → Char → Option Move
  | .plain, c => plainMove? quote c
  | .escaped, c => escapedMove? c
  | .zero, c =>
    if c.isDigit then none else (plainMove? quote c).map fun (us, next) => (0 :: us, next)
  | .carriage, c => if c = '\n' then some ([], some .plain) else plainMove? quote c
  | .hex left value, c => (Text.hexValue? c).map fun digit =>
    if left ≤ 1 then ([16 * value + digit], some .plain)
    else ([], some (.hex (left - 1) (16 * value + digit)))
  | .unicode, c =>
    if c = '\x7b' then some ([], some (.braced none))
    else (Text.hexValue? c).map fun digit => ([], some (.hex 3 digit))
  | .braced value, c =>
    if c = '\x7d' then
      value.bind fun n => if n ≤ 0x10FFFF then some (codeUnits n, some .plain) else none
    else (Text.hexValue? c).map fun digit => ([], some (.braced (some (16 * value.getD 0 + digit))))

/-- The code units of a literal from a place within it, and what stands behind the literal. -/
def run? (quote : Char) : Place → List Char → Option (List Nat × List Char)
  | _, [] => none
  | place, c :: rest =>
    (move? quote place c).bind fun (us, next) =>
      match next with
      | none => some (us, rest)
      | some next => (run? quote next rest).map (Prod.map (us ++ ·) id)

/-- The code units of the literal that a text starts with, and what stands behind it. -/
def read? : List Char → Option (List Nat × List Char)
  | [] => none
  | quote :: rest => if quote = '\'' ∨ quote = '"' then run? quote .plain rest else none

section Steps

variable {quote c : Char} {us : List Nat} {place next : Place} {rest : List Char}

/-- A character that does not end the literal gives its code units and goes on. -/
theorem run?_cons (h : move? quote place c = some (us, some next)) :
    run? quote place (c :: rest) = (run? quote next rest).map (Prod.map (us ++ ·) id) := by
  rw [run?, h]
  rfl

theorem map_append_append (us vs : List Nat) (read : Option (List Nat × List Char)) :
    (read.map (Prod.map (vs ++ ·) id)).map (Prod.map (us ++ ·) id) =
      read.map (Prod.map (us ++ vs ++ ·) id) := by
  rw [Option.map_map]
  refine congrArg (Option.map · read) (funext fun (more, behind) => ?_)
  rw [Function.comp_apply, Prod.map_apply, Prod.map_apply, Prod.map_apply, List.append_assoc]
  rfl

theorem map_nil_append (read : Option (List Nat × List Char)) :
    read.map (Prod.map ([] ++ ·) id) = read := by
  cases read <;> rfl

theorem plainMove?_backslash (hquote : quote ≠ '\\') :
    plainMove? quote '\\' = some ([], some .escaped) := by
  rw [plainMove?, if_neg (Ne.symm hquote), if_pos rfl]

theorem plainMove?_of_ne (hquote : c ≠ quote) (hback : c ≠ '\\') (hfeed : c ≠ '\n')
    (hreturn : c ≠ '\r') : plainMove? quote c = some (codeUnits c.toNat, some .plain) := by
  rw [plainMove?, if_neg hquote, if_neg hback, if_neg (by simp [hfeed, hreturn])]

/-- A backslash is read with the character behind it. -/
theorem run?_escaped (hquote : quote ≠ '\\') (h : escapedMove? c = some (us, some next)) :
    run? quote .plain ('\\' :: c :: rest) =
      (run? quote next rest).map (Prod.map (us ++ ·) id) := by
  have hback : move? quote .plain '\\' = some ([], some .escaped) := plainMove?_backslash hquote
  have hescaped : move? quote .escaped c = some (us, some next) := h
  rw [run?_cons hback, run?_cons hescaped, map_nil_append]

theorem run?_quote (quote : Char) (rest : List Char) :
    run? quote .plain (quote :: rest) = some ([], rest) := by
  rw [run?, move?, plainMove?, if_pos rfl]
  rfl

end Steps

end StringLiteral

open StringLiteral Pattern

section Replacements

/-- A character after one replacement. -/
def replacing (r : Char × String) (c : Char) : List Char := if c = r.1 then r.2.toList else [c]

/-- A text after several replacements of single characters, one after the other. -/
def replaceAll (rs : List (Char × String)) (s : String) : String :=
  rs.foldl (fun s r => Text.replace s (String.singleton r.1) r.2) s

theorem toList_replaceAll (rs : List (Char × String)) (s : String) :
    (replaceAll rs s).toList = rs.foldl (fun cs r => cs.flatMap (replacing r)) s.toList := by
  unfold replaceAll
  induction rs generalizing s with
  | nil => rfl
  | cons r rs ih =>
      rw [List.foldl_cons, List.foldl_cons, ih, Text.replace, String.toList_ofList,
        String.toList_singleton, Text.replaceChars_singleton]
      rfl

/-- Replacing in a whole text is replacing in each of its characters. -/
theorem foldl_flatMap_replacing (rs : List (Char × String)) (cs : List Char) :
    rs.foldl (fun cs r => cs.flatMap (replacing r)) cs =
      cs.flatMap fun c => rs.foldl (fun cs r => cs.flatMap (replacing r)) [c] := by
  induction rs generalizing cs with
  | nil => exact (List.flatMap_singleton' cs).symm
  | cons r rs ih =>
      rw [List.foldl_cons, ih, List.flatMap_assoc]
      refine congrArg (List.flatMap · cs) (funext fun c => ?_)
      rw [List.foldl_cons, List.flatMap_singleton, ← ih]

/-- Replacements that bring each character to its escaped form bring a text to its own. -/
theorem replaceAll_eq {rs : List (Char × String)} {escaped : Char → List Char}
    (h : ∀ c, rs.foldl (fun cs r => cs.flatMap (replacing r)) [c] = escaped c) (s : String) :
    replaceAll rs s = String.ofList (s.toList.flatMap escaped) := by
  rw [← String.toList_inj, toList_replaceAll, foldl_flatMap_replacing, String.toList_ofList,
    funext h]

/-- The replacements of a text for single quotes. The backslash comes first, so that none of the
backslashes that are put in is taken for one of the text. -/
def escapeReplacements : List (Char × String) :=
  [('\\', "\\\\"), ('\'', "\\'"), ('"', "\\\""), ('\n', "\\n"), ('\r', "\\r"), ('\t', "\\t")]

/-- The replacements of a text with slashes. -/
def slashReplacements : List (Char × String) :=
  [('\\', "\\\\"), ('\'', "\\'"), ('"', "\\\""), ('\x00', "\\0")]

theorem replaceAll_escape (s : String) : replaceAll escapeReplacements s = escape s := by
  refine replaceAll_eq (fun c => ?_) s
  unfold escapeChar
  split_ifs with hback hsingle hdouble hfeed hreturn htab
  · rw [hback]
    rfl
  · rw [hsingle]
    rfl
  · rw [hdouble]
    rfl
  · rw [hfeed]
    rfl
  · rw [hreturn]
    rfl
  · rw [htab]
    rfl
  · simp [escapeReplacements, replacing, hback, hsingle, hdouble, hfeed, hreturn, htab]

theorem eq_null_of_toNat {c : Char} (h : c.toNat = 0) : c = '\x00' := by
  rw [← Char.ofNat_toNat c, h]

theorem replaceAll_addSlashes (s : String) : replaceAll slashReplacements s = addSlashes s := by
  refine replaceAll_eq (fun c => ?_) s
  unfold addSlash
  split_ifs with hquoted hnull
  · rcases hquoted with rfl | rfl | rfl <;> rfl
  · rw [eq_null_of_toNat hnull]
    rfl
  · obtain ⟨hback, hsingle, hdouble⟩ := by simpa only [not_or] using hquoted
    have hne : c ≠ '\x00' := fun heq => hnull (heq ▸ rfl)
    simp [slashReplacements, replacing, hback, hsingle, hdouble, hne]

end Replacements

/-- Tokens without a lone backslash are read back from their text. -/
theorem isRead_of_not_mem {ts : List Token} (h : .plain '\\' ∉ ts) : IsRead ts := by
  induction ts with
  | nil => trivial
  | cons t ts ih =>
      rw [List.mem_cons, not_or] at h
      exact ⟨fun heq => absurd heq.symm h.1, ih h.2⟩

/-- What writes each character as one token, and none as a lone backslash, is read back so. -/
theorem tokens_written {write : Char → List Char} {token : Char → Token}
    (hspell : ∀ c, (token c).spell = write c) (hback : ∀ c, token c ≠ .plain '\\')
    (cs : List Char) : tokens (cs.flatMap write) = cs.map token := by
  have hspelled : cs.flatMap write = spelling (cs.map token) := by
    rw [spelling, List.flatMap_map]
    exact congrArg (List.flatMap · cs) (funext fun c => (hspell c).symm)
  rw [hspelled, tokens_spelling (isRead_of_not_mem ?_)]
  rw [List.mem_map, not_exists]
  rintro c ⟨-, hc⟩
  exact hback c hc

section SingleQuoted

variable {c : Char} {cs rest : List Char}

/-- A character of a single-quoted literal as a token. -/
def escapeToken (c : Char) : Token :=
  if c = '\\' ∨ c = '\'' ∨ c = '"' then .escaped c
  else if c = '\n' then .escaped 'n'
  else if c = '\r' then .escaped 'r'
  else if c = '\t' then .escaped 't'
  else .plain c

theorem spell_escapeToken (c : Char) : (escapeToken c).spell = escapeChar c := by
  unfold escapeToken escapeChar
  split_ifs <;> simp_all [Token.spell]

/-- No quote and no backslash is a token of its own. -/
theorem escapeToken_ne_plain {d : Char} (hd : d = '\\' ∨ d = '\'' ∨ d = '"') :
    escapeToken c ≠ .plain d := by
  unfold escapeToken
  split_ifs with hsame
  · exact nofun
  · exact nofun
  · exact nofun
  · exact nofun
  · intro heq
    exact hsame (Token.plain.inj heq ▸ hd)

/-- An escaped character is read back. -/
theorem run?_escapeChar (c : Char) (rest : List Char) :
    run? '\'' .plain (escapeChar c ++ rest) =
      (run? '\'' .plain rest).map (Prod.map (codeUnits c.toNat ++ ·) id) := by
  unfold escapeChar
  split_ifs with hback hsingle hdouble hfeed hreturn htab
  · rw [hback]
    exact run?_escaped (by decide) (by decide)
  · rw [hsingle]
    exact run?_escaped (by decide) (by decide)
  · rw [hdouble]
    exact run?_escaped (by decide) (by decide)
  · rw [hfeed]
    exact run?_escaped (by decide) (by decide)
  · rw [hreturn]
    exact run?_escaped (by decide) (by decide)
  · rw [htab]
    exact run?_escaped (by decide) (by decide)
  · exact run?_cons (plainMove?_of_ne hsingle hback hfeed hreturn)

theorem run?_escape (cs rest : List Char) :
    run? '\'' .plain (cs.flatMap escapeChar ++ rest) =
      (run? '\'' .plain rest).map (Prod.map (units cs ++ ·) id) := by
  induction cs with
  | nil => exact (map_nil_append _).symm
  | cons c cs ih =>
      rw [List.flatMap_cons, List.append_assoc, run?_escapeChar, ih, map_append_append]
      rfl

/-- A single-quoted literal is read up to its closing quote and denotes its text. -/
theorem read?_literal (t : String) (rest : List Char) :
    read? ((literal t).toList ++ rest) = some (units t.toList, rest) := by
  have hchars : (literal t).toList ++ rest =
      '\'' :: (t.toList.flatMap escapeChar ++ '\'' :: rest) := by
    simp [literal, escape]
  rw [hchars, read?, if_pos (.inl rfl), run?_escape, run?_quote]
  simp

/-- A message as an argument is a literal behind a comma. -/
theorem messageArgument_some (t : String) : messageArgument (some t) = ", " ++ literal t := by
  have hopen : ", '" = ", " ++ "'" := by decide
  rw [messageArgument, hopen, literal]
  simp only [-String.reduceAppend, String.append_assoc]

/-- What is escaped is read as one token for each character. -/
theorem tokens_escape (t : String) : tokens (escape t).toList = t.toList.map escapeToken := by
  rw [escape, String.toList_ofList]
  exact tokens_written spell_escapeToken (fun _ => escapeToken_ne_plain (.inl rfl)) t.toList

theorem escapeChar_no_break (d : Char) : ∀ c ∈ escapeChar d, c ≠ '\n' ∧ c ≠ '\r' := by
  unfold escapeChar
  split_ifs with hback hsingle hdouble hfeed hreturn htab
  iterate 6 exact List.forall_mem_cons.mpr ⟨by decide, List.forall_mem_singleton.mpr (by decide)⟩
  exact List.forall_mem_singleton.mpr ⟨hfeed, hreturn⟩

/-- No line break is left in a text that is escaped. -/
theorem escape_no_break (t : String) : ∀ c ∈ (escape t).toList, c ≠ '\n' ∧ c ≠ '\r' := by
  intro c hc
  rw [escape, String.toList_ofList, List.mem_flatMap] at hc
  obtain ⟨d, -, hd⟩ := hc
  exact escapeChar_no_break d c hd

/-- The character that an escape stands for. -/
def decoded? (c : Char) : Option Char :=
  if c = '\\' ∨ c = '\'' ∨ c = '"' then some c
  else if c = 'n' then some '\n'
  else if c = 'r' then some '\r'
  else if c = 't' then some '\t'
  else none

/-- A token without its backslash, if it is one of the escapes. -/
def decodeToken : Token → List Char
  | .plain c => [c]
  | .escaped c => match decoded? c with
    | some d => [d]
    | none => ['\\', c]

/-- A text with its escapes decoded in one pass from the left. -/
def unescape (s : String) : String := String.ofList ((tokens s.toList).flatMap decodeToken)

theorem decodeToken_escapeToken (c : Char) : decodeToken (escapeToken c) = [c] := by
  unfold escapeToken
  split_ifs with hsame hfeed hreturn htab
  · rw [decodeToken, decoded?, if_pos hsame]
  · rw [hfeed]
    rfl
  · rw [hreturn]
    rfl
  · rw [htab]
    rfl
  · rfl

/-- Decoding gives back what was escaped. -/
theorem unescape_escape (t : String) : unescape (escape t) = t := by
  rw [unescape, tokens_escape, List.flatMap_map]
  simp only [decodeToken_escapeToken, List.flatMap_singleton', String.ofList_toList]

end SingleQuoted

section DoubleQuoted

variable {quote c : Char} {cs rest : List Char}

/-- A character with a slash, if it needs one, as a token. -/
def slashToken (c : Char) : Token :=
  if c = '\\' ∨ c = '\'' ∨ c = '"' then .escaped c
  else if c.toNat = 0 then .escaped '0'
  else .plain c

theorem spell_slashToken (c : Char) : (slashToken c).spell = addSlash c := by
  unfold slashToken addSlash
  split_ifs <;> rfl

/-- No quote and no backslash is a token of its own. -/
theorem slashToken_ne_plain {d : Char} (hd : d = '\\' ∨ d = '\'' ∨ d = '"') :
    slashToken c ≠ .plain d := by
  unfold slashToken
  split_ifs with hsame
  · exact nofun
  · exact nofun
  · intro heq
    exact hsame (Token.plain.inj heq ▸ hd)

/-- What has slashes is read as one token for each character. -/
theorem tokens_addSlashes (s : String) :
    tokens (addSlashes s).toList = s.toList.map slashToken := by
  rw [addSlashes, String.toList_ofList]
  exact tokens_written spell_slashToken (fun _ => slashToken_ne_plain (.inl rfl)) s.toList

/-- Whether a text starts with a digit. -/
def startsWithDigit (cs : List Char) : Bool := cs.head?.any Char.isDigit

/-- A text that keeps its meaning with slashes: it has no line break, and no null character before a
digit. -/
def isSlashable : List Char → Bool
  | [] => true
  | c :: rest =>
    c != '\n' && c != '\r' && !(c.toNat == 0 && startsWithDigit rest) && isSlashable rest

/-- A digit behind `\0` makes it an octal escape, which ends the reading. -/
theorem run?_zero (quote c : Char) (rest : List Char) :
    run? quote .zero (c :: rest) =
      if c.isDigit then none
      else (run? quote .plain (c :: rest)).map (Prod.map ([0] ++ ·) id) := by
  rw [run?, run?, move?, move?]
  split_ifs
  · rfl
  · match plainMove? quote c with
    | none => rfl
    | some (us, none) => rfl
    | some (us, some next) => exact (map_append_append [0] us _).symm

/-- Slashes leave digits where they are. -/
theorem startsWithDigit_addSlash (cs : List Char) (rest : List Char) :
    startsWithDigit (cs.flatMap addSlash ++ '"' :: rest) = startsWithDigit cs := by
  cases cs with
  | nil => rfl
  | cons c cs =>
      rw [List.flatMap_cons, addSlash]
      split_ifs with hquoted hnull
      · rcases hquoted with rfl | rfl | rfl <;> rfl
      · rw [eq_null_of_toNat hnull]
        rfl
      · rfl

/-- The text behind `\0` is read unless it starts with a digit. -/
theorem run?_zero_addSlash (cs rest : List Char) :
    run? '"' .zero (cs.flatMap addSlash ++ '"' :: rest) =
      if startsWithDigit cs then none
      else (run? '"' .plain (cs.flatMap addSlash ++ '"' :: rest)).map (Prod.map ([0] ++ ·) id) := by
  rw [← startsWithDigit_addSlash cs rest]
  cases hbody : cs.flatMap addSlash ++ '"' :: rest with
  | nil => simp at hbody
  | cons d more => exact run?_zero '"' d more

theorem map_ite_append (us vs : List Nat) (safe : Bool) (rest : List Char) :
    (if safe then some (vs, rest) else none).map (Prod.map (us ++ ·) id) =
      if safe then some (us ++ vs, rest) else none := by
  cases safe <;> rfl

theorem isSlashable_cons_quoted (h : c = '\\' ∨ c = '\'' ∨ c = '"') :
    isSlashable (c :: cs) = isSlashable cs := by
  rcases h with rfl | rfl | rfl <;> rfl

theorem isSlashable_cons_null :
    isSlashable ('\x00' :: cs) = (!startsWithDigit cs && isSlashable cs) := rfl

theorem isSlashable_cons_other (h : c.toNat ≠ 0) :
    isSlashable (c :: cs) = (c != '\n' && c != '\r' && isSlashable cs) := by
  rw [isSlashable, beq_eq_false_iff_ne.mpr h, Bool.false_and, Bool.not_false, Bool.and_true]

/-- A text with slashes is read up to the quote behind it exactly where it keeps its meaning. -/
theorem run?_addSlashes (cs rest : List Char) :
    run? '"' .plain (cs.flatMap addSlash ++ '"' :: rest) =
      if isSlashable cs then some (units cs, rest) else none := by
  induction cs with
  | nil => exact run?_quote '"' rest
  | cons c cs ih =>
      have hunits : units (c :: cs) = codeUnits c.toNat ++ units cs := rfl
      rw [List.flatMap_cons, List.append_assoc, hunits, ← map_ite_append]
      by_cases hquoted : c = '\\' ∨ c = '\'' ∨ c = '"'
      · have hescaped : escapedMove? c = some (codeUnits c.toNat, some .plain) := by
          rcases hquoted with rfl | rfl | rfl <;> decide
        rw [addSlash, if_pos hquoted, isSlashable_cons_quoted hquoted, ← ih]
        exact run?_escaped (by decide) hescaped
      · by_cases hnull : c.toNat = 0
        · have hzero : escapedMove? '0' = some ([], some .zero) := by decide
          rw [addSlash, if_neg hquoted, if_pos hnull, eq_null_of_toNat hnull, isSlashable_cons_null]
          rw [List.cons_append, List.singleton_append, run?_escaped (by decide) hzero,
            map_nil_append, run?_zero_addSlash, ih]
          cases startsWithDigit cs <;> rfl
        · rw [addSlash, if_neg hquoted, if_neg hnull, isSlashable_cons_other hnull]
          obtain ⟨hback, -, hdouble⟩ := by simpa only [not_or] using hquoted
          by_cases hbreak : c = '\n' ∨ c = '\r'
          · rcases hbreak with rfl | rfl <;> rfl
          · obtain ⟨hfeed, hreturn⟩ := not_or.mp hbreak
            rw [bne_iff_ne.mpr hfeed, bne_iff_ne.mpr hreturn, Bool.true_and, Bool.true_and, ← ih]
            exact run?_cons (plainMove?_of_ne hdouble hback hfeed hreturn)

/-- Between double quotes a text with slashes is a literal that denotes the text, exactly where the
text keeps its meaning; otherwise there is no literal. -/
theorem read?_addSlashes (t : String) (rest : List Char) :
    read? ('"' :: ((addSlashes t).toList ++ '"' :: rest)) =
      if isSlashable t.toList then some (units t.toList, rest) else none := by
  rw [read?, if_pos (.inr rfl), addSlashes, String.toList_ofList, run?_addSlashes]

theorem startsWithDigit_iff : startsWithDigit cs = true ↔ ∃ d, d.isDigit = true ∧ [d] <+: cs := by
  cases cs with
  | nil => simp [startsWithDigit]
  | cons d rest => simp [startsWithDigit, List.cons_prefix_cons]

theorem isSlashable_iff : isSlashable cs = true ↔
    (∀ c ∈ cs, c ≠ '\n' ∧ c ≠ '\r') ∧ ∀ d, d.isDigit = true → ¬ ['\x00', d] <:+: cs := by
  induction cs with
  | nil => simp [isSlashable]
  | cons c cs ih =>
      have hzero : (c.toNat == 0 && startsWithDigit cs) = true ↔
          ∃ d, d.isDigit = true ∧ ['\x00', d] <+: c :: cs := by
        rw [Bool.and_eq_true, beq_iff_eq, startsWithDigit_iff]
        simp only [List.cons_prefix_cons]
        constructor
        · rintro ⟨hnull, d, hd, hprefix⟩
          exact ⟨d, hd, (eq_null_of_toNat hnull).symm, hprefix⟩
        · rintro ⟨d, hd, rfl, hprefix⟩
          exact ⟨rfl, d, hd, hprefix⟩
      rw [isSlashable]
      simp only [Bool.and_eq_true, bne_iff_ne, Bool.not_eq_true', ih, List.forall_mem_cons,
        List.infix_cons_iff, not_or]
      rw [← Bool.not_eq_true, hzero]
      constructor
      · rintro ⟨⟨⟨hfeed, hreturn⟩, hfirst⟩, hbreaks, hzeros⟩
        exact ⟨⟨⟨hfeed, hreturn⟩, hbreaks⟩, fun d hd => ⟨fun h => hfirst ⟨d, hd, h⟩, hzeros d hd⟩⟩
      · rintro ⟨⟨⟨hfeed, hreturn⟩, hbreaks⟩, hzeros⟩
        exact ⟨⟨⟨hfeed, hreturn⟩, fun ⟨d, hd, h⟩ => (hzeros d hd).1 h⟩, hbreaks,
          fun d hd => (hzeros d hd).2⟩

end DoubleQuoted

end Script

end RuleSchema
