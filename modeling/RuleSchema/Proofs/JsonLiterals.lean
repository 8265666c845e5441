import RuleSchema.Proofs.StringLiterals
import RuleSchema.Text.Cut
import RuleSchema.Text.Escape

/-!
# JSON literals read back

A JSON string is read one character at a time into UTF-16 units, and the units are joined to
characters. A list of strings is read from its opening bracket to its closing one, with spaces
between its parts. Whatever stands behind a literal, it is read back as the text or the texts that
it was written from.
-/

namespace RuleSchema.Text

theorem hexValue?_hexDigit : ∀ d < 16, hexValue? (hexDigit d) = some d := by decide

namespace Json

open Script (codeUnits units)
open Script.StringLiteral (map_append_append map_nil_append)

section Characters

/-- Whether a unit is the first one of a pair. -/
def isHigh (unit : Nat) : Bool := 0xD800 ≤ unit && unit < 0xDC00

/-- Whether a unit is the second one of a pair. -/
def isLow (unit : Nat) : Bool := 0xDC00 ≤ unit && unit < 0xE000

/-- The character of a code point, unless it is half of a pair or too large. -/
def character? (n : Nat) : Option Char := if n.isValidChar then some (Char.ofNat n) else none

/-- The characters of UTF-16 units; half a pair is none. -/
def characters? : List Nat → Option (List Char)
  | [] => some []
  | [unit] => (character? unit).map ([·])
  | high :: low :: rest =>
    if isHigh high && isLow low then
      (character? (0x10000 + 0x400 * (high - 0xD800) + (low - 0xDC00))).bind fun c =>
        (characters? rest).map (c :: ·)
    else (character? high).bind fun c => (characters? (low :: rest)).map (c :: ·)

theorem character?_toNat (c : Char) : character? c.toNat = some c := by
  have hvalid : c.toNat.isValidChar := c.valid
  rw [character?, if_pos hvalid, Char.ofNat_toNat]

/-- A unit that is not the first one of a pair is a character of its own. -/
theorem characters?_cons {unit : Nat} (h : isHigh unit = false) (rest : List Nat) :
    characters? (unit :: rest) =
      (character? unit).bind fun c => (characters? rest).map (c :: ·) := by
  cases rest with
  | nil => rw [characters?, characters?, Option.map_eq_bind]; rfl
  | cons low rest => rw [characters?, h, Bool.false_and, if_neg Bool.false_ne_true]

/-- A character is read from its units. -/
theorem characters?_codeUnits (c : Char) (rest : List Nat) :
    characters? (codeUnits c.toNat ++ rest) = (characters? rest).map (c :: ·) := by
  have hvalid : c.toNat < 0xD800 ∨ 0xDFFF < c.toNat ∧ c.toNat < 0x110000 := c.valid
  unfold codeUnits
  split_ifs with hsmall
  · have hlone : isHigh c.toNat = false := by
      simp only [isHigh, Bool.and_eq_false_iff, decide_eq_false_iff_not]
      omega
    rw [List.singleton_append, characters?_cons hlone, character?_toNat]
    rfl
  · have hpair : (isHigh (0xD800 + (c.toNat - 0x10000) / 0x400) &&
        isLow (0xDC00 + (c.toNat - 0x10000) % 0x400)) = true := by
      simp only [isHigh, isLow, Bool.and_eq_true, decide_eq_true_eq]
      omega
    have hjoined : 0x10000 + 0x400 * (0xD800 + (c.toNat - 0x10000) / 0x400 - 0xD800) +
        (0xDC00 + (c.toNat - 0x10000) % 0x400 - 0xDC00) = c.toNat := by omega
    rw [List.cons_append, List.singleton_append, characters?, if_pos hpair, hjoined,
      character?_toNat]
    rfl

/-- A text is read from its units. -/
theorem characters?_units (cs : List Char) : characters? (units cs) = some cs := by
  induction cs with
  | nil => rfl
  | cons c cs ih =>
      change characters? (codeUnits c.toNat ++ units cs) = some (c :: cs)
      rw [characters?_codeUnits, ih]
      rfl

end Characters

section Strings

/-- A place within a string. -/
inductive Place where
  | plain
  /-- Behind a backslash. -/
  | escaped
  /-- Within an escape of hexadecimal digits, with the digits left and the value so far. -/
  | hex (left value : Nat)
deriving DecidableEq, Repr

/-- The escapes of one character, with their units. -/
def escapes : List (Char × Nat) :=
  [('"', 34), ('\\', 92), ('/', 47), ('b', 8), ('f', 12), ('n', 10), ('r', 13), ('t', 9)]

/-- A character at a place within a string: the units that it gives, and the next place or the end.
No control character stands for itself. -/
def move? : Place → Char → Option (List Nat × Option Place)
  | .plain, c =>
    if c = '"' then some ([], none)
    else if c = '\\' then some ([], some .escaped)
    else if c.toNat < 32 then none
    else some (codeUnits c.toNat, some .plain)
  | .escaped, c =>
    if c = 'u' then some ([], some (.hex 4 0))
    else (escapes.lookup c).map fun unit => ([unit], some .plain)
  | .hex left value, c => (hexValue? c).map fun digit =>
    if left ≤ 1 then ([16 * value + digit], some .plain)
    else ([], some (.hex (left - 1) (16 * value + digit)))

/-- The units of a string from a place within it, and what stands behind the string. -/
def readUnits? : Place → List Char → Option (List Nat × List Char)
  | _, [] => none
  | place, c :: rest =>
    (move? place c).bind fun (us, next) =>
      match next with
      | none => some (us, rest)
      | some next => (readUnits? next rest).map (Prod.map (us ++ ·) id)

/-- The string that a text starts with, and what stands behind it. -/
def readText? : List Char → Option (String × List Char)
  | '"' :: rest => (readUnits? .plain rest).bind fun (us, behind) =>
    (characters? us).map fun cs => (String.ofList cs, behind)
  | _ => none

variable {c : Char} {us : List Nat} {place next : Place} {rest : List Char}

theorem readUnits?_cons (h : move? place c = some (us, some next)) :
    readUnits? place (c :: rest) = (readUnits? next rest).map (Prod.map (us ++ ·) id) := by
  rw [readUnits?, h]
  rfl

theorem readUnits?_silent (h : move? place c = some ([], some next)) :
    readUnits? place (c :: rest) = readUnits? next rest := by
  rw [readUnits?_cons h, map_nil_append]

/-- A backslash is read with the character behind it. -/
theorem readUnits?_escaped (h : move? .escaped c = some (us, some next)) :
    readUnits? .plain ('\\' :: c :: rest) = (readUnits? next rest).map (Prod.map (us ++ ·) id) := by
  have hback : move? .plain '\\' = some ([], some .escaped) := rfl
  rw [readUnits?_silent hback, readUnits?_cons h]

/-- A digit goes on with the escape unless it is the last one. -/
theorem readUnits?_hexDigit {d : Nat} (hd : d < 16) (left value : Nat) :
    readUnits? (.hex (left + 2) value) (hexDigit d :: rest) =
      readUnits? (.hex (left + 1) (16 * value + d)) rest := by
  apply readUnits?_silent
  rw [move?, hexValue?_hexDigit d hd]
  rfl

theorem readUnits?_lastDigit {d : Nat} (hd : d < 16) (value : Nat) :
    readUnits? (.hex 1 value) (hexDigit d :: rest) =
      (readUnits? .plain rest).map (Prod.map ([16 * value + d] ++ ·) id) := by
  apply readUnits?_cons
  rw [move?, hexValue?_hexDigit d hd]
  rfl

/-- The escape of a unit is read as the unit. -/
theorem readUnits?_unitEscape {unit : Nat} (h : unit < 0x10000) (rest : List Char) :
    readUnits? .plain (unitEscape unit ++ rest) =
      (readUnits? .plain rest).map (Prod.map ([unit] ++ ·) id) := by
  have hdigits : unitEscape unit ++ rest = '\\' :: 'u' :: hexDigit (unit / 16 / 16 / 16 % 16) ::
      hexDigit (unit / 16 / 16 % 16) :: hexDigit (unit / 16 % 16) :: hexDigit (unit % 16) ::
      rest := rfl
  have hopen : move? .escaped 'u' = some ([], some (.hex 4 0)) := rfl
  have hbelow (n : Nat) : n % 16 < 16 := Nat.mod_lt n (by decide)
  have hvalue : 16 * (16 * (16 * (16 * 0 + unit / 16 / 16 / 16 % 16) + unit / 16 / 16 % 16) +
      unit / 16 % 16) + unit % 16 = unit := by omega
  rw [hdigits, readUnits?_escaped hopen, map_nil_append, readUnits?_hexDigit (hbelow _),
    readUnits?_hexDigit (hbelow _), readUnits?_hexDigit (hbelow _), readUnits?_lastDigit (hbelow _),
    hvalue]

/-- An encoded character is read as its units. -/
theorem readUnits?_encodeChar (c : Char) (rest : List Char) :
    readUnits? .plain (encodeChar c ++ rest) =
      (readUnits? .plain rest).map (Prod.map (codeUnits c.toNat ++ ·) id) := by
  have hrange : c.toNat < 0x110000 := by
    have hvalid : c.toNat < 0xD800 ∨ 0xDFFF < c.toNat ∧ c.toNat < 0x110000 := c.valid
    omega
  unfold encodeChar
  dsimp only
  split_ifs with hquote hback hfeed hreturn htab hbackspace hform hplain hsmall
  · rw [hquote]
    exact readUnits?_escaped rfl
  · rw [hback]
    exact readUnits?_escaped rfl
  · rw [hfeed]
    exact readUnits?_escaped rfl
  · rw [hreturn]
    exact readUnits?_escaped rfl
  · rw [htab]
    exact readUnits?_escaped rfl
  · rw [hbackspace]
    exact readUnits?_escaped rfl
  · rw [hform]
    exact readUnits?_escaped rfl
  · apply readUnits?_cons
    rw [move?, if_neg hquote, if_neg hback, if_neg (Nat.not_lt.mpr hplain.1)]
  · rw [codeUnits, if_pos hsmall, readUnits?_unitEscape hsmall]
  · have hhigh : 0xD800 + (c.toNat - 0x10000) / 0x400 < 0x10000 := by omega
    have hlow : 0xDC00 + (c.toNat - 0x10000) % 0x400 < 0x10000 := by omega
    rw [codeUnits, if_neg hsmall, List.append_assoc, readUnits?_unitEscape hhigh,
      readUnits?_unitEscape hlow, map_append_append]
    rfl

/-- An encoded text is read as its units, up to the quote behind it. -/
theorem readUnits?_encode (cs rest : List Char) :
    readUnits? .plain (cs.flatMap encodeChar ++ '"' :: rest) = some (units cs, rest) := by
  induction cs with
  | nil => rfl
  | cons c cs ih =>
      rw [List.flatMap_cons, List.append_assoc, readUnits?_encodeChar, ih]
      rfl

/-- An encoded text stands between double quotes. -/
theorem toList_encode_append (s : String) (rest : List Char) :
    (encode s).toList ++ rest = '"' :: (s.toList.flatMap encodeChar ++ '"' :: rest) := by
  simp [encode]

/-- An encoded text is read back. -/
theorem readText?_encode (s : String) (rest : List Char) :
    readText? ((encode s).toList ++ rest) = some (s, rest) := by
  rw [toList_encode_append, readText?, readUnits?_encode, Option.bind_some]
  dsimp only
  rw [characters?_units, Option.map_some, String.ofList_toList]

/-- Half a pair of units is no text. -/
example : readText? "\"\\ud83d\"".toList = none := by decide

/-- What stands behind a string is shorter than the string with it. -/
theorem length_lt_of_readUnits? {place : Place} {cs : List Char} {us : List Nat}
    (h : readUnits? place cs = some (us, rest)) : rest.length < cs.length := by
  induction cs generalizing place us with
  | nil => cases h
  | cons c cs ih =>
      rw [readUnits?, Option.bind_eq_some_iff] at h
      obtain ⟨⟨vs, next⟩, -, h⟩ := h
      cases next with
      | none =>
          cases h
          exact Nat.lt_succ_self _
      | some next =>
          obtain ⟨⟨ws, behind⟩, hread, h⟩ := Option.map_eq_some_iff.mp h
          cases h
          exact Nat.lt_succ_of_lt (ih hread)

theorem length_lt_of_readText? {cs : List Char} {s : String} (h : readText? cs = some (s, rest)) :
    rest.length < cs.length := by
  unfold readText? at h
  split at h
  · obtain ⟨⟨us, behind⟩, hread, h⟩ := Option.bind_eq_some_iff.mp h
    obtain ⟨text, -, h⟩ := Option.map_eq_some_iff.mp h
    cases h
    exact Nat.lt_succ_of_lt (length_lt_of_readUnits? hread)
  · cases h

end Strings

section Lists

/-- Whether a character may stand between the parts of a list. -/
def isSpace (c : Char) : Bool := [' ', '\t', '\n', '\r'].contains c

/-- The strings of a list from one of them on, and what stands behind the list. -/
def readItems? (cs : List Char) : Option (List String × List Char) :=
  match _hread : readText? (cs.dropWhile isSpace) with
  | none => none
  | some (text, behind) =>
    match _hbehind : behind.dropWhile isSpace with
    | ',' :: more => (readItems? more).map (Prod.map (text :: ·) id)
    | ']' :: rest => some ([text], rest)
    | _ => none
termination_by cs.length
decreasing_by
  have hmore : more.length < (behind.dropWhile isSpace).length := by
    rw [_hbehind]
    exact Nat.lt_succ_self _
  have hbehind := (List.dropWhile_sublist (p := isSpace) (l := behind)).length_le
  have hcs := (List.dropWhile_sublist (p := isSpace) (l := cs)).length_le
  have hshorter := length_lt_of_readText? _hread
  omega

/-- The list of strings that a text starts with, and what stands behind it. -/
def readList? : List Char → Option (List String × List Char)
  | '[' :: cs =>
    match cs.dropWhile isSpace with
    | ']' :: rest => some ([], rest)
    | _ => readItems? cs
  | _ => none

/-- Texts as a JSON list. -/
def encodeList (texts : List String) : String := "[" ++ join ", " (texts.map encode) ++ "]"

variable {cs behind more rest : List Char} {text : String}

theorem readItems?_more (htext : readText? (cs.dropWhile isSpace) = some (text, behind))
    (hbehind : behind.dropWhile isSpace = ',' :: more) :
    readItems? cs = (readItems? more).map (Prod.map (text :: ·) id) := by
  rw [readItems?]
  split
  · simp_all
  · split <;> simp_all

theorem readItems?_last (htext : readText? (cs.dropWhile isSpace) = some (text, behind))
    (hbehind : behind.dropWhile isSpace = ']' :: rest) :
    readItems? cs = some ([text], rest) := by
  rw [readItems?]
  split
  · simp_all
  · split <;> simp_all

theorem toList_join_cons_cons (piece next : String) (pieces : List String) (rest : List Char) :
    (join ", " (piece :: next :: pieces)).toList ++ rest =
      piece.toList ++ ',' :: ' ' :: ((join ", " (next :: pieces)).toList ++ rest) := by
  have hcomma : ", ".toList = [',', ' '] := rfl
  have hjoin : join ", " (piece :: next :: pieces) =
      piece ++ ", " ++ join ", " (next :: pieces) := rfl
  rw [hjoin, String.toList_append, String.toList_append, hcomma]
  simp only [List.append_assoc, List.cons_append, List.nil_append]

/-- Joined texts start with a quote. -/
theorem exists_quote_join (text : String) (texts : List String) (rest : List Char) :
    ∃ more, (join ", " ((text :: texts).map encode)).toList ++ rest = '"' :: more := by
  cases texts with
  | nil => exact ⟨_, toList_encode_append text rest⟩
  | cons next others =>
      rw [List.map_cons, List.map_cons, toList_join_cons_cons]
      exact ⟨_, toList_encode_append text _⟩

theorem dropWhile_join (text : String) (texts : List String) (rest : List Char) :
    ((join ", " ((text :: texts).map encode)).toList ++ rest).dropWhile isSpace =
      (join ", " ((text :: texts).map encode)).toList ++ rest := by
  obtain ⟨more, hmore⟩ := exists_quote_join text texts rest
  rw [hmore]
  rfl

/-- Joined texts are read back one after the other, up to the bracket behind them. -/
theorem readItems?_join (text : String) (texts : List String) (rest : List Char) {cs : List Char}
    (hcs : cs.dropWhile isSpace = (join ", " ((text :: texts).map encode)).toList ++ ']' :: rest) :
    readItems? cs = some (text :: texts, rest) := by
  induction texts generalizing text cs with
  | nil =>
      have hread : readText? (cs.dropWhile isSpace) = some (text, ']' :: rest) := by
        rw [hcs]
        exact readText?_encode text _
      exact readItems?_last hread rfl
  | cons next more ih =>
      rw [List.map_cons, List.map_cons, toList_join_cons_cons] at hcs
      have hread := congrArg readText? hcs
      rw [readText?_encode] at hread
      rw [readItems?_more hread rfl, ih next]
      · rfl
      · exact dropWhile_join next more _

/-- A list is read back whatever stands behind it. -/
theorem readList?_encodeList (texts : List String) (rest : List Char) :
    readList? ((encodeList texts).toList ++ rest) = some (texts, rest) := by
  have hchars : (encodeList texts).toList ++ rest =
      '[' :: ((join ", " (texts.map encode)).toList ++ ']' :: rest) := by
    have hopen : "[".toList = ['['] := rfl
    have hclose : "]".toList = [']'] := rfl
    rw [encodeList, String.toList_append, String.toList_append, hopen, hclose]
    simp only [List.append_assoc, List.cons_append, List.nil_append]
  rw [hchars]
  cases texts with
  | nil => rfl
  | cons text texts =>
      have hitems := dropWhile_join text texts (']' :: rest)
      rw [readList?]
      split
      · rename_i hclosed
        obtain ⟨more, hmore⟩ := exists_quote_join text texts (']' :: rest)
        rw [hitems, hmore] at hclosed
        cases hclosed
      · exact readItems?_join text texts rest hitems

end Lists

end Json

end RuleSchema.Text
