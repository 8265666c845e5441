import RuleSchema.Text.CharacterTable

/-!
# Digits, letters, word characters and names

Character classes over all of Unicode. On ASCII they are the usual ones; the tables decide beyond.
Decimal notation accepts the digits of every script: each script has ten of them in a row, found
from its zero.
-/

namespace RuleSchema.Text

/-- The zero of every run of ten decimal digits beyond ASCII. -/
def decimalZeros : List Nat :=
  [
   1632, 1776, 1984, 2406, 2534, 2662, 2790, 2918, 3046, 3174, 3302, 3430, 3558, 3664, 3792,
   3872, 4160, 4240, 6112, 6160, 6470, 6608, 6784, 6800, 6992, 7088, 7232, 7248, 42528, 43216,
   43264, 43472, 43504, 43600, 44016, 65296, 66720, 68912, 69734, 69872, 69942, 70096, 70384,
   70736, 70864, 71248, 71360, 71472, 71904, 72016, 72784, 73040, 73120, 92768, 92864, 93008,
   120782, 120792, 120802, 120812, 120822, 123200, 123632, 125264, 130032]

/-- Digits that take no part in decimal notation: superscripts, circled and similar digits. -/
def digitLikeRuns : List Nat :=
  [
   178, 2, 5, 1, 4783, 9, 1640, 1, 1685, 1, 3, 6, 6, 10, 982, 9, 11, 9, 11, 9, 89, 1, 10, 9, 1,
   1, 630, 9, 1, 9, 1, 9, 58029, 4, 1052, 9, 489, 9, 57509, 11]

/-- Value of a character as a decimal digit of any script. -/
def decimalDigit? (c : Char) : Option Nat :=
  if '0' ≤ c ∧ c ≤ '9' then some (c.toNat - 48)
  else (decimalZeros.find? fun z => z ≤ c.toNat && c.toNat < z + 10).map
    fun z => c.toNat - z

/-- Whether a character takes part in decimal notation. -/
def isDecimalDigit (c : Char) : Bool := (decimalDigit? c).isSome

/-- Digits in the wide sense: decimal digits and their raised or circled forms. -/
def isDigit (c : Char) : Bool := isDecimalDigit c || inRuns digitLikeRuns c.toNat

theorem decimalDigit?_ascii {c : Char} (low : '0' ≤ c) (high : c ≤ '9') :
    decimalDigit? c = some (c.toNat - 48) := by
  simp [decimalDigit?, low, high]

/-- Letters of any script. -/
def isLetter (c : Char) : Bool := c.isAlpha || inRuns letterRuns c.toNat

/-- Letters and characters with a numeric value. -/
def isAlphanumeric (c : Char) : Bool := isLetter c || c.isDigit || inRuns numeralRuns c.toNat

/-- Characters of a word: alphanumeric ones and the underscore. -/
def isWord (c : Char) : Bool := isAlphanumeric c || c == '_'

/-- Characters that may start a name. -/
def isNameStart (c : Char) : Bool :=
  if c.toNat < 128 then c.isAlpha || c == '_' else isLetter c != inRuns nameStartExceptions c.toNat

/-- Characters that may continue a name. -/
def isNamePart (c : Char) : Bool :=
  if c.toNat < 128 then c.isAlpha || c.isDigit || c == '_'
  else isAlphanumeric c != inRuns namePartExceptions c.toNat

/-- A name is one start character followed by part characters. -/
def isName : List Char → Bool
  | [] => false
  | c :: rest => isNameStart c && rest.all isNamePart

theorem toNat_of_isAlpha {c : Char} (h : c.isAlpha = true) :
    (65 ≤ c.toNat ∧ c.toNat ≤ 90) ∨ (97 ≤ c.toNat ∧ c.toNat ≤ 122) := by
  rcases Bool.or_eq_true_iff.mp h with hupper | hlower
  · exact .inl (of_decide_eq_true hupper)
  · obtain ⟨hlow, hhigh⟩ := Bool.and_eq_true_iff.mp hlower
    exact .inr ⟨of_decide_eq_true hlow, of_decide_eq_true hhigh⟩

theorem isLetter_of_isAlpha {c : Char} (h : c.isAlpha = true) : isLetter c = true := by
  simp [isLetter, h]

theorem isWord_of_isLetter {c : Char} (h : isLetter c = true) : isWord c = true := by
  simp [isWord, isAlphanumeric, h]

end RuleSchema.Text
