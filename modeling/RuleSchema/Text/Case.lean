import RuleSchema.Text.CaseTable
import RuleSchema.Text.CharacterTable

/-!
# Case mapping

Lower and upper case of whole texts. A capital sigma becomes the final form when a cased character
stands before it and none after it; a dotted capital I becomes an i and a combining dot; some
letters have an upper-case form of several characters.
-/

namespace RuleSchema.Text

/-- The counterpart of a code point under a list of stretches, or the code point itself. -/
def shiftCode (table : List Shift) (n : Nat) : Nat :=
  match table.find? fun s => s.first ≤ n && n ≤ s.last && (n - s.first) % s.step == 0 with
  | some s => (n + s.distance).toNat
  | none => n

/-- Lower case of one character taken by itself. -/
def lowerChar (c : Char) : Char :=
  if c.toNat < 128 then c.toLower else Char.ofNat (shiftCode lowerShifts c.toNat)

/-- Upper case of one character, which may be several characters. -/
def upperChar (c : Char) : List Char :=
  if c.toNat < 128 then [c.toUpper]
  else match upperSpellings.find? fun spelling => spelling.1 == c.toNat with
    | some (_, spelled) => spelled.map Char.ofNat
    | none => [Char.ofNat (shiftCode upperShifts c.toNat)]

/-- Characters that have a case. -/
def isCased (c : Char) : Bool := c.isAlpha || inRuns casedRuns c.toNat

/-- Characters that the rule for sigma looks through. -/
def isCaseIgnorable (c : Char) : Bool :=
  c == '\'' || c == '.' || c == ':' || c == '^' || c.toNat == 96 ||
    inRuns caseIgnorableRuns c.toNat

/-- Whether the first character that is not looked through is cased. -/
def meetsCased : List Char → Bool
  | [] => false
  | c :: rest => if isCaseIgnorable c then meetsCased rest else isCased c

/-- Lower case of the rest of a text whose earlier characters are given last first. -/
def lowerAfter (before : List Char) : List Char → List Char
  | [] => []
  | c :: rest =>
    (if c.toNat == 0x3A3 then
        [Char.ofNat (if meetsCased before && !meetsCased rest then 0x3C2 else 0x3C3)]
      else if c.toNat == 0x130 then ['i', Char.ofNat 0x307]
      else [lowerChar c]) ++ lowerAfter (c :: before) rest

/-- Lower case of a list of characters. -/
def lowerChars (cs : List Char) : List Char := lowerAfter [] cs

/-- Upper case of a list of characters. -/
def upperChars (cs : List Char) : List Char := cs.flatMap upperChar

/-- Lower case of a text. -/
def lower (s : String) : String := String.ofList (lowerChars s.toList)

/-- Upper case of a text. -/
def upper (s : String) : String := String.ofList (upperChars s.toList)

/-- A text with its first character in upper case. -/
def capitalizeFirst (s : String) : String :=
  match s.toList with
  | [] => ""
  | c :: rest => String.ofList (upperChar c ++ rest)

end RuleSchema.Text
