import RuleSchema.Number.Shortest
import RuleSchema.Text.Blank
import RuleSchema.Text.CharacterClass

/-!
# Texts of numbers

Writing: the shortest digits, positional from `10 ^ -4` up to below `10 ^ 16`, with an exponent of
at least two digits elsewhere, and always with a fraction or an exponent. Reading: decimal notation
with an optional fraction and exponent, digits of any script, single underscores between digits,
surrounding blanks, and the words for infinity and for what is not a number.
-/

namespace RuleSchema

/-- Decimal digits of a natural number. -/
def digitsOf (n : Nat) : List Char := (Nat.toDigits 10 n)

/-- A run of zeros. -/
def zeros (n : Nat) : List Char := List.replicate n '0'

namespace Shortest

/-- Digits without trailing zeros, except for a lone zero. -/
def significant (digits : List Char) : List Char :=
  match Text.stripEnd (· == '0') digits with
  | [] => ['0']
  | kept => kept

/-- Exponent with its sign and at least two digits. -/
def exponentChars (e : Int) : List Char :=
  let digits := digitsOf e.natAbs
  'e' :: (if e < 0 then '-' else '+') :: (zeros (2 - digits.length) ++ digits)

/-- Text of a positive decimal number. -/
def layout (d : Digits) : List Char :=
  let digits := significant (digitsOf d.digits)
  let count := digits.length
  if 0 < d.point ∧ d.point ≤ 16 then
    let whole := d.point.toNat
    if count ≤ whole then digits ++ zeros (whole - count) ++ ['.', '0']
    else digits.take whole ++ '.' :: digits.drop whole
  else if -4 < d.point ∧ d.point ≤ 0 then '0' :: '.' :: (zeros (-d.point).toNat ++ digits)
  else
    let fraction := digits.drop 1
    digits.take 1 ++ (if fraction.isEmpty then [] else '.' :: fraction) ++
      exponentChars (d.point - 1)

end Shortest

namespace Binary64

/-- Text of a number. -/
def text : Binary64 → String
  | finite negative significand exponent =>
    let body := if significand = 0 then ['0', '.', '0']
      else Shortest.layout (Shortest.ofPositive significand exponent)
    String.ofList (if negative then '-' :: body else body)
  | infinite negative => if negative then "-inf" else "inf"
  | notANumber => "nan"

/-- Blanks that may surround a number: all of them but the ASCII separators. -/
def isMargin (c : Char) : Bool :=
  if c.toNat < 128 then c == ' ' || (9 ≤ c.toNat && c.toNat ≤ 13) else Text.isBlank c

/-- A digit of any script as its ASCII counterpart. -/
def plainDigit (c : Char) : Char :=
  match Text.decimalDigit? c with
  | some d => Char.ofNat (48 + d)
  | none => c

/-- Characters without underscores, each of which must stand between two digits. -/
def dropUnderscores? (afterDigit : Bool) : List Char → Option (List Char)
  | [] => some []
  | '_' :: rest =>
    match rest with
    | d :: _ => if afterDigit && d.isDigit then dropUnderscores? false rest else none
    | [] => none
  | c :: rest => (dropUnderscores? c.isDigit rest).map (c :: ·)

/-- Value of a list of ASCII digits. -/
def digitsValue (cs : List Char) : Nat := cs.foldl (fun n c => 10 * n + (c.toNat - 48)) 0

/-- An optional sign and the rest. -/
def readSign : List Char → Bool × List Char
  | '-' :: rest => (true, rest)
  | '+' :: rest => (false, rest)
  | cs => (false, cs)

/-- The exponent part, which is either absent or complete. -/
def readExponent? : List Char → Option Int
  | [] => some 0
  | c :: rest =>
    let (negative, digits) := readSign rest
    if (c == 'e' || c == 'E') && !digits.isEmpty && digits.all Char.isDigit then
      some (if negative then -(digitsValue digits : Int) else digitsValue digits)
    else none

/-- An unsigned number in decimal notation. -/
def readUnsigned? (negative : Bool) (cs : List Char) : Option Binary64 :=
  let whole := cs.takeWhile Char.isDigit
  let afterWhole := cs.dropWhile Char.isDigit
  let fraction := match afterWhole with
    | '.' :: rest => rest.takeWhile Char.isDigit
    | _ => []
  let rest := match afterWhole with
    | '.' :: rest => rest.dropWhile Char.isDigit
    | other => other
  if whole.isEmpty && fraction.isEmpty then none
  else (readExponent? rest).map fun exponent =>
    ofDecimal negative (digitsValue (whole ++ fraction)) (exponent - fraction.length)

/-- The number that a text denotes. -/
def ofChars? (cs : List Char) : Option Binary64 :=
  let bare := Text.strip isMargin cs
  (dropUnderscores? false (bare.map plainDigit)).bind fun cs =>
    let (negative, body) := readSign cs
    let word := body.map Char.toLower
    if word == ['i', 'n', 'f'] || word == "infinity".toList then some (infinite negative)
    else if word == ['n', 'a', 'n'] then some notANumber
    else readUnsigned? negative body

/-- The number that a text denotes. -/
def ofText? (s : String) : Option Binary64 := ofChars? s.toList

end Binary64

end RuleSchema
