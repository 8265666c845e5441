import RuleSchema.Datum

/-!
# Scalars without quotes

The value of a scalar without quotes is read off its text: words for truth values and for no value,
integers in several notations, numbers with a fraction, and dates. Any other text stands for itself.
-/

namespace RuleSchema.Yaml.Scalar

/-- A word in its three spellings: as it stands, with a capital, in capitals. -/
def spellings (lower capital upper : String) : List String := [lower, capital, upper]

/-- The words for the truth values. -/
def truthOf? (s : String) : Option Bool :=
  let yes := spellings "yes" "Yes" "YES" ++ spellings "true" "True" "TRUE" ++ spellings "on" "On" "ON"
  let no := spellings "no" "No" "NO" ++ spellings "false" "False" "FALSE" ++
    spellings "off" "Off" "OFF"
  if yes.contains s then some true else if no.contains s then some false else none

/-- Whether a text stands for no value. -/
def isAbsent (s : String) : Bool := ["", "~"].contains s || (spellings "null" "Null" "NULL").contains s

/-- Whether a character is a digit below `radix`. -/
def isDigitBelow (radix : Nat) (c : Char) : Bool :=
  48 ≤ c.toNat && c.toNat < 48 + radix

/-- The value of digits in a radix up to ten, underscores aside. -/
def valueIn (radix : Nat) (cs : List Char) : Nat :=
  (cs.filter (· != '_')).foldl (fun n c => radix * n + (c.toNat - 48)) 0

/-- Whether there are only digits below `radix` and underscores. -/
def areDigits (radix : Nat) (cs : List Char) : Bool :=
  cs.all fun c => isDigitBelow radix c || c == '_'

/-- The value of one part of a number of hours, minutes or seconds: one digit, or two below sixty. -/
def sixtieth? (cs : List Char) : Option Nat :=
  match cs with
  | [d] => if isDigitBelow 10 d then some (valueIn 10 cs) else none
  | [t, d] => if isDigitBelow 6 t && isDigitBelow 10 d then some (valueIn 10 cs) else none
  | _ => none

/-- The value of parts to the base sixty. -/
def sexagesimal? (first : List Char) (parts : List (List Char)) : Option Nat :=
  (parts.mapM sixtieth?).map fun values =>
    values.foldl (fun n v => 60 * n + v) (valueIn 10 first)

/-- Whether a list starts with a digit and goes on with digits and underscores. -/
def isNumeral (cs : List Char) : Bool :=
  match cs with
  | d :: rest => isDigitBelow 10 d && areDigits 10 rest
  | [] => false

/-- The value of an unsigned integer: binary, hexadecimal, octal with a leading zero, decimal, or
parts to the base sixty. -/
def natural? (cs : List Char) : Option Nat :=
  match cs with
  | ['0'] => some 0
  | '0' :: 'b' :: digits =>
    if areDigits 2 digits && digits.any (· != '_') then some (valueIn 2 digits) else none
  | '0' :: 'x' :: digits =>
    let bare := digits.filter (· != '_')
    if bare.isEmpty then none else Text.hexNumber? bare
  | '0' :: digits => if areDigits 8 digits then some (valueIn 8 digits) else none
  | _ =>
    match Text.splitBy (· == ':') cs with
    | [digits] => if isNumeral digits then some (valueIn 10 digits) else none
    | first :: parts => if isNumeral first then sexagesimal? first parts else none
    | [] => none

/-- The value of an integer with an optional sign. -/
def integer? (cs : List Char) : Option Int :=
  let (negative, body) := Binary64.readSign cs
  (natural? body).map fun n => if negative then -(n : Int) else n

/-- Whether characters are an exponent: absent, or with a sign and digits. -/
def isExponent : List Char → Bool
  | [] => true
  | c :: sign :: digits =>
    (c == 'e' || c == 'E') && (sign == '+' || sign == '-') && !digits.isEmpty &&
      digits.all (isDigitBelow 10)
  | _ => false

/-- Whether characters are a number with a fraction; without digits before the point there is no
sign. -/
def isFraction (signed : Bool) (cs : List Char) : Bool :=
  let whole := cs.takeWhile fun c => isDigitBelow 10 c || c == '_'
  match cs.drop whole.length with
  | '.' :: rest =>
    let digits := rest.takeWhile fun c => isDigitBelow 10 c || c == '_'
    isExponent (rest.drop digits.length) &&
      (if whole.isEmpty then !signed && isNumeral digits else isNumeral whole)
  | _ => false

/-- The number in parts to the base sixty, the last one with a fraction. -/
def sexagesimalFraction? (negative : Bool) (cs : List Char) : Option Binary64 :=
  match (Text.splitBy (· == ':') cs).reverse with
  | last :: before@(_ :: _) =>
    let whole := last.takeWhile (isDigitBelow 10)
    match last.drop whole.length, before.reverse with
    | '.' :: fraction, first :: parts =>
      if isNumeral first && areDigits 10 fraction then
        (sixtieth? whole).bind fun _ =>
          (sexagesimal? first parts).bind fun n =>
            (Binary64.ofChars? (last.filter (· != '_'))).map fun x =>
              let sum := x.addInt (60 * n)
              if negative then sum.neg else sum
      else none
    | _, _ => none
  | _ => none

/-- The number with a fraction, or infinite, or none, that a text denotes. -/
def real? (cs : List Char) : Option Binary64 :=
  let (negative, body) := Binary64.readSign cs
  let word := String.ofList body
  if (spellings ".inf" ".Inf" ".INF").contains word then some (.infinite negative)
  else if (spellings ".nan" ".NaN" ".NAN").contains (String.ofList cs) then some .notANumber
  else if isFraction (body.length < cs.length) body then Binary64.ofChars? (cs.filter (· != '_'))
  else sexagesimalFraction? negative body

/-- Whether a text has the form of a date. -/
def isDateForm (cs : List Char) : Bool :=
  match Text.splitBy (· == '-') cs with
  | [y, m, d] =>
    y.length == 4 && m.length == 2 && d.length == 2 && (y ++ m ++ d).all (isDigitBelow 10)
  | _ => false

/-- The number of days of a month. -/
def daysIn (year month : Nat) : Nat :=
  if month == 2 then
    (if year % 4 == 0 && (year % 100 != 0 || year % 400 == 0) then 29 else 28)
  else if [4, 6, 9, 11].contains month then 30
  else 31

/-- The date in a text of that form, if the calendar has it. -/
def date? (cs : List Char) : Option Datum :=
  let year := valueIn 10 (cs.take 4)
  let month := valueIn 10 ((cs.drop 5).take 2)
  let day := valueIn 10 (cs.drop 8)
  if 1 ≤ year && 1 ≤ month && month ≤ 12 && 1 ≤ day && day ≤ daysIn year month then
    some (.object ⟨"date", some (String.ofList cs), false, none, none⟩)
  else none

/-- The value of a scalar without quotes; a lone equals sign and a date outside the calendar have
none. -/
def value? (cs : List Char) : Option Datum :=
  let s := String.ofList cs
  if isAbsent s then some .absent
  else if s == "=" then none
  else if isDateForm cs then date? cs
  else match truthOf? s, integer? cs, real? cs with
    | some b, _, _ => some (.truth b)
    | none, some i, _ => some (.whole i)
    | none, none, some x => some (.real x)
    | none, none, none => some (.text s)

end RuleSchema.Yaml.Scalar
