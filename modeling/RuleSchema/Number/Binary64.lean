/-!
# Binary floating-point numbers of 64 bits

A finite number is a sign, a significand below `2 ^ 53` and a power of two; rounding goes to the
nearest such number, a tie to the even significand. Everything is computed on integers, so that
each result can be stated exactly.
-/

namespace RuleSchema

/-- A binary floating-point number: `± significand * 2 ^ exponent`, an infinity or not a number. -/
inductive Binary64 where
  | finite (negative : Bool) (significand : Nat) (exponent : Int)
  | infinite (negative : Bool)
  | notANumber
deriving DecidableEq, Repr

namespace Binary64

/-- The exponent of the smallest positive number. -/
def minExponent : Int := -1074

/-- The largest exponent of a finite number. -/
def maxExponent : Int := 971

/-- Significands of full precision start here. -/
def minFull : Nat := Nat.pow 2 52

/-- A quotient rounded to the nearest integer, a half to the even one. -/
def roundHalfEven (num den : Nat) : Nat :=
  let quotient := num / den
  let twice := 2 * (num % den)
  if twice < den then quotient
  else if den < twice then quotient + 1
  else if quotient % 2 = 0 then quotient
  else quotient + 1

/-- The fraction `num / den / 2 ^ exponent` as numerator and denominator. -/
def scaled (num den : Nat) (exponent : Int) : Nat × Nat :=
  if 0 ≤ exponent then (num, den * Nat.pow 2 exponent.toNat)
  else (num * Nat.pow 2 (-exponent).toNat, den)

/-- The exponent that gives a positive fraction a significand of full precision, or the smallest
exponent. -/
def fittingExponent (num den : Nat) : Int :=
  let guess : Int := (Nat.log2 num : Int) - Nat.log2 den - 52
  let (n, d) := scaled num den guess
  max (if n / d < minFull then guess - 1 else guess) minExponent

/-- The number nearest to `± num / den`. -/
def ofRatio (negative : Bool) (num den : Nat) : Binary64 :=
  if num = 0 then finite negative 0 minExponent
  else
    let exponent := fittingExponent num den
    let (n, d) := scaled num den exponent
    let significand := roundHalfEven n d
    let (significand, exponent) :=
      if significand = 2 * minFull then (minFull, exponent + 1) else (significand, exponent)
    if maxExponent < exponent then infinite negative else finite negative significand exponent

/-- The number nearest to an integer. -/
def ofInt (i : Int) : Binary64 := ofRatio (decide (i < 0)) i.natAbs 1

/-- The number nearest to `± mantissa * 10 ^ exponent`. -/
def ofDecimal (negative : Bool) (mantissa : Nat) (exponent : Int) : Binary64 :=
  let magnitude : Int := (Nat.log2 mantissa : Int) / 4 + exponent
  if mantissa = 0 then finite negative 0 minExponent
  else if 400 < magnitude then infinite negative
  else if (Nat.log2 mantissa : Int) / 3 + 1 + exponent < -400 then finite negative 0 minExponent
  else if 0 ≤ exponent then ofRatio negative (mantissa * Nat.pow 10 exponent.toNat) 1
  else ofRatio negative mantissa (Nat.pow 10 (-exponent).toNat)

/-- The exact value of a finite number. -/
def toRat? : Binary64 → Option Rat
  | finite negative significand exponent =>
    let magnitude : Rat :=
      if 0 ≤ exponent then ((significand * Nat.pow 2 exponent.toNat : Nat) : Rat)
      else mkRat significand (Nat.pow 2 (-exponent).toNat)
    some (if negative then -magnitude else magnitude)
  | _ => none

/-- The number nearest to a rational number. -/
def ofRat (r : Rat) : Binary64 := ofRatio (decide (r < 0)) r.num.natAbs r.den

/-- The integer that a number is equal to, if there is one. -/
def toInt? (x : Binary64) : Option Int :=
  match x.toRat? with
  | some r => if r.den = 1 then some r.num else none
  | none => none

/-- Whether the sign is set. -/
def isNegative : Binary64 → Bool
  | finite negative _ _ => negative
  | infinite negative => negative
  | notANumber => false

/-- Sum with an integer. -/
def addInt (x : Binary64) (i : Int) : Binary64 :=
  match x.toRat? with
  | some r => ofRat (r + i)
  | none => x

/-- Product with a positive integer. -/
def mulNat (x : Binary64) (n : Nat) : Binary64 :=
  match x with
  | finite negative significand exponent =>
    if 0 ≤ exponent then ofRatio negative (significand * n * Nat.pow 2 exponent.toNat) 1
    else ofRatio negative (significand * n) (Nat.pow 2 (-exponent).toNat)
  | other => other

/-- A number with the other sign. -/
def neg : Binary64 → Binary64
  | finite negative significand exponent => finite (!negative) significand exponent
  | infinite negative => infinite (!negative)
  | notANumber => notANumber

/-- Whether a number is a zero of either sign. -/
def isZero : Binary64 → Bool
  | finite _ significand _ => significand == 0
  | _ => false

/-- Quotient by a number other than zero. -/
def div (x y : Binary64) : Binary64 :=
  let negative := x.isNegative != y.isNegative
  match x, y with
  | notANumber, _ => notANumber
  | _, notANumber => notANumber
  | infinite _, infinite _ => notANumber
  | infinite _, finite .. => infinite negative
  | finite .., infinite _ => finite negative 0 minExponent
  | finite _ m e, finite _ n f =>
    let shift := e - f
    if 0 ≤ shift then ofRatio negative (m * Nat.pow 2 shift.toNat) n
    else ofRatio negative m (n * Nat.pow 2 (-shift).toNat)

end Binary64

end RuleSchema
