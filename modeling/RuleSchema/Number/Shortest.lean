import RuleSchema.Number.Binary64

/-!
# Shortest decimal digits

The fewest decimal digits that read back as a given binary number, and of these the nearest to it.
For every count of digits the two neighbours of the number on that decimal grid are tested against
the interval of reals that round to it.
-/

namespace RuleSchema.Shortest

/-- A positive decimal number `0.d₁d₂… * 10 ^ point` as the integer of its digits and the place of
its point. -/
structure Digits where
  digits : Nat
  point : Int
deriving DecidableEq, Repr

/-- The factors that bring `a * 2 ^ (exponent - 2)` and `c * 10 ^ grid` to a common scale. -/
def factors (exponent grid : Int) : Nat × Nat :=
  (Nat.pow 2 (exponent - 2).toNat * Nat.pow 10 (-grid).toNat,
    Nat.pow 10 grid.toNat * Nat.pow 2 (2 - exponent).toNat)

/-- Whether the grid point `c * 10 ^ grid` rounds to `significand * 2 ^ exponent`. -/
def readsBack (significand : Nat) (exponent grid : Int) (c : Nat) : Bool :=
  let (binary, decimal) := factors exponent grid
  let low := if significand = Binary64.minFull ∧ Binary64.minExponent < exponent
    then 4 * significand - 1 else 4 * significand - 2
  let high := 4 * significand + 2
  let point := c * decimal
  if significand % 2 = 0 then decide (low * binary ≤ point) && decide (point ≤ high * binary)
  else decide (low * binary < point) && decide (point < high * binary)

/-- The nearest grid point that reads back, if one of the two neighbours does. -/
def onGrid? (significand : Nat) (exponent grid : Int) : Option Nat :=
  let (binary, decimal) := factors exponent grid
  let below := 4 * significand * binary / decimal
  let rest := 4 * significand * binary % decimal
  let belowReads := readsBack significand exponent grid below
  let aboveReads := readsBack significand exponent grid (below + 1)
  if belowReads && aboveReads then
    if 2 * rest < decimal then some below
    else if decimal < 2 * rest then some (below + 1)
    else if below % 2 = 0 then some below else some (below + 1)
  else if belowReads then some below
  else if aboveReads then some (below + 1)
  else none

/-- Whether `significand * 2 ^ exponent` is below `10 ^ point`. -/
def isBelow (significand : Nat) (exponent point : Int) : Bool :=
  let (binary, decimal) := factors exponent point
  4 * significand * binary < decimal

/-- The place of the decimal point: the least `point` with the number below `10 ^ point`. -/
def pointOf (significand : Nat) (exponent : Int) : Int :=
  let guess := ((Nat.log2 significand : Int) + exponent) * 30103 / 100000
  if isBelow significand exponent guess then guess
  else if isBelow significand exponent (guess + 1) then guess + 1
  else guess + 2

/-- The digits found on the first grid that has one, from `count` digits upwards. -/
def search (significand : Nat) (exponent point : Int) : Nat → Nat → Digits
  | 0, count =>
    let (binary, decimal) := factors exponent (point - count)
    ⟨4 * significand * binary / decimal, point⟩
  | fuel + 1, count =>
    match onGrid? significand exponent (point - count) with
    | some c => if c = Nat.pow 10 count then ⟨1, point + 1⟩ else ⟨c, point⟩
    | none => search significand exponent point fuel (count + 1)

/-- The shortest digits of a positive number; seventeen always suffice. -/
def ofPositive (significand : Nat) (exponent : Int) : Digits :=
  search significand exponent (pointOf significand exponent) 17 1

end RuleSchema.Shortest
