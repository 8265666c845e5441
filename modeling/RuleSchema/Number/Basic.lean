import RuleSchema.Number.Text

/-!
# Numbers of rule parameters

A number is an integer or a binary floating-point number. Numbers that are integral are kept as
integers, so they are written without a fraction; comparison is exact.
-/

namespace RuleSchema

/-- An integer or a binary floating-point number. -/
inductive Number where
  | whole (value : Int)
  | real (value : Binary64)
deriving DecidableEq, Repr

/-- Text of an integer. -/
def intText (i : Int) : String :=
  String.ofList (if i < 0 then '-' :: digitsOf i.natAbs else digitsOf i.natAbs)

namespace Number

/-- Text of a number. -/
def text : Number → String
  | whole i => intText i
  | real x => x.text

/-- A binary number as an integer where it is one. -/
def ofBinary (x : Binary64) : Number :=
  match x.toInt? with
  | some i => whole i
  | none => real x

/-- The exact place of a number on the extended line: its side of the finite numbers and its value;
what is not a number has none. -/
def place? : Number → Option (Int × Rat)
  | whole i => some (0, i)
  | real (.infinite negative) => some (if negative then -1 else 1, 0)
  | real .notANumber => none
  | real x => x.toRat?.map fun r => (0, r)

/-- Exact comparison `a ≤ b`; nothing compares with what is not a number. -/
def le (a b : Number) : Bool :=
  match a.place?, b.place? with
  | some (i, r), some (j, q) => i < j || (i == j && r ≤ q)
  | _, _ => false

/-- Sum with an integer. -/
def addInt (a : Number) (i : Int) : Number :=
  match a with
  | whole j => whole (j + i)
  | real x => real (x.addInt i)

/-- Product with a positive integer. -/
def mulNat (a : Number) (n : Nat) : Number :=
  match a with
  | whole j => whole (j * n)
  | real x => real (x.mulNat n)

@[simp] theorem le_whole (i j : Int) : (whole i).le (whole j) = decide (i ≤ j) := by
  have cast : ((i : Rat) ≤ (j : Rat)) = (i ≤ j) := propext Rat.intCast_le_intCast
  simp only [le, place?, cast]
  simp

end Number

end RuleSchema
