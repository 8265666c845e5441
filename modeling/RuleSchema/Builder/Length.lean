import RuleSchema.Builder.Basic

/-!
# Bounds on lengths

Texts, addresses of mail and arrays have a least and a greatest length. Of several rules on the same
bound the tighter one stays; a bound that is no number is passed over.
-/

namespace RuleSchema.Length

/-- Raises the least length, unless it is already as large. -/
def raise (bound : Number) (message : Option String) : Building Unit := do
  let b ← get
  if (b.least.map bound.le).getD false then return
  set ({ b with least := some bound }.replaceCall "min"
    (".min(" ++ bound.text ++ Script.messageArgument message ++ ")"))

/-- Lowers the greatest length, unless it is already as small. -/
def lower (bound : Number) (message : Option String) : Building Unit := do
  let b ← get
  if (b.greatest.map (·.le bound)).getD false then return
  set ({ b with greatest := some bound }.replaceCall "max"
    (".max(" ++ bound.text ++ Script.messageArgument message ++ ")"))

/-- A number as a bound: integral numbers become integers, and one that is too large is a fault. -/
def asBound (n : Number) : Building Number := do
  return (← Building.ofExcept (Parameter.number n).number?).getD n

/-- The first argument as a bound, changed by a whole number, for an action. -/
def withBound (change : Int) (act : Number → Option String → Building Unit) : RuleMethod :=
  fun arguments message => do
    match ← Building.firstNumber? arguments with
    | none => return
    | some n => act (← asBound (if change = 0 then n else n.addInt change)) message

/-- At least as long as the argument. -/
def min : RuleMethod := fun arguments message => do
  match ← Building.firstNumber? arguments with
  | none => return
  | some n => raise n message

/-- At most as long as the argument. -/
def max : RuleMethod := fun arguments message => do
  match ← Building.firstNumber? arguments with
  | none => return
  | some n => lower n message

/-- Longer than the argument. -/
def gt : RuleMethod := withBound 1 raise

/-- At least as long as the argument. -/
def gte : RuleMethod := withBound 0 raise

/-- Shorter than the argument. -/
def lt : RuleMethod := withBound (-1) lower

/-- At most as long as the argument. -/
def lte : RuleMethod := withBound 0 lower

/-- Between the first two arguments. -/
def between : RuleMethod := fun arguments message =>
  match arguments with
  | low :: high :: _ => do
    min [low] message
    max [high] message
  | _ => pure ()

/-- Exactly as long as the argument. -/
def size : RuleMethod := fun arguments message => do
  match ← Building.firstNumber? arguments with
  | none => return
  | some n =>
    Building.replace "length" (".length(" ++ n.text ++ Script.messageArgument message ++ ")")

/-- Without blanks at its ends. -/
def trim : RuleMethod := fun _ _ => do
  if (← get).hasCall "trim" then return
  Building.add ".trim()"

/-- At least one long. -/
def requireNonEmpty (message : Option String) : Building Unit := raise (.whole 1) message

/-- The rules on lengths. -/
def methods : List (String × RuleMethod) :=
  [("min", min), ("max", max), ("lt", lt), ("lte", lte), ("gt", gt), ("gte", gte),
    ("between", between), ("size", size), ("trim", trim)]

end RuleSchema.Length
