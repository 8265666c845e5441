import RuleSchema.Builder.Text

/-!
# Rules on numbers

Comparisons with a number become calls of the target; a comparison with anything else is passed
over. Counts of digits and of decimal places are checked on the text of the number.
-/

namespace RuleSchema.NumberRule

/-- An integer, with a message that also answers values that are no numbers. -/
def integer : RuleMethod := fun _ message => do
  match message with
  | some m => modify fun b => match b.base with
    | .number _ => { b with base := .number (some (Script.escape m)) }
    | _ => b
  | none => pure ()
  Building.replace "int" (match message with
    | none => ".int()"
    | some m => ".int('" ++ Script.escape m ++ "')")

/-- A comparison with the first argument. -/
def bounded : String → RuleMethod := Building.compare Building.firstNumber?

/-- Between the first two arguments. -/
def between : RuleMethod := Building.within Building.firstNumber?

/-- Equal to the first argument. -/
def size : RuleMethod := Building.exactly Building.firstNumber?

/-- The statement that splits the text of a number at its point. -/
def splitAtPoint : String :=
  "const str = String(val); const parts = str.split('.'); "

/-- Exactly as many decimal places as the argument, or between two arguments. -/
def decimal : RuleMethod := fun arguments message =>
  let escaped := escapedOr message "The value has an invalid number of decimal places."
  match arguments with
  | [] => pure ()
  | [places] => do
    let count ← Building.ofExcept places.numeral
    Building.add (TextRule.refine (TextRule.braces (splitAtPoint ++
      "return parts.length === 1 || (parts.length === 2 && parts[1].length === " ++ count ++
      "); ")) escaped)
  | low :: high :: _ => do
    let low ← Building.ofExcept low.numeral
    let high ← Building.ofExcept high.numeral
    Building.add (TextRule.refine (TextRule.braces (splitAtPoint ++
      "if (parts.length === 1) return true; const decimals = parts[1].length; " ++
      "return decimals >= " ++ low ++ " && decimals <= " ++ high ++ "; ")) escaped)

/-- A comparison of the count of digits with the first argument. -/
def digits (operator : String) : RuleMethod := fun arguments message => do
  let count ← Building.first arguments
  let numeral ← Building.ofExcept count.numeral
  Building.add (TextRule.refine (TextRule.braces (
    "const str = String(Math.abs(Math.floor(val))); return str.length " ++ operator ++ " " ++
    numeral ++ "; ")) (escapedOr message "The value has an invalid number of digits."))

/-- As many digits as between two arguments. -/
def digitsBetween : RuleMethod := fun arguments message => do
  digits ">=" (arguments.take 1) message
  digits "<=" ((arguments.drop 1).take 1) message

/-- An argument as a member of a list: a number, or a literal for anything else. -/
def member (a : Argument) : Except Fault String :=
  a.number?.map fun n => match n, a with
    | some n, _ => n.text
    | none, some p => Script.literal p.display
    | none, none => a.display

/-- Is or is not one of the arguments. -/
def listed (negation : String) : RuleMethod := fun arguments message =>
  if arguments.isEmpty then pure ()
  else do
    let members ← Building.ofExcept (arguments.mapM member)
    Building.add (TextRule.refine (negation ++ "[" ++ Text.join ", " members ++ "].includes(val)")
      (escapedOr message "The selected value is invalid."))

/-- The rules of numbers. -/
def methods : List (String × RuleMethod) :=
  [("required", Building.required), ("numeric", Building.nothing), ("integer", integer),
    ("min", bounded "min"), ("max", bounded "max"), ("gt", bounded "gt"), ("gte", bounded "gte"),
    ("lt", bounded "lt"), ("lte", bounded "lte"), ("multiple_of", bounded "multipleOf"),
    ("between", between), ("size", size), ("decimal", decimal), ("digits", digits "==="),
    ("max_digits", digits "<="), ("min_digits", digits ">="), ("digits_between", digitsBetween),
    ("in", listed ""), ("not_in", listed "!")]

end RuleSchema.NumberRule
