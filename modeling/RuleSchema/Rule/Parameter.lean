import RuleSchema.Fault
import RuleSchema.Number.Basic
import RuleSchema.Text.Blank

/-!
# Rule parameters

A parameter is a text, an integer or a floating-point number. Where arithmetic is done on it, a
text that denotes a number stands for that number.
-/

namespace RuleSchema

/-- A parameter of a rule. -/
inductive Parameter where
  | text (value : String)
  | number (value : Number)
deriving DecidableEq, Repr

namespace Parameter

/-- Text of a parameter. -/
def display : Parameter → String
  | text s => s
  | number n => n.text

/-- The number that a text denotes, blanks around it aside. -/
def numberOfText? (s : String) : Option Number :=
  (Binary64.ofChars? (Text.trimChars s.toList)).map Number.ofBinary

/-- The number that a parameter stands for, if it stands for one. An integer too large for a
floating-point number is a fault. -/
def number? : Parameter → Except Fault (Option Number)
  | text s => .ok (numberOfText? s)
  | number (.whole i) =>
    match Binary64.ofInt i with
    | .infinite _ => .error .tooLarge
    | _ => .ok (some (.whole i))
  | number (.real x) => .ok (some (.ofBinary x))

/-- An integer parameter. -/
def ofInt (i : Int) : Parameter := number (.whole i)

/-- Text that shows a parameter inside a list. -/
def quoted : Parameter → String
  | text s => Text.Quoted.encode s
  | number n => n.text

@[simp] theorem display_text (s : String) : (text s).display = s := rfl

end Parameter

end RuleSchema
