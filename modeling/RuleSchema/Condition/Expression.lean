import RuleSchema.Datum

/-!
# Expressions in conditions

The expressions that a condition's callable returns, and their values. Evaluation fails where an
operation is not defined on its operands, a name is unknown or the data do not decide the value.
-/

namespace RuleSchema

/-- Operators between two values. -/
inductive Comparator where
  | equal
  | notEqual
  | less
  | lessOrEqual
  | greater
  | greaterOrEqual
  | within
  | notWithin
  | identical
  | notIdentical
deriving DecidableEq, Repr

/-- Displays of several values. -/
inductive Display where
  | list
  | tuple
  | set
deriving DecidableEq, Repr

/-- An expression. -/
inductive Expression where
  | constant (value : Datum)
  | name (name : String)
  | part (value : Expression) (name : String)
  | subscript (value index : Expression)
  | call (callee : Expression) (arguments : List Expression)
  /-- An argument given by its name; nothing that can be called takes one. -/
  | named (name : String) (value : Expression)
  | display (kind : Display) (items : List Expression)
  | comparison (first : Expression) (rest : List (Comparator × Expression))
  | conjunction (operands : List Expression)
  | negation (operand : Expression)
  | minus (operand : Expression)
deriving Inhabited

namespace Datum

/-- A named part of a datum. -/
def part? (name : String) : Datum → Option Datum
  | record parts => parts.lookup name
  | enumeration owner cases =>
    (caseNamed? (distinctCases cases) name <|> caseNamed? cases name).map fun case =>
      .member owner case.1 case.2
  | member _ own value =>
    if name = "value" then some value else if name = "name" then some (text own) else none
  | _ => none

/-- The item at a position; negative positions count from the end. -/
def itemAt? {α : Type} (items : List α) (i : Int) : Option α :=
  if 0 ≤ i then items[i.toNat]? else if -i ≤ items.length then items[items.length - (-i).toNat]? else none

/-- The integer that can stand for a position. -/
def position? : Datum → Option Int
  | truth b => some (if b then 1 else 0)
  | whole i => some i
  | _ => none

/-- The part of a datum under an index. -/
def subscript? (value index : Datum) : Option Datum :=
  match value with
  | map entries => lookup? index entries
  | list items => index.position?.bind (itemAt? items)
  | tuple items => index.position?.bind (itemAt? items)
  | text s => (index.position?.bind (itemAt? s.toList)).map fun c => text (String.ofList [c])
  | _ => none

/-- Whether a datum is a set. -/
def isSet : Datum → Bool
  | set _ => true
  | _ => false

/-- Whether a datum is the real that is no number, the only one that differs from itself. -/
def isNotANumber : Datum → Bool
  | real .notANumber => true
  | _ => false

/-- Whether a value is one of some items. An item that is the very same object is found without a
comparison, so the data do not tell whether a value that differs from itself is found. -/
def isOneOf? (value : Datum) (items : List Datum) : Option Bool :=
  if value.isNotANumber && items.any isNotANumber then none else some (items.any (same value))

/-- Whether a value stands in a container. Only a value that can be an item of a set is looked for in a
set, or else another set; only a value that can be a key is looked for in a map. -/
def within? (value container : Datum) : Option Bool :=
  match container with
  | list items => value.isOneOf? items
  | tuple items => value.isOneOf? items
  | set items => if value.isHashable || value.isSet then value.isOneOf? items else none
  | map entries => if value.isHashable then value.isOneOf? (entries.map Prod.fst) else none
  | text s => value.text?.map fun needle => Text.contains s needle
  | _ => none

/-- Whether a value comes before another; only numbers and texts are ordered. -/
def less? (a b : Datum) : Option Bool :=
  match a, b with
  | text s, text t => some (s < t)
  | a, b => match a.number?, b.number? with
    | some m, some n => some (m.le n && !n.le m)
    | _, _ => none

/-- Whether two data are one and the same. -/
def identical (a b : Datum) : Bool := a.sortName == b.sortName && same a b

end Datum

namespace Expression

mutual
/-- The expression that a value is written as: signs stand apart, lists and tuples are displays. -/
def ofDatum : Datum → Expression
  | .whole i => if i < 0 then .minus (.constant (.whole (-i))) else .constant (.whole i)
  | .real (.finite true m e) => .minus (.constant (.real (.finite false m e)))
  | .real (.infinite _) => .name "inf"
  | .real .notANumber => .name "nan"
  | .list items => .display .list (ofData items)
  | .tuple items => .display .tuple (ofData items)
  | d => .constant d
/-- The expressions that values are written as. -/
def ofData : List Datum → List Expression
  | [] => []
  | d :: rest => ofDatum d :: ofData rest
end

end Expression

namespace Comparator

/-- The written form of a comparator. -/
def symbol : Comparator → String
  | equal => "=="
  | notEqual => "!="
  | less => "<"
  | lessOrEqual => "<="
  | greater => ">"
  | greaterOrEqual => ">="
  | within => "in"
  | notWithin => "not in"
  | identical => "is"
  | notIdentical => "is not"

/-- All comparators. -/
def all : List Comparator :=
  [equal, notEqual, less, lessOrEqual, greater, greaterOrEqual, within, notWithin, identical,
    notIdentical]

/-- The comparator of a written form. -/
def ofSymbol? (s : String) : Option Comparator := all.find? (·.symbol == s)

/-- The result of comparing two values. -/
def compare? (op : Comparator) (a b : Datum) : Option Bool :=
  match op with
  | equal => some (a.same b)
  | notEqual => some !(a.same b)
  | less => a.less? b
  | lessOrEqual => do return (← a.less? b) || a.same b
  | greater => b.less? a
  | greaterOrEqual => do return (← b.less? a) || a.same b
  | within => a.within? b
  | notWithin => (a.within? b).map (!·)
  | identical => some (a.identical b)
  | notIdentical => some !(a.identical b)

end Comparator

namespace Expression

/-- The opposite of a number. -/
def opposite? : Datum → Option Datum
  | .truth b => some (.whole (if b then -1 else 0))
  | .whole i => some (.whole (-i))
  | .real (.finite negative m e) => some (.real (.finite (!negative) m e))
  | .real (.infinite negative) => some (.real (.infinite (!negative)))
  | .real .notANumber => some (.real .notANumber)
  | _ => none

/-- The result of calling `get` on a value. -/
def get? (value : Datum) (arguments : List Datum) : Option Datum :=
  match value, arguments with
  | .map entries, [key] =>
    if key.isHashable then some ((Datum.lookup? key entries).getD .absent) else none
  | .map entries, [key, fallback] =>
    if key.isHashable then some ((Datum.lookup? key entries).getD fallback) else none
  | _, _ => none

/-- The value of a display; a set takes only items that can be keys. -/
def displayed? (kind : Display) (items : List Datum) : Option Datum :=
  match kind with
  | .list => some (.list items)
  | .tuple => some (.tuple items)
  | .set => if items.all Datum.isHashable then some (.set items) else none

mutual
/-- The value of an expression where the names in `names` have values. -/
def eval? (names : List (String × Datum)) : Expression → Option Datum
  | constant value => some value
  | name n => names.lookup n
  | part value n => (eval? names value).bind (Datum.part? n)
  | subscript value index => do (← eval? names value).subscript? (← eval? names index)
  | call callee arguments =>
    match callee with
    | part value n => do
      let target ← eval? names value
      let values ← evalAll? names arguments
      if n = "get" then get? target values else none
    | _ => none
  | named _ _ => none
  | display kind items => (evalAll? names items).bind (displayed? kind)
  | comparison first rest => do
      return .truth (← evalChain? names (← eval? names first) rest)
  | conjunction operands => evalConjunction? names operands
  | negation operand => (eval? names operand).map fun value => .truth !value.isTrue
  | minus operand => (eval? names operand).bind opposite?
/-- The values of a list of expressions. -/
def evalAll? (names : List (String × Datum)) : List Expression → Option (List Datum)
  | [] => some []
  | e :: rest => do return (← eval? names e) :: (← evalAll? names rest)
/-- The truth of a chain of comparisons, which stops at the first that does not hold. -/
def evalChain? (names : List (String × Datum)) (left : Datum) :
    List (Comparator × Expression) → Option Bool
  | [] => some true
  | (op, e) :: rest => do
    let right ← eval? names e
    if ← op.compare? left right then evalChain? names right rest else return false
/-- The first operand that does not count as true, or the last one. -/
def evalConjunction? (names : List (String × Datum)) : List Expression → Option Datum
  | [] => some (.truth true)
  | [e] => eval? names e
  | e :: rest => do
    let value ← eval? names e
    if value.isTrue then evalConjunction? names rest else return value
end

end Expression

end RuleSchema
