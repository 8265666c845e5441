import RuleSchema.Condition.Statement

/-!
# Conditions

A presence rule may depend on a condition: a truth value, a field and the values it is compared
with, or a callable over the data. A callable that compares one field with values becomes a rule on
that field; any other condition is decided once and for all.
-/

namespace RuleSchema

/-- The lines of text that a callable stands in, as they can be read. -/
structure SourceText where
  /-- The statements of the lines, if these can be read as a whole. -/
  statements : Option (List Statement)
  /-- What the anonymous functions return, in the order in which they are found. -/
  lambdas : List Expression
  /-- How many characters stand behind what can be read from the first anonymous function on. -/
  behind : Nat

/-- A callable over the data. -/
structure Callable where
  /-- The name of the callable, unless it is an anonymous function. -/
  name : Option String
  /-- Parameters with their default values. -/
  parameters : List (String × Option Datum)
  /-- What the callable runs. -/
  body : List Statement
  /-- The names outside the callable that it can see. -/
  scope : List (String × Datum)
  /-- The text that the callable is written in, if it can be found. -/
  text : Option SourceText

/-- A field compared with values. -/
structure FieldComparison where
  field : String
  values : List Datum
  negated : Bool

/-- A condition of a presence rule. -/
inductive Condition where
  /-- The rule always or never applies. -/
  | always (holds : Bool)
  /-- The rule applies when a field has one of the values. -/
  | fieldIs (field : String) (values : List Datum)
  /-- The rule applies when a callable says so. -/
  | computed (callable : Callable)
  /-- Any other value. -/
  | value (datum : Datum)

namespace SourceText

/-- Fewer characters than this are cut off behind an anonymous function. -/
def behindLimit : Nat := 40

/-- The expression that a callable of the given name is taken to return: what the function of this
name returns at its only place, or what the first anonymous function of the lines returns. -/
def result? (name : Option String) (text : SourceText) : Option Expression :=
  match name with
  | some n => text.statements.bind (Statement.resultOf? n)
  | none => if text.behind < behindLimit then text.lambdas.head? else none

end SourceText

namespace Callable

/-- The expression that a callable is read as. -/
def body? (f : Callable) : Option Expression := f.text.bind (SourceText.result? f.name)

/-- The names that the callable gives values to. -/
def locals (f : Callable) : List String :=
  f.parameters.map Prod.fst ++ Statement.localsOfAll f.body

/-- The values of the names inside the callable when it is called with the given arguments for its
first parameters. -/
def bind? (f : Callable) : List (String × Option Datum) → List Datum → Option (List (String × Datum))
  | [], [] => some (f.scope.filter fun p => !f.locals.contains p.1)
  | [], _ :: _ => none
  | (n, _) :: rest, argument :: more => (bind? f rest more).map ((n, argument) :: ·)
  | (n, some fallback) :: rest, [] => (bind? f rest []).map ((n, fallback) :: ·)
  | (_, none) :: _, [] => none

/-- Where a call comes to, if it does not fail on the way. -/
def run? (f : Callable) (arguments : List Datum) : Option Outcome :=
  (f.bind? f.parameters arguments).bind (Statement.runAll? · f.body)

/-- The result of calling a callable, if it does not fail. -/
def call? (f : Callable) (arguments : List Datum) : Option Datum :=
  (f.run? arguments).bind fun
    | .returned names (some e) => e.eval? names
    | _ => some .absent

end Callable

namespace FieldComparison

/-- The field that an expression reads from the callable's argument. -/
def field? (argument : String) : Expression → Option String
  | .subscript (.name n) (.constant (.text field)) => if n = argument then some field else none
  | .call (.part (.name n) "get") (.constant (.text field) :: _) =>
    if n = argument then some field else none
  | .part (.name n) field => if n = argument then some field else none
  | _ => none

/-- A name followed by the parts taken from it. -/
def dotted? : Expression → Option (String × List String)
  | .name n => some (n, [])
  | .part value piece => (dotted? value).map fun (n, parts) => (n, parts ++ [piece])
  | _ => none

/-- The value of an expression that is a constant or a dotted name in the callable's scope. -/
def literal (f : Callable) : Expression → Datum
  | .constant value => value
  | e =>
    ((do
      let (n, parts) ← dotted? e
      if f.locals.contains n then none
      parts.foldlM (fun value piece => Datum.part? piece value) (← f.scope.lookup n))).getD .absent

/-- The comparison of a field that an expression makes, if it makes one. -/
def ofExpression? (f : Callable) (argument : String) : Expression → Option FieldComparison
  | .comparison left [(op, right)] =>
    let swaps := op = .equal ∨ op = .notEqual
    let sides := match field? argument left with
      | some field => some (field, right)
      | none => if swaps then (field? argument right).map fun field => (field, left) else none
    sides.bind fun (field, other) =>
      match op with
      | .within | .notWithin =>
        match other with
        | .display _ items => some ⟨field, items.map (literal f), op = .notWithin⟩
        | _ => none
      | .equal | .identical => some ⟨field, [literal f other], false⟩
      | .notEqual | .notIdentical => some ⟨field, [literal f other], true⟩
      | _ => none
  | _ => none

/-- The comparison of a field that a callable makes, if it makes one. -/
def ofCallable? (f : Callable) : Option FieldComparison := do
  let body ← f.body?
  let (argument, _) ← f.parameters.head?
  ofExpression? f argument body

/-- The rule that a comparison stands for, if the field and some value have a form in a rule. -/
def rule? (c : FieldComparison) (conditional : String) : Option String :=
  let values := (c.values.filterMap Datum.comparand?).filter (! Text.isEmpty ·)
  if Text.isEmpty c.field || values.isEmpty then none
  else
    let keyword :=
      if c.negated && Text.endsWith conditional "_if" then
        String.ofList (conditional.toList.dropLast.dropLast) ++ "unless"
      else conditional
    some (keyword ++ ":" ++ c.field ++ "," ++ Text.join "," values)

end FieldComparison

namespace Condition

/-- The comparison of a field in a condition, if there is one. -/
def comparison? : Condition → Option FieldComparison
  | fieldIs field values => some ⟨field, values, false⟩
  | computed f => FieldComparison.ofCallable? f
  | _ => none

/-- Whether a condition without a comparison holds once and for all. -/
def holds : Condition → Bool
  | always b => b
  | computed f => ((f.call? []).map Datum.isTrue).getD false
  | value (.truth b) => b
  | _ => false

/-- The rule that a condition stands for: `conditional` with the compared field and values, or
`base` where it always holds, or no rule. -/
def rule (base conditional : String) (c : Condition) : String :=
  match c.comparison?.bind (·.rule? conditional) with
  | some rule => rule
  | none => if c.holds then base else ""

end Condition

end RuleSchema
