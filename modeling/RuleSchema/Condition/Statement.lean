import RuleSchema.Condition.Expression

/-!
# Statements of callables

What a callable runs when it is called, up to a statement that returns, and what its text shows: the
functions written among the statements, and everything that they may return.
-/

namespace RuleSchema

/-- A statement of a callable. -/
inductive Statement where
  /-- Return the value of an expression, or no value. -/
  | result (value : Option Expression)
  /-- Give a name a value. -/
  | assign (name : String) (value : Expression)
  /-- Evaluate an expression for its own sake. -/
  | evaluate (value : Expression)
  /-- Go on with one of two blocks. -/
  | branch (test : Expression) (whenTrue whenFalse : List Statement)
  /-- Define a function inside the callable. -/
  | define (name : String) (body : List Statement)
deriving Inhabited

/-- Where the run of statements comes to, with the names that have a value there. -/
inductive Outcome where
  | ended (names : List (String × Datum))
  | returned (names : List (String × Datum)) (value : Option Expression)

/-- The names that have a value where a run comes to. -/
def Outcome.names : Outcome → List (String × Datum)
  | ended names => names
  | returned names _ => names

namespace Statement

mutual
/-- Where a statement comes to; it fails where an expression does. -/
def run? (names : List (String × Datum)) : Statement → Option Outcome
  | result value => some (.returned names value)
  | assign n value => (value.eval? names).map fun v => .ended ((n, v) :: names)
  | evaluate value => (value.eval? names).map fun _ => .ended names
  | branch test whenTrue whenFalse =>
    (test.eval? names).bind fun v =>
      if v.isTrue then runAll? names whenTrue else runAll? names whenFalse
  | define n _ => some (.ended ((n, .function) :: names))
/-- Where statements come to one after the other. -/
def runAll? (names : List (String × Datum)) : List Statement → Option Outcome
  | [] => some (.ended names)
  | s :: rest => (run? names s).bind fun
    | .ended names => runAll? names rest
    | .returned names value => some (.returned names value)
end

mutual
/-- The names that a statement gives values to. -/
def locals : Statement → List String
  | assign n _ => [n]
  | branch _ whenTrue whenFalse => localsOfAll whenTrue ++ localsOfAll whenFalse
  | define n _ => [n]
  | _ => []
/-- The names that statements give values to. -/
def localsOfAll : List Statement → List String
  | [] => []
  | s :: rest => locals s ++ localsOfAll rest
end

mutual
/-- What a statement may return, the functions inside it included. -/
def results : Statement → List (Option Expression)
  | result value => [value]
  | branch _ whenTrue whenFalse => resultsOfAll whenTrue ++ resultsOfAll whenFalse
  | define _ body => resultsOfAll body
  | _ => []
/-- What statements may return, the functions inside them included. -/
def resultsOfAll : List Statement → List (Option Expression)
  | [] => []
  | s :: rest => results s ++ resultsOfAll rest
end

/-- Levels of a text beside one another, joined level by level. -/
def beside {α : Type} : List (List α) → List (List α) → List (List α)
  | [], levels => levels
  | levels, [] => levels
  | level :: more, other :: others => (level ++ other) :: beside more others

mutual
/-- The functions in a statement, by how deep they are written. -/
def functions : Statement → List (List (String × List Statement))
  | define n body => [(n, body)] :: functionsOfAll body
  | branch _ whenTrue whenFalse => [] :: beside (functionsOfAll whenTrue) (functionsOfAll whenFalse)
  | _ => []
/-- The functions among statements, by how deep they are written. -/
def functionsOfAll : List Statement → List (List (String × List Statement))
  | [] => []
  | s :: rest => beside (functions s) (functionsOfAll rest)
end

/-- The expression that statements return if they hold just one that returns, inside a function among
them or not, and it returns an expression. -/
def soleResult? (body : List Statement) : Option Expression :=
  match resultsOfAll body with
  | [some e] => some e
  | _ => none

/-- The expression that a function of the given name returns, found from the outermost one on. -/
def resultOf? (name : String) (statements : List Statement) : Option Expression :=
  (functionsOfAll statements).flatten.findSome? fun (n, body) =>
    if n = name then soleResult? body else none

end Statement

end RuleSchema
