import RuleSchema.Fragment
import RuleSchema.Rule.Parameter
import RuleSchema.Script.Literal
import RuleSchema.Table

/-!
# Builders

A builder collects the calls that are chained onto the base expression of one node. Rules change the
chain, the bounds and the messages; a rule that fails keeps what it has done so far.
-/

namespace RuleSchema

/-- What a builder starts from, with the state that belongs to it. Messages are kept escaped. -/
inductive Base where
  /-- A text, unless a format takes its place. -/
  | text (override : Option String)
  /-- An address with its message and the pattern of its protocols. -/
  | url (override message protocol : Option String)
  | password (override : Option String)
  | email (message : Option String)
  | number (integerMessage : Option String)
  | boolean
  | file
  | array (item : String)
  | object (properties : Table String)
  /-- A named schema. -/
  | reference (schemaName : String)
  /-- Values, or the name of an enumeration, with a message. -/
  | enumeration (values : List String) (reference message : Option String)
deriving DecidableEq, Repr

/-- A builder for one expression. -/
structure Builder where
  base : Base
  /-- The chained calls in order. -/
  chain : List String
  /-- The least and the greatest length set so far. -/
  least : Option Number
  greatest : Option Number
  requiredMessage : Option String
  fieldName : Option String
  isNullable : Bool
  isOptional : Bool
  fragment : Option Fragment
deriving DecidableEq, Repr

/-- A parameter given to a rule; it may be left out. -/
abbrev Argument := Option Parameter

/-- A change of a builder, which keeps what it has done also when it fails. -/
abbrev Building (α : Type) := ExceptT Fault (StateM Builder) α

/-- How a rule changes a builder. -/
abbrev RuleMethod := List Argument → Option String → Building Unit

namespace Argument

/-- Text of an argument. -/
def display : Argument → String
  | some p => p.display
  | none => "None"

/-- The number that an argument stands for, if it stands for one. -/
def number? : Argument → Except Fault (Option Number)
  | some p => p.number?
  | none => .ok none

/-- An argument as it is written in a script: as a number where it is one. -/
def numeral (a : Argument) : Except Fault String :=
  a.number?.map fun n => match n with
    | some n => n.text
    | none => a.display

end Argument

namespace Builder

/-- A builder without rules. -/
def ofBase (base : Base) : Builder := ⟨base, [], none, none, none, none, false, false, none⟩

/-- A call put at the end of the chain. -/
def addCall (b : Builder) (call : String) : Builder := { b with chain := b.chain ++ [call] }

/-- The chain without the calls that contain a text. -/
def removeContaining (b : Builder) (needle : String) : Builder :=
  { b with chain := b.chain.filter (! Text.contains · needle) }

/-- The chain with one call in place of those that contain a method's name and its parenthesis. -/
def replaceCall (b : Builder) (method call : String) : Builder :=
  (b.removeContaining (method ++ "(")).addCall call

/-- Whether some call contains a method's name and its parenthesis. -/
def hasCall (b : Builder) (method : String) : Bool :=
  b.chain.any (Text.contains · (method ++ "("))

end Builder

/-- A message, or a default for a missing or empty one. -/
def messageOr (message : Option String) (fallback : String) : String :=
  match message with
  | some m => if Text.isEmpty m then fallback else m
  | none => fallback

/-- An escaped message, or an escaped default for a missing or empty one. -/
def escapedOr (message : Option String) (fallback : String) : String :=
  Script.escape (messageOr message fallback)

namespace Building

/-- A value that may be a fault. -/
def ofExcept {α : Type} : Except Fault α → Building α
  | .ok a => pure a
  | .error e => throw e

/-- A call put at the end of the chain. -/
def add (call : String) : Building Unit := modify (·.addCall call)

/-- A call in place of those of the same method. -/
def replace (method call : String) : Building Unit := modify (·.replaceCall method call)

/-- The number that the first argument stands for, if it stands for one. -/
def firstNumber? (arguments : List Argument) : Building (Option Number) :=
  match arguments with
  | [] => pure none
  | a :: _ => ofExcept a.number?

/-- The first argument. -/
def first (arguments : List Argument) : Building Argument :=
  match arguments with
  | [] => throw .outOfRange
  | a :: _ => pure a

/-- A comparison with the number that is read from the arguments, if there is one. -/
def compare (number? : List Argument → Building (Option Number)) (method : String) : RuleMethod :=
  fun arguments message => do
    match ← number? arguments with
    | none => return
    | some n =>
      replace method ("." ++ method ++ "(" ++ n.text ++ Script.messageArgument message ++ ")")

/-- Between the numbers of the first two arguments. -/
def within (number? : List Argument → Building (Option Number)) : RuleMethod :=
  fun arguments message => do
    compare number? "min" (arguments.take 1) message
    compare number? "max" ((arguments.drop 1).take 1) message

/-- Equal to the number of the first argument. -/
def exactly (number? : List Argument → Building (Option Number)) : RuleMethod :=
  fun arguments message => do
    compare number? "min" (arguments.take 1) message
    compare number? "max" (arguments.take 1) message

/-- A rule that changes nothing. -/
def nothing : RuleMethod := fun _ _ => pure ()

/-- The required rule where nothing else is known: its message is kept. -/
def required : RuleMethod := fun _ message =>
  match Text.nonEmpty? message with
  | some m => modify fun b => { b with requiredMessage := some (Script.escape m) }
  | none => pure ()

end Building

end RuleSchema
