import RuleSchema.Builder.Render
import RuleSchema.Naming
import RuleSchema.Node.Basic

/-!
# Handlers

A handler compiles the nodes that it accepts. The built-in handlers cover texts with a list of
values, enumerations, references to other schemas, and everything else; further handlers compile
nodes of one type as amounts.
-/

namespace RuleSchema

/-- A handler of nodes. -/
inductive Handler where
  /-- Texts restricted to a list of values. -/
  | oneOf
  /-- Enumerations. -/
  | enumeration
  /-- References to other schemas and collections of them. -/
  | reference
  /-- Every node. -/
  | universal
  /-- Amounts with two decimal places, for one type. -/
  | amount (name : String) (priority : Int) (inferredType : String)
deriving DecidableEq, Repr

namespace Handler

/-- The priority of a handler; a higher one is asked earlier. -/
def priority : Handler → Int
  | oneOf => 400
  | enumeration => 300
  | reference => 200
  | universal => 1
  | amount _ priority _ => priority

/-- Whether two handlers are of one class. -/
def sameClass : Handler → Handler → Bool
  | amount a _ _, amount b _ _ => a == b
  | a, b => a == b

/-- Whether a type refers to another schema. -/
def isReferenceType (inferred : String) : Bool :=
  Text.startsWith inferred collectionMark || Text.startsWith inferred objectMark

/-- Whether a handler compiles the nodes of a type. -/
def acceptsType (h : Handler) (inferred : String) : Bool :=
  match h with
  | oneOf => false
  | enumeration => Text.startsWith inferred "enum:"
  | reference => isReferenceType inferred || Text.endsWith inferred "Data"
  | universal => true
  | amount _ _ own => inferred == own

/-- Types of texts that a list of values may narrow. -/
def textTypes : List String := ["string", "uuid", "email", "url"]

/-- Whether a check has parameters. -/
def hasParameters (check : Option Check) : Bool := check.any fun c => !c.parameters.isEmpty

/-- Whether a handler compiles a field. -/
def accepts (h : Handler) (r : Resolved) : Bool :=
  match h with
  | oneOf => textTypes.contains r.inferredType && hasParameters (r.check? "in")
  | h => h.acceptsType r.inferredType

end Handler

/-- What a registry asks of its handlers: a priority, a class, and which types and fields they
compile. -/
class Handling (H : Type) where
  priority : H → Int
  sameClass : H → H → Bool
  acceptsType : H → String → Bool
  accepts : H → Resolved → Bool

instance : Handling Handler :=
  ⟨Handler.priority, Handler.sameClass, Handler.acceptsType, Handler.accepts⟩

@[simp] theorem Handler.handling_accepts (h : Handler) (r : Resolved) :
    Handling.accepts h r = h.accepts r := rfl

/-- Handlers in the order in which they are asked. -/
abbrev Registry (H : Type := Handler) := List H

namespace Registry

variable {H : Type} [Handling H]

/-- A handler put behind those of the same or a higher priority. -/
def place (h : H) : List H → List H
  | [] => [h]
  | g :: rest => if Handling.priority g < Handling.priority h then h :: g :: rest
    else g :: place h rest

/-- Handlers by falling priority; handlers of one priority stay in their order. -/
def sort (handlers : List H) : Registry H := handlers.foldl (fun sorted h => place h sorted) []

/-- A registry with one more handler, sorted again. -/
def register (registry : Registry H) (h : H) : Registry H := sort (registry ++ [h])

/-- A registry with more handlers, one after the other. -/
def registerAll (registry : Registry H) (handlers : List H) : Registry H :=
  handlers.foldl register registry

/-- A registry without the handlers of the class of a handler. -/
def unregister (registry : Registry H) (h : H) : Registry H :=
  registry.filter (! Handling.sameClass h ·)

/-- The first handler of a type. -/
def forType? (registry : Registry H) (inferred : String) : Except Fault H :=
  match registry.find? (Handling.acceptsType · inferred) with
  | some h => .ok h
  | none => .error (.noHandler none inferred)

/-- The first handler of a field. -/
def forField? (registry : Registry H) (r : Resolved) : Except Fault H :=
  match registry.find? (Handling.accepts · r) with
  | some h => .ok h
  | none => .error (.noHandler (some r.path) r.inferredType)

/-- The registry after handlers have been looked up by path and registered one after the other, and
the fault that stopped it. -/
def load (find : String → Except Fault H) (registry : Registry H) :
    List String → Registry H × Option Fault
  | [] => (registry, none)
  | path :: rest =>
    match find path with
    | .ok h => load find (registry.register h) rest
    | .error fault => (registry, some fault)

/-- The built-in handlers. -/
def builtIn : Registry := registerAll [] [.oneOf, .enumeration, .reference, .universal]

end Registry

end RuleSchema
