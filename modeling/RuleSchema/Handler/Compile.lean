import RuleSchema.Handler.Basic
import RuleSchema.Refinement.Branch

/-!
# Expressions of nodes

A node is compiled by the first handler that accepts it. Items and properties are compiled first,
each with its own fragment; checks that cannot be applied are passed over, and the fragment and the
suffixes come last.
-/

namespace RuleSchema

/-- What compiling a node depends on: the handlers, the builders of further types and the names of
schemas. -/
structure Compiler where
  registry : Registry
  builders : Table Base
  names : SchemaNames

/-- The expressions of what lies below a node, or the faults of compiling it. A fault counts only
where the expression is used. -/
structure Below where
  item : Except Fault (Option String)
  properties : Except Fault (Table String)

namespace Compiler

/-- The compiler with the built-in handlers. -/
def builtIn : Compiler := ⟨Registry.builtIn, [], ⟨[]⟩⟩

/-- Whether a rule has no call of its own: it decides about suffixes or relates fields. -/
def isPassedOver (rule : String) : Bool :=
  (Family.presence.contains rule && rule != "required") || Family.crossField.contains rule

/-- Whether a fault only says that the parameters of a rule cannot be used. -/
def isUnusable (fault : Fault) : Bool := fault == .outOfRange || fault.isValueFault

/-- A builder after one check. -/
def applyCheck (b : Builder) (check : Check) : Except Fault Builder :=
  if isPassedOver check.rule then .ok b
  else
    match (Builder.applyRule check.rule (check.parameters.map some) check.message).run b with
    | (.ok _, after) => .ok after
    | (.error fault, after) => if isUnusable fault then .ok after else .error fault

/-- A builder after all checks of a field. -/
def applyChecks (b : Builder) (r : Resolved) : Except Fault Builder :=
  r.checks.foldlM applyCheck b

/-- The expression of a builder with the fragment and the suffixes of a field. -/
def finish (b : Builder) (r : Resolved) (isOptional : Bool) (fragment : Option Fragment) : String :=
  { b with
    fieldName := some r.path
    fragment := fragment
    isNullable := b.isNullable || r.isNullable
    isOptional := b.isOptional || (isOptional && !r.isRequired) }.render

/-- A builder of an enumeration of values. -/
def ofValues (values : List String) : Builder := .ofBase (.enumeration values none none)

/-- A builder of an enumeration that is known by name; an empty name is none. -/
def ofName (name : String) : Builder :=
  if Text.isEmpty name then ofValues [] else .ofBase (.enumeration [] (some name) none)

/-- The texts of the parameters of a check. -/
def parameterTexts (check : Option Check) : List String :=
  ((check.map Check.parameters).getD []).map Parameter.display

/-- A builder of an enumeration with the message of a required field. -/
def withEnumerationMessage (b : Builder) (r : Resolved) : Builder :=
  let message := if r.isRequired then Text.nonEmpty? (r.message? "required") else none
  match b.base, message with
  | .enumeration values reference _, some m =>
    { b with base := .enumeration values reference (some (Script.addSlashes m)) }
  | _, _ => b

/-- The builder of an enumeration: by name, by the listed values, or by those in its type. -/
def enumerationBuilder (r : Resolved) : Builder :=
  match parameterTexts (r.check? "enum"), parameterTexts (r.check? "in") with
  | name :: _, _ => ofName name
  | [], value :: more => ofValues (value :: more)
  | [], [] => ofValues (Inference.enumerationValues r.inferredType)

/-- The builder of a reference to another schema or a collection of one. -/
def referenceBuilder (names : SchemaNames) (r : Resolved) : Except Fault Builder :=
  let name := names.ofReference r.inferredType
  if Text.startsWith r.inferredType collectionMark then applyChecks (.ofBase (.array name)) r
  else .ok (.ofBase (.reference name))

/-- The builder of a node by its type, around what lies below. -/
def builderFor (builders : Table Base) (r : Resolved) (below : Below) : Except Fault Builder :=
  if r.isArray then below.item.map fun item => .ofBase (.array (item.getD "z.any()"))
  else if r.isObject then below.properties.map fun properties => .ofBase (.object properties)
  else .ok (.ofType builders r.inferredType)

/-- A builder of the item of an array with the branches between its properties. -/
def withItemRefinement (b : Builder) (node : Node) : Builder :=
  let path := node.head.path
  if node.head.isObject && Refinement.isItemPath path then
    let code := Refinement.render (Refinement.collectProperties (path ++ ".") node)
    if Text.isEmpty code then b else b.addCall code
  else b

/-- The expression of a node of any type. -/
def universal (c : Compiler) (node : Node) (below : Below) (isOptional : Bool)
    (fragment : Option Fragment) : Except Fault String := do
  let r := node.head
  if fragment.any Fragment.isReplace then
    return finish (.ofType c.builders r.inferredType) r isOptional fragment
  else
    let b ← applyChecks (← builderFor c.builders r below) r
    return finish (withItemRefinement b node) r isOptional fragment

/-- The builder of an amount: a number with its checks and two decimal places. -/
def amountBuilder (r : Resolved) : Except Fault Builder := do
  let b ← applyChecks (.ofBase (.number none)) r
  match (NumberRule.decimal [some (.ofInt 2)] none).run b with
  | (.ok _, after) => return after
  | (.error fault, _) => throw fault

/-- The expression that a handler gives for a node. -/
def handle (c : Compiler) (h : Handler) (node : Node) (below : Below)
    (isOptional : Bool) (fragment : Option Fragment) : Except Fault String :=
  let r := node.head
  match h with
  | .oneOf =>
    let b := ofValues (parameterTexts (r.check? "in"))
    .ok (finish (withEnumerationMessage b r) r isOptional fragment)
  | .enumeration =>
    .ok (finish (withEnumerationMessage (enumerationBuilder r) r) r isOptional fragment)
  | .reference => (referenceBuilder c.names r).map fun b => finish b r isOptional fragment
  | .universal => c.universal node below isOptional fragment
  | .amount .. => (amountBuilder r).map fun b => finish b r isOptional fragment

/-- The expression of a node by the first handler that accepts it. -/
def dispatch (c : Compiler) (node : Node) (below : Below) (isOptional : Bool)
    (fragment : Option Fragment) : Except Fault String := do
  c.handle (← c.registry.forField? node.head) node below isOptional fragment

mutual
/-- The expression of a node with a fragment. -/
def compile (c : Compiler) (isOptional : Bool) (fragment : Option Fragment) :
    Node → Except Fault String
  | .leaf h => c.dispatch (.leaf h) ⟨.ok none, .ok []⟩ isOptional fragment
  | .array h item =>
    c.dispatch (.array h item) ⟨(compile c false item.head.fragment item).map some, .ok []⟩
      isOptional fragment
  | .object h properties =>
    c.dispatch (.object h properties) ⟨.ok none, compileAll c properties⟩ isOptional fragment
/-- The expressions of properties; a dotted name has no place in the output. -/
def compileAll (c : Compiler) : List (String × Node) → Except Fault (Table String)
  | [] => .ok []
  | (name, child) :: rest => do
    if Text.contains name "." then compileAll c rest
    else
      let expression ← compile c (!child.head.isRequired) child.head.fragment child
      return (name, expression) :: (← compileAll c rest)
end

/-- The expression of a node with a given fragment, or else with its own. -/
def compileWith (c : Compiler) (isOptional : Bool) (fragment : Option Fragment) (node : Node) :
    Except Fault String :=
  c.compile isOptional (fragment.or node.head.fragment) node

end Compiler

end RuleSchema
