import RuleSchema.Fragment
import RuleSchema.Node.Tree
import RuleSchema.Rule.Entry
import RuleSchema.Table

/-!
# Resolved fields

A field after resolution: its checks with their messages, its type and its fragment. A node is a tree
of such fields.
-/

namespace RuleSchema

/-- A rule with its message. -/
structure Check where
  rule : String
  parameters : List Parameter
  message : Option String
  /-- Whether the rule makes the field required. -/
  isRequired : Bool
  /-- Whether the rule lets the field be null. -/
  isNullable : Bool
deriving DecidableEq, Repr

/-- A field whose rules have been resolved. -/
structure Resolved where
  path : String
  checks : List Check
  inferredType : String
  fragment : Option Fragment
deriving DecidableEq, Repr

instance : Inhabited Resolved := ⟨⟨"", [], "string", none⟩⟩

/-- A resolved field with everything below it. -/
abbrev Node := Tree Resolved

namespace Resolved

/-- Whether the field has to be there. -/
def isRequired (r : Resolved) : Bool := r.checks.any Check.isRequired

/-- Whether the field may be null. -/
def isNullable (r : Resolved) : Bool := r.checks.any Check.isNullable

/-- The first check of a rule. -/
def check? (r : Resolved) (rule : String) : Option Check := r.checks.find? (·.rule == rule)

/-- Whether a rule is present. -/
def has (r : Resolved) (rule : String) : Bool := r.checks.any (·.rule == rule)

/-- All checks of a rule. -/
def checksOf (r : Resolved) (rule : String) : List Check := r.checks.filter (·.rule == rule)

/-- The message of the first check of a rule. -/
def message? (r : Resolved) (rule : String) : Option String := (r.check? rule).bind Check.message

/-- The rule names in order. -/
def ruleNames (r : Resolved) : List String := r.checks.map Check.rule

/-- Whether the field is an array. -/
def isArray (r : Resolved) : Bool := r.inferredType == "array"

/-- Whether the field is an object. -/
def isObject (r : Resolved) : Bool := r.inferredType == "object"

end Resolved

/-- The node of its parts; it has items or properties but not both. -/
def Node.ofParts (head : Resolved) (item : Option Node) (properties : Option (Table Node)) :
    Except Fault Node :=
  match item, properties with
  | some _, some _ => .error (.invalidRecord "ResolvedValidationSet")
  | some below, none => .ok (.array head below)
  | none, some below => .ok (.object head below)
  | none, none => .ok (.leaf head)

/-- A node with another fragment. -/
def Tree.setFragment (n : Node) (fragment : Option Fragment) : Node :=
  n.setHead { n.head with fragment := fragment }

end RuleSchema
