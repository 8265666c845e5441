import RuleSchema.Message.Basic

/-!
# Message sessions

A session keeps the context that was set last. Setting a context writes the field, the rule, the
parameters and the numeric flag before the rules are read, so a rule that cannot be read leaves the
earlier rule names in place.
-/

namespace RuleSchema

/-- Messages with the context that was set last. -/
structure MessageSession where
  messages : Messages
  context : MessageContext

/-- A rule of the field, written or already read. -/
inductive GivenRule where
  | written (text : String)
  | read (entry : RuleEntry)
deriving DecidableEq, Repr

/-- The name of a given rule; a written one is read first. -/
def GivenRule.name : GivenRule → Except Fault String
  | written text => (RuleEntry.parse text).map RuleEntry.name
  | read entry => .ok entry.name

/-- A step of a session. -/
abbrev Asking (α : Type) := ExceptT Fault (StateM MessageSession) α

namespace MessageSession

/-- A session without a context. -/
def start (messages : Messages) : MessageSession := ⟨messages, ⟨none, none, [], false, []⟩⟩

/-- A rule name in its canonical spelling, unless it is empty. -/
def spelled (rule : String) : String :=
  if Text.isEmpty rule then rule else RuleName.canonical rule

/-- Sets the context from a field, a rule, parameters and the rules of the field. -/
def setContextOf (field rule : Option String) (parameters : List String) (isNumeric : Bool)
    (rules : List GivenRule) : Asking Unit := do
  modify fun s =>
    { s with context := ⟨field, rule.map spelled, parameters, isNumeric, s.context.ruleNames⟩ }
  match rules.mapM GivenRule.name with
  | .ok names => modify fun s => { s with context := { s.context with ruleNames := names } }
  | .error fault => throw fault

/-- Sets the context where all rules of the field are written. -/
def setContext (field rule : Option String) (parameters : List String) (isNumeric : Bool)
    (rules : List String) : Asking Unit :=
  setContextOf field rule parameters isNumeric (rules.map .written)

/-- The message in the context that was set last. -/
def message : Asking String := do
  let s ← get
  match s.messages.resolveIn s.context with
  | .ok text => return text
  | .error fault => throw fault

/-- Sets a context and gives its message. -/
def ask (field rule : Option String) (parameters : List String) (isNumeric : Bool) (rules : List String) :
    Asking String := do
  setContext field rule parameters isNumeric rules
  message

end MessageSession

end RuleSchema
