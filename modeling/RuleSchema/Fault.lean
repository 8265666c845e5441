import RuleSchema.Text.Escape

/-!
# Faults

Every way in which compiling can fail, as its cause. The compiler's own faults have a text and a
diagnostic form; the others only carry what is known about them.
-/

namespace RuleSchema

/-- The causes for which a file cannot be read or written. -/
inductive FileFault where
  | missing
  | isDirectory
  | notDirectory
  | occupied
deriving DecidableEq, Repr

/-- The text of a cause at a path. -/
def FileFault.message (path : String) : FileFault → String
  | missing => "[Errno 2] No such file or directory: " ++ Text.Quoted.encode path
  | isDirectory => "[Errno 21] Is a directory: " ++ Text.Quoted.encode path
  | notDirectory => "[Errno 20] Not a directory: " ++ Text.Quoted.encode path
  | occupied => "[Errno 17] File exists: " ++ Text.Quoted.encode path

/-- The causes of failure. -/
inductive Fault where
  /-- A message was asked for before its context was set. -/
  | messageContext (missing : String) (field rule : Option String)
  /-- A field inherits from a class or field that is not there. -/
  | inheritance (targetClass targetField sourceClass reason : String)
  /-- No handler accepts a property. -/
  | noHandler (field : Option String) (inferredType : String)
  /-- A configuration, message or definition file cannot be used; the detail may lie with the
  reader of the file. -/
  | configuration (path : String) (detail : Option String)
  /-- A compiler fault without a more specific cause. -/
  | general (message : String)
  /-- A record of the named kind has a field outside its type. -/
  | invalidRecord (kind : String)
  /-- A value is not acceptable where it stands. -/
  | invalidValue (message : Option String)
  /-- A value is of the wrong sort. -/
  | wrongSort (message : Option String)
  /-- The parameters of a rule are not one comma-separated record. -/
  | malformedParameters
  /-- A key is not present. -/
  | missingKey
  /-- A value has no such part. -/
  | missingPart
  /-- A position lies outside a list. -/
  | outOfRange
  /-- An integer is too large for a floating-point number. -/
  | tooLarge
  /-- A file cannot be read or written. -/
  | file (cause : FileFault)
deriving DecidableEq, Repr

namespace Fault

/-- Quoted text, or the word for no value. -/
def quoteOption : Option String → String
  | some s => Text.Quoted.encode s
  | none => "None"

/-- Text, or the word for no value. -/
def textOption : Option String → String
  | some s => s
  | none => "None"

/-- The text of a fault, where it has one. -/
def message? : Fault → Option String
  | messageContext missing field rule =>
    some ("Cannot resolve validation message: " ++ missing ++ " is not set (field=" ++
      quoteOption field ++ ", rule=" ++ quoteOption rule ++
      "). Call with_context() with a field, a rule and a message source first.")
  | inheritance targetClass targetField sourceClass reason =>
    some ("Cannot inherit validation for '" ++ targetClass ++ "." ++ targetField ++ "' from '" ++
      sourceClass ++ "': " ++ reason)
  | noHandler field inferredType =>
    some ("No type handler registered for field '" ++ textOption field ++ "' (inferred type: '" ++
      inferredType ++
      "'). Register a handler for this type or keep the universal fallback handler.")
  | configuration path detail =>
    detail.map fun d => "Failed to load configuration from " ++ path ++ ": " ++ d
  | general message => some message
  | invalidValue message => message
  | wrongSort message => message
  | _ => none

/-- The diagnostic form of a fault, where it has one. -/
def diagnostic? : Fault → Option String
  | messageContext missing field rule =>
    some ("MessageResolutionError(missing=" ++ Text.Quoted.encode missing ++ ", field=" ++
      quoteOption field ++ ", rule=" ++ quoteOption rule ++ ")")
  | inheritance targetClass targetField sourceClass _ =>
    some ("InheritanceResolutionError(target=" ++ targetClass ++ "." ++ targetField ++
      ", source=" ++ Text.Quoted.encode sourceClass ++ ")")
  | noHandler field inferredType =>
    some ("NoHandlerFoundError(field=" ++ quoteOption field ++ ", type=" ++
      Text.Quoted.encode inferredType ++ ")")
  | configuration path _ => some ("ConfigurationError(path=" ++ Text.Quoted.encode path ++ ")")
  | general message => some ("SchemaCompilerError(" ++ Text.Quoted.encode message ++ ")")
  | _ => none

/-- The text of a fault as it is reported to a user. -/
def report (f : Fault) : String :=
  match f with
  | configuration path none => "Failed to load configuration from " ++ path ++ ": malformed content"
  | f => f.message?.getD "Malformed input"

/-- Whether a fault counts as an unacceptable value; an invalid record does. -/
def isValueFault : Fault → Bool
  | invalidValue _ => true
  | invalidRecord _ => true
  | _ => false

/-- Whether a fault is one of the compiler's own. -/
def isOwn : Fault → Bool
  | messageContext .. | inheritance .. | noHandler .. | configuration .. | general _ => true
  | _ => false

end Fault

end RuleSchema
