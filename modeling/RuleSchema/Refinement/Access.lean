import RuleSchema.Script.Literal
import RuleSchema.Text.Case

/-!
# Reading data in refinements

Inside a refinement `data` is the object under validation. Fields are read by accessors that stop at
missing objects, issues name their field by a path, and conditions compare what was read.
-/

namespace RuleSchema.Refinement

/-- A level of indentation. -/
def indent : String := "    "

/-- A text between braces. -/
def braced (s : String) : String := "\x7b" ++ s ++ "\x7d"

/-- The names of a dotted path, empty ones left out. -/
def filledNames (path : String) : List String :=
  (Text.splitOn '.' path).filter (! Text.isEmpty ·)

/-- The step to the first name of a path. -/
def firstStep (name : String) : String :=
  if Script.isPlainName name then "." ++ name else "[" ++ Script.literal name ++ "]"

/-- The step to a later name of a path, which stops at a missing object. -/
def laterStep (name : String) : String :=
  if Script.isPlainName name then "?." ++ name else "?.[" ++ Script.literal name ++ "]"

/-- The accessor of a dotted path. -/
def accessor (path : String) : String :=
  match filledNames path with
  | [] => "data"
  | first :: rest => "data" ++ firstStep first ++ String.join (rest.map laterStep)

/-- The path of an issue. -/
def issuePath (path : String) : String := Script.literalList (filledNames path)

/-- The condition that a value is one of the given texts. -/
def valueCondition (value : String) (texts : List String) : String :=
  match texts.map fun t => Script.literal (Text.trim t) with
  | [only] => "String(" ++ value ++ ") === " ++ only
  | several => "[" ++ Text.join ", " several ++ "].includes(String(" ++ value ++ "))"

/-- The condition that a value is missing. -/
def missingCheck (value : String) : String := value ++ " === undefined || " ++ value ++ " === null"

/-- The condition that a value of a type counts as absent. -/
def emptyCheck (value inferred : String) : String :=
  let kind := Text.lower inferred
  if kind = "array" then "!Array.isArray(" ++ value ++ ") || " ++ value ++ ".length === 0"
  else if ["number", "boolean", "object", "file"].contains kind then missingCheck value
  else missingCheck value ++ " || String(" ++ value ++ ").trim() === ''"

/-- The words for acceptance or refusal in forms. -/
def decisionWords (accepted : Bool) : List String :=
  if accepted then ["yes", "on", "true", "1"] else ["no", "off", "false", "0"]

/-- The condition that a value expresses acceptance or refusal. -/
def acceptedCheck (value : String) (accepted : Bool) : String :=
  let words := Text.join " || "
    ((decisionWords accepted).map fun word => "normalized === \"" ++ word ++ "\"")
  let literal := if accepted then "true" else "false"
  let number := if accepted then "1" else "0"
  "((val) => " ++ braced (" if (val === undefined || val === null) " ++ braced " return false; " ++
    " if (typeof val === \"string\") " ++ braced (" const normalized = val.toLowerCase();" ++
    " if (" ++ words ++ ") " ++ braced " return true; " ++ " ") ++
    " return val === " ++ literal ++ " || val === " ++ number ++ "; ") ++ ")(" ++ value ++ ")"

/-- The lines that add an issue, some levels deep. -/
def addIssue (message path : String) (depth : Nat) : List String :=
  let pad := String.join (List.replicate depth indent)
  [pad ++ "ctx.addIssue(\x7b",
    pad ++ indent ++ "code: 'custom',",
    pad ++ indent ++ "message: " ++ Script.literal message ++ ",",
    pad ++ indent ++ "path: " ++ path ++ ",",
    pad ++ "\x7d);"]

/-- A block with its lines moved in by some levels; empty lines stay empty. -/
def indentBlock (level : Nat) (block : String) : String :=
  let pad := String.join (List.replicate level indent)
  Text.join "\n" ((Text.splitOn '\n' block).map fun line =>
    if Text.isEmpty line then line else pad ++ line)

/-- The refinement that runs all branches; nothing where there are none. -/
def render (branches : List String) : String :=
  if branches.isEmpty then ""
  else ".superRefine((data, ctx) => \x7b\n" ++
    Text.join "\n\n" (branches.map (indentBlock 1)) ++ "\n\x7d)"

end RuleSchema.Refinement
