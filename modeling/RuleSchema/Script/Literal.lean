import RuleSchema.Text.Cut
import RuleSchema.Text.CharacterClass

/-!
# Literals and keys of scripts

Texts inside single-quoted literals are escaped character by character, so no text ends its literal
early. Texts inside the double-quoted messages of enumerations are escaped with slashes. A property
is written bare where it is an identifier.
-/

namespace RuleSchema.Script

/-- One character inside a single-quoted literal. -/
def escapeChar (c : Char) : List Char :=
  if c = '\\' then ['\\', '\\']
  else if c = '\'' then ['\\', '\'']
  else if c = '"' then ['\\', '"']
  else if c = '\n' then ['\\', 'n']
  else if c = '\r' then ['\\', 'r']
  else if c = '\t' then ['\\', 't']
  else [c]

/-- A text inside a single-quoted literal. -/
def escape (s : String) : String := String.ofList (s.toList.flatMap escapeChar)

/-- A single-quoted literal. -/
def literal (s : String) : String := "'" ++ escape s ++ "'"

/-- A message as a further argument of a call. -/
def messageArgument : Option String → String
  | none => ""
  | some m => ", '" ++ escape m ++ "'"

/-- One character with a slash in front of quotes, backslashes and the null character. -/
def addSlash (c : Char) : List Char :=
  if c = '\\' ∨ c = '\'' ∨ c = '"' then ['\\', c]
  else if c.toNat = 0 then ['\\', '0']
  else [c]

/-- A text with slashes in front of quotes, backslashes and null characters. -/
def addSlashes (s : String) : String := String.ofList (s.toList.flatMap addSlash)

/-- A list of single-quoted literals. -/
def literalList (values : List String) : String :=
  "[" ++ Text.join ", " (values.map literal) ++ "]"

/-- Characters without one final line feed. -/
def dropFinalFeed (cs : List Char) : List Char :=
  match cs.getLast? with
  | some '\n' => cs.dropLast
  | _ => cs

/-- Whether characters, a final line feed aside, are one of the first kind followed by others of the
second. -/
def isSequence (first rest : Char → Bool) (cs : List Char) : Bool :=
  match dropFinalFeed cs with
  | [] => false
  | c :: more => first c && more.all rest

/-- ASCII letters and the underscore. -/
def isPlainStart (c : Char) : Bool := c.isAlpha || c == '_'

/-- Whether a text can be a property key without quotes. -/
def isBareKey (s : String) : Bool :=
  isSequence (fun c => isPlainStart c || c == '$') (fun c => Text.isWord c || c == '$') s.toList

/-- The key of a property in an object literal. -/
def propertyKey (name : String) : String := if isBareKey name then name else literal name

/-- Whether a text can follow a dot in an accessor. -/
def isPlainName (s : String) : Bool :=
  isSequence isPlainStart (fun c => isPlainStart c || c.isDigit) s.toList

end RuleSchema.Script
