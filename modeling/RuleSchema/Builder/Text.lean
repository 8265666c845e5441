import RuleSchema.Builder.Length
import RuleSchema.Script.DateFormat
import RuleSchema.Script.Pattern

/-!
# Rules on texts

The rules of plain texts, addresses and passwords. A rule without a counterpart among the calls of
the target becomes a check of its own; a check that replaces an earlier one of the same rule carries
a mark in a comment.
-/

namespace RuleSchema.TextRule

/-- A text between braces. -/
def braces (s : String) : String := "\x7b" ++ s ++ "\x7d"

/-- The last argument of a check: its escaped message. -/
def messageOption (escaped : String) : String := braces (" message: '" ++ escaped ++ "' ")

/-- A check given by an expression. -/
def refine (condition escaped : String) : String :=
  ".refine((val) => " ++ condition ++ ", " ++ messageOption escaped ++ ")"

/-- A check given by statements. -/
def refineBlock (statements escaped : String) : String :=
  refine (braces (statements ++ " ")) escaped

/-- The statement that lets a missing value pass or fail. -/
def whenMissing (result : String) : String :=
  " if (val === undefined || val === null) " ++ braces (" return " ++ result ++ "; ")

/-- The statement that decides about a value that is no text. -/
def whenNoText (result : String) : String :=
  " if (typeof val !== \"string\") " ++ braces (" return " ++ result ++ "; ")

/-- A comment that marks a check. -/
def mark (name : String) : String := " /*" ++ name ++ "*/"

/-- A check by a pattern. -/
def matching (pattern : String) (message : Option String) : String :=
  ".regex(" ++ pattern ++ Script.messageArgument message ++ ")"

/-- The message of the required rule where none is given. -/
def defaultRequired : String := "This field is required."

/-- The format that takes the place of the base expression, if one does. -/
def override? (b : Builder) : Option String :=
  match b.base with
  | .text o => o
  | .url o _ _ => o
  | .password o => o
  | _ => none

/-- A builder whose base expression is a format. -/
def setOverride (expression : String) (b : Builder) : Builder :=
  match b.base with
  | .text _ => { b with base := .text (some expression) }
  | .url _ m p => { b with base := .url (some expression) m p }
  | .password _ => { b with base := .password (some expression) }
  | _ => b

/-- The required rule: a check behind a format, a message and a least length otherwise. -/
def required : RuleMethod := fun _ message => do
  let escaped := escapedOr message defaultRequired
  if (override? (← get)).isSome then
    modify (·.removeContaining "__required_refine__")
    Building.add (refineBlock (whenMissing "false" ++
      " if (typeof val === \"string\") " ++ braces " return val.trim() !== \"\"; " ++
      " return true;") escaped ++ mark "__required_refine__")
  else
    modify fun b => { b with requiredMessage := some escaped }
    Length.requireNonEmpty message

/-- The first argument as a text that is not empty. -/
def firstText? (arguments : List Argument) : Option String :=
  Text.nonEmpty? (arguments.head?.map Argument.display)

/-- Matches a pattern. -/
def regex : RuleMethod := fun arguments message =>
  match firstText? arguments with
  | none => pure ()
  | some text => do
    let pattern := Script.Pattern.convert text
    modify (·.removeContaining (".regex(" ++ pattern))
    Building.add (matching pattern message)

/-- Does not match a pattern. -/
def notRegex : RuleMethod := fun arguments message =>
  match firstText? arguments with
  | none => pure ()
  | some text =>
    Building.add (refineBlock (whenMissing "true" ++ " return !" ++ Script.Pattern.convert text ++
      ".test(val);") (escapedOr message "The value format is invalid."))

/-- A universally unique identifier. -/
def uuid : RuleMethod := fun _ message =>
  Building.replace "uuid" (match message with
    | none => ".uuid()"
    | some m => ".uuid('" ++ Script.escape m ++ "')")

/-- A check by a pattern in place of an earlier one with the same mark. -/
def marked (name pattern : String) : RuleMethod := fun _ message => do
  modify (·.removeContaining name)
  Building.add (matching pattern message ++ mark name)

/-- A call that takes only a message. -/
def cased (method fallback : String) : RuleMethod := fun _ message =>
  Building.replace method ("." ++ method ++ "('" ++ escapedOr message fallback ++ "')")

/-- The literals of all arguments. -/
def literals (arguments : List Argument) : String :=
  Script.literalList (arguments.map Argument.display)

/-- Starts or ends with one of the arguments. -/
def affixed (method affix fallback : String) : RuleMethod := fun arguments message =>
  match arguments with
  | [] => pure ()
  | [only] =>
    Building.replace method ("." ++ method ++ "('" ++ Script.escape only.display ++ "'" ++
      Script.messageArgument message ++ ")")
  | several =>
    Building.replace method (refineBlock (whenMissing "true" ++ whenNoText "false" ++ " return " ++
      literals several ++ ".some((" ++ affix ++ ") => val." ++ method ++ "(" ++ affix ++ "));")
      (escapedOr message fallback))

/-- Starts or ends with none of the arguments. -/
def notAffixed (method affix fallback : String) : RuleMethod := fun arguments message =>
  match arguments with
  | [] => pure ()
  | several =>
    Building.add (refineBlock (whenMissing "true" ++ whenNoText "true" ++ " return !" ++
      literals several ++ ".some((" ++ affix ++ ") => val." ++ method ++ "(" ++ affix ++ "));")
      (escapedOr message fallback))

/-- Is or is not one of the arguments. -/
def listed (negation : String) : RuleMethod := fun arguments message =>
  match arguments with
  | [] => pure ()
  | several =>
    Building.add (refine (negation ++ literals several ++ ".includes(val)")
      (escapedOr message "The selected value is invalid."))

/-- Is a JSON document. -/
def json : RuleMethod := fun _ message =>
  Building.add (refineBlock (whenMissing "true" ++ whenNoText "false" ++ " try " ++
    braces " JSON.parse(val); return true; " ++ " catch (error) " ++ braces " return false; ")
    (escapedOr message "The value must be valid JSON."))

/-- The call of a format with its message. -/
def formatCall (format : String) (message : Option String) : String :=
  match message with
  | none => "z." ++ format ++ "()"
  | some m => "z." ++ format ++ "(" ++ messageOption (Script.escape m) ++ ")"

/-- A format takes the place of the base expression. -/
def format (name : String) : RuleMethod := fun _ message =>
  modify (setOverride (formatCall name message))

/-- Either format of internet addresses takes the place of the base expression. -/
def ip : RuleMethod := fun _ message =>
  modify (setOverride ("z.union([" ++ formatCall "ipv4" message ++ ", " ++
    formatCall "ipv6" message ++ "])"))

/-- The pattern of hardware addresses. -/
def macPattern : String :=
  "/^(?:[0-9A-Fa-f]\x7b2\x7d[:-])\x7b5\x7d[0-9A-Fa-f]\x7b2\x7d$" ++
    "|^[0-9A-Fa-f]\x7b4\x7d\\.[0-9A-Fa-f]\x7b4\x7d\\.[0-9A-Fa-f]\x7b4\x7d$/"

/-- Is a hardware address. -/
def macAddress : RuleMethod := fun _ message => do
  modify (·.removeContaining "__mac_refine__")
  Building.add (refineBlock (whenMissing "true" ++ whenNoText "false" ++ " return " ++ macPattern ++
    ".test(val);") (escapedOr message "The value must be a valid MAC address.") ++
    mark "__mac_refine__")

/-- Is a date. -/
def date : RuleMethod := fun _ message =>
  Building.add (refineBlock (whenMissing "true" ++ whenNoText "false" ++
    " const timestamp = Date.parse(val); return !Number.isNaN(timestamp);")
    (escapedOr message "The value must be a valid date."))

/-- Has one of the formats; a format without a pattern accepts every text that is not empty. -/
def dateFormat : RuleMethod := fun arguments message =>
  let formats := (arguments.map Argument.display).filter (! Text.isEmpty ·)
  if formats.isEmpty then pure ()
  else do
    let patterns := (formats.mapM Script.DateFormat.pattern?).getD ["/^.+$/"]
    modify (·.removeContaining "__date_format__")
    match patterns with
    | [only] => Building.add (matching only message ++ mark "__date_format__")
    | several =>
      Building.add (refineBlock (whenMissing "true" ++ " return " ++
        Text.join " || " (several.map (· ++ ".test(val)")) ++ ";")
        (escapedOr message "The value does not match the expected date format.") ++
        mark "__date_format__")

/-- The address rule: a message and the protocols that it allows. -/
def url : RuleMethod := fun arguments message =>
  modify fun b =>
    match b.base with
    | .url o m p =>
      let allowed := (arguments.filter Option.isSome).map Argument.display |>.filter (! Text.isEmpty ·)
      { b with base := .url o ((message.map Script.escape).or m)
                (if allowed.isEmpty then p else some (Script.Pattern.ofProtocols allowed)) }
    | _ => b

/-- A check of a password by a pattern. -/
def passwordPattern (pattern fallback : String) : RuleMethod := fun _ message =>
  Building.add (".regex(" ++ pattern ++ ", '" ++ escapedOr message fallback ++ "')")

/-- Has letters of both cases. -/
def passwordMixed : RuleMethod := fun _ message =>
  Building.add (refine "/[a-z]/.test(val) && /[A-Z]/.test(val)" (escapedOr message
    "The password must contain at least one uppercase and one lowercase letter."))

/-- The rules of plain texts; the rules on lengths come with them. -/
def methods : List (String × RuleMethod) :=
  [("required", required), ("string", Building.nothing), ("regex", regex),
    ("not_regex", notRegex), ("uuid", uuid),
    ("alpha", marked "__alpha__" "/^[A-Za-z]+$/"),
    ("alpha_dash", marked "__alpha_dash__" "/^[A-Za-z0-9_-]+$/"),
    ("alpha_num", marked "__alpha_num__" "/^[A-Za-z0-9]+$/"),
    ("ascii", marked "__ascii__" "/^[\\x00-\\x7F]+$/"),
    ("lowercase", cased "lowercase" "The value must be lowercase."),
    ("uppercase", cased "uppercase" "The value must be uppercase."),
    ("starts_with", affixed "startsWith" "prefix" "The value has an invalid prefix."),
    ("ends_with", affixed "endsWith" "suffix" "The value has an invalid ending."),
    ("doesnt_start_with", notAffixed "startsWith" "prefix" "The value has a forbidden prefix."),
    ("doesnt_end_with", notAffixed "endsWith" "suffix" "The value has a forbidden ending."),
    ("in", listed ""), ("not_in", listed "!"), ("json", json), ("ip", ip), ("ipv4", format "ipv4"),
    ("ipv6", format "ipv6"), ("ulid", format "ulid"), ("mac_address", macAddress), ("date", date),
    ("date_format", dateFormat)] ++ Length.methods

/-- The rules of addresses beyond those of texts. -/
def urlMethods : List (String × RuleMethod) := ("url", url) :: methods

/-- The rules of passwords beyond those of texts. -/
def passwordMethods : List (String × RuleMethod) :=
  [("password", Building.nothing),
    ("password_letters",
      passwordPattern "/[a-zA-Z]/" "The password must contain at least one letter."),
    ("password_mixed", passwordMixed),
    ("password_numbers", passwordPattern "/\\d/" "The password must contain at least one number."),
    ("password_symbols",
      passwordPattern "/[^a-zA-Z0-9]/" "The password must contain at least one symbol."),
    ("password_uncompromised", Building.nothing)] ++ methods

end RuleSchema.TextRule
