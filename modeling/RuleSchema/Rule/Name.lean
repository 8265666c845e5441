import RuleSchema.Text.Blank
import RuleSchema.Text.Case
import RuleSchema.Text.Cut

/-!
# Names and families of rules

A rule name is written in lower case with underscores. Studly spellings are folded to that form, and
two short names stand for longer ones. Families group the rules that the compiler treats alike.
-/

namespace RuleSchema.RuleName

/-- Whether an upper-case letter after this character starts a new word. -/
def endsWord (c : Char) : Bool := ('a' ≤ c && c ≤ 'z') || ('0' ≤ c && c ≤ '9')

/-- Characters with an underscore in front of every capital that starts a new word. -/
def separateWords (afterWord : Bool) : List Char → List Char
  | [] => []
  | c :: rest =>
    if afterWord && 'A' ≤ c && c ≤ 'Z' then '_' :: c :: separateWords (endsWord c) rest
    else c :: separateWords (endsWord c) rest

/-- Lower-case spelling with underscores. -/
def snakeChars (cs : List Char) : List Char := Text.lowerChars (separateWords false cs)

/-- Lower-case spelling with underscores. -/
def snake (s : String) : String := String.ofList (snakeChars s.toList)

/-- Short names and what they stand for. -/
def aliases : List (String × String) := [("int", "integer"), ("bool", "boolean")]

/-- The canonical spelling of a rule name. -/
def canonical (name : String) : String :=
  let spelled := String.ofList (snakeChars (Text.trimChars name.toList))
  (aliases.lookup spelled).getD spelled

/-- The spelling of a rule name with capitals in place of underscores. -/
def camel (name : String) : String :=
  match Text.splitOn '_' name with
  | [] => ""
  | head :: rest => head ++ String.join (rest.map Text.capitalizeFirst)

end RuleSchema.RuleName

namespace RuleSchema

/-- Families of rules. -/
inductive Family where
  | numeric
  | file
  | size
  | implicit
  | dependent
  | presence
  | required
  | conditionalField
  | crossField
  | wholeParameter
deriving DecidableEq, Repr

namespace Family

/-- All families. -/
def all : List Family :=
  [numeric, file, size, implicit, dependent, presence, required, conditionalField, crossField,
    wholeParameter]

/-- The rules of a family. -/
def rules : Family → List String
  | numeric => ["decimal", "numeric", "integer"]
  | file =>
    ["between", "dimensions", "extensions", "file", "image", "max", "mimes", "mimetypes", "min",
      "size"]
  | size => ["size", "between", "min", "max", "gt", "lt", "gte", "lte"]
  | implicit =>
    ["accepted", "accepted_if", "declined", "declined_if", "filled", "missing", "missing_if",
      "missing_unless", "missing_with", "missing_with_all", "present", "present_if",
      "present_unless", "present_with", "present_with_all", "required", "required_if",
      "required_if_accepted", "required_if_declined", "required_unless", "required_with",
      "required_with_all", "required_without", "required_without_all"]
  | dependent =>
    ["after", "after_or_equal", "before", "before_or_equal", "confirmed", "different",
      "exclude_if", "exclude_unless", "exclude_with", "exclude_without", "gt", "gte", "lt", "lte",
      "accepted_if", "declined_if", "required_if", "required_if_accepted", "required_if_declined",
      "required_unless", "required_with", "required_with_all", "required_without",
      "required_without_all", "present_if", "present_unless", "present_with", "present_with_all",
      "prohibited", "prohibited_if", "prohibited_unless", "prohibits", "missing_if",
      "missing_unless", "missing_with", "missing_with_all", "same", "unique"]
  | presence => ["required", "nullable", "optional", "sometimes", "bail"]
  | required => ["required", "present"]
  | conditionalField =>
    ["required_if", "required_unless", "accepted_if", "declined_if", "prohibited_if",
      "prohibited_unless", "missing_if", "missing_unless", "present_if", "present_unless",
      "exclude_if", "exclude_unless"]
  | crossField =>
    ["required_if", "accepted_if", "declined_if", "confirmed", "same", "different", "after",
      "after_or_equal", "before", "before_or_equal", "date_equals"]
  | wholeParameter => ["regex", "not_regex"]

/-- Whether a rule belongs to a family. -/
def contains (family : Family) (rule : String) : Bool := family.rules.contains rule

/-- The families of a rule. -/
def ofRule (rule : String) : List Family := all.filter (·.contains rule)

end Family

end RuleSchema
