import RuleSchema.Text.Blank

/-!
# Comma-separated records

One record of comma-separated fields. Spaces before a field are skipped. A field that starts with a
double quote runs to the closing quote, with a doubled quote for a quote, and takes what follows
up to the next comma as it stands; a quote left open runs to the end. A line break outside quotes
ends the record, and then only line breaks may follow.
-/

namespace RuleSchema.Text.Record

/-- Where the reader stands. -/
inductive Place where
  | recordStart
  | fieldStart
  | inPlain
  | inQuotes
  | afterQuote
  | afterBreak
deriving DecidableEq, Repr

/-- The largest number of characters that one field may hold. -/
def fieldLimit : Nat := 131072

/-- Whether a character breaks a record. -/
def isBreak (c : Char) : Bool := c == '\n' || c == '\r'

/-- The rest of a record, with the characters read so far of the current field, last first. -/
def scan : Place → List Char → List Char → Option (List (List Char))
  | .recordStart, _, [] => some []
  | .afterBreak, _, [] => some []
  | _, field, [] => some [field.reverse]
  | .afterBreak, field, c :: rest => if isBreak c then scan .afterBreak field rest else none
  | .inQuotes, field, c :: rest =>
    if c == '"' then scan .afterQuote field rest else scan .inQuotes (c :: field) rest
  | .inPlain, field, c :: rest =>
    if isBreak c then (scan .afterBreak [] rest).map (field.reverse :: ·)
    else if c == ',' then (scan .fieldStart [] rest).map (field.reverse :: ·)
    else scan .inPlain (c :: field) rest
  | .afterQuote, field, c :: rest =>
    if c == '"' then scan .inQuotes (c :: field) rest
    else if c == ',' then (scan .fieldStart [] rest).map (field.reverse :: ·)
    else if isBreak c then (scan .afterBreak [] rest).map (field.reverse :: ·)
    else scan .inPlain (c :: field) rest
  | .fieldStart, field, c :: rest =>
    if isBreak c then (scan .afterBreak [] rest).map (field.reverse :: ·)
    else if c == '"' then scan .inQuotes field rest
    else if c == ' ' then scan .fieldStart field rest
    else if c == ',' then (scan .fieldStart [] rest).map (field.reverse :: ·)
    else scan .inPlain (c :: field) rest
  | .recordStart, field, c :: rest =>
    if isBreak c then scan .afterBreak field rest
    else if c == '"' then scan .inQuotes field rest
    else if c == ' ' then scan .fieldStart field rest
    else if c == ',' then (scan .fieldStart [] rest).map (field.reverse :: ·)
    else scan .inPlain (c :: field) rest

/-- The fields of one record, or nothing when text follows a line break or a field is too long. -/
def read? (cs : List Char) : Option (List (List Char)) :=
  (scan .recordStart [] cs).bind fun fields =>
    if fields.all (·.length ≤ fieldLimit) then some fields else none

@[simp] theorem read?_nil : read? [] = some [] := rfl

end RuleSchema.Text.Record
