import RuleSchema.Text.Blank

/-!
# Places in a document

A cursor is a place in a document: what is left of it, and the line and the column where that
starts. Between tokens stand spaces, line breaks and comments.
-/

namespace RuleSchema.Yaml

/-- Characters that end a line. -/
def isBreak (c : Char) : Bool := c == '\n' || c == '\x85' || c == '\u2028' || c == '\u2029'

/-- The character that a line break counts as in a text. -/
def breakChar (c : Char) : Char := if c == '\x85' then '\n' else c

/-- Characters between words. -/
def isGap (c : Char) : Bool := c == ' ' || c == '\t' || isBreak c

/-- Whether a word ends before the characters that follow. -/
def endsWord : List Char → Bool
  | [] => true
  | c :: _ => isGap c

/-- Whether a line starts with the mark that starts or ends a document. -/
def isMark : List Char → Bool
  | '-' :: '-' :: '-' :: rest => endsWord rest
  | '.' :: '.' :: '.' :: rest => endsWord rest
  | _ => false

/-- A place in a document. -/
structure Cursor where
  rest : List Char
  line : Nat
  column : Nat
deriving DecidableEq, Repr

namespace Cursor

/-- The place at the start of a document. -/
def start (cs : List Char) : Cursor := ⟨cs, 0, 0⟩

/-- The place after a number of characters. -/
def advance : Nat → Cursor → Cursor
  | n + 1, ⟨c :: rest, line, column⟩ =>
    advance n (if isBreak c then ⟨rest, line + 1, 0⟩ else ⟨rest, line, column + 1⟩)
  | _, c => c

/-- The place at which the given characters are left. -/
def movedTo (c : Cursor) (rest : List Char) : Cursor := c.advance (c.rest.length - rest.length)

/-- The place after spaces, line breaks and comments. -/
def skipFrom (inComment : Bool) : List Char → List Char
  | [] => []
  | c :: rest =>
    if isBreak c then skipFrom false rest
    else if inComment then skipFrom true rest
    else if c == ' ' then skipFrom false rest
    else if c == '#' then skipFrom true rest
    else c :: rest

/-- The place of the next token. -/
def skip (c : Cursor) : Cursor := c.movedTo (skipFrom false c.rest)

/-- The place after spaces on the same line. -/
def skipSpaces (c : Cursor) : Cursor := c.movedTo (Text.stripStart (· == ' ') c.rest)

/-- Whether a document ends at a place. -/
def atEnd (c : Cursor) : Bool := c.rest.isEmpty || (c.column == 0 && isMark c.rest)

/-- Whether an entry of a sequence starts at a place. -/
def atDash (c : Cursor) : Bool :=
  match c.rest with
  | '-' :: rest => endsWord rest
  | _ => false

/-- Whether the colon of a key stands at a place; inside brackets any colon is one. -/
def atColon (inFlow : Bool) (c : Cursor) : Bool :=
  match c.rest with
  | ':' :: rest => inFlow || endsWord rest
  | _ => false

end Cursor

end RuleSchema.Yaml
