import RuleSchema.Yaml.Cursor

/-!
# Texts by indentation

A text may be written on lines of its own: below a bar, where its line breaks stay, or below an angle
bracket, where they are folded. The lines stand at one column, which the widest of the first blank
lines and the first line decide unless a digit gives it. A sign says what becomes of the breaks at
the end of the text.
-/

namespace RuleSchema.Yaml.Block

/-- What becomes of the breaks at the end of a text: one stays, none stays, or all stay. -/
inductive Ending where
  | one
  | none
  | all
deriving DecidableEq, Repr

namespace Ending

/-- The ending that a sign asks for. -/
def ofSign? (c : Char) : Option Ending :=
  if c == '-' then some .none else if c == '+' then some .all else Option.none

/-- What stays of the last line's break and of the breaks after it. -/
def kept (last : Char) (more : List Char) : Ending → List Char
  | one => [last]
  | none => []
  | all => last :: more

end Ending

/-- The number of columns that a digit asks for. -/
def columnsOf? (c : Char) : Option Nat :=
  if '1' ≤ c && c ≤ '9' then some (c.toNat - 48) else none

/-- What the first character stands for, if it stands for something, and the rest. -/
def takeSign {α : Type} (sign? : Char → Option α) (cs : List Char) : Option α × List Char :=
  match cs with
  | [] => (none, [])
  | c :: rest =>
    match sign? c with
    | some a => (some a, rest)
    | none => (none, cs)

/-- The next line, where nothing but spaces and a comment after them is left of this one. -/
def nextLine? (cs : List Char) : Option (List Char) :=
  let bare := Text.stripStart (· == ' ') cs
  let left := if bare.head? == some '#' && bare.length < cs.length
    then bare.dropWhile (! isBreak ·) else bare
  match left with
  | [] => some []
  | c :: rest => if isBreak c then some rest else none

/-- How a text is written: its ending, the column where a digit gives one, and its lines. A sign and
a digit may come in either order. -/
def header? (cs : List Char) : Option (Ending × Option Nat × List Char) :=
  let (before, cs) := takeSign Ending.ofSign? cs
  let (columns, cs) := takeSign columnsOf? cs
  let (behind, cs) := if before.isNone then takeSign Ending.ofSign? cs else (none, cs)
  (nextLine? cs).map fun lines => ((before.or behind).getD .one, columns, lines)

/-- The breaks of blank lines, how many spaces are still missing to the column of the text, and the
rest; `missing` spaces are missing at the start. -/
def blankLines (column : Nat) : Nat → List Char → List Char × Nat × List Char
  | missing, [] => ([], missing, [])
  | missing, c :: rest =>
    if c == ' ' && 0 < missing then blankLines column (missing - 1) rest
    else if isBreak c then
      let (breaks, left, r) := blankLines column column rest
      (breakChar c :: breaks, left, r)
    else ([], missing, c :: rest)

/-- The breaks of the first blank lines, the widest column reached, the column of what follows, and
the rest. -/
def firstLines (here widest : Nat) : List Char → List Char × Nat × Nat × List Char
  | [] => ([], widest, here, [])
  | c :: rest =>
    if c == ' ' then firstLines (here + 1) (max widest (here + 1)) rest
    else if isBreak c then
      let (breaks, w, h, r) := firstLines 0 widest rest
      (breakChar c :: breaks, w, h, r)
    else ([], widest, here, c :: rest)

/-- Whether a line starts with a blank, which keeps the breaks beside it. -/
def isIndented (cs : List Char) : Bool := cs.head?.any fun c => c == ' ' || c == '\t'

/-- What the break between two lines counts as; blank lines between them count on their own. -/
def joint (folds : Bool) (line : List Char) (last : Char) (breaks next : List Char) : List Char :=
  if folds && last == '\n' && !isIndented line && !isIndented next then
    if breaks.isEmpty then [' '] else []
  else [last]

/-- The text from the start of a line at its column, and the rest. -/
def linesFrom (folds : Bool) (ending : Ending) (column : Nat) :
    Nat → List Char → List Char × List Char
  | 0, cs => ([], cs)
  | fuel + 1, cs =>
    let line := cs.takeWhile (! isBreak ·)
    match cs.drop line.length with
    | [] => (line, [])
    | c :: after =>
      let (breaks, missing, next) := blankLines column column after
      if missing == 0 && !next.isEmpty then
        let (text, r) := linesFrom folds ending column fuel next
        (line ++ joint folds line (breakChar c) breaks next ++ breaks ++ text, r)
      else (line ++ ending.kept (breakChar c) breaks, next)

/-- The text after its bar or bracket, and the rest. Its lines start at column `least` or later. -/
def read? (folds : Bool) (least : Nat) (cs : List Char) : Option (List Char × List Char) :=
  (header? cs).map fun (ending, columns, lines) =>
    let least := max least 1
    let (column, breaks, missing, next) := match columns with
      | some n =>
        let column := least + n - 1
        (column, blankLines column column lines)
      | none =>
        let (breaks, widest, here, next) := firstLines 0 0 lines
        let column := max least widest
        (column, breaks, column - here, next)
    if missing == 0 && !next.isEmpty then
      let (text, r) := linesFrom folds ending column (next.length + 1) next
      (breaks ++ text, r)
    else (if ending == .all then breaks else [], next)

end RuleSchema.Yaml.Block
