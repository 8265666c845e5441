import RuleSchema.Text.Escape
import RuleSchema.Yaml.Cursor

/-!
# Written scalars

A scalar is written plain or between quotes and may run over several lines. A single line break
between its lines counts as a space, and more of them count as one less.
-/

namespace RuleSchema.Yaml

/-- What the breaks of a fold count as: the first one is a space, unless others follow. -/
def foldedBreaks (first : Char) (more : List Char) : List Char :=
  if breakChar first != '\n' then breakChar first :: more
  else if more.isEmpty then [' '] else more

namespace Plain

/-- Whether a plain scalar may start here. -/
def startsHere (inFlow : Bool) : List Char → Bool
  | [] => false
  | c :: rest =>
    !(isGap c || "-?:,[]\x7b\x7d#&*!|>'\"%@\x60".toList.contains c) ||
      (!endsWord rest && (c == '-' || (!inFlow && (c == '?' || c == ':'))))

/-- Whether a word of a plain scalar ends before the characters. -/
def endsHere (inFlow : Bool) : List Char → Bool
  | [] => true
  | c :: rest =>
    isGap c ||
      (c == ':' && (endsWord rest || (inFlow && rest.head?.any (",[]\x7b\x7d".toList.contains ·)))) ||
      (inFlow && ",?[]\x7b\x7d".toList.contains c)

/-- The word at the head, and the rest. -/
def word (inFlow : Bool) : List Char → List Char × List Char
  | [] => ([], [])
  | c :: rest =>
    if endsHere inFlow (c :: rest) then ([], c :: rest)
    else ((word inFlow rest).1.cons c, (word inFlow rest).2)

/-- Further breaks of a fold, and the rest; a mark ends the document. -/
def moreBreaks? : List Char → Option (List Char × List Char)
  | [] => some ([], [])
  | c :: rest =>
    if c == ' ' then moreBreaks? rest
    else if isBreak c then
      if isMark rest then none else (moreBreaks? rest).map fun (bs, r) => (breakChar c :: bs, r)
    else some ([], c :: rest)

/-- What stands between two words, and the rest. -/
def between? (cs : List Char) : Option (List Char × List Char) :=
  let spaces := cs.takeWhile (· == ' ')
  match cs.drop spaces.length with
  | c :: rest =>
    if isBreak c then
      if isMark rest then none
      else (moreBreaks? rest).map fun (bs, r) => (foldedBreaks c bs, r)
    else if spaces.isEmpty then none
    else some (spaces, c :: rest)
  | [] => none

/-- The text of a plain scalar and the place after its last word. Outside brackets its lines start
at column `least` or later. -/
def read (inFlow : Bool) (least : Nat) : Nat → Cursor → List Char × Cursor
  | 0, c => ([], c)
  | fuel + 1, c =>
    let (first, rest) := word inFlow c.rest
    let after := c.movedTo rest
    match first, between? rest with
    | [], _ => ([], c)
    | _, none => (first, after)
    | _, some (filler, next) =>
      let place := after.movedTo next
      if next.head? == some '#' || (!inFlow && place.column < least) then (first, after)
      else
        match read inFlow least fuel place with
        | ([], _) => (first, after)
        | (more, final) => (first ++ filler ++ more, final)

end Plain

namespace Quotes

/-- The characters that a backslash and one character stand for. -/
def escapes : List (Char × Char) :=
  [('0', '\x00'), ('a', '\x07'), ('b', '\x08'), ('t', '\t'), ('\t', '\t'), ('n', '\n'),
    ('v', '\x0b'), ('f', '\x0c'), ('r', '\r'), ('e', '\x1b'), (' ', ' '), ('"', '"'), ('\\', '\\'),
    ('/', '/'), ('N', '\x85'), ('_', '\xa0'), ('L', '\u2028'), ('P', '\u2029')]

/-- The number of hexadecimal digits after a backslash and a letter. -/
def widthOf? (c : Char) : Option Nat :=
  if c == 'x' then some 2 else if c == 'u' then some 4 else if c == 'U' then some 8 else none

/-- The number in the next hexadecimal digits, and the rest. -/
def code? (width : Nat) (cs : List Char) : Option (Nat × List Char) :=
  if cs.length < width then none
  else (Text.hexNumber? (cs.take width)).map fun n => (n, cs.drop width)

/-- The character of a code, with the second half of a pair where the code is the first. -/
def character? (n : Nat) (rest : List Char) : Option (Char × List Char) :=
  if 0xD800 ≤ n && n < 0xDC00 then
    match rest with
    | '\\' :: 'u' :: more =>
      match code? 4 more with
      | some (m, after) =>
        if 0xDC00 ≤ m && m < 0xE000 then
          some (Char.ofNat (0x10000 + (n - 0xD800) * 0x400 + (m - 0xDC00)), after)
        else some ('\ufffd', rest)
      | none => some ('\ufffd', rest)
    | _ => some ('\ufffd', rest)
  else if 0xDC00 ≤ n && n < 0xE000 then some ('\ufffd', rest)
  else if n < 0x110000 then some (Char.ofNat n, rest)
  else none

/-- Further breaks of a fold, and the rest; a line must not start with a mark. -/
def moreBreaks? (atStart : Bool) : List Char → Option (List Char × List Char)
  | [] => some ([], [])
  | c :: rest =>
    if atStart && isMark (c :: rest) then none
    else if c == ' ' || c == '\t' then moreBreaks? false rest
    else if isBreak c then (moreBreaks? true rest).map fun (bs, r) => (breakChar c :: bs, r)
    else some ([], c :: rest)

/-- The text up to the closing quote, and the rest. Only double quotes know escapes; in single
quotes a quote is written twice. -/
def read? (double : Bool) : Nat → List Char → Option (List Char × List Char)
  | 0, _ => none
  | fuel + 1, cs =>
    let resume? (front rest : List Char) : Option (List Char × List Char) :=
      (read? double fuel rest).map fun (text, r) => (front ++ text, r)
    match cs with
    | [] => none
    | c :: rest =>
      if isGap c then
        let blanks := cs.takeWhile fun d => d == ' ' || d == '\t'
        match cs.drop blanks.length with
        | d :: after =>
          if isBreak d then
            (moreBreaks? true after).bind fun (bs, r) => resume? (foldedBreaks d bs) r
          else resume? blanks (d :: after)
        | [] => none
      else if double then
        if c == '"' then some ([], rest)
        else if c == '\\' then
          match rest with
          | [] => none
          | e :: after =>
            if isBreak e then (moreBreaks? true after).bind fun (bs, r) => resume? bs r
            else match widthOf? e with
              | some width =>
                ((code? width after).bind fun (n, r) => character? n r).bind fun (d, r) =>
                  resume? [d] r
              | none => ((escapes.find? (·.1 == e)).map (·.2)).bind fun d => resume? [d] after
        else resume? [c] rest
      else if c == '\'' then
        match rest with
        | '\'' :: after => resume? ['\''] after
        | _ => some ([], rest)
      else resume? [c] rest

end Quotes

end RuleSchema.Yaml
