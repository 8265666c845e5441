import RuleSchema.Yaml.Block
import RuleSchema.Yaml.Scalar
import RuleSchema.Yaml.Written

/-!
# Documents

A document holds one value: a scalar, or a list or a map written with brackets or by indentation.
The key of a map stands on one line with its colon; of equal keys the last value counts. A list may
stand at the column of the key that it belongs to. Reading follows the document with a bound on the
steps that its length gives.
-/

namespace RuleSchema.Yaml

/-- A value that was read, and the place after it. -/
abbrev Reading := Option (Datum × Cursor)

/-- Whether a datum can be a key. -/
def isKey : Datum → Bool
  | .list _ => false
  | .map _ => false
  | _ => true

/-- The entries of a map with one more. -/
def addEntry? (entries : List (Datum × Datum)) (key value : Datum) : Option (List (Datum × Datum)) :=
  if isKey key then some (Datum.putEntry entries key value) else none

/-- The place after the colon of a key that started on the given line. -/
def afterColon? (inFlow : Bool) (line : Nat) (c : Cursor) : Option Cursor :=
  if c.atColon inFlow && c.line == line then some (c.advance 1) else none

/-- The scalar at a place. Inside brackets there are no texts by indentation. -/
def scalar? (inFlow : Bool) (least : Nat) (c : Cursor) : Reading :=
  let blockText (folds : Bool) (rest : List Char) : Reading :=
    if inFlow then none
    else (Block.read? folds least rest).map fun (text, r) => (.text (String.ofList text), c.movedTo r)
  match c.rest with
  | '|' :: rest => blockText false rest
  | '>' :: rest => blockText true rest
  | '"' :: rest =>
    (Quotes.read? true (rest.length + 1) rest).map fun (text, r) => (.text (String.ofList text), c.movedTo r)
  | '\'' :: rest =>
    (Quotes.read? false (rest.length + 1) rest).map fun (text, r) => (.text (String.ofList text), c.movedTo r)
  | _ =>
    if Plain.startsHere inFlow c.rest then
      let (text, after) := Plain.read inFlow least (c.rest.length + 1) c
      (Scalar.value? text).map fun value => (value, after)
    else none

mutual
/-- A scalar, or a list or a map in brackets. -/
def item? (inFlow : Bool) (least : Nat) : Nat → Cursor → Reading
  | 0, _ => none
  | fuel + 1, c =>
    match c.rest.head? with
    | some '[' => (listItems? fuel [] (c.advance 1).skip).map fun (items, r) => (.list items, r)
    | some '\x7b' => (mapItems? fuel [] (c.advance 1).skip).map fun (entries, r) => (.map entries, r)
    | _ => scalar? inFlow least c
/-- The items of a list in brackets, from the place of the next one. An item with a colon is a map
of one entry. -/
def listItems? : Nat → List Datum → Cursor → Option (List Datum × Cursor)
  | 0, _, _ => none
  | fuel + 1, items, c =>
    if c.rest.head? == some ']' then some (items, c.advance 1)
    else do
      let (key, after) ← item? true 0 fuel c
      let next := after.skip
      let (value, next) ← match afterColon? true c.line next with
        | some place => do
          let (value, r) ← flowValue? fuel place.skip
          let entries ← addEntry? [] key value
          pure (Datum.map entries, r.skip)
        | none => pure (key, next)
      match next.rest.head? with
      | some ',' => listItems? fuel (items ++ [value]) (next.advance 1).skip
      | some ']' => some (items ++ [value], next.advance 1)
      | _ => none
/-- The entries of a map in brackets, from the place of the next one. -/
def mapItems? : Nat → List (Datum × Datum) → Cursor → Option (List (Datum × Datum) × Cursor)
  | 0, _, _ => none
  | fuel + 1, entries, c =>
    if c.rest.head? == some '\x7d' then some (entries, c.advance 1)
    else do
      let (key, after) ← item? true 0 fuel c
      let next := after.skip
      let (value, next) ← match afterColon? true c.line next with
        | some place => (flowValue? fuel place.skip).map fun (value, r) => (value, r.skip)
        | none => pure (.absent, next)
      let entries ← addEntry? entries key value
      match next.rest.head? with
      | some ',' => mapItems? fuel entries (next.advance 1).skip
      | some '\x7d' => some (entries, next.advance 1)
      | _ => none
/-- The value after a colon in brackets, which may be left out. -/
def flowValue? : Nat → Cursor → Reading
  | 0, _ => none
  | fuel + 1, c =>
    if [some ',', some ']', some '\x7d'].contains c.rest.head? then some (.absent, c)
    else item? true 0 fuel c
end

mutual
/-- The value at a place: a list or a map by indentation, or else an item. Its lines start at
column `least` or later. -/
def block? : Nat → Nat → Cursor → Reading
  | 0, _, _ => none
  | fuel + 1, least, c =>
    if c.atDash then
      (entries? fuel c.column false [] c).map fun (items, r) => (.list items, r)
    else do
      let (value, after) ← item? false least (4 * c.rest.length + 8) c
      match afterColon? false c.line after.skipSpaces with
      | some place =>
        (pairs? fuel c.column [] value place).map fun (found, r) => (.map found, r)
      | none => some (value, after)
/-- The items of a list by indentation, from the place of a dash. A list that belongs to a key at
its own column ends where no dash follows. -/
def entries? : Nat → Nat → Bool → List Datum → Cursor → Option (List Datum × Cursor)
  | 0, _, _, _, _ => none
  | fuel + 1, column, beside, items, c => do
    let place := c.advance 1
    let next := place.skip
    let (value, after) ←
      if next.atEnd || (next.line != place.line && next.column ≤ column) then
        pure (.absent, next)
      else block? fuel (column + 1) next
    let items := items ++ [value]
    let next := after.skip
    if next.atEnd || next.column < column then some (items, next)
    else if next.column == column && next.atDash then entries? fuel column beside items next
    else if next.column == column && beside then some (items, next)
    else none
/-- The entries of a map by indentation, from the place after the colon of a key. -/
def pairs? : Nat → Nat → List (Datum × Datum) → Datum → Cursor →
    Option (List (Datum × Datum) × Cursor)
  | 0, _, _, _, _ => none
  | fuel + 1, column, found, key, place => do
    let next := place.skip
    let (value, after) ←
      if next.atEnd then pure (.absent, next)
      else if next.line == place.line then item? false (column + 1) (4 * next.rest.length + 8) next
      else if column < next.column then block? fuel (column + 1) next
      else if next.column == column && next.atDash then
        (entries? fuel column true [] next).map fun (items, r) => (.list items, r)
      else pure (.absent, next)
    let found ← addEntry? found key value
    let next := after.skip
    if next.atEnd || next.column < column then some (found, next)
    else if next.column == column then do
      let (key, after) ← item? false (column + 1) (4 * next.rest.length + 8) next
      let place ← afterColon? false next.line after.skipSpaces
      pairs? fuel column found key place
    else none
end

/-- Whether a character may stand in a document. -/
def isPrintable (c : Char) : Bool :=
  let n := c.toNat
  n == 9 || n == 10 || n == 13 || (32 ≤ n && n ≤ 126) || n == 0x85 ||
    (0xA0 ≤ n && n != 0xFFFE && n != 0xFFFF)

/-- Characters with every carriage return, alone or before a line feed, as a line feed. -/
def lineFeeds : List Char → List Char
  | [] => []
  | '\r' :: '\n' :: rest => '\n' :: lineFeeds rest
  | c :: rest => (if c == '\r' then '\n' else c) :: lineFeeds rest

/-- Whether nothing but end marks follows. -/
def isFinished : Nat → Cursor → Bool
  | 0, _ => false
  | fuel + 1, c =>
    c.rest.isEmpty || (c.atEnd && c.rest.head? == some '.' && isFinished fuel (c.advance 3).skip)

/-- The value of the document at a place, which may start with a mark. -/
def root? (c : Cursor) : Reading :=
  let fuel := 4 * c.rest.length + 8
  if c.atEnd && c.rest.head? == some '-' then
    let place := c.advance 3
    let next := place.skip
    if next.atEnd then some (.absent, next)
    else if next.line == place.line then item? false 0 fuel next
    else block? fuel 0 next
  else if c.atEnd then some (.absent, c)
  else block? fuel 0 c

/-- The value of a text that holds one document. -/
def read? (s : String) : Option Datum := do
  let cs := lineFeeds s.toList
  let cs := match cs with
    | '\ufeff' :: rest => rest
    | _ => cs
  if cs.all isPrintable then
    let (value, after) ← root? (Cursor.start cs).skip
    if isFinished (cs.length + 1) after.skip then some value else none
  else none

end RuleSchema.Yaml
