import RuleSchema.Text.CharacterClass

/-!
# Date formats

A date format becomes a pattern: each format letter stands for its texts, and every other character
for itself. A format with a letter of no fixed shape has no pattern.
-/

namespace RuleSchema.Script.DateFormat

/-- Format letters and the patterns of their texts. -/
def tokens : List (Char × String) :=
  [('d', "\\d\x7b2\x7d"), ('j', "\\d\x7b1,2\x7d"), ('D', "[A-Za-z]\x7b3\x7d"), ('l', "[A-Za-z]+"),
    ('N', "[1-7]"), ('S', "(?:st|nd|rd|th)"), ('w', "[0-6]"), ('z', "\\d\x7b1,3\x7d"),
    ('W', "\\d\x7b2\x7d"), ('F', "[A-Za-z]+"), ('M', "[A-Za-z]\x7b3\x7d"), ('m', "\\d\x7b2\x7d"),
    ('n', "\\d\x7b1,2\x7d"), ('t', "\\d\x7b2\x7d"), ('L', "[01]"), ('o', "\\d\x7b4\x7d"),
    ('Y', "\\d\x7b4\x7d"), ('y', "\\d\x7b2\x7d"), ('a', "(?:am|pm)"), ('A', "(?:AM|PM)"),
    ('g', "\\d\x7b1,2\x7d"), ('G', "\\d\x7b1,2\x7d"), ('h', "\\d\x7b2\x7d"), ('H', "\\d\x7b2\x7d"),
    ('i', "\\d\x7b2\x7d"), ('s', "\\d\x7b2\x7d"), ('u', "\\d\x7b6\x7d"), ('v', "\\d\x7b3\x7d"),
    ('e', "[A-Za-z_]+(?:\\/[A-Za-z_]+)*"), ('I', "[01]"), ('O', "[+-]\\d\x7b4\x7d"),
    ('P', "[+-]\\d\x7b2\x7d:\\d\x7b2\x7d"), ('p', "(?:Z|[+-]\\d\x7b2\x7d:\\d\x7b2\x7d)"),
    ('T', "[A-Z]\x7b1,5\x7d"), ('Z', "-?\\d\x7b1,5\x7d"), ('U', "-?\\d+")]

/-- Characters with a meaning in patterns. -/
def isSpecial (c : Char) : Bool := "\\^$.|?*+()[]\x7b\x7d/".toList.contains c

/-- A character as a pattern that matches it. -/
def literalChar (c : Char) : List Char := if isSpecial c then ['\\', c] else [c]

/-- The body of the pattern of a format. -/
def body? : List Char → Option (List Char)
  | [] => some []
  | [c] =>
    if Text.isLetter c then (tokens.lookup c).map String.toList else some (literalChar c)
  | c :: next :: rest =>
    if c == '\\' then (body? rest).map (literalChar next ++ ·)
    else if Text.isLetter c then
      (tokens.lookup c).bind fun token => (body? (next :: rest)).map (token.toList ++ ·)
    else (body? (next :: rest)).map (literalChar c ++ ·)

/-- The pattern of a format, if every letter of it has one. -/
def pattern? (format : String) : Option String :=
  (body? format.toList).map fun cs => "/^" ++ String.ofList cs ++ "$/"

end RuleSchema.Script.DateFormat
