import RuleSchema.Text.Case
import RuleSchema.Text.Cut
import RuleSchema.Text.CharacterClass

/-!
# Placeholders in messages

A placeholder is a colon with a name. The placeholders of a rule are filled in first, the longer
names before the shorter ones, and the name of the field comes last in its three spellings. A raw
field path left in a message gives way to the display name.
-/

namespace RuleSchema.Placeholder

/-- Placeholders in the order in which they are filled in. -/
def ordered (values : List (String × String)) : List (String × String) :=
  values.mergeSort fun a b => b.1.length ≤ a.1.length

/-- A message with a placeholder filled in. -/
def fill (message : String) (placeholder : String × String) : String :=
  Text.replace message (":" ++ placeholder.1) placeholder.2

/-- The spellings of the placeholder for the name of the field. -/
def ofField (name : String) : List (String × String) :=
  [("attribute", name), ("Attribute", Text.capitalizeFirst name), ("ATTRIBUTE", Text.upper name)]

/-- A message with the placeholders of a rule and of the field filled in, one after the other. -/
def substitute (message : String) (values : List (String × String)) (name : String) : String :=
  (ordered values ++ ofField name).foldl fill message

/-- Whether a character before a raw path makes it part of a longer one. -/
def extendsLeft (c : Char) : Bool := Text.isWord c || c == '.' || c == '*'

/-- Whether a character after a raw path makes it part of a longer one. -/
def extendsRight (c : Char) : Bool := Text.isWord c || c == '*'

/-- Whether a path stands at the head of characters as a whole. -/
def standsWhole (path : List Char) (before : Option Char) (cs : List Char) : Bool :=
  path.isPrefixOf cs && !(before.any extendsLeft) && !((cs.drop path.length).head?.any extendsRight)

/-- Characters with a path replaced where it stands as a whole; `skip` characters belong to an
occurrence that has been replaced already. -/
def replaceWhole (path name : List Char) : Option Char → Nat → List Char → List Char
  | _, _, [] => []
  | _, skip + 1, c :: rest => replaceWhole path name (some c) skip rest
  | before, 0, c :: rest =>
    if standsWhole path before (c :: rest) then
      name ++ replaceWhole path name (some c) (path.length - 1) rest
    else c :: replaceWhole path name (some c) 0 rest

/-- Whether a path cannot be mistaken for an ordinary word. -/
def isDistinctive (path : String) : Bool := path.toList.any fun c => c == '_' || c.isUpper

/-- A message with a raw field path replaced by the display name. -/
def replaceRaw (message path name : String) : String :=
  if name == path || !isDistinctive path then message
  else String.ofList (replaceWhole path.toList name.toList none 0 message.toList)

end RuleSchema.Placeholder
