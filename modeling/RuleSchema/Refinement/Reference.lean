import RuleSchema.Message.Basic
import RuleSchema.Refinement.Access

/-!
# References between fields

A rule names another field by its path from the root, by a sibling's name inside an array, or by a
path below its own. A reference is made relative to the object on which the refinement runs; a field
outside that object cannot be read from it.
-/

namespace RuleSchema.Refinement

/-- A reference written below a field's own path, moved next to the field. -/
def besideField (other field : String) : String :=
  let other := Text.trim other
  let own := filledNames field
  let names := filledNames other
  if Text.isEmpty other then ""
  else if own.isEmpty || names.length ≤ own.length || names.take own.length != own then other
  else Text.join "." (own.dropLast ++ names.drop own.length)

/-- The field that a text names, relative to a scope, for the field at a path. -/
def reference? (scope field other : String) : Option String :=
  let path := besideField (Messages.siblingPath (Text.trim other) field) field
  let inScope := if Text.isEmpty scope then some path
    else if Text.startsWith path scope then some (Text.drop scope.length path) else none
  match inScope with
  | some rest =>
    if Text.isEmpty path || Text.isEmpty rest || Text.contains rest "*" then none else some rest
  | none => none

/-- Whether a text can be the path of a field. -/
def isFieldPath (s : String) : Bool :=
  match Text.splitBy (· == '.') (Script.dropFinalFeed s.toList) with
  | [] => false
  | first :: rest =>
    (match first with
      | [] => false
      | c :: more => Script.isPlainStart c && more.all Text.isWord) &&
    rest.all fun name => !name.isEmpty && name.all fun c => Text.isWord c || c == '*'

/-- Whether a text is a date rather than a field: it has a digit and is no path. -/
def isDateLiteral (s : String) : Bool := s.toList.any Text.isDigit && !isFieldPath s

/-- Whether the node at a path is the item of an array. -/
def isItemPath (path : String) : Bool :=
  match Text.cutLast? '.' path.toList with
  | some (_, last) => last == ['*']
  | none => path.toList == ['*']

end RuleSchema.Refinement
