import RuleSchema.Handler.Basic

/-!
# Places of handlers

Further handlers are found by a path: the name of a module and the name of a class in it, cut at the
first colon or else at the last dot. A module may also hold classes that no handler can be made of.
-/

namespace RuleSchema.Handler

/-- Modules by name, each with its classes; a class without a handler cannot be used as one. -/
abbrev Modules := Table (Table (Option Handler))

/-- The names of a module and a class in a path. -/
def cutPath (path : String) : String × String :=
  match Text.cutFirst ':' path.toList with
  | (place, some name) => (String.ofList place, String.ofList name)
  | (all, none) =>
    match Text.cutLast? '.' all with
    | some (place, name) => (String.ofList place, String.ofList name)
    | none => ("", path)

/-- The handler at a path. A module must not be named relative to another. -/
def find (modules : Modules) (path : String) : Except Fault Handler :=
  let (place, name) := cutPath path
  if Text.startsWith place "." then .error (.wrongSort none)
  else
    match (modules.get? place).bind (·.get? name) with
    | some (some h) => .ok h
    | some none => .error (.wrongSort none)
    | none => .error (.configuration path none)

end RuleSchema.Handler
