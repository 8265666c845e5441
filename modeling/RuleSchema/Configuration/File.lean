import RuleSchema.Configuration
import RuleSchema.Workspace
import RuleSchema.Yaml.Document

/-!
# Configuration files

The configuration file is the one asked for, or else the one that a variable names, or else the one
at the standard place below the home directory. A file that is asked for or named but missing is
warned about, and no other place is tried; without a file every setting has its default.
-/

namespace RuleSchema.Configuration

/-- The variable that names the configuration file. -/
def placeVariable : String := "ZOD_SCHEMA_CONFIG"

/-- The standard place below the home directory. -/
def standardPlace : String := ".zod-schema/config.yml"

/-- A path if something is there, and otherwise a warning. -/
def orWarn (w : Workspace) (path : String) : Option String × Nat :=
  if w.isPresent path then (some path, 0) else (none, 1)

/-- The place of the configuration file, and the number of warnings. -/
def find (w : Workspace) (asked : Option String) : Option String × Nat :=
  match Text.nonEmpty? asked, Text.nonEmpty? (w.environment.get? placeVariable) with
  | some path, _ => orWarn w (Path.normalize path)
  | none, some path => orWarn w (Path.expandHome w.home path)
  | none, none =>
    let path := Path.append w.home standardPlace
    (if w.isPresent path then some path else none, 0)

/-- The configuration that the value of a file holds. -/
def ofValue (path : String) (value : Datum) : Except Fault Configuration :=
  if !value.isTrue then .ok default
  else
    match value with
    | .map entries =>
      if entries.all fun e => e.1.text?.isSome then
        match value.fields?.bind ofFields? with
        | some config => .ok config
        | none => .error (.configuration path none)
      else .error (.wrongSort none)
    | _ => .error (.configuration path (some "Config file must contain a YAML dictionary"))

/-- The configuration in a file. -/
def ofFile (w : Workspace) (path : String) : Except Fault Configuration :=
  match w.read? path with
  | .error cause => .error (.file cause)
  | .ok text =>
    match Yaml.read? text with
    | some value => ofValue path value
    | none => .error (.configuration path none)

/-- The configuration in the file that is found, and the number of warnings. -/
def load (w : Workspace) (asked : Option String) : Except Fault Configuration × Nat :=
  match find w asked with
  | (some path, warnings) => (ofFile w path, warnings)
  | (none, warnings) => (.ok default, warnings)

end RuleSchema.Configuration
