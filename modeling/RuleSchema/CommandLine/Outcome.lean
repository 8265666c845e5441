import RuleSchema.CommandLine.Arguments
import RuleSchema.Configuration.File
import RuleSchema.Definition
import RuleSchema.Message.File
import RuleSchema.Publication

/-!
# Outcomes of the command

A run of the command reads its configuration and definitions from a workspace and writes its output
there, or to the standard output where no place is given. The compiler's own faults are reported and
end the run with status one; arguments that are not understood end it with status two.
-/

namespace RuleSchema.CommandLine

/-- What a run of the command leaves behind. -/
structure Outcome where
  /-- The exit status, or a fault that is not the compiler's own. -/
  status : Except Fault Nat
  output : String
  notices : String
  workspace : Workspace
  warnings : Nat

/-- The first lines of the help. -/
def usage : String :=
  "usage: zod-schema-compiler [-h] [-o OUTPUT] [-c CONFIG] [--separate-files]\n" ++
  "                           definitions\n"

/-- The text of the help. -/
def help : String :=
  usage ++
  "\nCompile Laravel-style validation rules into Zod schemas.\n" ++
  "\npositional arguments:\n" ++
  "  definitions           YAML file with a 'schemas:' list of sources\n" ++
  "\noptions:\n" ++
  "  -h, --help            show this help message and exit\n" ++
  "  -o OUTPUT, --output OUTPUT\n" ++
  "                        Output file (directory with --separate-files)\n" ++
  "  -c CONFIG, --config CONFIG\n" ++
  "                        Compiler config file\n" ++
  "  --separate-files      Write one file per schema into the output directory\n"

/-- The variable that sets how much is logged. -/
def levelVariable : String := "ZOD_SCHEMA_LOG_LEVEL"

/-- The levels of logging, in alphabetical order. -/
def levels : List String := ["CRITICAL", "DEBUG", "ERROR", "INFO", "WARNING"]

/-- The notice about a level of logging that is not known. -/
def levelNotice (w : Workspace) : String :=
  let level := Text.upper ((w.environment.get? levelVariable).getD "INFO")
  if levels.contains level then ""
  else "Warning: Invalid ZOD_SCHEMA_LOG_LEVEL '" ++ level ++ "'. Valid levels: " ++
    Text.join ", " levels ++ ". Using INFO.\n"

/-- The configuration of a run with options. -/
def configured (o : Options) (config : Configuration) : Configuration :=
  if o.separateFiles then { config with output := { config.output with separateFiles := true } }
  else config

/-- The catalog of a configuration. -/
def catalogOf (w : Workspace) (config : Configuration) : Catalog :=
  .ofPaths w config.locale config.fallbackLocale config.messagePaths

/-- Writes the schemas where a place is given, and otherwise returns their script. -/
def publish (o : Options) : Publishing String := do
  let output := (← get).compilation.config.output
  if (Text.nonEmpty? o.output).isSome || (Text.nonEmpty? output.path).isSome ||
      output.separateFiles then
    let _ ← Publication.write o.output
    return ""
  else Publication.compiling Compilation.script

/-- A run over the sources of a definition file. -/
def begin? (find : String → Except Fault Handler) (w : Workspace) (o : Options)
    (config : Configuration) : Except Fault Compilation := do
  let config := configured o config
  let sources ← Definition.load w o.definitions
  Compilation.startWith find config (catalogOf w config) .builtIn sources

/-- The number of warnings that fit a run that could not be started: sources that replace others are
warned about before handlers are looked up. -/
def warningsBefore (w : Workspace) (o : Options) : Nat :=
  match Definition.load w o.definitions with
  | .ok sources => Compilation.replaced sources
  | .error _ => 0

/-- The outcome after a fault. -/
def failed (notices : String) (w : Workspace) (warnings : Nat) (fault : Fault) : Outcome :=
  if fault.isOwn then
    ⟨.ok 1, "", notices ++ "Error: " ++ fault.report ++ "\n", w, warnings + 1⟩
  else ⟨.error fault, "", notices, w, warnings⟩

/-- The outcome of a run with options. -/
def outcomeOf (find : String → Except Fault Handler) (w : Workspace) (o : Options) : Outcome :=
  let notices := levelNotice w
  let (loaded, warned) := Configuration.load w o.config
  match loaded with
  | .error fault => failed notices w warned fault
  | .ok config =>
    match begin? find w o config with
    | .error fault => failed notices w (warned + warningsBefore w o) fault
    | .ok compilation =>
      let (result, after) := (publish o).run ⟨compilation, w⟩
      let warnings := warned + after.compilation.warnings
      match result with
      | .ok text => ⟨.ok 0, text, notices, after.workspace, warnings⟩
      | .error fault => failed notices after.workspace warnings fault

/-- The outcome of the command; handlers that the configuration names are found by their paths. -/
def outcome (find : String → Except Fault Handler) (w : Workspace) (arguments : List String) :
    Outcome :=
  match request? arguments with
  | none => ⟨.ok 2, "", "", w, 0⟩
  | some .help => ⟨.ok 0, help, "", w, 0⟩
  | some (.run o) => outcomeOf find w o

end RuleSchema.CommandLine
