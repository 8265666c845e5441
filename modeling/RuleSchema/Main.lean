import RuleSchema.CommandLine.Outcome
import RuleSchema.Handler.Place

/-!
# The command

Reads what the command needs into a workspace, runs it there, and writes what has changed.
-/

namespace RuleSchema.CommandLine

/-- The paths of the definition and configuration files that a run may read. -/
def pathsOf (w : Workspace) (o : Options) : List String :=
  [o.definitions] ++ o.config.toList ++
    ((w.environment.get? Configuration.placeVariable).map (Path.expandHome w.home)).toList ++
    [Path.append w.home Configuration.standardPlace]

/-- The paths of the message files that a configuration may read. -/
def messagePathsOf (w : Workspace) (config : Configuration) : List String :=
  config.messagePaths.flatMap fun path =>
    let path := Path.expandHome w.home path
    path :: ([config.locale] ++ config.fallbackLocale.toList).map fun locale =>
      Path.append path (LocaleMessages.fileName locale)

/-- A workspace with what stands at a path. -/
def readInto (w : Workspace) (path : String) : IO Workspace := do
  match ← (IO.FS.readFile path).toBaseIO with
  | .ok text => return w.put path (.file text)
  | .error (.noFileOrDirectory ..) => return w
  | .error (.inappropriateType ..) => return w.put path .directory
  | .error fault => throw fault

/-- Writes the files of a workspace that another does not have. -/
def writeChanges (before after : Workspace) : IO Unit := do
  for (path, item) in after.items do
    match item with
    | .directory => pure ()
    | .file text =>
      if before.items.get? path != some item then
        IO.FS.createDirAll (Path.parent path)
        IO.FS.writeFile path text

/-- The workspace that a run with options needs. -/
def workspaceOf (w : Workspace) (o : Options) : IO Workspace := do
  let w ← (pathsOf w o).foldlM readInto w
  match (Configuration.load w o.config).1 with
  | .ok config => (messagePathsOf w config).foldlM readInto w
  | .error _ => return w

/-- Runs the command in the environment of the process. -/
def runHere (arguments : List String) : IO UInt32 := do
  let names := [Configuration.placeVariable, levelVariable]
  let environment ← names.filterMapM fun name => do
    return (← IO.getEnv name).map fun value => (name, value)
  let empty : Workspace := ⟨[], environment, (← IO.getEnv "HOME").getD "."⟩
  let w ← match request? arguments with
    | some (.run o) => workspaceOf empty o
    | _ => pure empty
  let result := outcome (Handler.find []) w arguments
  writeChanges w result.workspace
  IO.print result.output
  IO.eprint result.notices
  match result.status with
  | .ok status =>
    if status == 2 then IO.eprint usage
    return status.toUInt32
  | .error fault =>
    IO.eprintln fault.report
    return 1

end RuleSchema.CommandLine

/-- Compiles the schemas of a definition file. -/
def main (arguments : List String) : IO UInt32 := RuleSchema.CommandLine.runHere arguments
