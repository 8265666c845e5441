import RuleSchema.Compilation
import RuleSchema.Workspace

/-!
# Publishing

The output of a run is written into a workspace: one file with all schemas, or a directory with a
file for each. The place is the one asked for, or else the configured one. What has been written
stays when a later file cannot be written.
-/

namespace RuleSchema

/-- A run with the workspace that it writes to. -/
structure Publication where
  compilation : Compilation
  workspace : Workspace

/-- A step that may write. -/
abbrev Publishing (α : Type) := ExceptT Fault (StateM Publication) α

namespace Publication

/-- A step of the run inside. -/
def compiling {α : Type} (step : Compiling α) : Publishing α := do
  let p ← get
  let (result, compilation) := step.run p.compilation
  set { p with compilation := compilation }
  match result with
  | .ok a => return a
  | .error fault => throw fault

/-- A change of the workspace. -/
def changing (change : Workspace → Except FileFault Workspace) : Publishing Unit := do
  let p ← get
  match change p.workspace with
  | .ok workspace => set { p with workspace := workspace }
  | .error cause => throw (.file cause)

/-- Writes all schemas into one file, and makes its directory. -/
def writeScript (path : String) : Publishing String := do
  let place := Path.normalize path
  changing (·.makeDirectory (Path.parent place))
  let text ← compiling Compilation.script
  changing (·.writeFile place text)
  return place

/-- Writes files into a directory, in order. -/
def writeAll (directory : String) : Table String → Publishing (List String)
  | [] => return []
  | (name, text) :: rest => do
    let place := Path.append directory name
    changing (·.writeFile place text)
    return place :: (← writeAll directory rest)

/-- Writes each schema into a file of its own, and makes their directory. -/
def writeFiles (directory : String) : Publishing (List String) := do
  changing (·.makeDirectory directory)
  writeAll directory (← compiling Compilation.files)

/-- Writes the output to the place asked for, or else to the configured one. -/
def write (place : Option String) : Publishing (List String) := do
  let _ ← compiling Compilation.extract
  let output := (← get).compilation.config.output
  if output.separateFiles then
    writeFiles ((Text.nonEmpty? place <|> Text.nonEmpty? output.directory).getD ".")
  else
    match Text.nonEmpty? place <|> output.path with
    | some path => return [← writeScript path]
    | none => throw (.invalidValue (some "No output path given and output.path is not configured"))

end Publication

end RuleSchema
