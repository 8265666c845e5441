import RuleSchema.Fault
import RuleSchema.Path
import RuleSchema.Table

/-!
# Workspaces

A workspace holds the files and directories that a run can see, below one directory, with the
environment variables it looks at. Writing a file makes the directories above it.
-/

namespace RuleSchema

/-- A file with its text, or a directory. -/
inductive WorkspaceItem where
  | file (text : String)
  | directory
deriving DecidableEq, Repr

/-- The files, directories and variables around a run. -/
structure Workspace where
  items : Table WorkspaceItem
  environment : Table String
  home : String
deriving DecidableEq, Repr

namespace Workspace

/-- The directories above a place, the outermost first. -/
def above (place : String) : List String :=
  let names := (Path.components place).dropLast
  (List.range names.length).map fun n => Path.ofComponents (Path.isAbsolute place) (names.take (n + 1))

/-- The item at a path. -/
def item? (w : Workspace) (path : String) : Option WorkspaceItem :=
  let place := Path.place path
  if place == "." then some .directory else w.items.get? place

/-- Whether something is at a path. -/
def isPresent (w : Workspace) (path : String) : Bool := (w.item? path).isSome

/-- Whether a directory is at a path. -/
def isDirectory (w : Workspace) (path : String) : Bool := w.item? path == some .directory

/-- Whether a file stands where a directory above a path should be. -/
def isBlocked (w : Workspace) (path : String) : Bool :=
  (above (Path.place path)).any fun p => match w.items.get? p with
    | some (.file _) => true
    | _ => false

/-- The text of the file at a path. -/
def read? (w : Workspace) (path : String) : Except FileFault String :=
  match w.item? path with
  | some (.file text) => .ok text
  | some .directory => .error .isDirectory
  | none => .error (if w.isBlocked path then .notDirectory else .missing)

/-- A workspace with a directory at a place, unless something is there. -/
def addDirectory (w : Workspace) (place : String) : Workspace :=
  if w.isPresent place then w else { w with items := w.items.put place .directory }

/-- A workspace with an item and the directories above it. -/
def put (w : Workspace) (path : String) (item : WorkspaceItem) : Workspace :=
  let place := Path.place path
  let w := (above place).foldl addDirectory w
  { w with items := w.items.put place item }

/-- A workspace with a directory and the directories above it. -/
def makeDirectory (w : Workspace) (path : String) : Except FileFault Workspace :=
  if w.isDirectory path then .ok w
  else if w.isBlocked path then .error .notDirectory
  else if w.isPresent path then .error .occupied
  else .ok (w.put path .directory)

/-- A workspace with a file in a directory that is there. -/
def writeFile (w : Workspace) (path text : String) : Except FileFault Workspace :=
  if w.isDirectory path then .error .isDirectory
  else if w.isBlocked path then .error .notDirectory
  else if !w.isDirectory (Path.parent path) then .error .missing
  else .ok (w.put path (.file text))

end Workspace

end RuleSchema
