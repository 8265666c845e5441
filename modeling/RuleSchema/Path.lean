import RuleSchema.Text.Cut

/-!
# Paths

A path is a sequence of names between slashes. Empty names and single dots mean nothing; a name may
be appended to a path, and a tilde at the head stands for the home directory.
-/

namespace RuleSchema.Path

/-- The names of a path. -/
def components (path : String) : List String :=
  (Text.splitOn '/' path).filter fun n => !(Text.isEmpty n || n == ".")

/-- Whether a path starts at the root. -/
def isAbsolute (path : String) : Bool := Text.startsWith path "/"

/-- The path of names. -/
def ofComponents (absolute : Bool) (names : List String) : String :=
  if absolute then "/" ++ Text.join "/" names
  else if names.isEmpty then "." else Text.join "/" names

/-- A path in its shortest form. -/
def normalize (path : String) : String := ofComponents (isAbsolute path) (components path)

/-- A path below another; an absolute path stands for itself. -/
def append (path below : String) : String :=
  if isAbsolute below then normalize below
  else ofComponents (isAbsolute path) (components path ++ components below)

/-- The path of the directory that holds a path. -/
def parent (path : String) : String := ofComponents (isAbsolute path) (components path).dropLast

/-- Names after every step back has removed the name before it. -/
def withoutBack : List String → List String
  | [] => []
  | name :: rest =>
    match withoutBack rest with
    | ".." :: more => if name == ".." then name :: ".." :: more else more
    | rest => name :: rest

/-- The place of a path, where steps back have been taken. -/
def place (path : String) : String := ofComponents (isAbsolute path) (withoutBack (components path))

/-- A path with the home directory in place of a tilde at its head. -/
def expandHome (home path : String) : String :=
  match components path with
  | "~" :: rest => append home (ofComponents false rest)
  | _ => normalize path

end RuleSchema.Path
