import RuleSchema.Configuration
import RuleSchema.Naming
import RuleSchema.Schema.Basic
import RuleSchema.Text.Cut

/-!
# Output of schemas

An entry is one exported schema with its definition. Entries are written into one script, at the top
level or inside a named space, or each into a file of its own that imports the files of the entries
that it refers to.
-/

namespace RuleSchema

/-- One exported schema. -/
structure Entry where
  name : String
  definition : String
  /-- The application type that the schema is annotated with. -/
  annotation : Option String
  /-- The other entries that it refers to. -/
  dependencies : List String
deriving DecidableEq, Repr

/-- The application type of a schema: data classes have one, and request classes where types are
used. -/
def Schema.annotation? (config : Configuration) (s : Schema) : Option String :=
  let base := SchemaNames.baseName s.className
  if Text.isEmpty s.className then none
  else if Text.endsWith base "Data" then some base
  else if Text.endsWith base "Request" && config.usesTypes then some base
  else none

/-- Whether the application types are imported for some schemas. -/
def Configuration.importsTypes (config : Configuration) (schemas : List Schema) : Bool :=
  config.usesTypes && schemas.any fun s => (s.annotation? config).isSome

namespace Entry

/-- The name of the type of a schema. -/
def typeName (schemaName : String) : String := schemaName ++ "Type"

/-- The line that imports the library of the definitions. -/
def libraryImport : String := "import \x7b z \x7d from 'zod';\n"

/-- The line that imports the application types. -/
def typesImport (config : Configuration) : String :=
  "import \x7b " ++ config.typePrefix ++ " \x7d from '" ++ config.typesPath ++ "';\n"

/-- The head of a script of several schemas. -/
def scriptHead (config : Configuration) (schemas : List Schema) : String :=
  libraryImport ++ "\n" ++
    (if config.importsTypes schemas then typesImport config ++ "\n" else "")

/-- The entries of schemas in the given order; an entry refers to those that are defined. -/
def ofSchemas (config : Configuration) (annotate : Bool) (definitions : Table String)
    (ordered : List Schema) : List Entry :=
  ordered.filterMap fun s =>
    (definitions.get? s.name).map fun definition =>
      ⟨s.name, definition, if annotate then s.annotation? config else none,
        s.dependencies.filter definitions.has⟩

/-- The annotation of an exported constant. -/
def annotationText (config : Configuration) (e : Entry) : String :=
  match e.annotation with
  | some type =>
    if Text.isEmpty type then "" else ": z.ZodType<" ++ config.typePrefix ++ "." ++ type ++ ">"
  | none => ""

/-- The line that exports the type of an entry. -/
def typeLine (e : Entry) : String :=
  "export type " ++ typeName e.name ++ " = z.infer<typeof " ++ e.name ++ ">;\n"

/-- The lines that export an entry and its type. -/
def exportLines (config : Configuration) (e : Entry) : String :=
  "export const " ++ e.name ++ annotationText config e ++ " = " ++ e.definition ++ ";\n" ++ typeLine e

/-- A text with its lines moved in, except for the first and for empty ones. -/
def moveIn (s : String) : String :=
  match Text.lines (s ++ "\n") with
  | [] => ""
  | first :: rest =>
    Text.join "\n" (first :: rest.map fun line => if Text.isEmpty line then line else "  " ++ line)

/-- A script that exports entries at the top level. -/
def exportedScript (config : Configuration) (schemas : List Schema) (entries : List Entry) : String :=
  scriptHead config schemas ++ String.join (entries.map fun e => exportLines config e ++ "\n")

/-- A script that exports entries inside a named space. -/
def enclosedScript (config : Configuration) (entries : List Entry) : String :=
  libraryImport ++ "\nexport namespace " ++ config.output.space ++ " \x7b\n" ++
    String.join (entries.map fun e =>
      "  export const " ++ e.name ++ " = " ++ moveIn e.definition ++ ";\n  " ++ typeLine e ++ "\n") ++
    "\x7d\n"

/-- The name of the file of an entry. -/
def fileName (e : Entry) : String := e.name ++ ".ts"

/-- The file of an entry. -/
def fileText (config : Configuration) (e : Entry) : String :=
  libraryImport ++
    (if e.annotation.any (! Text.isEmpty ·) then typesImport config else "") ++
    String.join (e.dependencies.map fun d => "import \x7b " ++ d ++ " \x7d from './" ++ d ++ "';\n") ++
    "\n" ++ exportLines config e

/-- The files of entries. -/
def files (config : Configuration) (entries : List Entry) : Table String :=
  entries.map fun e => (e.fileName, e.fileText config)

end Entry

end RuleSchema
