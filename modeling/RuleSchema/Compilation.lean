import RuleSchema.Schema.Definition
import RuleSchema.Schema.Entry
import RuleSchema.Schema.Order
import RuleSchema.Schema.Warning

/-!
# Compilation runs

A run extracts the schemas of its sources once and defines them as often as asked. It remembers the
classes whose inheritance is expanded, the schemas that have been defined, in the order of their
first definition, and the number of warnings.
-/

namespace RuleSchema

/-- A run over sources. -/
structure Compilation where
  config : Configuration
  sources : Table SchemaSource
  catalog : Catalog
  compiler : Compiler
  inheritance : Inheritance.Run
  extracted : Option (List Schema)
  /-- The schemas defined so far, by name. -/
  defined : Table Schema
  catalogUse : CatalogUse
  warnings : Nat

/-- A step of a run, which keeps what it has done also when it fails. -/
abbrev Compiling (α : Type) := ExceptT Fault (StateM Compilation) α

namespace Compilation

/-- The number of sources that replace an earlier one of the same class. -/
def replaced (sources : List SchemaSource) : Nat := sources.length - (sourceTable sources).length

/-- A run with the given handlers. -/
def start (config : Configuration) (catalog : Catalog) (registry : Registry)
    (sources : List SchemaSource) : Compilation :=
  let table := sourceTable sources
  ⟨config, table, catalog, ⟨registry, [], .ofSources table⟩, .start, none, [], ⟨false, false⟩,
    replaced sources⟩

/-- A run with the given handlers and those that the configuration names, which are found by their
paths. -/
def startWith (find : String → Except Fault Handler) (config : Configuration) (catalog : Catalog)
    (registry : Registry) (sources : List SchemaSource) : Except Fault Compilation :=
  match registry.load find config.customHandlers with
  | (registry, none) => .ok (start config catalog registry sources)
  | (_, some fault) => .error fault

/-- A run after the warnings of extracting a class with expanded rules. -/
def warn (run : Compilation) (source : SchemaSource) (rules : ClassRules) : Compilation :=
  let ignored := Schema.ignoredIn run.sources run.catalog source rules
  let (reading, use) := run.catalogUse.after run.catalog
    (Schema.endsSealed run.sources run.compiler.names source rules)
  { run with warnings := run.warnings + ignored + reading, catalogUse := use }

/-- The schema of one class. -/
def extractOne (className : String) : Compiling Schema := do
  let run ← get
  match run.sources.get? className with
  | none => throw .missingKey
  | some source =>
    let (rules, inheritance) := (Inheritance.expand run.sources run.compiler.names className).run
      run.inheritance
    let run := { run with inheritance := inheritance }
    match rules with
    | .error fault =>
      set run
      throw fault
    | .ok rules =>
      set (run.warn source rules)
      match Schema.ofRules run.sources run.compiler.names run.catalog source rules with
      | .ok schema => return schema
      | .error fault => throw fault

/-- The schemas of all classes, which are extracted once. -/
def extract : Compiling (List Schema) := do
  match (← get).extracted with
  | some schemas => return schemas
  | none =>
    let schemas ← (← get).sources.keys.mapM extractOne
    modify fun run => { run with extracted := some schemas }
    return schemas

/-- The definition of a schema, which counts as defined from now on. -/
def define (schema : Schema) : Compiling String := do
  modify fun run => { run with defined := run.defined.put schema.name schema }
  match schema.define (← get).compiler with
  | .ok definition => return definition
  | .error fault => throw fault

/-- The definitions of schemas by name; a later one of a name replaces an earlier one. -/
def definitions : List Schema → Table String → Compiling (Table String)
  | [], known => return known
  | schema :: rest, known => do
    let definition ← define schema
    definitions rest (known.put schema.name definition)

/-- The entries of schemas, each after those that it depends on. -/
def entries (schemas : List Schema) (annotate : Bool) : Compiling (List Entry) := do
  let definitions ← definitions schemas []
  let run ← get
  return Entry.ofSchemas run.config (annotate && run.config.importsTypes schemas) definitions
    (Schema.sorted run.defined)

/-- The script of all schemas in the configured form. -/
def script : Compiling String := do
  let schemas ← extract
  let config := (← get).config
  match config.output.format with
  | .enclosed => return Entry.enclosedScript config (← entries schemas false)
  | .exports => return Entry.exportedScript config schemas (← entries schemas true)

/-- The files of all schemas, one each. -/
def files : Compiling (Table String) := do
  let schemas ← extract
  return Entry.files (← get).config (← entries schemas true)

end Compilation

end RuleSchema
