import RuleSchema.Source
import RuleSchema.Text.CharacterClass

/-!
# Configuration

What can be configured: the locales of messages, the annotation with application types, the form of
the output and further handlers. Unknown keys are ignored; a value outside its type makes the whole
record invalid.
-/

namespace RuleSchema

/-- Forms of a single output file. -/
inductive OutputFormat where
  /-- Exports at the top level. -/
  | exports
  /-- Exports inside one named space. -/
  | enclosed
deriving DecidableEq, Repr

/-- Where and how output is written. -/
structure OutputConfiguration where
  format : OutputFormat
  space : String
  path : Option String
  separateFiles : Bool
  directory : Option String
deriving DecidableEq, Repr

/-- The configuration of a run. -/
structure Configuration where
  locale : String
  fallbackLocale : Option String
  messagePaths : List String
  typePrefix : String
  usesTypes : Bool
  typesPath : String
  output : OutputConfiguration
  customHandlers : List String
deriving DecidableEq, Repr

/-- The words for the forms of output. -/
def OutputFormat.word : OutputFormat → String
  | exports => "module"
  | enclosed => "namespace"

/-- The output configuration without any settings. -/
def OutputConfiguration.default : OutputConfiguration := ⟨.exports, "Schemas", none, false, none⟩

/-- The configuration without any settings. -/
def Configuration.default : Configuration :=
  ⟨"en", some "en", [], "App", false, ".", .default, []⟩

/-- The list of texts that a datum is. -/
def Datum.texts? : Datum → Option (List String)
  | .list items => items.mapM Datum.text?
  | .tuple items => items.mapM Datum.text?
  | _ => none

/-- The fields of a record: the values under texts in a map. -/
def Datum.fields? : Datum → Option (Table Datum)
  | .record parts => some parts
  | .map entries => some (entries.filterMap fun (k, v) => k.text?.map fun name => (name, v))
  | _ => none

/-- The output configuration in the fields of a record. -/
def OutputConfiguration.ofFields? (fields : Table Datum) : Option OutputConfiguration := do
  let base := OutputConfiguration.default
  let value (key : String) (fallback : Datum) : Datum := Datum.partOr fields key fallback
  let word ← (value "format" (.text base.format.word)).text?
  let format ← [OutputFormat.exports, .enclosed].find? (·.word == word)
  let space ← (value "namespace" (.text base.space)).text?
  let path ← (value "path" .absent).optionalText?
  let separateFiles ← (value "separate_files" (.truth false)).flag?
  let directory ← (value "directory" .absent).optionalText?
  if Text.isName space.toList then return ⟨format, space, path, separateFiles, directory⟩ else none

/-- The configuration in the fields of a record. -/
def Configuration.ofFields? (fields : Table Datum) : Option Configuration := do
  let base := Configuration.default
  let value (key : String) (fallback : Datum) : Datum := Datum.partOr fields key fallback
  let locale ← (value "locale" (.text base.locale)).text?
  let fallbackLocale ← (value "fallback_locale" (.text "en")).optionalText?
  let messagePaths ← (value "message_paths" (.list [])).texts?
  let typePrefix ← (value "app_prefix" (.text base.typePrefix)).text?
  let usesTypes ← (value "use_app_types" (.truth false)).flag?
  let typesPath ← (value "app_types_import_path" (.text base.typesPath)).text?
  let output ← OutputConfiguration.ofFields? (← (value "output" (.map [])).fields?)
  let customHandlers ← (value "custom_handlers" (.list [])).texts?
  return ⟨locale, fallbackLocale, messagePaths, typePrefix, usesTypes, typesPath, output,
    customHandlers⟩

/-- The fields of the record of an output configuration. -/
def OutputConfiguration.fields (c : OutputConfiguration) : Table Datum :=
  [("format", .text c.format.word), ("namespace", .text c.space), ("path", .ofText c.path),
    ("separate_files", .truth c.separateFiles), ("directory", .ofText c.directory)]

/-- The fields of the record of a configuration. -/
def Configuration.fields (c : Configuration) : Table Datum :=
  [("locale", .text c.locale), ("fallback_locale", .ofText c.fallbackLocale),
    ("message_paths", .list (c.messagePaths.map .text)), ("app_prefix", .text c.typePrefix),
    ("use_app_types", .truth c.usesTypes), ("app_types_import_path", .text c.typesPath),
    ("output", .record c.output.fields), ("custom_handlers", .list (c.customHandlers.map .text))]

/-- The configuration in a record. -/
def Configuration.ofFields (fields : Table Datum) : Except Fault Configuration :=
  match Configuration.ofFields? fields with
  | some c => .ok c
  | none => .error (.invalidRecord "CompilerConfig")

/-- The output configuration in a record. -/
def OutputConfiguration.ofFields (fields : Table Datum) : Except Fault OutputConfiguration :=
  match OutputConfiguration.ofFields? fields with
  | some c => .ok c
  | none => .error (.invalidRecord "OutputConfig")

end RuleSchema
