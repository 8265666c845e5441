import RuleSchema.Source
import RuleSchema.Workspace
import RuleSchema.Yaml.Document

/-!
# Definition files

A definition file lists the sources of a run. Each entry is a map with the class and its rules,
messages, display names, metadata, inherited fields and fragments; what is left out or empty has its
default.
-/

namespace RuleSchema.Definition

/-- The value under a key of an entry. -/
def part (entries : List (Datum × Datum)) (key : String) : Datum :=
  (Datum.lookup? (.text key) entries).getD .absent

/-- The first of two values unless it counts as false. -/
def orElse (first second : Datum) : Datum := if first.isTrue then first else second

/-- The entries of a map that may be left out. -/
def entriesOf (d : Datum) : Except Fault (List (Datum × Datum)) :=
  if !d.isTrue then .ok []
  else match d with
    | .map entries => .ok entries
    | _ => .error .missingPart

/-- A table whose keys are texts. -/
def keyed? {α : Type} (entries : List (Datum × α)) : Option (Table α) :=
  entries.mapM fun (k, v) => k.text?.map fun name => (name, v)

/-- What is known about a field. -/
def metadata (d : Datum) : Except Fault FieldMetadata :=
  if !d.isTrue then FieldMetadata.ofFields []
  else match d with
    | .map entries =>
      match keyed? entries with
      | some fields => FieldMetadata.ofFields fields
      | none => .error (.wrongSort none)
    | _ => .error (.wrongSort none)

/-- The field that a field inherits from: a class, or a map with a class and a field. -/
def inheritance (d : Datum) : Except Fault Inheritance :=
  match d with
  | .text _ => Inheritance.ofParts d .absent
  | .map entries =>
    Inheritance.ofParts (orElse (part entries "class") (part entries "source_class"))
      (orElse (part entries "field") (part entries "source_field"))
  | _ => .error (.invalidValue (some
      ("inherit entries must be a class name or a mapping, got " ++ d.quoted)))

/-- The fragment of code and a mode. -/
def fragmentOf (mode : Datum) (code : String) : Fragment :=
  if mode.same (.text "append") then .append code
  else if mode.same (.text "replace") then .replace code
  else .literal code

/-- A fragment: code, or a map with code and a mode. -/
def fragment (d : Datum) : Except Fault Fragment :=
  let refused : Except Fault Fragment := .error (.invalidValue (some
    ("fragments must be code strings or \x7bcode, mode\x7d mappings, got " ++ d.quoted)))
  match d with
  | .text code => .ok (.literal code)
  | .map entries =>
    match Datum.lookup? (.text "code") entries with
    | some (.text code) => .ok (fragmentOf (part entries "mode") code)
    | some _ => .error .missingPart
    | none => refused
  | _ => refused

/-- The values of a map, each read on its own. -/
def readAll {α : Type} (read : Datum → Except Fault α) (d : Datum) :
    Except Fault (List (Datum × α)) := do
  (← entriesOf d).mapM fun (k, v) => (read v).map fun a => (k, a)

/-- A table of values that need no reading. -/
def table? (d : Datum) : Option (Table Datum) :=
  if !d.isTrue then some []
  else match d with
    | .map entries => keyed? entries
    | _ => none

/-- The source that an entry declares. -/
def source (d : Datum) : Except Fault SchemaSource :=
  let refused : Except Fault SchemaSource := .error (.invalidValue (some
    ("each schema entry needs a 'class' key, got " ++ d.quoted)))
  match d with
  | .map entries =>
    match Datum.lookup? (.text "class") entries with
    | none => refused
    | some className => do
      let kind := (Datum.lookup? (.text "type") entries).getD (.text SourceKind.rules.word)
      let known ← readAll metadata (part entries "metadata")
      let inherited ← readAll inheritance (part entries "inherit")
      let fragments ← readAll fragment (part entries "fragments")
      match table? (part entries "rules"), table? (part entries "messages"),
          table? (part entries "attributes"), keyed? known, keyed? inherited, keyed? fragments with
      | some rules, some messages, some attributes, some known, some inherited, some fragments =>
        SchemaSource.ofParts className kind (part entries "schema_name")
          (rules.map fun (name, rule) => (name, .ofDatum rule)) messages attributes known inherited
          fragments
      | _, _, _, _, _, _ => .error (.invalidRecord "SchemaSource")
  | _ => refused

/-- The sources that a document lists. -/
def sources (d : Datum) : Except Fault (List SchemaSource) :=
  let refused : Except Fault (List SchemaSource) :=
    .error (.invalidValue (some "definition file must contain a 'schemas' list"))
  match if d.isTrue then d else .map [] with
  | .map entries =>
    match part entries "schemas" with
    | .list items => items.mapM source
    | _ => refused
  | _ => refused

/-- A fault of an entry as a fault of its file; an entry that is malformed makes the file unusable. -/
def inFile (path : String) : Fault → Fault
  | .invalidValue detail => .configuration path detail
  | .invalidRecord _ => .configuration path none
  | fault => fault

/-- The sources in a definition file. -/
def load (w : Workspace) (path : String) : Except Fault (List SchemaSource) :=
  let path := Path.normalize path
  match w.read? path with
  | .error cause =>
    .error (.configuration path (some ("cannot read definition file: " ++ cause.message path)))
  | .ok text =>
    match Yaml.read? text with
    | none => .error (.configuration path none)
    | some document => (sources document).mapError (inFile path)

end RuleSchema.Definition
