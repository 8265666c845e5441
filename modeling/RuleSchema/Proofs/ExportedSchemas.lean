import RuleSchema.Proofs.CompilationRuns

/-!
# Exported schemas

Schemas are defined, ordered and written under their names alone. Of sources whose schemas have one
name only the last is exported; where the names are distinct, every source has one constant in the
script and one file of its own.
-/

namespace RuleSchema

open Compilation

/-- The constants that entries export, with their definitions. -/
def Entry.constants (es : List Entry) : List (String × Except Fault String) :=
  es.map fun e => (e.name, .ok e.definition)

namespace Compilation

/-- The name of the schema of a source. -/
def nameOf (run : Compilation) (source : SchemaSource) : String :=
  run.compiler.names.generate source.className source.schemaName

/-- Every schema is exported once, with its definition. -/
def ExportsEach (run : Compilation) (schemas : List Schema) (es : List Entry) : Prop :=
  (Entry.constants es).Perm (schemas.map fun s => (s.name, s.define run.compiler))

section Entries

variable {run : Compilation} {schemas ordered : List Schema} {annotate : Bool} {es : List Entry}

theorem constants_of_forall₂ (h : List.Forall₂ (run.IsEntryOf schemas annotate) ordered es) :
    Entry.constants es = ordered.map fun s => (s.name, s.define run.compiler) := by
  induction h with
  | nil => rfl
  | cons hfirst _ ih =>
      rw [Entry.constants, List.map_cons, ← Entry.constants, ih, List.map_cons, hfirst.name,
        hfirst.definition]

/-- Schemas of distinct names are all exported. -/
theorem Exports.each (h : run.Exports schemas annotate es)
    (hnames : (schemas.map Schema.name).Nodup) : run.ExportsEach schemas es := by
  obtain ⟨ordered, hdistinct, hlast, hentries⟩ := h
  have hperm : ordered.Perm schemas := by
    rw [List.perm_ext_iff_of_nodup hdistinct.of_map hnames.of_map]
    intro s
    rw [hlast, Schema.isLast_iff_mem hnames]
  rw [ExportsEach, constants_of_forall₂ hentries]
  exact hperm.map _

/-- There are as many entries as schemas only where their names are distinct. -/
theorem Exports.nodup_of_length (h : run.Exports schemas annotate es)
    (hlength : es.length = schemas.length) : (schemas.map Schema.name).Nodup := by
  obtain ⟨ordered, hdistinct, hlast, hentries⟩ := h
  have hsub : ordered.map Schema.name ⊆ schemas.map Schema.name := by
    intro n hn
    obtain ⟨s, hs, rfl⟩ := List.mem_map.mp hn
    exact List.mem_map_of_mem ((hlast s).mp hs).mem
  have hless : (schemas.map Schema.name).length ≤ (ordered.map Schema.name).length := by
    rw [List.length_map, List.length_map, hentries.length_eq, hlength]
  exact ((hdistinct.subperm hsub).perm_of_length_le hless).nodup_iff.mp hdistinct

theorem ExportsEach.length_eq (h : run.ExportsEach schemas es) : es.length = schemas.length := by
  have hlength := List.Perm.length_eq h
  rwa [Entry.constants, List.length_map, List.length_map] at hlength

theorem map_name_of_forall₂ (h : List.Forall₂ (run.IsEntryOf schemas annotate) ordered es) :
    es.map Entry.name = ordered.map Schema.name := by
  induction h with
  | nil => rfl
  | cons hfirst _ ih => rw [List.map_cons, List.map_cons, ih, hfirst.name]

theorem append_injective (tail : String) :
    Function.Injective fun name : String => name ++ tail := by
  intro name other h
  rw [← String.toList_inj, String.toList_append, String.toList_append] at h
  exact String.toList_inj.mp (List.append_cancel_right h)

/-- The file of a schema holds its entry, where names are distinct. -/
theorem Exports.get?_files (h : run.Exports schemas annotate es) (config : Configuration)
    (hnames : (schemas.map Schema.name).Nodup) {s : Schema} (hs : s ∈ schemas) :
    ∃ e, run.IsEntryOf schemas annotate s e ∧
      (Entry.files config es).get? (s.name ++ ".ts") = some (e.fileText config) := by
  obtain ⟨ordered, hdistinct, hlast, hentries⟩ := h
  have hordered : s ∈ ordered := (hlast s).mpr ((Schema.isLast_iff_mem hnames).mpr hs)
  obtain ⟨e, hmem, he⟩ := exists_of_forall₂ hentries.flip hordered
  have hkeys : (Entry.files config es).keys.Nodup := by
    have hfiles := hdistinct.map (append_injective ".ts")
    rw [← map_name_of_forall₂ hentries, List.map_map] at hfiles
    rw [Table.keys, Entry.files, List.map_map]
    exact hfiles
  refine ⟨e, he, ?_⟩
  rw [← he.name]
  exact Table.get?_eq_some_of_mem hkeys
    (List.mem_map_of_mem (f := fun e => (Entry.fileName e, e.fileText config)) hmem)

end Entries

theorem sourceTable_of_nodup {sources : List SchemaSource}
    (h : (sources.map SchemaSource.className).Nodup) :
    sourceTable sources = sources.map fun s => (s.className, s) := by
  have hkeys : (Table.keys ([] : Table SchemaSource) ++
      Table.keys (sources.map fun s => (s.className, s))).Nodup := by
    rw [Table.keys, Table.keys, List.map_map]
    exact h
  exact Table.putAll_of_nodup _ hkeys

/-- A run over sources of distinct classes extracts one schema for each source, under its name. -/
theorem Extracts.of_sources {config : Configuration} {catalog : Catalog} {registry : Registry}
    {sources : List SchemaSource} (hclasses : (sources.map SchemaSource.className).Nodup)
    {schemas : List Schema} (h : (start config catalog registry sources).Extracts schemas) :
    List.Forall₂ (start config catalog registry sources).IsSchemaOf sources schemas ∧
      schemas.map Schema.name = sources.map (start config catalog registry sources).nameOf := by
  have hkeys : (sourceTable sources).keys.Nodup := nodup_keys_sourceTable sources
  have hnames := h.map_name hkeys
  have htable := sourceTable_of_nodup hclasses
  constructor
  · have hall : ∀ source ∈ sources,
        (sourceTable sources).get? source.className = some source := fun source hs => by
      have hmem : (source.className, source) ∈ sourceTable sources := by
        rw [htable]
        exact List.mem_map_of_mem hs
      exact Table.get?_eq_some_of_mem hkeys hmem
    have hclass : (start config catalog registry sources).sources.keys =
        sources.map SchemaSource.className := by
      change (sourceTable sources).keys = _
      rw [htable, Table.keys, List.map_map]
      rfl
    rw [Extracts, hclass, List.forall₂_map_left_iff] at h
    refine List.Forall₂.imp ?_ ((List.forall₂_and_left _ _).mpr ⟨hall, h⟩)
    rintro source s ⟨hsource, found, hfound, hs⟩
    change (sourceTable sources).get? _ = _ at hfound
    rw [hsource, Option.some.injEq] at hfound
    exact hfound ▸ hs
  · rw [hnames]
    change Schema.namesOf _ (sourceTable sources) = _
    rw [htable, Schema.namesOf, List.map_map]
    rfl

/-- Whatever was asked for before, a script or a set of files that is written for sources of distinct
classes has one constant or one file for each source exactly where the names of their schemas are
distinct. In any case it has those of the last source of each name. -/
theorem exportsEach_iff_nodup (config : Configuration) (catalog : Catalog) (registry : Registry)
    (sources : List SchemaSource) (hclasses : (sources.map SchemaSource.className).Nodup)
    (history : List Request) :
    let first := start config catalog registry sources
    let run := first.afterRequests history
    (∀ text, config.output.format = .exports → outcome script run = .ok text →
      ∃ schemas es, List.Forall₂ first.IsSchemaOf sources schemas ∧
        first.Exports schemas true es ∧ text = Entry.exportedScript config schemas es ∧
        (first.ExportsEach schemas es ↔ (sources.map first.nameOf).Nodup)) ∧
    (∀ table, outcome files run = .ok table →
      ∃ schemas es, List.Forall₂ first.IsSchemaOf sources schemas ∧
        first.Exports schemas true es ∧ table = Entry.files config es ∧
        (first.ExportsEach schemas es ↔ (sources.map first.nameOf).Nodup) ∧
        (table.length = sources.length ↔ (sources.map first.nameOf).Nodup)) := by
  intro first run
  have hkeyed := Inheritance.keyed_sourceTable sources
  have hkeys := nodup_keys_sourceTable sources
  have hrun : first.Follows run :=
    (follows_start config catalog registry sources).afterRequests hkeyed hkeys history
  constructor
  · intro text hformat htext
    obtain ⟨schemas, es, -, hextracts, hexports, rfl⟩ :=
      exists_entries_of_script hkeyed hkeys hrun hformat htext
    obtain ⟨hschemas, hnames⟩ := hextracts.of_sources hclasses
    refine ⟨schemas, es, hschemas, hexports, rfl, ?_⟩
    rw [← hnames]
    exact ⟨fun h => hexports.nodup_of_length h.length_eq, hexports.each⟩
  · intro table htable
    obtain ⟨schemas, es, -, hextracts, hexports, rfl⟩ :=
      exists_entries_of_files hkeyed hkeys hrun htable
    obtain ⟨hschemas, hnames⟩ := hextracts.of_sources hclasses
    refine ⟨schemas, es, hschemas, hexports, rfl, ?_, ?_⟩
    · rw [← hnames]
      exact ⟨fun h => hexports.nodup_of_length h.length_eq, hexports.each⟩
    · rw [← hnames, Entry.files, List.length_map, hschemas.length_eq]
      exact ⟨hexports.nodup_of_length, fun h => (hexports.each h).length_eq⟩

/-- A source of one field that may be null. -/
def nullableClass (className field : String) : SchemaSource :=
  ⟨className, [(field, .text "nullable")], [], [], [], [], [], .rules, none⟩

/-- Two classes under different names. -/
def neighbours : List SchemaSource :=
  [nullableClass "App.UserData" "name", nullableClass "Legacy.OrderData" "age"]

/-- Two classes under different names have a constant and a file each, also when they are written
for the second time. -/
theorem exportsEach_neighbours :
    let first := start .default (.ofMap []) .builtIn neighbours
    (neighbours.map SchemaSource.className).Nodup ∧ (neighbours.map first.nameOf).Nodup ∧
      (∃ schemas es text, outcome script (first.afterRequests [.script, .files]) = .ok text ∧
        text = Entry.exportedScript .default schemas es ∧ first.ExportsEach schemas es) ∧
      ∃ table, outcome files (first.afterRequests [.script, .files]) = .ok table ∧
        table.length = 2 := by
  intro first
  have hclasses : (neighbours.map SchemaSource.className).Nodup := by decide
  have hnames : (neighbours.map first.nameOf).Nodup := by decide +kernel
  obtain ⟨hscript, hfiles⟩ := exportsEach_iff_nodup .default (.ofMap []) .builtIn neighbours hclasses
    [.script, .files]
  refine ⟨hclasses, hnames, ?_, ?_⟩
  · have hsome : (outcome script (first.afterRequests [.script, .files])).toOption.isSome := by
      decide +kernel
    obtain ⟨text, htext⟩ := succeeds_of_isSome hsome
    obtain ⟨schemas, es, -, -, heq, heach⟩ := hscript text rfl htext
    exact ⟨schemas, es, text, htext, heq, heach.mpr hnames⟩
  · have hsome : (outcome files (first.afterRequests [.script, .files])).toOption.isSome := by
      decide +kernel
    obtain ⟨table, htable⟩ := succeeds_of_isSome hsome
    obtain ⟨-, -, -, -, -, -, hlength⟩ := hfiles table htable
    exact ⟨table, htable, hlength.mpr hnames⟩

/-- Two classes under one name. -/
def namesakes : List SchemaSource :=
  [nullableClass "App.UserData" "name", nullableClass "Legacy.UserData" "age"]

/-- Of two classes under one name only the second has a constant, and there is one file. -/
theorem namesakes_not_exported :
    let first := start .default (.ofMap []) .builtIn namesakes
    (namesakes.map SchemaSource.className).Nodup ∧
      (outcome script first).toOption = some ("import \x7b z \x7d from 'zod';\n\n" ++
        "export const UserDataSchema = z.object(\x7b\n" ++
        "    age: z.string().trim().nullable().optional(),\n\x7d);\n" ++
        "export type UserDataSchemaType = z.infer<typeof UserDataSchema>;\n\n") ∧
      ((outcome files first).map Table.keys).toOption = some ["UserDataSchema.ts"] ∧
      ¬ ∀ table, outcome files first = .ok table → table.length = namesakes.length := by
  intro first
  have hkeys : ((outcome files first).map Table.keys).toOption = some ["UserDataSchema.ts"] := by
    decide +kernel
  refine ⟨by decide, by decide +kernel, hkeys, fun h => ?_⟩
  have hsome : (outcome files first).toOption.isSome := by decide +kernel
  obtain ⟨table, htable⟩ := succeeds_of_isSome hsome
  rw [htable] at hkeys
  have htwo : table.keys.length = 2 := by
    rw [Table.keys, List.length_map, h table htable]
    rfl
  rw [Option.some.inj hkeys] at htwo
  exact absurd htwo (by decide)

end Compilation

end RuleSchema
