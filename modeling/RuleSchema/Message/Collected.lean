import RuleSchema.Source

/-!
# Messages of nested and inherited declarations

The messages of a class also hold for the classes of its fields, under the paths of those fields,
and an inherited field brings the messages of its source field. What a class says itself is never
overridden. A class that is being collected already is not entered again, so cyclic references end.
-/

namespace RuleSchema

namespace Collected

/-- A key under a path. -/
def under (path key : String) : String := if Text.isEmpty path then key else path ++ "." ++ key

/-- The path under which the messages of a nested object stand; inside an array they are addressed
per item. -/
def objectPath (path field : String) : String :=
  if Text.contains path ".*" then path ++ "." ++ field ++ ".*" else under path field

/-- The path and the class of what a field holds, where a class is known. -/
def reference? (path field : String) (known : FieldMetadata) : Option (String × String) :=
  let named (name : Option String) : Option String := name.filter (! Text.isEmpty ·)
  match known.isCollection, named known.elementClass with
  | true, some element => some (under path field ++ ".*", element)
  | _, _ =>
    match known.isNestedObject, named known.nestedClass with
    | true, some nested => some (objectPath path field, nested)
    | _, _ => none

/-- The classes that are not being collected. -/
def unvisited (sources : Table SchemaSource) (collecting : List String) : List String :=
  sources.keys.filter (! collecting.contains ·)

theorem unvisited_lt {sources : Table SchemaSource} {collecting : List String} {name : String}
    {source : SchemaSource} (found : sources.get? name = some source)
    (fresh : ¬ collecting.contains name) :
    (unvisited sources (name :: collecting)).length < (unvisited sources collecting).length := by
  have eq : unvisited sources (name :: collecting) = (unvisited sources collecting).filter (· != name) := by
    simp only [unvisited, List.filter_filter]
    congr 1
    funext other
    by_cases h : other = name <;> simp [h]
  rw [eq]
  have mem : name ∈ unvisited sources collecting := by
    simp only [unvisited, List.mem_filter]
    exact ⟨Table.mem_keys_of_get?_eq_some found, by simpa using fresh⟩
  exact List.length_filter_lt_length_iff_exists.mpr ⟨name, mem, by simp⟩

/-- The messages of a class and of the classes that its fields hold, under a path; the classes in
`collecting` are not entered. -/
def collect (sources : Table SchemaSource) (collecting : List String) (name path : String) :
    Table String :=
  match _found : sources.get? name with
  | none => []
  | some source =>
    if _fresh : collecting.contains name then []
    else
      let own := source.messages.map fun m => (under path m.1, m.2)
      source.metadata.foldl (fun held m =>
        match reference? path m.1 m.2 with
        | none => held
        | some (nestedPath, nested) =>
          if (name :: collecting).contains nested then held
          else Table.putAllNew held (collect sources (name :: collecting) nested nestedPath)) own
termination_by (unvisited sources collecting).length
decreasing_by exact unvisited_lt _found _fresh

/-- What follows a field and a dot at the start of a key. -/
def after? (field key : String) : Option String :=
  let head := (field ++ ".").toList
  if head.isPrefixOf key.toList then some (String.ofList (key.toList.drop head.length)) else none

/-- The messages that come with the inherited fields of a class, without those that it declares
itself. -/
def inherited (sources : Table SchemaSource) (source : SchemaSource) : Table String :=
  source.inheritance.foldl (fun held (target, declaration) =>
    match sources.get? declaration.sourceClass with
    | none => held
    | some origin =>
      let field := (declaration.sourceField.filter (! Text.isEmpty ·)).getD target
      origin.messages.foldl (fun held (key, message) =>
        match after? field key with
        | none => held
        | some rest =>
          let own := target ++ "." ++ rest
          if source.messages.has own then held else Table.putNew held own message) held) []

/-- The messages of a source: its own, those of nested classes, and the inherited ones. -/
def ofSource (sources : Table SchemaSource) (source : SchemaSource) : Table String :=
  Table.putAllNew (collect sources [] source.className "") (inherited sources source)

end Collected

end RuleSchema
