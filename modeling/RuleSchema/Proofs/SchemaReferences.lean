import RuleSchema.Proofs.ExportedSchemas
import RuleSchema.Proofs.NodeExpressions
import RuleSchema.Proofs.TreeAddresses

/-!
# References between schemas

Compiling a property reads the names of schemas only where the handler of references fills a
builder. With the built-in handlers these are the types that extraction records: every schema that
an expression refers to is the schema itself or one of its dependencies, and the file of a schema
imports those of its dependencies that belong to the run, each once.
-/

namespace RuleSchema

namespace Compiler

/-- The references that compiling a field with a fragment looks up, given those below it. What lies
below is used by the handler of every type only, and not where a fragment replaces it. -/
def referencesAt (c : Compiler) (fragment : Option Fragment) (r : Resolved) (below : List String) :
    List String :=
  match c.registry.forField? r with
  | .ok .reference => [r.inferredType]
  | .ok .universal => if fragment.any Fragment.isReplace then [] else below
  | _ => []

mutual
/-- The types of references in the expression of a node with a fragment, in their order. -/
def references (c : Compiler) (fragment : Option Fragment) : Node → List String
  | .leaf r => c.referencesAt fragment r []
  | .array r item =>
    c.referencesAt fragment r (if r.isArray then references c item.head.fragment item else [])
  | .object r properties =>
    c.referencesAt fragment r
      (if !r.isArray && r.isObject then referencesOfAll c properties else [])
/-- The types of references in the expressions of properties. -/
def referencesOfAll (c : Compiler) : List (String × Node) → List String
  | [] => []
  | (name, child) :: rest =>
    (if Text.contains name "." then [] else references c child.head.fragment child) ++
      referencesOfAll c rest
end

/-- A compiler with other names of schemas. -/
def withNames (c : Compiler) (names : SchemaNames) : Compiler := { c with names := names }

/-- Other names agree with those of a compiler on types. -/
def AgreesOn (c : Compiler) (names : SchemaNames) (types : List String) : Prop :=
  ∀ type ∈ types, names.ofReference type = c.names.ofReference type

section Names

variable {c : Compiler} {names : SchemaNames} {isOptional : Bool} {fragment : Option Fragment}

theorem builderFor_congr {builders : Table Base} {r : Resolved} {below below' : Below}
    (hitem : r.isArray = true → below.item = below'.item)
    (hproperties : r.isArray = false → r.isObject = true → below.properties = below'.properties) :
    builderFor builders r below = builderFor builders r below' := by
  unfold builderFor
  cases harray : r.isArray with
  | true => rw [if_pos rfl, if_pos rfl, hitem harray]
  | false =>
      cases hobject : r.isObject with
      | true =>
          rw [if_neg Bool.false_ne_true, if_neg Bool.false_ne_true, hproperties harray hobject]
      | false => rfl

/-- What a handler gives depends on the names only through the reference of the field, and on what
lies below only where the field is compiled around it. -/
theorem dispatch_congr {node : Node} {below below' : Below} {types : List String}
    (h : c.AgreesOn names (c.referencesAt fragment node.head types))
    (hitem : c.AgreesOn names types → node.head.isArray = true → below.item = below'.item)
    (hproperties : c.AgreesOn names types → node.head.isArray = false →
      node.head.isObject = true → below.properties = below'.properties) :
    (c.withNames names).dispatch node below isOptional fragment =
      c.dispatch node below' isOptional fragment := by
  unfold dispatch
  change c.registry.forField? node.head >>= _ = _
  unfold referencesAt at h
  cases hhandler : c.registry.forField? node.head with
  | error fault => rfl
  | ok handler =>
      rw [hhandler] at h
      change (c.withNames names).handle handler node below isOptional fragment =
        c.handle handler node below' isOptional fragment
      cases handler with
      | reference =>
          unfold handle referenceBuilder
          dsimp only
          rw [withNames, h _ (List.mem_singleton.mpr rfl)]
      | universal =>
          unfold handle universal
          dsimp only
          dsimp only at h
          split
          · rfl
          · rename_i hkeep
            rw [if_neg hkeep] at h
            rw [builderFor_congr (hitem h) (hproperties h)]
            rfl
      | oneOf => rfl
      | enumeration => rfl
      | amount => rfl

mutual
theorem compile_withNames : ∀ (node : Node) (isOptional : Bool) (fragment : Option Fragment),
    c.AgreesOn names (c.references fragment node) →
      (c.withNames names).compile isOptional fragment node = c.compile isOptional fragment node
  | .leaf r, isOptional, fragment, h => by
      rw [compile, compile]
      exact dispatch_congr h (fun _ _ => rfl) fun _ _ _ => rfl
  | .array r item, isOptional, fragment, h => by
      rw [compile, compile]
      refine dispatch_congr h (fun hbelow harray => ?_) fun _ _ _ => rfl
      change r.isArray = true at harray
      rw [if_pos harray] at hbelow
      exact congrArg (Except.map some) (compile_withNames item false _ hbelow)
  | .object r properties, isOptional, fragment, h => by
      rw [compile, compile]
      refine dispatch_congr h (fun _ _ => rfl) fun hbelow harray hobject => ?_
      change r.isArray = false at harray
      change r.isObject = true at hobject
      rw [harray, hobject] at hbelow
      exact compileAll_withNames properties hbelow
theorem compileAll_withNames : ∀ properties : List (String × Node),
    c.AgreesOn names (c.referencesOfAll properties) →
      (c.withNames names).compileAll properties = c.compileAll properties
  | [], _ => by rw [compileAll, compileAll]
  | (name, child) :: rest, h => by
      rw [compileAll, compileAll]
      have hrest : c.AgreesOn names (c.referencesOfAll rest) := fun type htype =>
        h type (List.mem_append_right _ htype)
      split
      · exact compileAll_withNames rest hrest
      · rename_i hname
        have hchild : c.AgreesOn names (c.references child.head.fragment child) := fun type htype =>
          h type (List.mem_append_left _ (by rwa [if_neg hname]))
        rw [compile_withNames child _ _ hchild, compileAll_withNames rest hrest]
end

end Names

theorem mem_referencesAt {c : Compiler} {fragment : Option Fragment} {r : Resolved}
    {below : List String} {type : String} (h : type ∈ c.referencesAt fragment r below) :
    (c.registry.forField? r = .ok .reference ∧ type = r.inferredType) ∨ type ∈ below := by
  unfold referencesAt at h
  split at h
  · rename_i hhandler
    exact .inl ⟨hhandler, List.mem_singleton.mp h⟩
  · split at h
    · cases h
    · exact .inr h
  · cases h

mutual
/-- Every reference is the type of a field that the handler of references accepts. -/
theorem mem_references {c : Compiler} {type : String} :
    ∀ {fragment : Option Fragment} {node : Node},
    type ∈ c.references fragment node →
      ∃ r ∈ node.heads, c.registry.forField? r = .ok .reference ∧ type = r.inferredType
  | fragment, .leaf r, h => by
      rw [references] at h
      rcases mem_referencesAt h with hhere | hbelow
      · exact ⟨r, List.mem_singleton.mpr rfl, hhere⟩
      · cases hbelow
  | fragment, .array r item, h => by
      rw [references] at h
      rcases mem_referencesAt h with hhere | hbelow
      · exact ⟨r, List.mem_cons_self, hhere⟩
      · split at hbelow
        · obtain ⟨q, hq, htype⟩ := mem_references hbelow
          exact ⟨q, List.mem_cons_of_mem _ hq, htype⟩
        · cases hbelow
  | fragment, .object r properties, h => by
      rw [references] at h
      rcases mem_referencesAt h with hhere | hbelow
      · exact ⟨r, List.mem_cons_self, hhere⟩
      · split at hbelow
        · obtain ⟨q, hq, htype⟩ := mem_referencesOfAll hbelow
          exact ⟨q, List.mem_cons_of_mem _ hq, htype⟩
        · cases hbelow
theorem mem_referencesOfAll {c : Compiler} {type : String} : ∀ {properties : List (String × Node)},
    type ∈ c.referencesOfAll properties →
      ∃ r ∈ Tree.headsOfAll properties, c.registry.forField? r = .ok .reference ∧
        type = r.inferredType
  | [], h => by
      rw [referencesOfAll] at h
      cases h
  | (name, child) :: rest, h => by
      rw [referencesOfAll] at h
      rw [Tree.headsOfAll]
      rcases List.mem_append.mp h with h | h
      · split at h
        · cases h
        · obtain ⟨q, hq, htype⟩ := mem_references h
          exact ⟨q, List.mem_append_left _ hq, htype⟩
      · obtain ⟨q, hq, htype⟩ := mem_referencesOfAll h
        exact ⟨q, List.mem_append_right _ hq, htype⟩
end

end Compiler

namespace Handler

/-- A type that the handler of references accepts among the built-in ones only where it refers to a
schema: a type that merely ends like the name of a data class is one of an enumeration. -/
def IsSettled (type : String) : Prop :=
  isReferenceType type = true ∨ Text.startsWith type Inference.enumerationMark = true ∨
    Text.endsWith type "Data" = false

theorem accepts_of_forField? {r : Resolved} (h : Registry.builtIn.forField? r = .ok .reference) :
    enumeration.accepts r = false ∧ reference.accepts r = true := by
  rw [Registry.forField?, Compiler.builtIn_eq, List.find?_cons, handling_accepts] at h
  cases hone : oneOf.accepts r with
  | true =>
      rw [hone] at h
      cases h
  | false =>
      rw [hone, List.find?_cons, handling_accepts] at h
      cases henumeration : enumeration.accepts r with
      | true =>
          rw [henumeration] at h
          cases h
      | false =>
          rw [henumeration, List.find?_cons, handling_accepts] at h
          cases hreference : reference.accepts r with
          | true => exact ⟨rfl, rfl⟩
          | false =>
              rw [hreference] at h
              cases h

theorem isReferenceType_of_forField? {r : Resolved}
    (h : Registry.builtIn.forField? r = .ok .reference) (htype : IsSettled r.inferredType) :
    isReferenceType r.inferredType = true := by
  obtain ⟨henumeration, hreference⟩ := accepts_of_forField? h
  rcases htype with htype | htype | htype
  · exact htype
  · exact absurd (henumeration.symm.trans htype) Bool.false_ne_true
  · change (isReferenceType r.inferredType || Text.endsWith r.inferredType "Data") = true
      at hreference
    rwa [htype, Bool.or_false] at hreference

end Handler

namespace Inference

theorem settled_inferType (entries : List RuleEntry) (field : Option String) :
    Handler.IsSettled (inferType entries field) := by
  unfold inferType
  have hwords : ∀ category ∈ precedence, Text.endsWith category.2 "Data" = false := by decide
  split
  · rename_i category inferred hfind
    exact .inr (.inr (hwords _ (List.mem_of_find?_eq_some hfind)))
  · dsimp only
    split
    · exact .inr (.inl (Text.startsWith_append _ _))
    · split
      · split
        · exact .inr (.inr (by decide))
        · exact .inr (.inr (by decide))
      · exact .inr (.inr (by decide))

end Inference

namespace Declared

/-- A declared field whose type, where its shape or class decides it, is settled. -/
def IsSettled (d : Declared) : Prop := ∀ type, d.shapeType = some type → Handler.IsSettled type

theorem settled_array : Handler.IsSettled "array" := .inr (.inr (by decide))

theorem settled_object : Handler.IsSettled "object" := .inr (.inr (by decide))

theorem settled_none {d : Declared} (h : d.shapeType = none) : d.IsSettled := fun type htype => by
  rw [h] at htype
  cases htype

theorem settled_some {d : Declared} {type : String} (h : d.shapeType = some type)
    (htype : Handler.IsSettled type) : d.IsSettled := fun other hother => by
  rw [h, Option.some.injEq] at hother
  exact hother ▸ htype

mutual
theorem settled_ofGroup : ∀ (path : String) (g : RuleGroup),
    ∀ d ∈ (ofGroup path g).heads, d.IsSettled
  | path, .node rules children isObject className, d, hd => by
      rw [ofGroup] at hd
      split at hd
      · rw [List.mem_singleton.mp hd]
        exact settled_none rfl
      · split at hd
        · rcases List.mem_cons.mp hd with rfl | hd
          · exact settled_some rfl settled_array
          · split at hd
            · exact settled_scalarItem _ children d hd
            · rcases List.mem_cons.mp hd with rfl | hd
              · exact settled_some rfl settled_object
              · exact settled_itemProperties _ children d hd
        · rcases List.mem_cons.mp hd with rfl | hd
          · exact settled_some rfl settled_object
          · exact settled_propertiesOf _ children d hd
theorem settled_scalarItem : ∀ (path : String) (children : List (String × RuleGroup)),
    ∀ d ∈ (scalarItem path children).heads, d.IsSettled
  | path, [], d, hd => by
      rw [scalarItem] at hd
      rw [List.mem_singleton.mp hd]
      exact settled_none rfl
  | path, (name, group) :: rest, d, hd => by
      rw [scalarItem] at hd
      split at hd
      · split at hd
        · rw [List.mem_singleton.mp hd]
          exact settled_none rfl
        · exact settled_ofGroup path group d hd
      · exact settled_scalarItem path rest d hd
theorem settled_propertiesOf : ∀ (path : String) (children : List (String × RuleGroup)),
    ∀ d ∈ Tree.headsOfAll (propertiesOf path children), d.IsSettled
  | path, [], d, hd => by
      rw [propertiesOf] at hd
      cases hd
  | path, (name, group) :: rest, d, hd => by
      rw [propertiesOf] at hd
      rcases List.mem_append.mp hd with hd | hd
      · exact settled_ofGroup _ group d hd
      · exact settled_propertiesOf path rest d hd
theorem settled_itemProperties : ∀ (path : String) (children : List (String × RuleGroup)),
    ∀ d ∈ Tree.headsOfAll (itemProperties path children), d.IsSettled
  | path, [], d, hd => by
      rw [itemProperties] at hd
      cases hd
  | path, (name, group) :: rest, d, hd => by
      rw [itemProperties] at hd
      split at hd
      · exact settled_itemProperties path rest d hd
      · rcases List.mem_append.mp hd with hd | hd
        · exact settled_ofGroup _ group d hd
        · exact settled_itemProperties path rest d hd
end

theorem settled_ofField (metadata : Table FieldMetadata) (field : String) (group : RuleGroup) :
    ∀ d ∈ (ofField metadata field group).heads, d.IsSettled := by
  intro d hd
  unfold ofField at hd
  dsimp only at hd
  split at hd
  · split at hd
    · rw [List.mem_singleton.mp hd]
      refine settled_some rfl (.inl ?_)
      rw [Handler.isReferenceType, Text.startsWith_append, Bool.true_or]
    · rw [List.mem_singleton.mp hd]
      refine settled_some rfl (.inl ?_)
      rw [Handler.isReferenceType, Text.startsWith_append, Bool.or_true]
    · exact settled_ofGroup field group d hd
  · exact settled_ofGroup field group d hd

/-- The type of a resolved field is settled. -/
theorem settled_of_resolve {m : Messages} {d : Declared} {r : Resolved} (hd : d.IsSettled)
    (h : d.resolve m = .ok r) : Handler.IsSettled r.inferredType := by
  obtain ⟨n, checks, inferred, -, -, hinferred, rfl⟩ := exists_of_resolve h
  change Handler.IsSettled (d.shapeType.getD inferred)
  cases hshape : d.shapeType with
  | some type => exact hd type hshape
  | none =>
      obtain ⟨-, rfl⟩ | ⟨-, rfl⟩ := hinferred
      · exact .inr (.inr (by decide))
      · exact Inference.settled_inferType _ _

end Declared

namespace Schema

variable {sources : Table SchemaSource} {names : SchemaNames} {catalog : Catalog}
  {source : SchemaSource} {rules : ClassRules} {s : Schema}

theorem mem_dependenciesOf {known : List String} {own d : String} {properties : List Property} :
    d ∈ dependenciesOf names known own properties ↔
      (∃ p ∈ properties, (∃ r ∈ p.node.heads, d ∈ mentionedBy names known r) ∨
        d ∈ mentioned known p.override) ∧ d ≠ own := by
  simp only [dependenciesOf, List.mem_eraseDups, List.mem_filter, List.mem_flatMap, List.mem_append,
    bne_iff_ne]

/-- The fields of an extracted schema have settled types. -/
theorem settled_of_ofRules (h : ofRules sources names catalog source rules = .ok s) :
    ∀ p ∈ s.properties, ∀ r ∈ p.node.heads, Handler.IsSettled r.inferredType := by
  obtain ⟨groups, nodes, -, hnodes, -, hproperties, -⟩ := exists_of_ofRules h
  intro p hp r hr
  rw [hproperties] at hp
  obtain ⟨named, hnamed, rfl⟩ := List.mem_map.mp hp
  have hmem : r ∈ Tree.headsOfAll nodes :=
    Tree.mem_headsOfAll.mpr ⟨named, (List.mem_filter.mp hnamed).1, hr⟩
  obtain ⟨d, hd, hresolve⟩ := exists_of_forall₂ (Tree.forall₂_headsOfAll hnodes) hmem
  refine Declared.settled_of_resolve ?_ hresolve
  obtain ⟨shape, hshape, hd⟩ := Tree.mem_headsOfAll.mp hd
  obtain ⟨group, -, rfl⟩ := List.mem_map.mp hshape
  exact Declared.settled_ofField source.metadata group.1 group.2 d hd

/-- A reference in the expression of a property is the schema itself or one of its dependencies. -/
theorem reference_mem (h : ofRules sources names catalog source rules = .ok s) {c : Compiler}
    (hregistry : c.registry = .builtIn) {p : Property} (hp : p ∈ s.properties)
    {type : String} (htype : type ∈ c.references p.fragment p.node) :
    names.ofReference type ∈ s.name :: s.dependencies := by
  obtain ⟨r, hr, hhandler, rfl⟩ := Compiler.mem_references htype
  rw [hregistry] at hhandler
  have hreference : Handler.isReferenceType r.inferredType = true :=
    Handler.isReferenceType_of_forField? hhandler (settled_of_ofRules h p hp r hr)
  obtain ⟨-, -, -, -, -, -, hdependencies⟩ := exists_of_ofRules h
  rw [List.mem_cons, hdependencies, mem_dependenciesOf]
  refine (em _).imp_right fun hown => ⟨⟨p, hp, .inl ⟨r, hr, ?_⟩⟩, hown⟩
  rw [mentionedBy, if_pos hreference]
  exact List.mem_append_left _ (List.mem_singleton.mpr rfl)

end Schema

namespace Entry

/-- The line that imports the file of a schema. -/
def importLine (name : String) : String := "import \x7b " ++ name ++ " \x7d from './" ++ name ++ "';\n"

/-- The lines that import from outside of the run. -/
def outerImports (config : Configuration) (e : Entry) : String :=
  libraryImport ++ if e.annotation.any (! Text.isEmpty ·) then typesImport config else ""

end Entry

namespace Compilation

/-- Schemas of a run with the built-in handlers refer to themselves and to their dependencies only:
compiling a property looks up no other names. Dependencies are listed once each, without the schema
itself, and the file of a schema imports those of them that belong to the run, each once. -/
theorem references_recorded (config : Configuration) (catalog : Catalog) (sources : List SchemaSource)
    (hnames : (start config catalog .builtIn sources).schemaNames.Nodup) (history : List Request)
    {schemas : List Schema}
    (hschemas : outcome extract ((start config catalog .builtIn sources).afterRequests history) =
      .ok schemas) {s : Schema} (hs : s ∈ schemas) :
    let first := start config catalog .builtIn sources
    let c := first.compiler
    (∀ p ∈ s.properties,
      (∀ type ∈ c.references p.fragment p.node, c.names.ofReference type ∈ s.name :: s.dependencies) ∧
      ∀ names, c.AgreesOn names (c.references p.fragment p.node) →
        Schema.propertyExpression (c.withNames names) p = Schema.propertyExpression c p) ∧
    s.dependencies.Nodup ∧ s.name ∉ s.dependencies ∧
    ∀ table, outcome files (first.afterRequests history) = .ok table →
      ∃ (e : Entry) (imports : List String), e.name = s.name ∧ s.define c = .ok e.definition ∧
        table.get? (s.name ++ ".ts") = some (Entry.outerImports config e ++
          String.join (imports.map Entry.importLine) ++ "\n" ++ Entry.exportLines config e) ∧
        imports.Nodup ∧ ∀ d, d ∈ imports ↔ d ∈ s.dependencies ∧ d ∈ first.schemaNames := by
  intro first c
  have hkeyed := Inheritance.keyed_sourceTable sources
  have hkeys := nodup_keys_sourceTable sources
  have hrun : first.Follows (first.afterRequests history) :=
    (follows_start config catalog .builtIn sources).afterRequests hkeyed hkeys history
  have hextracts := ((meets_extract hkeyed) _ hrun).2 schemas hschemas
  obtain ⟨-, -, source, -, held, rules, -, hrules⟩ := exists_of_forall₂ hextracts hs
  obtain ⟨-, -, -, -, -, -, hdependencies⟩ := Schema.exists_of_ofRules hrules
  have hnodup : s.dependencies.Nodup := hdependencies ▸ Table.nodup_eraseDups _
  refine ⟨fun p hp => ⟨fun type htype => ?_, fun names hagree => ?_⟩, hnodup, ?_, ?_⟩
  · exact Schema.reference_mem hrules rfl hp htype
  · have hfragment : p.fragment.or p.node.head.fragment = p.fragment := by
      rw [Property.fragment, Option.or_assoc, Option.or_self]
    unfold Schema.propertyExpression Compiler.compileWith
    rw [hfragment]
    exact Compiler.compile_withNames p.node p.isOptional p.fragment hagree
  · rw [hdependencies]
    exact fun hmem => (Schema.mem_dependenciesOf.mp hmem).2 rfl
  · intro table htable
    obtain ⟨found, es, hfound, -, hexports, rfl⟩ := exists_entries_of_files hkeyed hkeys hrun htable
    rw [hschemas] at hfound
    cases hfound
    have hdistinct : (schemas.map Schema.name).Nodup := (hextracts.map_name hkeys) ▸ hnames
    obtain ⟨e, he, hfile⟩ := hexports.get?_files config hdistinct hs
    refine ⟨e, e.dependencies, he.name, he.definition, hfile, ?_, fun d => ?_⟩
    · rw [he.dependencies]
      exact hnodup.filter _
    · rw [he.dependencies, List.mem_filter, decide_eq_true_iff, hextracts.map_name hkeys]

/-- An order with a collection, an object, a field of its own class and a name in appended code, and
the classes that it refers to. -/
def orderClasses : List SchemaSource :=
  [⟨"App.OrderData", [("lines", .text "nullable"), ("buyer", .text "nullable"),
      ("parent", .text "nullable"), ("note", .text "nullable")], [], [],
      [("lines", ⟨false, false, true, none, some "LineData"⟩),
        ("buyer", ⟨true, false, false, some "App.UserData", none⟩),
        ("parent", ⟨true, true, false, some "OrderData", none⟩)],
      [], [("note", ⟨".or(UserDataSchema)", .append⟩)], .data, none⟩,
    nullableClass "App.UserData" "name"]

/-- The order refers to itself and to two other schemas, and its file imports the one of these that
belongs to the run. -/
theorem references_recorded_orders :
    let first := start .default (.ofMap []) .builtIn orderClasses
    first.schemaNames.Nodup ∧ ∃ schemas s, outcome extract (first.afterRequests [.script]) =
        .ok schemas ∧ s ∈ schemas ∧ s.name = "OrderDataSchema" ∧
      s.dependencies = ["LineDataSchema", "UserDataSchema"] ∧
      (∀ p ∈ s.properties, ∀ type ∈ first.compiler.references p.fragment p.node,
        first.compiler.names.ofReference type ∈
          ["OrderDataSchema", "LineDataSchema", "UserDataSchema"]) ∧
      ∃ (e : Entry) (imports : List String) (table : Table String),
        outcome files (first.afterRequests [.script]) = .ok table ∧
          table.get? "OrderDataSchema.ts" = some (Entry.outerImports .default e ++
            String.join (imports.map Entry.importLine) ++ "\n" ++ Entry.exportLines .default e) ∧
          imports.Nodup ∧ ∀ d, d ∈ imports ↔
            d ∈ ["LineDataSchema", "UserDataSchema"] ∧ d ∈ ["OrderDataSchema", "UserDataSchema"] := by
  intro first
  have hnames : first.schemaNames = ["OrderDataSchema", "UserDataSchema"] := by decide +kernel
  have hdistinct : first.schemaNames.Nodup := by
    rw [hnames]
    decide
  have hextract : ((outcome extract (first.afterRequests [.script])).map fun schemas =>
      schemas.map fun s => (s.name, s.dependencies)).toOption =
        some [("OrderDataSchema", ["LineDataSchema", "UserDataSchema"]), ("UserDataSchema", [])] := by
    decide +kernel
  have hfiles : (outcome files (first.afterRequests [.script])).toOption.isSome := by
    decide +kernel
  obtain ⟨schemas, hschemas⟩ : Succeeds (outcome extract (first.afterRequests [.script])) := by
    apply succeeds_of_isSome
    decide +kernel
  obtain ⟨table, htable⟩ := succeeds_of_isSome hfiles
  rw [hschemas] at hextract
  have hlisted : (schemas.map fun s => (s.name, s.dependencies)) = _ := Option.some.inj hextract
  have hmem : ("OrderDataSchema", ["LineDataSchema", "UserDataSchema"]) ∈
      schemas.map fun s => (s.name, s.dependencies) := by
    rw [hlisted]
    exact List.mem_cons_self
  obtain ⟨s, hs, heq⟩ := List.mem_map.mp hmem
  obtain ⟨hname, hdependencies⟩ := Prod.mk.inj heq
  obtain ⟨hproperties, -, -, htext⟩ := references_recorded .default (.ofMap []) orderClasses hdistinct
    [.script] hschemas hs
  obtain ⟨e, imports, -, -, hget, hnodup, himports⟩ := htext table htable
  rw [hname] at hget
  refine ⟨hdistinct, schemas, s, hschemas, hs, hname, hdependencies, fun p hp type htype => ?_, e,
    imports, table, htable, hget, hnodup, fun d => ?_⟩
  · rw [← hname, ← hdependencies]
    exact (hproperties p hp).1 type htype
  · rw [← hdependencies, ← hnames]
    exact himports d

end Compilation

end RuleSchema
