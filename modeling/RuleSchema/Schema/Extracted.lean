import RuleSchema.Handler.Basic
import RuleSchema.Inheritance
import RuleSchema.Message.Collected
import RuleSchema.Node.Declared
import RuleSchema.Schema.Basic

/-!
# Extracting schemas

A class becomes a schema: its inheritance is expanded, its rules are grouped and resolved with the
messages that hold for it, and the schemas are collected that its types and fragments mention.
-/

namespace RuleSchema.Schema

/-- Whether a character can start a name in code. -/
def startsToken (c : Char) : Bool := Script.isPlainStart c || c == '$'

/-- Whether a character can continue a name in code. -/
def continuesToken (c : Char) : Bool := Text.isWord c || c == '$'

/-- The names in code, after the character `before`; `skip` characters belong to a name that has
been read. A name starts where a word starts or ends, and it does not end with a dollar sign. -/
def tokensFrom (before : Option Char) : Nat → List Char → List String
  | _, [] => []
  | skip + 1, c :: rest => tokensFrom (some c) skip rest
  | 0, c :: rest =>
    let token := Text.stripEnd (· == '$') ((c :: rest).takeWhile continuesToken)
    if startsToken c && (Text.isWord c != before.any Text.isWord) && !token.isEmpty then
      String.ofList token :: tokensFrom (some c) (token.length - 1) rest
    else tokensFrom (some c) 0 rest

/-- The names in code. -/
def tokens (code : String) : List String := tokensFrom none 0 code.toList

/-- The names of all schemas of a run. -/
def namesOf (names : SchemaNames) (sources : Table SchemaSource) : List String :=
  sources.map fun (_, source) => names.generate source.className source.schemaName

/-- The schema names that a fragment mentions. -/
def mentioned (known : List String) (fragment : Option Fragment) : List String :=
  match fragment with
  | some f => (tokens f.code).filter known.contains
  | none => []

/-- The schema names that a resolved field mentions. -/
def mentionedBy (names : SchemaNames) (known : List String) (r : Resolved) : List String :=
  (if Handler.isReferenceType r.inferredType then [names.ofReference r.inferredType] else []) ++
    mentioned known r.fragment

/-- The other schemas that properties mention, in the order of their first mention. -/
def dependenciesOf (names : SchemaNames) (known : List String) (own : String)
    (properties : List Property) : List String :=
  let all := properties.flatMap fun p =>
    p.node.heads.flatMap (mentionedBy names known) ++ mentioned known p.override
  (all.filter (· != own)).eraseDups

/-- The property of a top-level field. It may be left out unless its rules require it, or where
metadata says so. -/
def propertyOf (source : SchemaSource) (rules : ClassRules) (name : String) (node : Node) :
    Property :=
  let optional := (source.metadata.get? name).any FieldMetadata.isOptional
  ⟨name, !node.head.isRequired || optional, node, rules.fragments.get? name⟩

/-- The messages of a class. -/
def messagesFor (sources : Table SchemaSource) (catalog : Catalog) (source : SchemaSource) :
    Messages :=
  ⟨some catalog, Collected.ofSource sources source, source.attributes⟩

/-- The schema of a class with expanded rules. A dotted name has no place in the output. -/
def ofRules (sources : Table SchemaSource) (names : SchemaNames) (catalog : Catalog)
    (source : SchemaSource) (rules : ClassRules) : Except Fault Schema := do
  let groups ← Grouping.group rules.rules source.metadata
  let nodes ← Node.ofGroups (messagesFor sources catalog source) source.metadata groups
  let properties := (nodes.filter fun n => !Text.contains n.1 ".").map
    fun (name, node) => propertyOf source rules name node
  let name := names.generate source.className source.schemaName
  return ⟨name, source.className, source.kind, properties,
    dependenciesOf names (namesOf names sources) name properties⟩

/-- A schema of expanded rules is made from the nodes of their groups. -/
theorem exists_of_ofRules {sources : Table SchemaSource} {names : SchemaNames} {catalog : Catalog}
    {source : SchemaSource} {rules : ClassRules} {s : Schema}
    (h : ofRules sources names catalog source rules = .ok s) :
    ∃ groups nodes, Grouping.group rules.rules source.metadata = .ok groups ∧
      Node.ofGroups (messagesFor sources catalog source) source.metadata groups = .ok nodes ∧
      s.name = names.generate source.className source.schemaName ∧
      s.properties = (nodes.filter fun n => !Text.contains n.1 ".").map
        (fun n => propertyOf source rules n.1 n.2) ∧
      s.dependencies = dependenciesOf names (namesOf names sources) s.name s.properties := by
  simp only [ofRules, bind, Except.bind] at h
  split at h
  · cases h
  · rename_i groups hgroups
    split at h
    · cases h
    · rename_i nodes hnodes
      cases h
      exact ⟨groups, nodes, hgroups, hnodes, rfl, rfl, rfl⟩

/-- The schema of a class of a run. -/
def extract (sources : Table SchemaSource) (names : SchemaNames) (catalog : Catalog)
    (className : String) : Inheritance.Expanding Schema := do
  match sources.get? className with
  | none => throw .missingKey
  | some source =>
    let rules ← Inheritance.expand sources names className
    match ofRules sources names catalog source rules with
    | .ok schema => return schema
    | .error fault => throw fault

end RuleSchema.Schema
