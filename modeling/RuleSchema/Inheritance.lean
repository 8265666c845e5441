import RuleSchema.Naming
import RuleSchema.Rule.Segment
import RuleSchema.Source

/-!
# Inherited rules

A field may take its rules from a field of another class. Expanding a class merges the rules of the
source field, and of everything below it, into the class's own; the source class is expanded first,
and a class that is met again while it is being expanded counts with its own rules. Expanded classes
are kept for the rest of the run.
-/

namespace RuleSchema

/-- The rules and fragments of a class. -/
structure ClassRules where
  rules : Table RuleValue
  fragments : Table Fragment

namespace RuleValue

/-- The items that one item of a list stands for. -/
def itemList : RuleValue → List RuleValue
  | text s => (Segment.split s).map text
  | v => [v]

/-- The items of a rule value. -/
def toList : RuleValue → List RuleValue
  | absent => []
  | text s => (Segment.split s).map text
  | list items => items.flatMap itemList
  | tuple items => items.flatMap itemList
  | v => [v]

/-- Items with one more, unless it is a text that is already there. -/
def addItem (items : List RuleValue) (item : RuleValue) : List RuleValue :=
  match item with
  | text s => if items.any (isSame s) then items else items ++ [item]
  | item => items ++ [item]
where
  /-- Whether an item is the given text. -/
  isSame (s : String) : RuleValue → Bool
    | text t => s == t
    | _ => false

/-- The items of two rule values; texts of the second that are already there are left out. -/
def merge (existing incoming : RuleValue) : List RuleValue :=
  incoming.toList.foldl addItem existing.toList

end RuleValue

namespace ClassRules

/-- The rules and fragments that a class declares itself. -/
def own (source : SchemaSource) : ClassRules := ⟨source.rules, source.fragments⟩

/-- The key below the target field that a key below the source field becomes. -/
def targetKey? (targetField sourceField key : String) : Option String :=
  if key = sourceField then some targetField
  else
    let start := sourceField ++ "."
    if Text.startsWith key start then some (targetField ++ "." ++ Text.drop start.length key)
    else none

/-- Rules with one inherited rule value merged in. -/
def mergeRule (targetField sourceField : String) (rules : Table RuleValue)
    (inherited : String × RuleValue) : Table RuleValue :=
  match targetKey? targetField sourceField inherited.1 with
  | some key => rules.put key (.list (((rules.get? key).getD .absent).merge inherited.2))
  | none => rules

/-- Rules with a source field and everything below it merged into a target field. -/
def mergeField (target : ClassRules) (targetField : String) (inherited : ClassRules)
    (sourceField : String) : ClassRules :=
  { target with rules := inherited.rules.foldl (mergeRule targetField sourceField) target.rules }

/-- Rules with the fragment of a source field, unless the target field has one. A fragment that only
appends to a collection is given the collection's array to append to. -/
def copyFragment (names : SchemaNames) (target : ClassRules) (source : SchemaSource)
    (targetField : String) (inherited : ClassRules) (sourceField : String) : ClassRules :=
  let fragments := match target.fragments.get? targetField, inherited.fragments.get? sourceField with
    | none, some fragment => target.fragments.put targetField fragment
    | _, _ => target.fragments
  let fragments := match fragments.get? targetField, source.metadata.get? targetField with
    | some fragment, some known =>
      match known.elementClass with
      | some element =>
        if fragment.isAppend && known.isCollection && !Text.isEmpty element then
          fragments.put targetField
            (.replace ("z.array(" ++ names.generate element none ++ ")" ++ fragment.code))
        else fragments
      | none => fragments
    | _, _ => fragments
  { target with fragments := fragments }

/-- Whether a field or something below it has rules. -/
def declares (c : ClassRules) (field : String) : Bool :=
  c.rules.has field || c.rules.any fun p => Text.startsWith p.1 (field ++ ".")

end ClassRules

namespace Inheritance

/-- The state of a run: the classes expanded so far, and those that are being expanded. -/
structure Run where
  expanded : Table ClassRules
  resolving : List String

/-- A computation that keeps the state of the run also when it fails. -/
abbrev Expanding (α : Type) := ExceptT Fault (StateM Run) α

/-- The rules of a class after one declared inheritance, given how classes are expanded. -/
def inheritField (sources : Table SchemaSource) (names : SchemaNames)
    (expand : String → Expanding ClassRules) (source : SchemaSource) (target : ClassRules)
    (declared : String × Inheritance) : Expanding ClassRules := do
  let (targetField, declaration) := declared
  let refuse (reason : String) : Expanding ClassRules :=
    throw (.inheritance source.className targetField declaration.sourceClass reason)
  match sources.get? declaration.sourceClass with
  | none => refuse "source class is not part of this generation run"
  | some origin =>
    let sourceField := match declaration.sourceField with
      | some field => if Text.isEmpty field then targetField else field
      | none => targetField
    let inherited ← expand origin.className
    if inherited.declares sourceField then
      let merged := target.mergeField targetField inherited sourceField
      return merged.copyFragment names source targetField inherited sourceField
    else
      refuse ("'" ++ declaration.sourceClass ++ "' declares no rules for '" ++ sourceField ++ "'")

/-- A class marked as being expanded. -/
def Run.enter (run : Run) (className : String) : Run :=
  { run with resolving := className :: run.resolving }

/-- A class no longer marked as being expanded. -/
def Run.leave (run : Run) (className : String) : Run :=
  { run with resolving := run.resolving.filter (· != className) }

/-- The rules of a class kept for the rest of the run. -/
def Run.keep (run : Run) (className : String) (rules : ClassRules) : Run :=
  { run with expanded := run.expanded.put className rules }

/-- The rules of a class with every inheritance expanded; `fuel` bounds how many classes are being
expanded at once. -/
def expandWithin (sources : Table SchemaSource) (names : SchemaNames) :
    Nat → String → Expanding ClassRules
  | 0, _ => throw .missingKey
  | fuel + 1, className => do
    let run ← get
    match run.expanded.get? className, sources.get? className with
    | some known, _ => return known
    | none, none => throw .missingKey
    | none, some source =>
      if run.resolving.contains className then return .own source
      set (run.enter className)
      let outcome ← ExceptT.lift (ExceptT.run (source.inheritance.foldlM
        (inheritField sources names (expandWithin sources names fuel) source) (.own source)))
      modify fun r => r.leave className
      match outcome with
      | .ok rules =>
        modify fun r => r.keep className rules
        return rules
      | .error fault => throw fault

/-- The rules of a class with every inheritance expanded. -/
def expand (sources : Table SchemaSource) (names : SchemaNames) (className : String) :
    Expanding ClassRules :=
  expandWithin sources names (sources.length + 1) className

/-- The start of a run. -/
def Run.start : Run := ⟨[], []⟩

end Inheritance

end RuleSchema
