import RuleSchema.Source
import RuleSchema.Text.Case

/-!
# Groups of rules

Rules address nested data by dotted paths with a star for the items of an array. Grouping rebuilds
the shape of the data: one tree for each top-level field, whose children are properties or, under a
star, the items of an array. Marker entries and metadata say which paths are nested objects; without
any metadata every dotted path is one.
-/

namespace RuleSchema

/-- A node of the grouped rules: its declared rules, its children by name, whether it is known to be
a nested object, and the class of the object where a marker names it. -/
inductive RuleGroup where
  | node (rules : RuleValue) (children : List (String × RuleGroup)) (isObject : Bool)
      (className : Option String)

namespace RuleValue

mutual
/-- The text that shows a rule value inside others. -/
def quoted : RuleValue → String
  | absent => "None"
  | text s => Text.Quoted.encode s
  | list items => "[" ++ Text.join ", " (quotedItems items) ++ "]"
  | tuple items => Datum.quotedTuple (quotedItems items)
  | rule r => (r.diagnostic.toOption).getD ""
  | datum d => d.quoted
/-- The quoted texts of a list of rule values. -/
def quotedItems : List RuleValue → List String
  | [] => []
  | v :: rest => quoted v :: quotedItems rest
end

/-- The text of a rule value. -/
def display : RuleValue → String
  | text s => s
  | rule r => (r.display.toOption).getD ""
  | datum d => d.display
  | v => v.quoted

/-- Whether no rules are declared. -/
def isAbsent : RuleValue → Bool
  | absent => true
  | datum .absent => true
  | _ => false

/-- Whether a rule value is the given text. -/
def isText (s : String) : RuleValue → Bool
  | text t => s == t
  | _ => false

end RuleValue

namespace RuleGroup

/-- A group without rules or children. -/
def empty : RuleGroup := node .absent [] false none

instance : Inhabited RuleGroup := ⟨empty⟩

/-- The rules declared for a group. -/
def rules : RuleGroup → RuleValue
  | node rules _ _ _ => rules

/-- The children of a group. -/
def children : RuleGroup → List (String × RuleGroup)
  | node _ children _ _ => children

/-- Whether a group is known to be a nested object. -/
def isObject : RuleGroup → Bool
  | node _ _ isObject _ => isObject

/-- The class of a group. -/
def className : RuleGroup → Option String
  | node _ _ _ className => className

/-- A group with other rules. -/
def setRules (value : RuleValue) : RuleGroup → RuleGroup
  | node _ children isObject className => node value children isObject className

/-- A group known to be a nested object. -/
def setObject : RuleGroup → RuleGroup
  | node rules children _ className => node rules children true className

/-- A group with a class. -/
def setClass (name : String) : RuleGroup → RuleGroup
  | node rules children isObject _ => node rules children isObject (some name)

/-- Children with the one under a name changed, or made from the empty group. -/
def updateIn (name : String) (f : RuleGroup → RuleGroup) :
    List (String × RuleGroup) → List (String × RuleGroup)
  | [] => [(name, f empty)]
  | (k, g) :: rest => if k = name then (k, f g) :: rest else (k, g) :: updateIn name f rest

/-- A group with the child under a name changed, or made from the empty group. -/
def update (name : String) (f : RuleGroup → RuleGroup) : RuleGroup → RuleGroup
  | node rules children isObject className =>
    node rules (updateIn name f children) isObject className

/-- Whether a group has no children. -/
def isLeaf (g : RuleGroup) : Bool := g.children.isEmpty

/-- Whether a group has children. -/
def hasNested (g : RuleGroup) : Bool := !g.children.isEmpty

/-- The name of the child that holds the items of an array. -/
def wildcard : String := "*"

/-- Whether a group holds the items of an array. -/
def isArray (g : RuleGroup) : Bool := Table.has g.children wildcard

end RuleGroup

namespace Marker

/-- The marker that flags a nested object. -/
def flag : String := "__is_nested_object"

/-- The marker for the sort of a path. -/
def sort : String := "__type"

/-- The marker for the rules of an object itself. -/
def baseRules : String := "__base_rules"

/-- The marker for the rules of a property. -/
def nested : String := "__nested"

/-- The marker for the class of an object. -/
def className : String := "__class"

/-- All markers. -/
def all : List String := [flag, sort, baseRules, nested, className]

/-- Whether a path contains a marker. -/
def isMarked (path : String) : Bool := (Text.splitOn '.' path).any all.contains

/-- What stands before and after the last dot; without a dot there is nothing before. -/
def cutLastDot (path : String) : String × String :=
  match Text.cutLast? '.' path.toList with
  | some (before, after) => (String.ofList before, String.ofList after)
  | none => ("", path)

/-- The dotted marker for the rules of a property. -/
def dottedNested : List Char := ("." ++ nested ++ ".").toList

/-- Whether a path overrides the rules of a property. -/
def isOverride (path : String) : Bool := Text.occursIn dottedNested ('.' :: path.toList)

/-- The object and the property that an override names. -/
def override? (path : String) : Option (String × String) :=
  (Text.cutOn? dottedNested path.toList).map fun (base, property) =>
    (String.ofList base, String.ofList property)

end Marker

namespace Grouping

/-- What grouping knows about paths. -/
structure Context where
  metadata : Table FieldMetadata
  nestedObjects : List String

/-- A name under a path. -/
def under (path name : String) : String := if Text.isEmpty path then name else path ++ "." ++ name

/-- Whether a path that continues with a name is a nested object. -/
def Context.isNestedObject (context : Context) (path : String) : Bool :=
  context.nestedObjects.contains path ||
    match context.metadata.get? path with
    | some known => known.isNestedObject
    | none => context.metadata.isEmpty

/-- The path that a marker entry declares to be a nested object. -/
def declaredObject? (path : String) (value : RuleValue) : Option String :=
  let (base, marker) := Marker.cutLastDot path
  if marker == Marker.flag && Text.lower value.display == "true" then some base
  else if marker == Marker.sort && value.isText "nested_object" then some base
  else if marker == Marker.baseRules || marker == Marker.className then some base
  else if Marker.isOverride path then some ((Marker.override? path).map Prod.fst |>.getD path)
  else none

/-- The top-level field of a path. -/
def topField (path : String) : String := String.ofList (Text.cutFirst '.' path.toList).1

/-- What stands below the top-level field of a path. -/
def belowTop (path : String) : String :=
  String.ofList ((Text.cutFirst '.' path.toList).2.getD [])

/-- Whether a star is one of the names of a path. -/
def hasWildcard (path : String) : Bool := (Text.splitOn '.' path).contains RuleGroup.wildcard

/-- The paths that markers or metadata declare to be nested objects, each once. -/
def nestedObjectPaths (rules : Table RuleValue) (metadata : Table FieldMetadata) : List String :=
  ((rules.filterMap fun (path, value) => declaredObject? path value) ++
    (metadata.filter (·.2.isNestedObject)).map Prod.fst).eraseDups

/-- The group reached through nested objects is changed; the names left over where a path is not a
nested object are passed on. -/
def descend (context : Context) (path : String) :
    List String → (List String → RuleGroup → RuleGroup) → RuleGroup → RuleGroup
  | [], act, g => act [] g
  | [name], act, g => g.update name (act [])
  | name :: next :: rest, act, g =>
    let here := under path name
    if context.isNestedObject here then
      g.update name fun child => descend context here (next :: rest) act child.setObject
    else act (name :: next :: rest) g

/-- A group changed at the flat name made of leftover names, or at itself without any. -/
def atLeftover (leftover : List String) (f : RuleGroup → RuleGroup) (g : RuleGroup) : RuleGroup :=
  if leftover.isEmpty then f g else g.update (Text.join "." leftover) f

/-- The stretches of names between stars; always at least one. -/
def stretches : List String → List (List String)
  | [] => [[]]
  | name :: rest =>
    if name == RuleGroup.wildcard then [] :: stretches rest
    else match stretches rest with
      | [] => [[name]]
      | stretch :: more => (name :: stretch) :: more

/-- A group with a rule value inserted below it along stretches of names. -/
def insertAlong (context : Context) (value : RuleValue) (path : String) :
    List (List String) → RuleGroup → RuleGroup
  | [], g => g
  | [stretch], g =>
    descend context path stretch (fun leftover => atLeftover leftover (RuleGroup.setRules value)) g
  | [stretch, []], g =>
    descend context path stretch
      (fun leftover => atLeftover leftover (RuleGroup.update RuleGroup.wildcard (RuleGroup.setRules value))) g
  | stretch :: next :: rest, g =>
    let itemPath := under (under path (Text.join "." stretch)) RuleGroup.wildcard
    descend context path stretch
      (fun leftover => atLeftover leftover (insertAlong context value itemPath (next :: rest))) g

/-- A group with a rule value inserted at a path. -/
def insert (context : Context) (path : String) (value : RuleValue) (g : RuleGroup) : RuleGroup :=
  insertAlong context value "" (stretches (Text.splitOn '.' path)) g

/-- The group at a path changed. A star stays on the group unless the group holds scalar items,
because the properties of items are children of the array itself. -/
def ensure (f : RuleGroup → RuleGroup) : List String → RuleGroup → RuleGroup
  | [], g => f g
  | name :: rest, g =>
    if name == RuleGroup.wildcard && !g.isArray then ensure f rest g
    else g.update name (ensure f rest)

/-- The group at a path changed. -/
def ensureAt (path : String) (f : RuleGroup → RuleGroup) (g : RuleGroup) : RuleGroup :=
  ensure f (Text.splitOn '.' path) g

/-- A group with one marker entry applied. -/
def applyMarker (g : RuleGroup) (path : String) (value : RuleValue) : Except Fault RuleGroup :=
  let (base, marker) := Marker.cutLastDot path
  if (marker == Marker.baseRules || marker == Marker.className) && !Text.isEmpty base then
    .ok (ensureAt base (fun child =>
      if marker == Marker.className then child.setObject.setClass value.display
      else if child.rules.isAbsent then child.setObject.setRules value
      else child.setObject) g)
  else if Marker.isOverride path then
    match Marker.override? path with
    | some (base, property) =>
      .ok (ensureAt base (fun child =>
        child.setObject.update property (RuleGroup.setRules value)) g)
    | none => .error (.invalidValue none)
  else .ok g

/-- The groups of a rule map: one tree for each top-level field, in order. -/
def group (rules : Table RuleValue) (metadata : Table FieldMetadata) :
    Except Fault (List (String × RuleGroup)) := do
  let context : Context := ⟨metadata, nestedObjectPaths rules metadata⟩
  let inserted := (rules.filter fun (path, _) => !Marker.isMarked path).foldl
    (fun g (path, value) => insert context path value g) RuleGroup.empty
  let marked ← rules.foldlM (fun g (path, value) => applyMarker g path value) inserted
  return marked.children

/-- The rules below a field, by their path relative to it. -/
def fieldsBelow (rules : Table RuleValue) (base : String) : Table RuleValue :=
  let start := base ++ "."
  (rules.filter fun (path, _) => Text.startsWith path start && !Marker.isMarked path).map
    fun (path, value) => (Text.drop start.length path, value)

end Grouping

end RuleSchema
