import RuleSchema.Rule.Entry
import RuleSchema.Fragment
import RuleSchema.Text.Escape

/-!
# Data in rule declarations

Rules, conditions and definition files carry data of many sorts: scalars, lists, maps, enumerations
and objects known only by their class. A datum has a plain text and a quoted one, a truth value and
an equality that looks through the sorts of numbers.
-/

namespace RuleSchema

/-- An object of a class outside the compiler, as far as rules can see it. -/
structure ForeignObject where
  className : String
  /-- The object's own text, if its class defines one. -/
  ownText : Option String
  /-- Whether the object can be called. -/
  callable : Bool
  /-- The written rules that the object stands for, if it names them. -/
  rules : Option (List String)
  /-- The fragment that the object carries. -/
  fragment : Option Fragment
deriving DecidableEq, Repr

/-- A value in a rule declaration. -/
inductive Datum where
  | absent
  | truth (value : Bool)
  | whole (value : Int)
  | real (value : Binary64)
  | text (value : String)
  | list (items : List Datum)
  | tuple (items : List Datum)
  /-- A set, in which an item counts once however often it stands in the list. -/
  | set (items : List Datum)
  | map (entries : List (Datum × Datum))
  /-- An enumeration with its cases in order. -/
  | enumeration (name : String) (cases : List (String × Datum))
  /-- One case of an enumeration. -/
  | member (owner name : String) (value : Datum)
  /-- A value with named parts. -/
  | record (parts : List (String × Datum))
  | entry (value : RuleEntry)
  | function
  | object (value : ForeignObject)
deriving Inhabited

namespace Datum

/-- The number that a datum is, truth values included. -/
def number? : Datum → Option Number
  | truth b => some (.whole (if b then 1 else 0))
  | whole i => some (.whole i)
  | real x => some (.real x)
  | _ => none

/-- Equality of numbers by value. -/
def sameNumber (a b : Number) : Bool := a.le b && b.le a

mutual
/-- Equality of data: numbers by value, lists and tuples item by item, sets, maps and named parts
whatever their order. -/
def same : Datum → Datum → Bool
  | absent, absent => true
  | text a, text b => a == b
  | list a, list b => sameItems a b
  | tuple a, tuple b => sameItems a b
  | set a, set b => allAmong a b && b.all (among a)
  | map a, map b => allEntriesAmong a b && b.all (entryAmong a)
  | record a, record b => allPartsAmong a b && b.all (partAmong a)
  | enumeration a _, enumeration b _ => a == b
  | member a x _, member b y _ => a == b && x == y
  | entry a, entry b => decide (a = b)
  | a, b => match a.number?, b.number? with
    | some m, some n => sameNumber m n
    | _, _ => false
termination_by structural a => a
/-- Equality item by item. -/
def sameItems : List Datum → List Datum → Bool
  | [], [] => true
  | a :: as, b :: bs => same a b && sameItems as bs
  | _, _ => false
termination_by structural a => a
/-- Whether a datum is one of the items. -/
def among : List Datum → Datum → Bool
  | [], _ => false
  | a :: as, b => same a b || among as b
termination_by structural a => a
/-- Whether every item is one of the others. -/
def allAmong : List Datum → List Datum → Bool
  | [], _ => true
  | a :: as, bs => bs.any (same a) && allAmong as bs
termination_by structural a => a
/-- Whether a pair of key and value is one of the entries. -/
def entryAmong : List (Datum × Datum) → Datum × Datum → Bool
  | [], _ => false
  | (k, v) :: rest, pair => (same k pair.1 && same v pair.2) || entryAmong rest pair
termination_by structural a => a
/-- Whether every entry is one of the others. -/
def allEntriesAmong : List (Datum × Datum) → List (Datum × Datum) → Bool
  | [], _ => true
  | (k, v) :: rest, other =>
    other.any (fun pair => same k pair.1 && same v pair.2) && allEntriesAmong rest other
termination_by structural a => a
/-- Whether a named value is one of the parts. -/
def partAmong : List (String × Datum) → String × Datum → Bool
  | [], _ => false
  | (n, v) :: rest, part => (n == part.1 && same v part.2) || partAmong rest part
termination_by structural a => a
/-- Whether every part is one of the others. -/
def allPartsAmong : List (String × Datum) → List (String × Datum) → Bool
  | [], _ => true
  | (n, v) :: rest, other =>
    other.any (fun part => n == part.1 && same v part.2) && allPartsAmong rest other
termination_by structural a => a
end

mutual
/-- Whether a datum can be a key of a map or an item of a set. -/
def isHashable : Datum → Bool
  | list _ => false
  | set _ => false
  | map _ => false
  | record _ => false
  | tuple items => areHashable items
  | _ => true
/-- Whether all data of a list can be keys of a map. -/
def areHashable : List Datum → Bool
  | [] => true
  | d :: rest => isHashable d && areHashable rest
end

/-- Whether a datum counts as true. -/
def isTrue : Datum → Bool
  | absent => false
  | truth b => b
  | whole i => i != 0
  | real x => !x.isZero
  | text s => !Text.isEmpty s
  | list items => !items.isEmpty
  | tuple items => !items.isEmpty
  | set items => !items.isEmpty
  | map entries => !entries.isEmpty
  | _ => true

/-- Name of the sort of a datum. -/
def sortName : Datum → String
  | absent => "NoneType"
  | truth _ => "bool"
  | whole _ => "int"
  | real _ => "float"
  | text _ => "str"
  | list _ => "list"
  | tuple _ => "tuple"
  | set _ => "set"
  | map _ => "dict"
  | enumeration .. => "EnumType"
  | member owner _ _ => owner
  | record _ => "SimpleNamespace"
  | entry _ => "RuleEntry"
  | function => "function"
  | object o => o.className

/-- A parameter as it stands in the quoted text of an entry. -/
def quotedTuple (items : List String) : String :=
  match items with
  | [item] => "(" ++ item ++ ",)"
  | items => "(" ++ Text.join ", " items ++ ")"

mutual
/-- The text that shows a datum inside other data. -/
def quoted : Datum → String
  | absent => "None"
  | truth b => if b then "True" else "False"
  | whole i => intText i
  | real x => x.text
  | text s => Text.Quoted.encode s
  | list items => "[" ++ Text.join ", " (quotedItems items) ++ "]"
  | tuple items => quotedTuple (quotedItems items)
  | set items =>
    if items.isEmpty then "set()"
    else "\x7b" ++ Text.join ", " (quotedItems items) ++ "\x7d"
  | map entries => "\x7b" ++ Text.join ", " (quotedEntries entries) ++ "\x7d"
  | enumeration name _ => "<enum " ++ Text.Quoted.encode name ++ ">"
  | member owner name value =>
    "<" ++ owner ++ "." ++ name ++ ": " ++ quoted value ++ ">"
  | record parts => "namespace(" ++ Text.join ", " (quotedParts parts) ++ ")"
  | entry e =>
    "RuleEntry(name=" ++ Text.Quoted.encode e.name ++ ", parameters=" ++
      quotedTuple (e.parameters.map Parameter.quoted) ++ ")"
  | function => "<function>"
  | object o => "<" ++ o.className ++ " object>"
/-- The quoted texts of a list of data. -/
def quotedItems : List Datum → List String
  | [] => []
  | d :: rest => quoted d :: quotedItems rest
/-- The quoted texts of the pairs of a map. -/
def quotedEntries : List (Datum × Datum) → List String
  | [] => []
  | (k, v) :: rest => (quoted k ++ ": " ++ quoted v) :: quotedEntries rest
/-- The quoted texts of named parts. -/
def quotedParts : List (String × Datum) → List String
  | [] => []
  | (k, v) :: rest => (k ++ "=" ++ quoted v) :: quotedParts rest
end

/-- The text of a datum. -/
def display : Datum → String
  | text s => s
  | member owner name _ => owner ++ "." ++ name
  | entry e => e.display
  | object o => o.ownText.getD (quoted (object o))
  | d => d.quoted

/-- The text that a datum's own class gives it, if the class gives one. -/
def ownText? : Datum → Option String
  | text s => some s
  | member owner name _ => some (owner ++ "." ++ name)
  | entry e => some e.display
  | object o => o.ownText
  | _ => none

/-- Whether a datum can be called. -/
def isCallable : Datum → Bool
  | enumeration .. => true
  | function => true
  | object o => o.callable
  | _ => false

/-- The parameter that a scalar is, truth values aside. -/
def scalar? : Datum → Option Parameter
  | text s => some (.text s)
  | whole i => some (.number (.whole i))
  | real x => some (.number (.real x))
  | _ => none

/-- The parameter that a datum becomes in an entry; a truth value counts as zero or one. -/
def parameter? : Datum → Option Parameter
  | truth b => some (.ofInt (if b then 1 else 0))
  | d => d.scalar?

/-- The parameter that stands for a listed value. -/
def listed : Datum → Parameter
  | member _ name value => value.scalar?.getD (.text name)
  | truth b => .text (if b then "true" else "false")
  | d => d.scalar?.getD (.text d.display)

/-- The text of a value that a field is compared with, if it has a form in a rule. -/
def comparand? : Datum → Option String
  | truth b => some (if b then "true" else "false")
  | member _ name value => some ((value.scalar?.map Parameter.display).getD name)
  | whole i => some (intText i)
  | real x => some x.text
  | d => d.ownText?

/-- The value under a key of a map. -/
def lookup? (key : Datum) : List (Datum × Datum) → Option Datum
  | [] => none
  | (k, v) :: rest => if same k key then some v else lookup? key rest

/-- The entries of a map with a value under a key; a present key keeps its place. -/
def putEntry : List (Datum × Datum) → Datum → Datum → List (Datum × Datum)
  | [], key, value => [(key, value)]
  | (k, v) :: rest, key, value =>
    if k.same key then (k, value) :: rest else (k, v) :: putEntry rest key value

/-- The datum of a text that may be missing. -/
def ofText : Option String → Datum
  | some s => text s
  | none => absent

/-- The text that a datum is. -/
def text? : Datum → Option String
  | text s => some s
  | _ => none

end Datum

/-- The cases of an enumeration, each value once: a repeated value is only another name. -/
def distinctCases (cases : List (String × Datum)) : List (String × Datum) :=
  cases.foldl (fun kept case => if kept.any (·.2.same case.2) then kept else kept ++ [case]) []

/-- The case that a name denotes: the first one with the same value. -/
def caseNamed? (cases : List (String × Datum)) (name : String) : Option (String × Datum) :=
  (cases.find? (·.1 == name)).bind fun case => cases.find? (·.2.same case.2)

end RuleSchema
