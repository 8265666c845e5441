import RuleSchema.Datum
import RuleSchema.Fault

/-!
# Message catalogs

Messages are kept in nested maps and looked up by dotted keys. A key that contains dots itself is
found before the key is cut. A catalog answers from its own messages first and then from those of a
fallback; later layers of messages override earlier ones leaf by leaf.
-/

namespace RuleSchema

/-- A map of messages. -/
abbrev MessageMap := List (Datum × Datum)

namespace MessageMap

/-- The value under a key. -/
def get? (m : MessageMap) (key : String) : Option Datum := Datum.lookup? (.text key) m

/-- A value that is not null. -/
def present? : Datum → Option Datum
  | .absent => none
  | d => some d

/-- The value below `head`, or below `head` extended by pieces of the key, for the pieces that are
left. Each cut of the key is tried, the earliest first. -/
def descend? (m : MessageMap) (head : String) : List String → Option Datum
  | [] => none
  | piece :: rest =>
    let below := match m.get? head with
      | some (.map node) =>
        match MessageMap.get? node (Text.join "." (piece :: rest)) with
        | some value => present? value
        | none => descend? node piece rest
      | _ => none
    match below with
    | some value => some value
    | none => descend? m (head ++ "." ++ piece) rest

/-- The value under a dotted key, unless it is missing or null. -/
def lookup? (m : MessageMap) (key : String) : Option Datum :=
  match m.get? key with
  | some value => present? value
  | none =>
    match Text.splitOn '.' key with
    | [] => none
    | head :: rest => descend? m head rest

/-- A map with a value under a key; a present key keeps its place. -/
def put (m : MessageMap) (key value : Datum) : MessageMap := Datum.putEntry m key value

mutual
/-- A value over the one that is held: maps are merged, and any other value replaces. -/
def overlay (held : Option Datum) : Datum → Datum
  | .map entries =>
    match held with
    | some (.map base) => .map (merge base entries)
    | _ => .map entries
  | value => value
/-- A map with the entries of another over its own. -/
def merge (base : MessageMap) : List (Datum × Datum) → MessageMap
  | [] => base
  | (key, value) :: rest =>
    merge (put base key (overlay (Datum.lookup? key base) value)) rest
end

end MessageMap

/-- The messages of a locale, or the fault of a file that they should come from, with the number of
warnings given while they were collected. -/
structure LocaleMessages where
  messages : Except Fault MessageMap
  warnings : Nat

/-- A catalog of messages with an optional fallback. -/
structure Catalog where
  primary : LocaleMessages
  fallback : Option LocaleMessages

namespace Catalog

/-- A template is a text or a map of texts; any other value counts as its text. -/
def template : Datum → Datum
  | .text s => .text s
  | .map entries => .map entries
  | d => .text d.display

/-- The template under a dotted key. -/
def get? (c : Catalog) (key : String) : Except Fault (Option Datum) := do
  match MessageMap.lookup? (← c.primary.messages) key, c.fallback with
  | some value, _ => return some (template value)
  | none, some other => return (MessageMap.lookup? (← other.messages) key).map template
  | none, none => return none

/-- The text under a dotted key. -/
def text? (c : Catalog) (key : String) : Except Fault (Option String) :=
  (c.get? key).map fun found => found.bind Datum.text?

/-- A catalog of given messages. -/
def ofMap (m : MessageMap) : Catalog := ⟨⟨.ok m, 0⟩, none⟩

end Catalog

end RuleSchema
