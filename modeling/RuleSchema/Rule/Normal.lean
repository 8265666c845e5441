import RuleSchema.Rule.Segment
import RuleSchema.Rule.Value

/-!
# Normalized rules

A rule value becomes its entries in order and at most one fragment. A rule text is split at its
pipes; the texts of a list are single rules. Fragments are merged in order, and a fragment that has
to be ignored is counted.
-/

namespace RuleSchema

/-- The entries of a field and its fragment, with the number of fragments that were ignored. -/
structure NormalizedRules where
  entries : List RuleEntry
  fragment : Option Fragment
  ignored : Nat
deriving DecidableEq, Repr

namespace NormalizedRules

/-- No rules. -/
def empty : NormalizedRules := ⟨[], none, 0⟩

/-- The rule names in order. -/
def names (n : NormalizedRules) : List String := n.entries.map RuleEntry.name

/-- Whether a rule is present. -/
def has (n : NormalizedRules) (name : String) : Bool := n.entries.any (·.name == name)

/-- The first entry of a rule. -/
def get? (n : NormalizedRules) (name : String) : Option RuleEntry :=
  n.entries.find? (·.name == name)

/-- The written forms of the entries. -/
def strings (n : NormalizedRules) : List String := n.entries.map RuleEntry.display

/-- Each rule name with the parameters of its first entry. -/
def firstParameters (n : NormalizedRules) : List (String × List Parameter) :=
  n.entries.foldl (fun found e =>
    if found.any (·.1 == e.name) then found else found ++ [(e.name, e.parameters)]) []

/-- Entries added at the end. -/
def addEntries (n : NormalizedRules) (more : List RuleEntry) : NormalizedRules :=
  { n with entries := n.entries ++ more }

/-- A fragment merged into the collected one. -/
def addFragment (n : NormalizedRules) (fragment : Option Fragment) : NormalizedRules :=
  match fragment with
  | none => n
  | some f =>
    { n with
      fragment := some (Fragment.merge n.fragment f)
      ignored := n.ignored + if Fragment.conflicts n.fragment f then 1 else 0 }

/-- The name of a rule that a datum stands for by its sort. -/
def sortRule : Datum → String
  | .function => "closure"
  | d => RuleName.snake d.sortName

/-- The entries of a rule text. -/
def entriesOfText (rules : String) : Except Fault (List RuleEntry) :=
  (Segment.split rules).mapM RuleEntry.parse

/-- The entries of a datum: those that it names, those of its own text, or one named after its
sort. -/
def entriesOfDatum (d : Datum) : Except Fault (List RuleEntry) :=
  let bySort := do return [← RuleEntry.make? (sortRule d) []]
  let byText := match d.ownText? with
    | some text =>
      if d.isCallable || Text.isEmpty text then bySort else entriesOfText text
    | none => bySort
  match d with
  | .object o => match o.rules with
    | some rules => rules.mapM RuleEntry.parse
    | none => byText
  | _ => byText

/-- An enumeration as a rule. -/
def enumerationRule (cases : List (String × Datum)) : RuleObject :=
  .ofKind "EnumRule" (.enumeration cases none [] none)

/-- Normalized rules with one more item. -/
def addItem (n : NormalizedRules) : RuleValue → Except Fault NormalizedRules
  | .absent => .ok n
  | .text s => if Text.isEmpty (Text.trim s) then .ok n else return n.addEntries [← RuleEntry.parse s]
  | .list _ => return n.addEntries (← entriesOfDatum (.list []))
  | .tuple _ => return n.addEntries (← entriesOfDatum (.tuple []))
  | .rule r => return (n.addEntries (← r.entries)).addFragment r.fragment
  | .datum d =>
    match d with
    | .truth _ => .ok n
    | .absent => .ok n
    | .entry e => .ok (n.addEntries [e])
    | .enumeration _ cases => return n.addEntries (← (enumerationRule cases).entries)
    | .object o => return (n.addEntries (← entriesOfDatum d)).addFragment o.fragment
    | d => return n.addEntries (← entriesOfDatum d)

/-- The normalized form of a rule value. -/
def normalize : RuleValue → Except Fault NormalizedRules
  | .absent => .ok empty
  | .text s => return empty.addEntries (← entriesOfText s)
  | .list items => items.foldlM addItem empty
  | .tuple items => items.foldlM addItem empty
  | item => empty.addItem item

end NormalizedRules

end RuleSchema
