import RuleSchema.Schema.Extracted

/-!
# Warnings of extraction

Extracting a class warns about fragments that have to be ignored, and about message files where they
are read for the first time. Whether a catalog is read at all shows when it is sealed: extraction
then ends with the seal.
-/

namespace RuleSchema

namespace NormalizedRules

/-- The number of ignored fragments among items, up to the first item that is faulty. -/
def ignoredFrom (n : NormalizedRules) : List RuleValue → Nat
  | [] => n.ignored
  | item :: rest =>
    match n.addItem item with
    | .ok next => ignoredFrom next rest
    | .error _ => n.ignored

/-- The number of ignored fragments in a rule value. -/
def ignoredIn : RuleValue → Nat
  | .list items => ignoredFrom empty items
  | .tuple items => ignoredFrom empty items
  | _ => 0

end NormalizedRules

/-- The number of ignored fragments in fields, up to the first one that cannot be resolved. -/
def Declared.ignoredIn (m : Messages) : List Declared → Nat
  | [] => 0
  | d :: rest =>
    NormalizedRules.ignoredIn d.rules +
      match d.resolve m with
      | .ok _ => ignoredIn m rest
      | .error _ => 0

namespace Catalog

/-- The fault of a sealed catalog. -/
def sealFault : Fault := .general "sealed"

/-- A catalog whose own messages cannot be read. -/
def sealPrimary (c : Catalog) : Catalog := { c with primary := ⟨.error sealFault, 0⟩ }

/-- A catalog whose fallback cannot be read. -/
def sealFallback (c : Catalog) : Catalog :=
  { c with fallback := c.fallback.map fun _ => ⟨.error sealFault, 0⟩ }

end Catalog

/-- Which messages of a catalog have been read. -/
structure CatalogUse where
  primary : Bool
  fallback : Bool
deriving DecidableEq, Repr

namespace CatalogUse

/-- Messages that are kept once they have been read. -/
def keeps (messages : LocaleMessages) : Bool := messages.messages.isOk

/-- The warnings of reading messages, and whether they are kept afterwards. They are read where the
work ends with the seal of a catalog that lacks them. -/
def read (known : Bool) (messages : LocaleMessages) (isSealed : Catalog) (work : Catalog → Bool) :
    Nat × Bool :=
  if messages.warnings != 0 && !known && work isSealed then (messages.warnings, keeps messages)
  else (0, known)

/-- The warnings of work that consults a catalog, and what has been read afterwards; `work` tells
whether it ends with the seal under a given catalog. -/
def after (use : CatalogUse) (c : Catalog) (work : Catalog → Bool) : Nat × CatalogUse :=
  let (first, primary) := read use.primary c.primary c.sealPrimary work
  match c.fallback with
  | none => (first, { use with primary := primary })
  | some other =>
    let (second, fallback) := read use.fallback other c.sealFallback work
    (first + second, ⟨primary, fallback⟩)

/-- The template under a key, the warnings of reading for it, and what has been read afterwards. -/
def ask (use : CatalogUse) (c : Catalog) (key : String) :
    Except Fault (Option Datum) × Nat × CatalogUse :=
  let isSealed (other : Catalog) : Bool :=
    match other.get? key with
    | .ok _ => false
    | .error fault => fault == Catalog.sealFault
  (c.get? key, use.after c isSealed)

end CatalogUse

namespace Schema

/-- The number of ignored fragments in the rules of a class. -/
def ignoredIn (sources : Table SchemaSource) (catalog : Catalog) (source : SchemaSource)
    (rules : ClassRules) : Nat :=
  match Grouping.group rules.rules source.metadata with
  | .ok groups =>
    Declared.ignoredIn (messagesFor sources catalog source)
      (Tree.headsOfAll (Declared.ofGroups source.metadata groups))
  | .error _ => 0

/-- Whether extracting a class under a catalog ends with the seal. -/
def endsSealed (sources : Table SchemaSource) (names : SchemaNames) (source : SchemaSource)
    (rules : ClassRules) (catalog : Catalog) : Bool :=
  match ofRules sources names catalog source rules with
  | .ok _ => false
  | .error fault => fault == Catalog.sealFault

end Schema

end RuleSchema
