import RuleSchema.Proofs.SpelledRoutes

/-!
# Objects declared by metadata

With metadata, groups are flagged as objects where metadata declares them, and nowhere else. A key
that goes on with a name behind a prefix that is not declared is hidden: its rules are placed at or
below a group with a dotted name.
-/

namespace RuleSchema.Grouping

open DottedPath RuleGroup

/-- Whether metadata declares a data path to be a nested object. -/
def declaresObject (metadata : Table FieldMetadata) (path : String) : Bool :=
  metadata.any fun p => p.1 == path && p.2.isNestedObject

section Context

variable {rules : Table RuleValue} {metadata : Table FieldMetadata}

end Context

/-- The group that the values of a rule map are laid in, each along the route of its key. -/
def laid (isObject : String → Bool) (rules : Table RuleValue) : RuleGroup :=
  rules.foldl (fun g e => walk (setRules e.2) (routeOf isObject e.1) g) empty

section Laid

variable {isObject : String → Bool} {rules : Table RuleValue} {q : List String}

end Laid

/-- A key is hidden if it goes on with a name behind a name that metadata does not declare to be a
nested object. -/
def Hidden (metadata : Table FieldMetadata) (key : String) : Prop :=
  ∃ before name after, names key = before ++ name :: after ∧ name ≠ wildcard ∧ before ≠ [] ∧
    before.getLast? ≠ some wildcard ∧ declaresObject metadata (ofNames before) = false

/-- Groups follow metadata: the objects among them are those that metadata declares on the way to a
key, the group at the place of a key has its value or that of the last key with the same place, keys
share a place only if they differ in stars before the last name, no other group has a value, and the
place of a hidden key has a dotted name. -/
structure Follows (metadata : Table FieldMetadata) (rules : Table RuleValue)
    (groups : List (String × RuleGroup)) : Prop where
  objects : ∀ q g, atAll? groups q = some g → g.isObject = true →
    ∃ path, place (declaresObject metadata) path = q ∧ declaresObject metadata path = true ∧
      ∃ e ∈ rules, names path <+: names e.1 ∧ names path ≠ names e.1
  settled : ∀ e ∈ rules, ∃ g, atAll? groups (place (declaresObject metadata) e.1) = some g ∧
    ∃ earlier last later, rules = earlier ++ last :: later ∧
      place (declaresObject metadata) last.1 = place (declaresObject metadata) e.1 ∧
      (∀ e' ∈ later, place (declaresObject metadata) e'.1 ≠ place (declaresObject metadata) e.1) ∧
      g.rules = last.2
  shared : ∀ e ∈ rules, ∀ e' ∈ rules,
    place (declaresObject metadata) e.1 = place (declaresObject metadata) e'.1 →
      kept (names e.1) = kept (names e'.1)
  origin : ∀ q g, atAll? groups q = some g →
    (∃ e ∈ rules, q <+: place (declaresObject metadata) e.1) ∧
      (g.rules = .absent ∨ ∃ e ∈ rules, place (declaresObject metadata) e.1 = q ∧ e.2 = g.rules)
  hidden : ∀ e ∈ rules, Hidden metadata e.1 →
    ∃ name ∈ place (declaresObject metadata) e.1, '.' ∈ name.toList

section Follows

variable {rules : Table RuleValue} {metadata : Table FieldMetadata}

/-- The place of a hidden key has a dotted name. -/
theorem Hidden.dotted {key : String} (h : Hidden metadata key)
    (hspells : Spells [] (stretches (names key))) :
    ∃ name ∈ place (declaresObject metadata) key, '.' ∈ name.toList := by
  obtain ⟨before, name, after, hkey, hname, hbefore, hlast, hobject⟩ := h
  have hsplit : unstretch (stretches (names key)) = before ++ name :: after :=
    (unstretch_stretches _).trans hkey
  exact dotted_route hspells before name after hsplit hname hbefore hlast hobject

/-- Nothing lies below the items of an array under their star. -/
theorem Follows.items {groups : List (String × RuleGroup)} (h : Follows metadata rules groups)
    (hspells : ∀ e ∈ rules, Spells [] (stretches (names e.1))) (q : List String) (name : String) :
    atAll? groups (q ++ [wildcard, name]) = none := by
  rw [Option.eq_none_iff_forall_not_mem]
  intro g hat
  obtain ⟨⟨e, he, more, hmore⟩, -⟩ := h.origin _ g hat
  have hplace : place (declaresObject metadata) e.1 = q ++ wildcard :: name :: more := by
    rw [← hmore, List.append_assoc, List.cons_append, List.singleton_append]
  exact List.cons_ne_nil _ _ (wildcard_ends_route (hspells e he) q (name :: more) hplace)

end Follows

end RuleSchema.Grouping
