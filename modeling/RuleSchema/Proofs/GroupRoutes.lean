import RuleSchema.Proofs.GroupedRules

/-!
# Routes of insertions

An insertion follows a route: it goes from child to child, and takes a child for an object where
the data path that has been read so far is one. Where names follow a data path that is no object,
all names up to the next star make one child with a flat name. Groups are what remains of the
routes of all keys: a value stands where the route of its key ends, and only children that a route
took for objects are objects.
-/

namespace RuleSchema

namespace RuleGroup

/-- A step of an insertion: the name of the child, its data path, and whether the child is taken for
an object. -/
structure Step where
  name : String
  path : String
  isObject : Bool

/-- A child as a step takes it. -/
def Step.take (s : Step) (child : RuleGroup) : RuleGroup :=
  if s.isObject then child.setObject else child

/-- A group changed at the end of a route; each step leads to a child. -/
def walk (f : RuleGroup → RuleGroup) : List Step → RuleGroup → RuleGroup
  | [], g => f g
  | s :: rest, g => g.update s.name fun child => walk f rest (s.take child)

/-- The group at an address below a group. -/
def at? : List String → RuleGroup → Option RuleGroup
  | [], g => some g
  | name :: rest, g => (Table.get? g.children name).bind (at? rest)

/-- The group at an address whose first name names one of several groups. -/
def atAll? (groups : List (String × RuleGroup)) : List String → Option RuleGroup
  | [] => none
  | name :: rest => (Table.get? groups name).bind (at? rest)

section Walk

variable {f : RuleGroup → RuleGroup} {value : RuleValue} {g : RuleGroup}

theorem walk_append (a b : List Step) (g : RuleGroup) :
    walk f (a ++ b) g = walk (walk f b) a g := by
  induction a generalizing g with
  | nil => rfl
  | cons s rest ih => simp only [List.cons_append, walk, ih]

/-- The child that a step leads to, after the step has been taken. -/
theorem get?_walk_cons (s : Step) (rest : List Step) (name : String) :
    Table.get? (walk f (s :: rest) g).children name =
      if name = s.name then some (walk f rest (s.take (childD g.children s.name)))
      else Table.get? g.children name := by
  rw [walk, children_update, get?_updateIn]

theorem at?_childD {children : List (String × RuleGroup)} {name : String} {q : List String}
    (hq : q ≠ []) : at? q (childD children name) = (Table.get? children name).bind (at? q) := by
  unfold childD
  cases Table.get? children name with
  | some child => rfl
  | none =>
      obtain ⟨first, more, rfl⟩ := List.exists_cons_of_ne_nil hq
      rfl

theorem children_take (s : Step) (child : RuleGroup) :
    (s.take child).children = child.children := by
  unfold Step.take
  split
  · exact children_setObject child
  · rfl

theorem rules_take (s : Step) (child : RuleGroup) : (s.take child).rules = child.rules := by
  unfold Step.take
  split
  · exact rules_setObject child
  · rfl

theorem at?_take {q : List String} (hq : q ≠ []) (s : Step) (child : RuleGroup) :
    at? q (s.take child) = at? q child := by
  obtain ⟨first, more, rfl⟩ := List.exists_cons_of_ne_nil hq
  rw [at?, at?, children_take]

/-- Reading below a child that is missing is reading below the empty group. -/
theorem overlay_rules_take (s : Step) {children : List (String × RuleGroup)} {p q : List String} :
    overlay value p q ((at? q (s.take (childD children s.name))).map rules) =
      overlay value p q (((Table.get? children s.name).bind (at? q)).map rules) := by
  apply overlay_congr
  · cases q with
    | nil =>
        rw [at?, Option.map_some, rules_take, childD]
        cases Table.get? children s.name <;> rfl
    | cons name rest => rw [at?_take (List.cons_ne_nil _ _), at?_childD (List.cons_ne_nil _ _)]
  · intro hq
    rw [at?_take hq, at?_childD hq]

/-- A value is read at the end of a route and absent values on the way to it; elsewhere nothing
changes. -/
theorem rules_at?_walk (route : List Step) : ∀ (g : RuleGroup) (q : List String),
    (at? q (walk (setRules value) route g)).map rules =
      overlay value (route.map Step.name) q ((at? q g).map rules) := by
  induction route with
  | nil =>
      intro g q
      cases q with
      | nil => rw [walk, at?, Option.map_some, rules_setRules, List.map_nil, overlay_nil_nil]
      | cons name rest =>
          rw [List.map_nil, overlay_nil_cons, walk, at?, at?, children_setRules]
  | cons s rest ih =>
      intro g q
      rw [List.map_cons]
      cases q with
      | nil =>
          rw [overlay_cons_nil, walk, at?, at?, Option.map_some, rules_update]
          rfl
      | cons name more =>
          rw [at?, get?_walk_cons, at?]
          by_cases hname : name = s.name
          · subst hname
            rw [if_pos rfl, Option.bind_some, ih, overlay_cons, overlay_rules_take]
          · rw [if_neg hname, overlay_cons_of_ne hname]

end Walk

end RuleGroup

namespace Grouping

open DottedPath RuleGroup

/-- The steps along one stretch of names. Where names follow a data path that is no object, they
make one flat name. -/
def steps (isObject : String → Bool) (above : String) : List String → List Step
  | [] => []
  | [name] => [⟨name, under above name, false⟩]
  | name :: next :: rest =>
    if isObject (under above name) then
      ⟨name, under above name, true⟩ :: steps isObject (under above name) (next :: rest)
    else
      let flat := Text.join "." (name :: next :: rest)
      [⟨flat, under above flat, false⟩]

/-- The data path of the items behind a stretch of names. -/
def itemPath (above : String) (stretch : List String) : String :=
  under (under above (Text.join "." stretch)) wildcard

/-- The steps along stretches of names. A star makes a step of its own only where it ends a path. -/
def route (isObject : String → Bool) (above : String) : List (List String) → List Step
  | [] => []
  | stretch :: rest =>
    steps isObject above stretch ++
      if rest = [[]] then [⟨wildcard, itemPath above stretch, false⟩]
      else route isObject (itemPath above stretch) rest

/-- The route of a key. -/
def routeOf (isObject : String → Bool) (key : String) : List Step :=
  route isObject "" (stretches (names key))

/-- The address of the group that takes the rules of a key. -/
def place (isObject : String → Bool) (key : String) : List String :=
  (routeOf isObject key).map Step.name

section Cases

variable (isObject : String → Bool) (above : String) (stretch : List String)

theorem route_singleton : route isObject above [stretch] = steps isObject above stretch := by
  rw [route, if_neg (List.cons_ne_nil _ _).symm, route, List.append_nil]

theorem route_items : route isObject above [stretch, []] =
    steps isObject above stretch ++ [⟨wildcard, itemPath above stretch, false⟩] := by
  rw [route, if_pos rfl]

theorem route_further {next : List String} (more : List (List String)) (hnext : next ≠ []) :
    route isObject above (stretch :: next :: more) =
      steps isObject above stretch ++ route isObject (itemPath above stretch) (next :: more) := by
  rw [route, if_neg fun hnil => hnext (List.cons.inj hnil).1]

end Cases

section Insertion

variable {context : Context} {value : RuleValue}

/-- A descent walks along the steps of a stretch. -/
theorem descend_eq_walk (f : RuleGroup → RuleGroup) (stretch : List String) :
    ∀ (above : String) (g : RuleGroup),
      descend context above stretch (fun leftover => atLeftover leftover f) g =
        walk f (steps context.isNestedObject above stretch) g := by
  induction stretch with
  | nil => exact fun _ _ => rfl
  | cons name rest ih =>
      intro above g
      cases rest with
      | nil => rfl
      | cons next more =>
          rw [descend, steps]
          split
          · rw [walk]
            congr 1
            funext child
            exact ih _ _
          · rfl

/-- An insertion walks along the route of its stretches. -/
theorem insertAlong_eq_walk (paths : List (List String)) :
    ∀ (above : String) (g : RuleGroup), paths ≠ [] →
      insertAlong context value above paths g =
        walk (setRules value) (route context.isNestedObject above paths) g := by
  induction paths with
  | nil => exact fun _ _ h => absurd rfl h
  | cons stretch rest ih =>
      intro above g _
      rw [insertAlong_cons, descend_eq_walk, route, walk_append]
      congr 1
      funext child
      change afterStretch context value (itemPath above stretch) rest child = _
      split
      · rename_i hrest
        rw [hrest]
        rfl
      · rename_i hrest
        cases rest with
        | nil => rfl
        | cons next more =>
            rw [← ih _ _ (List.cons_ne_nil _ _), afterStretch]
            · exact List.cons_ne_nil _ _
            · exact hrest

theorem insert_eq_walk (key : String) (g : RuleGroup) :
    insert context key value g = walk (setRules value) (routeOf context.isNestedObject key) g :=
  insertAlong_eq_walk _ _ g (stretches_ne_nil _)

end Insertion

end Grouping

end RuleSchema
