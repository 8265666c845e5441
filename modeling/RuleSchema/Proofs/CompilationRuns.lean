import RuleSchema.Proofs.InheritanceRuns
import RuleSchema.Proofs.ResolvedTrees
import RuleSchema.Proofs.SchemaOrder

/-!
# Runs over sources

A run can be asked for its schemas, its script and its files, in any order and as often as wanted.
Whatever has become of earlier requests, it extracts the schemas of its sources in their order, and
its entries are those of the last schema of each name.

## Implementation notes

Requests share one state and may fail half-way. `Meets` relates a step to an invariant that holds
after it in any case and to what is known of its outcome. The invariant of all requests is
`Follows`.
-/

namespace RuleSchema

namespace Table

variable {α : Type}

/-- A table with pairs put into it one after the other. -/
def putAll (t : Table α) (pairs : List (String × α)) : Table α :=
  pairs.foldl (fun t p => t.put p.1 p.2) t

theorem get?_putAll_of_not_mem {pairs : List (String × α)} {key : String} (h : key ∉ keys pairs) :
    ∀ t : Table α, (t.putAll pairs).get? key = t.get? key := by
  induction pairs with
  | nil => exact fun _ => rfl
  | cons p rest ih =>
      intro t
      obtain ⟨hne, hrest⟩ := not_or.mp fun hmem => h (List.mem_cons.mpr hmem)
      exact (ih hrest _).trans (get?_put_of_ne _ hne)

theorem mem_keys_putAll {t : Table α} {pairs : List (String × α)} {key : String} :
    key ∈ (t.putAll pairs).keys ↔ key ∈ t.keys ∨ key ∈ keys pairs := by
  induction pairs generalizing t with
  | nil => simp only [putAll, List.foldl_nil, keys, List.map_nil, List.not_mem_nil, or_false]
  | cons p rest ih =>
      have hcons : key ∈ keys (p :: rest) ↔ key = p.1 ∨ key ∈ keys rest := List.mem_cons
      rw [putAll, List.foldl_cons, ← putAll, ih, keys_put, hcons]
      by_cases h : p.1 ∈ t.keys
      · rw [if_pos h]
        refine ⟨Or.imp_right .inr, ?_⟩
        rintro (hkey | rfl | hkey)
        · exact .inl hkey
        · exact .inl h
        · exact .inr hkey
      · rw [if_neg h, List.mem_append, List.mem_singleton, or_assoc]

theorem has_iff {t : Table α} {key : String} : t.has key = true ↔ key ∈ t.keys := by
  rw [has, Option.isSome_iff_ne_none, Ne, get?_eq_none_iff, not_not]

theorem nodup_keys_put {t : Table α} (h : t.keys.Nodup) (key : String) (value : α) :
    (t.put key value).keys.Nodup := by
  rw [keys_put]
  split
  · exact h
  · rename_i hnew
    rw [← List.concat_eq_append]
    exact h.concat hnew

theorem nodup_keys_putAll (pairs : List (String × α)) :
    ∀ {t : Table α}, t.keys.Nodup → (t.putAll pairs).keys.Nodup := by
  induction pairs with
  | nil => exact fun h => h
  | cons p rest ih => exact fun h => ih (nodup_keys_put h p.1 p.2)

/-- Pairs of distinct new keys are put at the end, in their order. -/
theorem putAll_of_nodup (pairs : List (String × α)) :
    ∀ {t : Table α}, (t.keys ++ keys pairs).Nodup → t.putAll pairs = t ++ pairs := by
  induction pairs with
  | nil => exact fun _ => (List.append_nil _).symm
  | cons p rest ih =>
      intro t h
      have hnew : p.1 ∉ t.keys := fun hmem =>
        (List.nodup_append.mp h).2.2 _ hmem _ List.mem_cons_self rfl
      have hkeys : ((t.put p.1 p.2).keys ++ keys rest).Nodup := by
        rw [keys_put, if_neg hnew, List.append_assoc]
        exact h
      rw [putAll, List.foldl_cons, ← putAll, ih hkeys, put_of_not_mem _ hnew, List.append_assoc]
      rfl

end Table

namespace Schema

/-- A schema is the last one of its name in a list. -/
def IsLast (schemas : List Schema) (s : Schema) : Prop :=
  ∃ before after, schemas = before ++ s :: after ∧ s.name ∉ after.map name

/-- Every schema of a table stands under its name. -/
def Named (t : Table Schema) : Prop := ∀ p ∈ t, p.1 = p.2.name

theorem Named.eq_byName {t : Table Schema} (h : Named t) : t = byName (t.map Prod.snd) := by
  rw [byName, List.map_map]
  conv_lhs => rw [← List.map_id t]
  exact List.map_congr_left fun p hp => Prod.ext (h p hp) rfl

theorem Named.put {t : Table Schema} (h : Named t) (s : Schema) : Named (t.put s.name s) := by
  induction t with
  | nil =>
      intro p hp
      rw [List.mem_singleton.mp hp]
  | cons first rest ih =>
      have hrest : Named rest := fun p hp => h p (List.mem_cons_of_mem _ hp)
      rw [Table.put]
      split
      · rename_i hkey
        exact List.forall_mem_cons.mpr ⟨hkey, hrest⟩
      · exact List.forall_mem_cons.mpr ⟨h first List.mem_cons_self, ih hrest⟩

theorem Named.putAll (schemas : List Schema) :
    ∀ {t : Table Schema}, Named t → Named (t.putAll (byName schemas)) := by
  induction schemas with
  | nil => exact fun h => h
  | cons s rest ih => exact fun h => ih (h.put s)

theorem IsLast.mem {schemas : List Schema} {s : Schema} (h : IsLast schemas s) : s ∈ schemas := by
  obtain ⟨before, after, rfl, -⟩ := h
  exact List.mem_append_right _ List.mem_cons_self

theorem isLast_cons {first s : Schema} {rest : List Schema} :
    IsLast (first :: rest) s ↔ IsLast rest s ∨ s = first ∧ s.name ∉ rest.map name := by
  constructor
  · rintro ⟨before, after, heq, hlast⟩
    rcases before with _ | ⟨b, before⟩
    · obtain ⟨rfl, rfl⟩ := List.cons.inj heq
      exact .inr ⟨rfl, hlast⟩
    · obtain ⟨-, rfl⟩ := List.cons.inj heq
      exact .inl ⟨before, after, rfl, hlast⟩
  · rintro (⟨before, after, rfl, hlast⟩ | ⟨rfl, hlast⟩)
    · exact ⟨first :: before, after, rfl, hlast⟩
    · exact ⟨[], rest, rfl, hlast⟩

/-- A name of a list has a last schema. -/
theorem exists_isLast {schemas : List Schema} {n : String} (h : n ∈ schemas.map name) :
    ∃ s, IsLast schemas s ∧ s.name = n := by
  induction schemas with
  | nil => cases h
  | cons first rest ih =>
      by_cases hrest : n ∈ rest.map name
      · obtain ⟨s, hs, hname⟩ := ih hrest
        exact ⟨s, isLast_cons.mpr (.inl hs), hname⟩
      · rw [List.map_cons, List.mem_cons, or_iff_left hrest] at h
        exact ⟨first, isLast_cons.mpr (.inr ⟨rfl, h ▸ hrest⟩), h.symm⟩

/-- Among distinct names every schema is the last of its name. -/
theorem isLast_iff_mem {schemas : List Schema} (hnames : (schemas.map name).Nodup) {s : Schema} :
    IsLast schemas s ↔ s ∈ schemas := by
  refine ⟨IsLast.mem, fun hs => ?_⟩
  obtain ⟨u, hu, hname⟩ := exists_isLast (List.mem_map_of_mem hs)
  rwa [← eq_of_name_eq hnames hu.mem hs hname]

theorem keys_of_forall₂ {α : Type} {R : Schema → α → Prop} {schemas : List Schema}
    {pairs : Table α} (h : List.Forall₂ (fun s p => p.1 = s.name ∧ R s p.2) schemas pairs) :
    pairs.keys = schemas.map name := by
  induction h with
  | nil => rfl
  | cons hfirst _ ih => exact congrArg₂ List.cons hfirst.1 ih

/-- What is put under the names of schemas one after the other is found for the last schemas. -/
theorem get?_putAll_of_forall₂ {α : Type} {R : Schema → α → Prop} {schemas : List Schema}
    {pairs : Table α} (h : List.Forall₂ (fun s p => p.1 = s.name ∧ R s p.2) schemas pairs)
    {s : Schema} : ∀ t : Table α, IsLast schemas s →
      ∃ a, (t.putAll pairs).get? s.name = some a ∧ R s a := by
  induction h with
  | nil => exact fun _ h => absurd h.mem List.not_mem_nil
  | @cons first p rest pairs hfirst hrest ih =>
      intro t h
      rcases isLast_cons.mp h with h | ⟨rfl, hlast⟩
      · exact ih _ h
      · have hkeys : Table.keys pairs = rest.map name := keys_of_forall₂ hrest
        rw [← hkeys] at hlast
        refine ⟨p.2, ?_, hfirst.2⟩
        rw [Table.putAll, List.foldl_cons, ← Table.putAll, Table.get?_putAll_of_not_mem hlast,
          hfirst.1, Table.get?_put_self]

/-- A table into which schemas are put has the last one under their names. -/
theorem get?_putAll_byName {schemas : List Schema} {s : Schema} (t : Table Schema)
    (h : IsLast schemas s) : (t.putAll (byName schemas)).get? s.name = some s := by
  have hpairs : List.Forall₂ (fun s p => p.1 = s.name ∧ p.2 = s) schemas (byName schemas) :=
    List.forall₂_map_right_iff.mpr (List.forall₂_same.mpr fun _ _ => ⟨rfl, rfl⟩)
  obtain ⟨u, hu, rfl⟩ := get?_putAll_of_forall₂ (R := fun s u => u = s) hpairs t h
  exact hu

/-- Schemas under distinct names are all placed. -/
theorem perm_sorted {t : Table Schema} (hnamed : Named t) (hkeys : t.keys.Nodup) :
    (sorted t).Perm (t.map Prod.snd) := by
  rw [hnamed.eq_byName, keys_byName] at hkeys
  conv_lhs => rw [hnamed.eq_byName]
  exact (safeOrder_sorted_byName hkeys).perm

/-- Schemas put into a table that has no names besides theirs: of each name the last one is
placed. -/
theorem mem_sorted_putAll {schemas : List Schema} {t : Table Schema} (hnamed : Named t)
    (hkeys : t.keys.Nodup) (hknown : t.keys ⊆ schemas.map name) {s : Schema} :
    s ∈ sorted (t.putAll (byName schemas)) ↔ IsLast schemas s := by
  have hput : Named (t.putAll (byName schemas)) := hnamed.putAll schemas
  have hdistinct : (t.putAll (byName schemas)).keys.Nodup := Table.nodup_keys_putAll _ hkeys
  rw [(perm_sorted hput hdistinct).mem_iff]
  constructor
  · intro hs
    obtain ⟨p, hp, rfl⟩ := List.mem_map.mp hs
    have hname : p.2.name ∈ schemas.map name := by
      have hkey : p.1 ∈ (t.putAll (byName schemas)).keys := List.mem_map_of_mem hp
      rw [hput p hp, Table.mem_keys_putAll, keys_byName] at hkey
      exact hkey.elim (fun h => hknown h) id
    obtain ⟨u, hu, hname⟩ := exists_isLast hname
    have hget := get?_putAll_byName t hu
    rw [hname, ← hput p hp, Table.get?_eq_some_of_mem hdistinct hp, Option.some.injEq] at hget
    rwa [hget]
  · intro hs
    exact List.mem_map_of_mem (Table.mem_of_get?_eq_some (get?_putAll_byName t hs))

end Schema

namespace Compilation

section Steps

variable {α β : Type} {P : Compilation → Prop} {Q : α → Prop} {R : β → Prop}

/-- The outcome of a step. -/
def outcome (x : Compiling α) (run : Compilation) : Except Fault α := (x.run.run run).1

/-- A step keeps an invariant, whatever its outcome is, and its results are as said. -/
def Meets (P : Compilation → Prop) (x : Compiling α) (Q : α → Prop) : Prop :=
  ∀ run, P run → P (after x run) ∧ ∀ a, outcome x run = .ok a → Q a

theorem succeeds_of_isSome {x : Except Fault α} (h : x.toOption.isSome = true) : Succeeds x := by
  cases x with
  | error fault => cases h
  | ok a => exact .ok a

/-- A step that gives a result has gone through both of its parts. -/
theorem exists_of_outcome_bind {x : Compiling α} {f : α → Compiling β} {run : Compilation} {b : β}
    (h : outcome (x >>= f) run = .ok b) :
    ∃ a, outcome x run = .ok a ∧ outcome (f a) (after x run) = .ok b ∧
      after (x >>= f) run = after (f a) (after x run) := by
  unfold outcome after at *
  rw [ExceptT.run_bind, StateT.run_bind] at *
  cases hx : x.run.run run with
  | mk result next =>
      rw [hx] at h
      cases result with
      | error fault => cases h
      | ok a => exact ⟨a, rfl, h, rfl⟩

theorem Meets.pure {a : α} (h : Q a) : Meets P (pure a) Q := by
  refine fun run hrun => ⟨hrun, fun b hb => ?_⟩
  cases hb
  exact h

theorem Meets.throw (fault : Fault) : Meets P (throw fault) Q :=
  fun _ hrun => ⟨hrun, fun _ hb => by cases hb⟩

theorem Meets.get : Meets P get P := by
  refine fun run hrun => ⟨hrun, fun b hb => ?_⟩
  cases hb
  exact hrun

theorem Meets.set {next : Compilation} (h : P next) : Meets P (set next) fun _ => True :=
  fun _ _ => ⟨h, fun _ _ => trivial⟩

theorem Meets.modify {f : Compilation → Compilation} (h : ∀ run, P run → P (f run)) :
    Meets P (modify f) fun _ => True :=
  fun run hrun => ⟨h run hrun, fun _ _ => trivial⟩

theorem Meets.bind {x : Compiling α} {f : α → Compiling β} (hx : Meets P x Q)
    (hf : ∀ a, Q a → Meets P (f a) R) : Meets P (x >>= f) R := by
  intro run hrun
  obtain ⟨hafter, hresult⟩ := hx run hrun
  unfold outcome after at *
  rw [ExceptT.run_bind, StateT.run_bind]
  cases hx : x.run.run run with
  | mk result next =>
      rw [hx] at hafter hresult
      cases result with
      | error fault => exact ⟨hafter, fun b hb => by cases hb⟩
      | ok a => exact hf a (hresult a rfl) next hafter

/-- Steps for the elements of a list, one after the other. -/
theorem Meets.mapM {γ : Type} {f : γ → Compiling α} {Q : γ → α → Prop}
    (h : ∀ c, Meets P (f c) (Q c)) (l : List γ) :
    Meets P (l.mapM f) fun results => List.Forall₂ Q l results := by
  induction l with
  | nil => exact .pure .nil
  | cons c rest ih =>
      rw [List.mapM_cons]
      exact (h c).bind fun a ha => ih.bind fun results hresults => .pure (.cons ha hresults)

end Steps

section Requests

variable {first run : Compilation}

/-- The names of the schemas of a run. -/
def schemaNames (run : Compilation) : List String := Schema.namesOf run.compiler.names run.sources

/-- The schema of a source in a run: that of the rules to which its class expands. -/
def IsSchemaOf (run : Compilation) (source : SchemaSource) (s : Schema) : Prop :=
  ∃ held rules,
    ((Inheritance.expand run.sources run.compiler.names source.className).run held).1 = .ok rules ∧
      Schema.ofRules run.sources run.compiler.names run.catalog source rules = .ok s

/-- The schemas of a run: one for each source. -/
def Extracts (run : Compilation) (schemas : List Schema) : Prop :=
  List.Forall₂ (fun c s => ∃ source, run.sources.get? c = some source ∧ run.IsSchemaOf source s)
    run.sources.keys schemas

/-- What a run may have become: its sources and names are what they were, and it has defined schemas
under names of its sources only. -/
structure Follows (first run : Compilation) : Prop where
  config : run.config = first.config
  sources : run.sources = first.sources
  catalog : run.catalog = first.catalog
  compiler : run.compiler = first.compiler
  extracted : ∀ schemas, run.extracted = some schemas → first.Extracts schemas
  named : Schema.Named run.defined
  distinct : run.defined.keys.Nodup
  known : run.defined.keys ⊆ first.schemaNames

theorem follows_start (config : Configuration) (catalog : Catalog) (registry : Registry)
    (sources : List SchemaSource) :
    Follows (start config catalog registry sources) (start config catalog registry sources) where
  config := rfl
  sources := rfl
  catalog := rfl
  compiler := rfl
  extracted _ h := by cases h
  named _ h := by cases h
  distinct := .nil
  known _ h := by cases h

theorem Follows.define (h : Follows first run) {s : Schema} (hs : s.name ∈ first.schemaNames) :
    Follows first { run with defined := run.defined.put s.name s } where
  config := h.config
  sources := h.sources
  catalog := h.catalog
  compiler := h.compiler
  extracted := h.extracted
  named := h.named.put s
  distinct := Table.nodup_keys_put h.distinct _ _
  known n hn := by
    rw [Table.keys_put] at hn
    split at hn
    · exact h.known hn
    · rcases List.mem_append.mp hn with hn | hn
      · exact h.known hn
      · rwa [List.mem_singleton.mp hn]

/-- What a run keeps of expansions and warnings does not matter. -/
theorem Follows.expand (h : Follows first run) (inheritance : Inheritance.Run) :
    Follows first { run with inheritance := inheritance } :=
  ⟨h.config, h.sources, h.catalog, h.compiler, h.extracted, h.named, h.distinct, h.known⟩

theorem Follows.warn (h : Follows first run) (source : SchemaSource) (rules : ClassRules) :
    Follows first (run.warn source rules) :=
  ⟨h.config, h.sources, h.catalog, h.compiler, h.extracted, h.named, h.distinct, h.known⟩

/-- Extracting a class gives the schema of its source. -/
theorem meets_extractOne (hkeyed : Inheritance.Keyed first.sources) (c : String) :
    Meets first.Follows (extractOne c) fun s =>
      ∃ source, first.sources.get? c = some source ∧ first.IsSchemaOf source s := by
  refine Meets.get.bind fun run hrun => ?_
  cases hsource : run.sources.get? c with
  | none => exact .throw _
  | some source =>
      rw [hrun.sources] at hsource
      cases hexpand : (Inheritance.expand run.sources run.compiler.names c).run run.inheritance with
      | mk rules inheritance =>
          cases rules with
          | error fault => exact (Meets.set (hrun.expand inheritance)).bind fun _ _ => .throw fault
          | ok rules =>
              refine (Meets.set ((hrun.expand inheritance).warn source rules)).bind fun _ _ => ?_
              dsimp only
              rw [hrun.sources, hrun.compiler, hrun.catalog]
              rw [hrun.sources, hrun.compiler] at hexpand
              split
              · rename_i s hs
                refine .pure ⟨source, hsource, run.inheritance, rules, ?_, hs⟩
                rw [hkeyed c source hsource, hexpand]
              · exact .throw _

/-- Extracting gives one schema for each source. -/
theorem meets_extract (hkeyed : Inheritance.Keyed first.sources) :
    Meets first.Follows extract first.Extracts := by
  refine Meets.get.bind fun run hrun => ?_
  cases hextracted : run.extracted with
  | some schemas => exact .pure (hrun.extracted schemas hextracted)
  | none =>
      refine Meets.get.bind fun run hrun => ?_
      refine (Meets.mapM (meets_extractOne hkeyed) _).bind fun schemas hschemas => ?_
      rw [hrun.sources] at hschemas
      refine (Meets.modify fun run h => ?_).bind fun _ _ => .pure hschemas
      refine ⟨h.config, h.sources, h.catalog, h.compiler, fun kept hkept => ?_, h.named, h.distinct,
        h.known⟩
      cases hkept
      exact hschemas

/-- Defining a schema of the run gives its definition. -/
theorem meets_define {s : Schema} (hs : s.name ∈ first.schemaNames) :
    Meets first.Follows (define s) fun code => s.define first.compiler = .ok code := by
  refine (Meets.modify fun run hrun => hrun.define hs).bind fun _ _ => ?_
  refine Meets.get.bind fun run hrun => ?_
  rw [hrun.compiler]
  cases hcode : s.define first.compiler with
  | error fault => exact .throw fault
  | ok code => exact .pure rfl

/-- Definitions of schemas: one for each, put under its name. -/
theorem meets_definitions (schemas : List Schema) :
    ∀ known, (∀ s ∈ schemas, s.name ∈ first.schemaNames) →
      Meets first.Follows (definitions schemas known) fun table =>
        ∃ codes : Table String, List.Forall₂
            (fun s p => p.1 = s.name ∧ s.define first.compiler = .ok p.2) schemas codes ∧
          table = known.putAll codes := by
  induction schemas with
  | nil => exact fun known _ => .pure ⟨[], .nil, rfl⟩
  | cons s rest ih =>
      intro known hnames
      obtain ⟨hs, hrest⟩ := List.forall_mem_cons.mp hnames
      refine (meets_define hs).bind fun code hcode => ?_
      intro run hrun
      obtain ⟨hafter, htable⟩ := ih (known.put s.name code) hrest run hrun
      refine ⟨hafter, fun table h => ?_⟩
      obtain ⟨codes, hcodes, rfl⟩ := htable table h
      exact ⟨(s.name, code) :: codes, .cons ⟨rfl, hcode⟩ hcodes, rfl⟩

/-- Schemas that have all been defined are known under their names. -/
theorem defined_after_definitions (schemas : List Schema) :
    ∀ {known table : Table String} {run : Compilation},
      outcome (definitions schemas known) run = .ok table →
      (after (definitions schemas known) run).defined =
        run.defined.putAll (Schema.byName schemas) := by
  induction schemas with
  | nil => exact fun _ => rfl
  | cons s rest ih =>
      intro known table run h
      obtain ⟨code, -, hrest, hafter⟩ := exists_of_outcome_bind h
      rw [definitions, hafter, ih hrest, defined_after_define]
      rfl

/-- The schemas of a run have the names of the run, in their order. -/
theorem Extracts.map_name {schemas : List Schema} (h : first.Extracts schemas)
    (hkeys : first.sources.keys.Nodup) : schemas.map Schema.name = first.schemaNames := by
  have hall : ∀ p ∈ first.sources, first.sources.get? p.1 = some p.2 := fun p hp =>
    Table.get?_eq_some_of_mem hkeys hp
  unfold Extracts Table.keys at h
  rw [List.forall₂_map_left_iff] at h
  unfold schemaNames Schema.namesOf
  -- the sources that are left, among those in which classes are looked up
  suffices hgeneral : ∀ pairs : Table SchemaSource,
      (∀ p ∈ pairs, first.sources.get? p.1 = some p.2) →
      List.Forall₂ (fun p s => ∃ source, first.sources.get? p.1 = some source ∧
        first.IsSchemaOf source s) pairs schemas →
      schemas.map Schema.name = pairs.map fun p =>
        first.compiler.names.generate p.2.className p.2.schemaName from hgeneral _ hall h
  clear h
  intro pairs hpairs hrelated
  induction hrelated with
  | nil => rfl
  | @cons p s rest schemas hfirst _ ih =>
      obtain ⟨hp, hrest⟩ := List.forall_mem_cons.mp hpairs
      obtain ⟨source, hsource, held, rules, -, hs⟩ := hfirst
      rw [hp, Option.some.injEq] at hsource
      obtain ⟨-, -, -, -, hname, -⟩ := Schema.exists_of_ofRules hs
      rw [List.map_cons, List.map_cons, ih hrest, hname, hsource]

/-- An entry of a schema: its definition under its name, with references to the schemas that are
given. -/
structure IsEntryOf (run : Compilation) (schemas : List Schema) (annotate : Bool) (s : Schema)
    (e : Entry) : Prop where
  name : e.name = s.name
  definition : s.define run.compiler = .ok e.definition
  annotation : e.annotation =
    if annotate && run.config.importsTypes schemas then s.annotation? run.config else none
  dependencies : e.dependencies = s.dependencies.filter fun d => d ∈ schemas.map Schema.name

theorem forall₂_filterMap {α β : Type} {R : α → β → Prop} {f : α → Option β} {l : List α}
    (h : ∀ a ∈ l, ∃ b, f a = some b ∧ R a b) : List.Forall₂ R l (l.filterMap f) := by
  induction l with
  | nil => exact .nil
  | cons a rest ih =>
      obtain ⟨⟨b, hb, hR⟩, hrest⟩ := List.forall_mem_cons.mp h
      rw [List.filterMap_cons_some hb]
      exact .cons hR (ih hrest)

/-- Entries of schemas: one for each name, of the last schema that has it. -/
def Exports (run : Compilation) (schemas : List Schema) (annotate : Bool) (es : List Entry) : Prop :=
  ∃ ordered : List Schema, (ordered.map Schema.name).Nodup ∧
    (∀ s, s ∈ ordered ↔ Schema.IsLast schemas s) ∧
    List.Forall₂ (run.IsEntryOf schemas annotate) ordered es

/-- The entries of all schemas of a run, whatever has been defined before. -/
theorem exports_of_entries (h : first.Follows run) {schemas : List Schema} {annotate : Bool}
    (hnames : schemas.map Schema.name = first.schemaNames) {es : List Entry}
    (hes : outcome (entries schemas annotate) run = .ok es) :
    first.Exports schemas annotate es := by
  obtain ⟨table, htable, hget, -⟩ := exists_of_outcome_bind hes
  have hschemas : ∀ s ∈ schemas, s.name ∈ first.schemaNames := fun s hs =>
    hnames ▸ List.mem_map_of_mem hs
  have hdefined := defined_after_definitions schemas htable
  obtain ⟨hafter, hresult⟩ := meets_definitions schemas [] hschemas run h
  obtain ⟨codes, hcodes, rfl⟩ := hresult table htable
  cases hget
  have hmem : ∀ s, s ∈ Schema.sorted (run.defined.putAll (Schema.byName schemas)) ↔
      Schema.IsLast schemas s := fun s =>
    Schema.mem_sorted_putAll h.named h.distinct (hnames ▸ h.known)
  rw [hdefined, hafter.config]
  refine ⟨_, ?_, hmem, forall₂_filterMap fun s hs => ?_⟩
  · have hnamed := h.named.putAll schemas
    have hkeys := Table.nodup_keys_putAll (Schema.byName schemas) h.distinct
    rw [((Schema.perm_sorted hnamed hkeys).map _).nodup_iff, ← Schema.keys_byName,
      ← hnamed.eq_byName]
    exact hkeys
  · obtain ⟨code, hcode, hs⟩ := Schema.get?_putAll_of_forall₂
      (R := fun s code => s.define first.compiler = .ok code) hcodes [] ((hmem s).mp hs)
    refine ⟨_, by rw [hcode]; rfl, rfl, hs, rfl, ?_⟩
    have hkeys : codes.keys = schemas.map Schema.name :=
      Schema.keys_of_forall₂ (R := fun s code => s.define first.compiler = .ok code) hcodes
    apply List.filter_congr
    intro d _
    rw [Bool.eq_iff_iff, Table.has_iff, Table.mem_keys_putAll, hkeys, decide_eq_true_iff]
    exact or_iff_right List.not_mem_nil

/-- What a run can be asked for. -/
inductive Request where
  | schemas
  | script
  | files

/-- A run after a request, also after one that fails. -/
def Request.apply : Request → Compilation → Compilation
  | schemas => after extract
  | script => after Compilation.script
  | files => after Compilation.files

/-- A run after requests, one after the other. -/
def afterRequests (run : Compilation) (history : List Request) : Compilation :=
  history.foldl (fun run request => request.apply run) run

section Sources

variable (hkeyed : Inheritance.Keyed first.sources) (hkeys : first.sources.keys.Nodup)

include hkeys in
theorem meets_entries {schemas : List Schema} (hschemas : first.Extracts schemas)
    (annotate : Bool) : Meets first.Follows (entries schemas annotate) fun _ => True := by
  have hnames : ∀ s ∈ schemas, s.name ∈ first.schemaNames := fun s hs =>
    hschemas.map_name hkeys ▸ List.mem_map_of_mem hs
  refine (meets_definitions schemas [] hnames).bind fun table _ => ?_
  exact Meets.get.bind fun run _ => .pure trivial

include hkeyed hkeys

theorem Follows.apply (h : first.Follows run) (request : Request) :
    first.Follows (request.apply run) := by
  have hextract := meets_extract hkeyed
  cases request with
  | schemas => exact (hextract run h).1
  | script =>
      have hscript : Meets first.Follows script fun _ => True := by
        refine hextract.bind fun schemas hschemas => Meets.get.bind fun run _ => ?_
        dsimp only
        split
        all_goals exact (meets_entries hkeys hschemas _).bind fun es _ => .pure trivial
      exact (hscript run h).1
  | files =>
      have hfiles : Meets first.Follows files fun _ => True := by
        refine hextract.bind fun schemas hschemas => Meets.get.bind fun run _ => ?_
        exact (meets_entries hkeys hschemas _).bind fun es _ => .pure trivial
      exact (hfiles run h).1

theorem Follows.afterRequests (h : first.Follows run) (history : List Request) :
    first.Follows (run.afterRequests history) := by
  induction history generalizing run with
  | nil => exact h
  | cons request rest ih => exact ih (h.apply hkeyed hkeys request)

/-- The script of a run in the exported form. -/
theorem exists_entries_of_script (h : first.Follows run)
    (hformat : first.config.output.format = .exports) {text : String}
    (htext : outcome script run = .ok text) :
    ∃ schemas es, outcome extract run = .ok schemas ∧ first.Extracts schemas ∧
      first.Exports schemas true es ∧ text = Entry.exportedScript first.config schemas es := by
  obtain ⟨schemas, hschemas, htext, -⟩ := exists_of_outcome_bind htext
  obtain ⟨hafter, hresult⟩ := meets_extract hkeyed run h
  obtain ⟨found, hfound, htext, -⟩ := exists_of_outcome_bind htext
  cases hfound
  rw [hafter.config] at htext
  dsimp only at htext
  rw [hformat] at htext
  obtain ⟨es, hes, htext, -⟩ := exists_of_outcome_bind htext
  cases htext
  have hextracts := hresult schemas hschemas
  have hexports := exports_of_entries hafter (hextracts.map_name hkeys) hes
  exact ⟨schemas, es, hschemas, hextracts, hexports, rfl⟩

/-- The files of a run. -/
theorem exists_entries_of_files (h : first.Follows run) {table : Table String}
    (htable : outcome files run = .ok table) :
    ∃ schemas es, outcome extract run = .ok schemas ∧ first.Extracts schemas ∧
      first.Exports schemas true es ∧ table = Entry.files first.config es := by
  obtain ⟨schemas, hschemas, htable, -⟩ := exists_of_outcome_bind htable
  obtain ⟨hafter, hresult⟩ := meets_extract hkeyed run h
  obtain ⟨found, hfound, htable, -⟩ := exists_of_outcome_bind htable
  cases hfound
  obtain ⟨es, hes, htable, -⟩ := exists_of_outcome_bind htable
  cases htable
  rw [hafter.config]
  have hextracts := hresult schemas hschemas
  have hexports := exports_of_entries hafter (hextracts.map_name hkeys) hes
  exact ⟨schemas, es, hschemas, hextracts, hexports, rfl⟩

end Sources

theorem nodup_keys_sourceTable (sources : List SchemaSource) : (sourceTable sources).keys.Nodup :=
  Table.nodup_keys_putAll _ .nil

end Requests

end Compilation

end RuleSchema
