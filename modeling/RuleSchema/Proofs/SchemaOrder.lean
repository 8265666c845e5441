import Mathlib.Data.Finset.Card
import Mathlib.Data.List.Perm.Basic
import Mathlib.Logic.Relation
import RuleSchema.Compilation

/-!
# The order of defined schemas

Schemas are placed by a walk that follows dependencies depth first, over a graph with arbitrary
cycles. The result has every defined schema once. A schema stands behind each schema that it depends
on, unless that one leads back to it; and without dependencies between them schemas keep the order
of their definition.

## Implementation notes

A name that has been visited without being placed is open: the walk is still inside it. An open name
leads to the name that is visited next, so a dependency that is not yet placed when its schema is
placed leads back to that schema.
-/

namespace RuleSchema

namespace Schema

open Relation

variable {schemas : List Schema}

/-- Schemas under their names. -/
def byName (schemas : List Schema) : Table Schema := schemas.map fun s => (s.name, s)

/-- A name depends on another one: both name schemas of a list, and the first lists the second. -/
def DependsOn (schemas : List Schema) (a b : String) : Prop :=
  ∃ u ∈ schemas, ∃ v ∈ schemas, u.name = a ∧ v.name = b ∧ b ∈ u.dependencies

/-- Dependencies lead from a name to another one. -/
def LeadsTo (schemas : List Schema) : String → String → Prop := ReflTransGen (DependsOn schemas)

section ByName

theorem keys_byName (schemas : List Schema) : (byName schemas).keys = schemas.map name := by
  rw [Table.keys, byName, List.map_map]
  rfl

theorem get?_byName (hnames : (schemas.map name).Nodup) {s : Schema} (hs : s ∈ schemas) :
    (byName schemas).get? s.name = some s := by
  have hkeys : (byName schemas).keys.Nodup := by
    rw [keys_byName]
    exact hnames
  exact Table.get?_eq_some_of_mem hkeys (List.mem_map_of_mem hs)

theorem get?_byName_eq_none {n : String} (h : n ∉ schemas.map name) :
    (byName schemas).get? n = none := by
  apply Table.get?_eq_none_of_not_mem
  rwa [keys_byName]

/-- Schemas with distinct names are told apart by them. -/
theorem eq_of_name_eq (hnames : (schemas.map name).Nodup) {s u : Schema} (hs : s ∈ schemas)
    (hu : u ∈ schemas) (h : s.name = u.name) : s = u := by
  have hget := get?_byName hnames hs
  rw [h, get?_byName hnames hu, Option.some.injEq] at hget
  exact hget.symm

end ByName

namespace Placement

/-- A name that has been visited while its schema is not placed. -/
def Open (p : Placement) (n : String) : Prop := n ∈ p.visited ∧ n ∉ p.placed.map name

/-- A placement has schemas of a list, each once, and each behind those that it depends on and that
do not lead back to it. -/
structure Valid (schemas : List Schema) (p : Placement) : Prop where
  known : ∀ s ∈ p.placed, s ∈ schemas ∧ s.name ∈ p.visited
  distinct : (p.placed.map name).Nodup
  behind : ∀ before u later, p.placed = before ++ u :: later → ∀ v, DependsOn schemas u.name v →
    ¬ LeadsTo schemas v u.name → v ∈ before.map name

/-- A later placement keeps what was visited and placed, places only names that were not visited,
and leaves no further name open. -/
structure Extends (p q : Placement) : Prop where
  visited : p.visited ⊆ q.visited
  placed : p.placed ⊆ q.placed
  fresh : ∀ s ∈ q.placed, s ∈ p.placed ∨ s.name ∉ p.visited
  closed : ∀ n, q.Open n → p.Open n

/-- The number of names that have not been visited. -/
def unvisited (schemas : List Schema) (p : Placement) : Nat :=
  ((schemas.map name).toFinset \ p.visited.toFinset).card

/-- A placement that is about to place the schema of a name. -/
def enter (p : Placement) (n : String) : Placement := { p with visited := n :: p.visited }

/-- A placement with one more schema. -/
def place (p : Placement) (s : Schema) : Placement := { p with placed := p.placed ++ [s] }

theorem Extends.refl (p : Placement) : Extends p p :=
  ⟨fun _ h => h, fun _ h => h, fun _ h => .inl h, fun _ h => h⟩

theorem Extends.trans {p q r : Placement} (hpq : Extends p q) (hqr : Extends q r) :
    Extends p r where
  visited _ h := hqr.visited (hpq.visited h)
  placed _ h := hqr.placed (hpq.placed h)
  fresh s hs := by
    rcases hqr.fresh s hs with hs | hs
    · exact hpq.fresh s hs
    · exact .inr fun h => hs (hpq.visited h)
  closed n h := hpq.closed n (hqr.closed n h)

theorem unvisited_mono {p q : Placement} (h : Extends p q) :
    unvisited schemas q ≤ unvisited schemas p := by
  apply Finset.card_le_card
  apply Finset.sdiff_subset_sdiff (Finset.Subset.refl _)
  intro n hn
  rw [List.mem_toFinset] at hn ⊢
  exact h.visited hn

theorem unvisited_enter_lt {p : Placement} {n : String} (hn : n ∈ schemas.map name)
    (hfresh : n ∉ p.visited) : unvisited schemas (p.enter n) < unvisited schemas p := by
  unfold unvisited enter
  rw [List.toFinset_cons, Finset.sdiff_insert]
  apply Finset.card_erase_lt_of_mem
  rw [Finset.mem_sdiff, List.mem_toFinset, List.mem_toFinset]
  exact ⟨hn, hfresh⟩

theorem open_enter {p : Placement} {n m : String} (h : (p.enter n).Open m) :
    m = n ∨ p.Open m := by
  obtain ⟨hvisited, hplaced⟩ := h
  rcases List.mem_cons.mp hvisited with rfl | hvisited
  · exact .inl rfl
  · exact .inr ⟨hvisited, hplaced⟩

theorem Valid.enter {p : Placement} (h : p.Valid schemas) (n : String) :
    (p.enter n).Valid schemas where
  known s hs := ⟨(h.known s hs).1, List.mem_cons_of_mem _ (h.known s hs).2⟩
  distinct := h.distinct
  behind := h.behind

/-- A schema that has been entered can be placed once every dependency that is not placed leads
back to it. -/
theorem Valid.place {p : Placement} (h : p.Valid schemas) {s : Schema} (hs : s ∈ schemas)
    (hopen : p.Open s.name)
    (hbehind : ∀ v, DependsOn schemas s.name v → ¬ LeadsTo schemas v s.name →
      v ∈ p.placed.map name) : (p.place s).Valid schemas where
  known u hu := by
    rcases List.mem_append.mp hu with hu | hu
    · exact h.known u hu
    · rw [List.mem_singleton.mp hu]
      exact ⟨hs, hopen.1⟩
  distinct := by
    rw [Placement.place, List.map_append, List.map_singleton, ← List.concat_eq_append]
    exact h.distinct.concat hopen.2
  behind before u later heq := by
    rcases List.eq_nil_or_concat later with rfl | ⟨more, last, hlater⟩
    · -- the last schema is the new one
      obtain ⟨rfl, hlast⟩ := List.append_inj' heq rfl
      rw [List.singleton_inj] at hlast
      rw [← hlast]
      exact hbehind
    · have hshift : p.placed ++ [s] = (before ++ u :: more) ++ [last] := by
        rw [hlater, List.concat_eq_append] at heq
        rw [List.append_assoc, List.cons_append]
        exact heq
      exact h.behind before u more (List.append_inj' hshift rfl).1

/-- A schema stays unplaced while the names below it are visited. -/
theorem Extends.open_of_enter {p q : Placement} {s : Schema} (h : Extends (p.enter s.name) q)
    (hp : p.Valid schemas) (hfresh : s.name ∉ p.visited) : q.Open s.name := by
  constructor
  · exact h.visited List.mem_cons_self
  · intro hmem
    obtain ⟨u, hu, hname⟩ := List.mem_map.mp hmem
    rcases h.fresh u hu with hu | hu
    · exact hfresh (hname ▸ (hp.known u hu).2)
    · exact hu (hname ▸ List.mem_cons_self)

/-- Entering a new name, visiting what is below it and placing its schema extends a placement. -/
theorem Extends.place {p q : Placement} {s : Schema} (h : Extends (p.enter s.name) q)
    (hfresh : s.name ∉ p.visited) : Extends p (q.place s) where
  visited m hm := h.visited (List.mem_cons_of_mem _ hm)
  placed u hu := List.mem_append_left _ (h.placed hu)
  fresh u hu := by
    rcases List.mem_append.mp hu with hu | hu
    · exact (h.fresh u hu).imp_right fun h hmem => h (List.mem_cons_of_mem _ hmem)
    · rw [List.mem_singleton.mp hu]
      exact .inr hfresh
  closed m := by
    rintro ⟨hvisited, hplaced⟩
    rw [Placement.place, List.map_append, List.mem_append, not_or] at hplaced
    rcases open_enter (h.closed m ⟨hvisited, hplaced.1⟩) with rfl | hm
    · exact absurd (List.mem_singleton.mpr rfl) hplaced.2
    · exact hm

end Placement

open Placement

section Walk

variable {fuel : Nat} {p : Placement}

/-- Visiting a name that has been visited or that names no schema changes nothing. -/
theorem visit_eq_self {n : String} (h : n ∈ p.visited ∨ n ∉ schemas.map name) :
    visit (byName schemas) fuel p n = p := by
  cases fuel with
  | zero => rfl
  | succ fuel =>
      rw [visit]
      split
      · rfl
      · rename_i hfresh
        rw [List.contains_iff_mem] at hfresh
        rw [get?_byName_eq_none (h.resolve_left hfresh)]

theorem foldl_visit_self {ns : List String} (h : ∀ n ∈ ns, n ∈ p.visited ∨ n ∉ schemas.map name) :
    ns.foldl (visit (byName schemas) fuel) p = p := by
  induction ns with
  | nil => rfl
  | cons n rest ih =>
      rw [List.foldl_cons, visit_eq_self (h n List.mem_cons_self)]
      exact ih fun m hm => h m (List.mem_cons_of_mem _ hm)

/-- Visiting a further name enters it, visits its dependencies and places its schema. -/
theorem visit_succ (hnames : (schemas.map name).Nodup) {s : Schema} (hs : s ∈ schemas)
    (hfresh : s.name ∉ p.visited) :
    visit (byName schemas) (fuel + 1) p s.name =
      (s.dependencies.foldl (visit (byName schemas) fuel) (p.enter s.name)).place s := by
  rw [visit, if_neg (by rwa [List.contains_iff_mem]), get?_byName hnames hs]
  rfl

/-- What visiting a name does where every open name leads to it: the placement stays valid, and the
name has been visited if it names a schema. -/
structure Visits (schemas : List Schema) (p q : Placement) (n : String) : Prop where
  extended : Extends p q
  valid : q.Valid schemas
  visited : n ∈ schemas.map name → n ∈ q.visited

/-- Visiting names one after the other visits all of them. -/
theorem foldl_visits {step : Placement → String → Placement} {bound : Nat}
    (hstep : ∀ p n, p.Valid schemas → unvisited schemas p < bound →
      (n ∈ schemas.map name → ∀ m, p.Open m → LeadsTo schemas m n) → Visits schemas p (step p n) n)
    (ns : List String) : ∀ p, p.Valid schemas → unvisited schemas p < bound →
      (∀ n ∈ ns, n ∈ schemas.map name → ∀ m, p.Open m → LeadsTo schemas m n) →
      Extends p (ns.foldl step p) ∧ (ns.foldl step p).Valid schemas ∧
        ∀ n ∈ ns, n ∈ schemas.map name → n ∈ (ns.foldl step p).visited := by
  induction ns with
  | nil => exact fun p hp _ _ => ⟨.refl p, hp, fun _ h => absurd h List.not_mem_nil⟩
  | cons n rest ih =>
      intro p hp hbound hopen
      have hfirst := hstep p n hp hbound (hopen n List.mem_cons_self)
      have hless : unvisited schemas (step p n) < bound :=
        Nat.lt_of_le_of_lt (unvisited_mono hfirst.extended) hbound
      obtain ⟨hextends, hvalid, hvisited⟩ := ih (step p n) hfirst.valid hless
        fun d hd hknown m hm =>
          hopen d (List.mem_cons_of_mem _ hd) hknown m (hfirst.extended.closed m hm)
      refine ⟨hfirst.extended.trans hextends, hvalid, fun d hd hknown => ?_⟩
      rcases List.mem_cons.mp hd with rfl | hd
      · exact hextends.visited (hfirst.visited hknown)
      · exact hvisited d hd hknown

/-- A visit with more fuel than there are names to visit, where every open name leads to the name
that is visited. -/
theorem visit_visits (hnames : (schemas.map name).Nodup) (fuel : Nat) :
    ∀ p n, p.Valid schemas → unvisited schemas p < fuel →
      (n ∈ schemas.map name → ∀ m, p.Open m → LeadsTo schemas m n) →
      Visits schemas p (visit (byName schemas) fuel p n) n := by
  induction fuel with
  | zero => exact fun p n _ hfuel => absurd hfuel (Nat.not_lt_zero _)
  | succ fuel ih =>
      intro p n hp hfuel hopen
      by_cases hskip : n ∈ p.visited ∨ n ∉ schemas.map name
      · rw [visit_eq_self hskip]
        exact ⟨.refl p, hp, fun hknown => hskip.resolve_right (not_not_intro hknown)⟩
      · rw [not_or, not_not] at hskip
        obtain ⟨hfresh, hknown⟩ := hskip
        obtain ⟨s, hs, rfl⟩ := List.mem_map.mp hknown
        have hless : unvisited schemas (p.enter s.name) < fuel := by
          have hlt := unvisited_enter_lt hknown hfresh
          omega
        -- the open names are now `s` and those that lead to it
        have hleads : ∀ m, (p.enter s.name).Open m → LeadsTo schemas m s.name := by
          intro m hm
          rcases open_enter hm with rfl | hm
          · exact ReflTransGen.refl
          · exact hopen hknown m hm
        have hdeps : ∀ d ∈ s.dependencies, d ∈ schemas.map name → ∀ m,
            (p.enter s.name).Open m → LeadsTo schemas m d := by
          intro d hd hdknown m hm
          obtain ⟨v, hv, rfl⟩ := List.mem_map.mp hdknown
          exact ReflTransGen.tail (hleads m hm) ⟨s, hs, v, hv, rfl, rfl, hd⟩
        obtain ⟨hextends, hvalid, hvisited⟩ :=
          foldl_visits ih s.dependencies (p.enter s.name) (hp.enter _) hless hdeps
        rw [visit_succ hnames hs hfresh]
        generalize s.dependencies.foldl (visit (byName schemas) fuel) (p.enter s.name) = q
          at hextends hvalid hvisited
        have hqopen : q.Open s.name := hextends.open_of_enter hp hfresh
        refine ⟨hextends.place hfresh, hvalid.place hs hqopen ?_, fun _ => hqopen.1⟩
        intro v hdep hback
        -- an open dependency would lead back to `s`
        by_contra hv
        obtain ⟨u, hu, w, hw, hname, rfl, hd⟩ := hdep
        rw [eq_of_name_eq hnames hu hs hname] at hd
        have hvopen : q.Open w.name := ⟨hvisited _ hd (List.mem_map_of_mem hw), hv⟩
        exact hback (hleads _ (hextends.closed _ hvopen))

end Walk

section Sorted

/-- The placement that the order of schemas is read from. -/
theorem foldl_visit_valid (hnames : (schemas.map name).Nodup) :
    ∃ q : Placement, sorted (byName schemas) = q.placed ∧ q.Valid schemas ∧
      ∀ s ∈ schemas, s.name ∈ q.placed.map name := by
  let start : Placement := ⟨[], []⟩
  have hstart : start.Valid schemas := by
    refine ⟨fun s hs => absurd hs List.not_mem_nil, .nil, fun before u later heq => ?_⟩
    simp [start] at heq
  have hnone : ∀ m, ¬ start.Open m := fun m hm => List.not_mem_nil hm.1
  have hless : unvisited schemas start < (byName schemas).length + 1 := by
    apply Nat.lt_succ_of_le
    calc unvisited schemas start ≤ (schemas.map name).toFinset.card :=
          Finset.card_le_card Finset.sdiff_subset
      _ ≤ (schemas.map name).length := List.toFinset_card_le _
      _ = (byName schemas).length := by rw [byName, List.length_map, List.length_map]
  obtain ⟨hextends, hvalid, hvisited⟩ := foldl_visits (visit_visits hnames _)
    (byName schemas).keys start hstart hless fun n _ _ m hm => absurd hm (hnone m)
  refine ⟨_, rfl, hvalid, fun s hs => ?_⟩
  have hknown : s.name ∈ schemas.map name := List.mem_map_of_mem hs
  by_contra hunplaced
  apply hnone s.name
  apply hextends.closed
  exact ⟨hvisited _ (by rwa [keys_byName]) hknown, hunplaced⟩

/-- Where no dependency leads to another schema, visiting schemas places them in their order. -/
theorem foldl_visit_independent (hnames : (schemas.map name).Nodup) {fuel : Nat}
    (hown : ∀ u ∈ schemas, ∀ v ∈ schemas, v.name ∈ u.dependencies → v = u) :
    ∀ (rest : List Schema) (p : Placement), rest ⊆ schemas → (rest.map name).Nodup →
      (∀ s ∈ rest, s.name ∉ p.visited) →
      ((rest.map name).foldl (visit (byName schemas) (fuel + 1)) p).placed = p.placed ++ rest := by
  intro rest
  induction rest with
  | nil => exact fun p _ _ _ => (List.append_nil _).symm
  | cons s rest ih =>
      intro p hsub hdistinct hfresh
      have hs : s ∈ schemas := hsub List.mem_cons_self
      have hstay : s.dependencies.foldl (visit (byName schemas) fuel) (p.enter s.name) =
          p.enter s.name := by
        apply foldl_visit_self
        intro d hd
        by_cases hknown : d ∈ schemas.map name
        · obtain ⟨v, hv, rfl⟩ := List.mem_map.mp hknown
          rw [hown s hs v hv hd]
          exact .inl List.mem_cons_self
        · exact .inr hknown
      rw [List.map_cons, List.nodup_cons] at hdistinct
      rw [List.map_cons, List.foldl_cons, visit_succ hnames hs (hfresh s List.mem_cons_self), hstay,
        ih _ (fun u hu => hsub (List.mem_cons_of_mem _ hu)) hdistinct.2, place, List.append_assoc]
      · rfl
      · intro u hu hvisited
        rcases List.mem_cons.mp hvisited with heq | hvisited
        · exact hdistinct.1 (heq ▸ List.mem_map_of_mem hu)
        · exact hfresh u (List.mem_cons_of_mem _ hu) hvisited

/-- An order that is safe to read schemas in: it has each of them once, a schema stands behind the
schemas that it depends on and that do not lead back to it, and schemas that do not depend on each
other keep their order. -/
structure SafeOrder (schemas ordered : List Schema) : Prop where
  perm : ordered.Perm schemas
  behind : ∀ u ∈ schemas, ∀ v ∈ schemas, v.name ∈ u.dependencies →
    ¬ LeadsTo schemas v.name u.name → [v, u].Sublist ordered
  kept : (∀ u ∈ schemas, ∀ v ∈ schemas, v.name ∈ u.dependencies → v = u) → ordered = schemas

/-- A valid placement of all schemas has each of them once. -/
theorem Placement.Valid.perm (hnames : (schemas.map name).Nodup) {q : Placement}
    (hq : q.Valid schemas) (hall : ∀ s ∈ schemas, s.name ∈ q.placed.map name) :
    q.placed.Perm schemas := by
  rw [List.perm_ext_iff_of_nodup hq.distinct.of_map hnames.of_map]
  intro s
  constructor
  · exact fun hs => (hq.known s hs).1
  · intro hs
    obtain ⟨u, hu, hname⟩ := List.mem_map.mp (hall s hs)
    rwa [← eq_of_name_eq hnames (hq.known u hu).1 hs hname]

theorem safeOrder_sorted_byName (hnames : (schemas.map name).Nodup) :
    SafeOrder schemas (sorted (byName schemas)) := by
  obtain ⟨q, hsorted, hq, hall⟩ := foldl_visit_valid hnames
  have hperm := hq.perm hnames hall
  refine ⟨hsorted ▸ hperm, fun u hu v hv hdep hback => ?_, fun hown => ?_⟩
  · rw [hsorted]
    obtain ⟨before, later, hsplit⟩ := List.append_of_mem (hperm.mem_iff.mpr hu)
    have hv' := hq.behind before u later hsplit v.name ⟨u, hu, v, hv, rfl, rfl, hdep⟩ hback
    obtain ⟨w, hw, hname⟩ := List.mem_map.mp hv'
    have hplaced : w ∈ q.placed := by
      rw [hsplit]
      exact List.mem_append_left _ hw
    rw [eq_of_name_eq hnames (hq.known w hplaced).1 hv hname] at hw
    rw [hsplit]
    exact (List.singleton_sublist.mpr hw).append (List.singleton_sublist.mpr List.mem_cons_self)
  · rw [sorted, keys_byName, foldl_visit_independent hnames hown schemas _ (fun _ h => h) hnames
      fun _ _ => List.not_mem_nil]
    rfl

end Sorted

end Schema

namespace Compilation

/-- A run after a step, also after one that has failed. -/
def after {α : Type} (x : Compiling α) (run : Compilation) : Compilation := (x.run.run run).2

/-- A run after schemas have been defined one after the other, whatever came of each. -/
def afterDefining (run : Compilation) (schemas : List Schema) : Compilation :=
  schemas.foldl (fun run s => after (define s) run) run

theorem after_modify_bind {α : Type} (f : Compilation → Compilation) (x : Compiling α)
    (run : Compilation) : after (do modify f; x) run = after x (f run) := rfl

theorem after_get_bind {α : Type} (f : Compilation → Compiling α) (run : Compilation) :
    after (get >>= f) run = after (f run) run := rfl

theorem defined_after_define (s : Schema) (run : Compilation) :
    (after (define s) run).defined = run.defined.put s.name s := by
  rw [define, after_modify_bind, after_get_bind]
  cases s.define run.compiler <;> rfl

/-- Schemas of distinct names are known under their names, in the order of their definition. -/
theorem defined_afterDefining {schemas : List Schema} : ∀ {run : Compilation},
    (run.defined.keys ++ schemas.map Schema.name).Nodup →
    (run.afterDefining schemas).defined = run.defined ++ Schema.byName schemas := by
  induction schemas with
  | nil => exact fun _ => (List.append_nil _).symm
  | cons s rest ih =>
      intro run hnames
      have hnew : s.name ∉ run.defined.keys := by
        intro hmem
        exact (List.nodup_append.mp hnames).2.2 _ hmem _ List.mem_cons_self rfl
      have hkeys : ((after (define s) run).defined.keys ++ rest.map Schema.name).Nodup := by
        rw [defined_after_define, Table.keys_put, if_neg hnew, List.append_assoc]
        exact hnames
      rw [afterDefining, List.foldl_cons]
      refine (ih hkeys).trans ?_
      rw [defined_after_define, Table.put_of_not_mem s hnew, List.append_assoc]
      rfl

/-- The schemas that a run has defined are ordered safely, whatever they depend on. -/
theorem safeOrder_of_defined {run : Compilation} (hrun : run.defined = []) {schemas : List Schema}
    (hnames : (schemas.map Schema.name).Nodup) :
    Schema.SafeOrder schemas (Schema.sorted (run.afterDefining schemas).defined) := by
  have hkeys : (run.defined.keys ++ schemas.map Schema.name).Nodup := by
    rw [hrun]
    exact hnames
  rw [defined_afterDefining hkeys, hrun]
  exact Schema.safeOrder_sorted_byName hnames

/-- A run without sources. -/
def idle : Compilation := start .default (.ofMap []) .builtIn []

/-- Schemas with a cycle, a schema that depends on itself and one that depends on the cycle. -/
def entangled : List Schema :=
  [⟨"OrderSchema", "Order", .rules, [], ["LineSchema", "Missing", "OrderSchema"]⟩,
    ⟨"LineSchema", "Line", .rules, [], ["ItemSchema"]⟩,
    ⟨"ItemSchema", "Item", .rules, [], ["LineSchema"]⟩,
    ⟨"CartSchema", "Cart", .rules, [], ["OrderSchema"]⟩]

theorem safeOrder_of_entangled : idle.defined = [] ∧ (entangled.map Schema.name).Nodup ∧
    Schema.SafeOrder entangled (Schema.sorted (idle.afterDefining entangled).defined) :=
  ⟨rfl, by decide, safeOrder_of_defined rfl (by decide)⟩

end Compilation

end RuleSchema
