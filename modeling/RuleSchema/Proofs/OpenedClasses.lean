import Mathlib.Logic.Relation
import RuleSchema.Proofs.InheritanceRuns

/-!
# Classes opened by a run

A request for a class begins to expand further classes, each in some state of the run. The classes
of a cycle are first opened at one of them, where the request enters the cycle: while it is open the
others are met inside its expansion, and afterwards all of them are kept. A part of a request is the
run of one of its tasks, seen with what the request as a whole leaves behind.
-/

namespace RuleSchema.Inheritance

variable {sources : Table SchemaSource} {names : SchemaNames}

/-- A class declares an inheritance from another class. -/
def Inherits (sources : Table SchemaSource) (a b : String) : Prop :=
  ∃ source, sources.get? a = some source ∧
    b ∈ source.inheritance.map fun declared => declared.2.sourceClass

/-- A chain of inheritances, possibly empty, leads from a class to another. -/
def Reaches (sources : Table SchemaSource) : String → String → Prop :=
  Relation.ReflTransGen (Inherits sources)

/-- A chain of inheritances leads from a class back to it. -/
def OnCycle (sources : Table SchemaSource) (k : String) : Prop :=
  Relation.TransGen (Inherits sources) k k

/-- Two classes lie on one cycle of inheritances, or are the same class. -/
def Linked (sources : Table SchemaSource) (a b : String) : Prop :=
  Reaches sources a b ∧ Reaches sources b a

theorem Inherits.mem {a b : String} {source : SchemaSource} (h : Inherits sources a b)
    (hs : sources.get? a = some source) :
    b ∈ source.inheritance.map fun declared => declared.2.sourceClass := by
  obtain ⟨found, hfound, hb⟩ := h
  obtain rfl : found = source := Option.some.inj (hfound.symm.trans hs)
  exact hb

theorem Linked.refl (a : String) : Linked sources a a := ⟨.refl, .refl⟩

theorem Linked.symm {a b : String} (h : Linked sources a b) : Linked sources b a := ⟨h.2, h.1⟩

theorem Linked.trans {a b c : String} (h : Linked sources a b) (h' : Linked sources b c) :
    Linked sources a c :=
  ⟨h.1.trans h'.1, h'.2.trans h.2⟩

/-- The classes that a task asks for first. -/
def Task.asks : Task → List String
  | ofClass c => [c]
  | inherits _ _ declared => declared.map fun d => d.2.sourceClass

/-- Every class that is being expanded leads to every class that a task asks for. -/
def Run.Above (sources : Table SchemaSource) (run : Run) (task : Task) : Prop :=
  ∀ r ∈ run.resolving, ∀ t ∈ task.asks, Relation.TransGen (Inherits sources) r t

/-- A run keeps the rules of a class. -/
def Run.Has (run : Run) (k : String) : Prop := run.expanded.get? k ≠ none

section Declared

variable {run run' : Run} {source : SchemaSource} {target target' : ClassRules}
variable {declared : String × Inheritance} {rest : Table Inheritance}

/-- What holds of every class that a list of inheritances asks for holds of the first one. -/
theorem asks_child {p : String → Prop}
    (h : ∀ t ∈ (Task.inherits source target (declared :: rest)).asks, p t) :
    ∀ t ∈ (Task.ofClass declared.2.sourceClass).asks, p t :=
  fun t ht => h t (by
    rw [List.mem_singleton.mp ht]
    exact List.mem_cons_self)

/-- What holds of every class that a list of inheritances asks for holds of the later ones. -/
theorem asks_tail {p : String → Prop}
    (h : ∀ t ∈ (Task.inherits source target (declared :: rest)).asks, p t) :
    ∀ t ∈ (Task.inherits source target' rest).asks, p t :=
  fun t ht => h t (List.mem_cons_of_mem _ ht)

theorem Run.Above.child (h : run.Above sources (.inherits source target (declared :: rest))) :
    run.Above sources (.ofClass declared.2.sourceClass) :=
  fun r hr => asks_child (h r hr)

theorem Run.Above.tail (h : run.Above sources (.inherits source target (declared :: rest)))
    (hr : run'.resolving = run.resolving) : run'.Above sources (.inherits source target' rest) :=
  fun r hr' => asks_tail (h r (hr ▸ hr'))

end Declared

section Class

variable {c k : String} {run run' : Run} {source : SchemaSource}

theorem Run.Above.body {target : ClassRules} (h : run.Above sources (.ofClass c))
    (hs : sources.get? c = some source) :
    (run.enter c).Above sources (.inherits source target source.inheritance) := by
  intro r hr t ht
  have hct : Inherits sources c t := ⟨source, hs, ht⟩
  rcases List.mem_cons.mp hr with rfl | hr
  · exact .single hct
  · exact (h r hr c (List.mem_singleton.mpr rfl)).tail hct

/-- A class that is being expanded and reached from a class asked for lies on its cycle. -/
theorem Run.Above.linked (h : run.Above sources (.ofClass c)) {r : String}
    (hr : r ∈ run.resolving) (hcr : Reaches sources c r) : Linked sources r c :=
  ⟨(h r hr c (List.mem_singleton.mpr rfl)).to_reflTransGen, hcr⟩

theorem Run.above_of_resolving_eq_nil (h : run.resolving = []) (task : Task) :
    run.Above sources task := by
  intro r hr
  rw [h] at hr
  cases hr

theorem Run.has_close_of_ne (hk : k ≠ c) (result : Except Fault ClassRules) :
    (run.close c result).Has k ↔ run.Has k := by
  rw [Run.Has, Run.get?_close_of_ne _ _ hk, Run.Has]

theorem Run.has_close_ok (rules : ClassRules) : (run.close c (.ok rules)).Has c := by
  rw [Run.Has, Run.get?_close_ok]
  exact Option.some_ne_none _

end Class

theorem Runs.has {task run result run'} (h : Runs sources names task run result run') {k : String}
    (hk : run.Has k) : run'.Has k := by
  obtain ⟨rules, hrules⟩ := Option.ne_none_iff_exists'.mp hk
  rw [Run.Has, h.keeps hrules]
  exact Option.some_ne_none _

/-- A class that a successful task asks for is kept afterwards, or it is being expanded. -/
theorem Runs.has_asked {task run result run'} (h : Runs sources names task run result run') :
    ∀ {rules}, result = .ok rules → ∀ t ∈ task.asks, run'.Has t ∨ t ∈ run.resolving := by
  induction h with
  | @known c run rules h =>
      rintro _ - t ht
      rw [List.mem_singleton.mp ht]
      exact .inl (by rw [Run.Has, h]; exact Option.some_ne_none _)
  | unknown => rintro _ ⟨⟩
  | reentered h hs hc =>
      rintro _ - t ht
      rw [List.mem_singleton.mp ht]
      exact .inr hc
  | entered h hs hc body ih =>
      rintro rules rfl t ht
      rw [List.mem_singleton.mp ht]
      exact .inl (Run.has_close_ok rules)
  | done => rintro _ - t ⟨⟩
  | missing => rintro _ ⟨⟩
  | stopped => rintro _ ⟨⟩
  | @taken source target declared rest run inherited run' target' result run'' h child ht tail
      ihc iht =>
      rintro rules hrules t hmem
      rcases List.mem_cons.mp hmem with rfl | hmem
      · cases inherited with
        | error fault => cases ht
        | ok inherited =>
            exact (ihc rfl _ List.mem_cons_self).imp_left tail.has
      · exact (iht hrules t hmem).imp_right fun hr => child.resolving_eq ▸ hr

/-- The classes that a kept class inherits from are kept or being expanded. -/
def Run.Full (sources : Table SchemaSource) (run : Run) : Prop :=
  ∀ x y, run.Has x → Inherits sources x y → run.Has y ∨ y ∈ run.resolving

theorem Run.Full.enter {run : Run} (h : run.Full sources) (c : String) :
    (run.enter c).Full sources :=
  fun x y hx hxy => (h x y hx hxy).imp_right (List.mem_cons_of_mem c)

/-- A successful task leaves no gaps in what is kept. -/
theorem Runs.full {task run result run'} (h : Runs sources names task run result run') :
    ∀ {rules}, result = .ok rules → run.Full sources → run'.Full sources := by
  induction h with
  | known | reentered | done => exact fun _ hfull => hfull
  | unknown | missing | stopped => rintro _ ⟨⟩
  | @entered c run source result run' h hs hc body ih =>
      rintro rules rfl hfull x y hx hxy
      have hbody : run'.Full sources := ih rfl (hfull.enter c)
      have hy : run'.Has y ∨ y ∈ c :: run.resolving := by
        by_cases hxc : x = c
        · subst hxc
          exact body.has_asked rfl y (hxy.mem hs)
        · rw [Run.has_close_of_ne hxc] at hx
          have hopen := hbody x y hx hxy
          rwa [body.resolving_eq, Run.enter_resolving] at hopen
      by_cases hyc : y = c
      · exact .inl (hyc ▸ Run.has_close_ok rules)
      · rw [Run.has_close_of_ne hyc, Run.close_resolving, body.resolving_eq, Run.enter_resolving,
          filter_ne_cons_self hc]
        exact hy.imp_right fun hmem => (List.mem_cons.mp hmem).resolve_left hyc
  | @taken source target declared rest run inherited run' target' result run'' h child ht tail
      ihc iht =>
      intro rules hrules hfull
      cases inherited with
      | error fault => cases ht
      | ok inherited => exact iht hrules (ihc rfl hfull)

/-- While no class of a cycle is being expanded and one of them is not kept, none is kept. -/
theorem Run.Full.none_linked {run : Run} (h : run.Full sources) {k x : String}
    (hk : run.expanded.get? k = none) (hopen : ∀ r ∈ run.resolving, ¬ Linked sources r k)
    (hx : Linked sources k x) : ¬ run.Has x := by
  intro hhas
  have hall : ∀ {y}, Reaches sources x y → Reaches sources y k → run.Has y := by
    intro y hxy hyk
    induction hxy with
    | refl => exact hhas
    | @tail y z hy hyz ih =>
        refine (h y z (ih (.head hyz hyk)) hyz).resolve_right fun hz => hopen z hz ⟨hyk, ?_⟩
        exact hx.1.trans (hy.tail hyz)
  exact hall hx.2 .refl hk

/-- A task asks for the expansion of a class in a state of the run, itself or further down. -/
inductive Asks (sources : Table SchemaSource) (names : SchemaNames) :
    Task → Run → String → Run → Prop
  | here {c run} : Asks sources names (.ofClass c) run c run
  | inside {c run source k inner} (h : run.expanded.get? c = none)
      (hs : sources.get? c = some source) (hc : c ∉ run.resolving)
      (body : Asks sources names (.inherits source (.own source) source.inheritance) (run.enter c)
        k inner) : Asks sources names (.ofClass c) run k inner
  | first {source target declared rest run k inner} (h : sources.get? declared.2.sourceClass ≠ none)
      (child : Asks sources names (.ofClass declared.2.sourceClass) run k inner) :
      Asks sources names (.inherits source target (declared :: rest)) run k inner
  | later {source target declared rest run inherited run' target' k inner}
      (h : sources.get? declared.2.sourceClass ≠ none)
      (child : Runs sources names (.ofClass declared.2.sourceClass) run inherited run')
      (ht : inherited.bind (takeFrom names source target declared) = .ok target')
      (tail : Asks sources names (.inherits source target' rest) run' k inner) :
      Asks sources names (.inherits source target (declared :: rest)) run k inner

/-- A task begins to expand a class in a state of the run: it asks for a source that is neither kept
nor being expanded. -/
structure Opens (sources : Table SchemaSource) (names : SchemaNames) (task : Task)
    (run state : Run) (k : String) : Prop where
  asked : Asks sources names task run k state
  absent : state.expanded.get? k = none
  known : ∃ source, sources.get? k = some source
  left : k ∉ state.resolving

/-- A class is opened by a task in a state in which no class of its cycle is being expanded. -/
def Enters (sources : Table SchemaSource) (names : SchemaNames) (task : Task) (run : Run)
    (e : String) : Prop :=
  ∃ state, Opens sources names task run state e ∧ ∀ r ∈ state.resolving, ¬ Linked sources r e

section Opens

variable {task task' : Task} {run run' state : Run} {result : Except Fault ClassRules} {k : String}

theorem Opens.here {source : SchemaSource} (h : run.expanded.get? k = none)
    (hs : sources.get? k = some source) (hk : k ∉ run.resolving) :
    Opens sources names (.ofClass k) run run k :=
  ⟨.here, h, ⟨source, hs⟩, hk⟩

/-- A task opens what another task opens that is asked for on its way. -/
theorem Opens.lift (h : Opens sources names task run state k)
    (f : Asks sources names task run k state → Asks sources names task' run' k state) :
    Opens sources names task' run' state k :=
  ⟨f h.asked, h.absent, h.known, h.left⟩

theorem Enters.lift {e : String} (h : Enters sources names task run e)
    (f : ∀ {state}, Asks sources names task run e state → Asks sources names task' run' e state) :
    Enters sources names task' run' e := by
  obtain ⟨state, hopen, hout⟩ := h
  exact ⟨state, hopen.lift f, hout⟩

/-- Classes that are being expanded before a task are so whenever the task asks for a class. -/
theorem Asks.resolving_subset (h : Asks sources names task run k state) :
    run.resolving ⊆ state.resolving := by
  induction h with
  | here => exact List.Subset.refl _
  | inside _ _ _ _ ih => exact fun r hr => ih (List.mem_cons_of_mem _ hr)
  | first _ _ ih => exact ih
  | later _ child _ _ ih => exact child.resolving_eq ▸ ih

/-- A class that is kept after a task was kept before it, or the task opens it. -/
theorem Runs.opens_of_has (h : Runs sources names task run result run') (hk : run'.Has k) :
    run.Has k ∨ ∃ state, Opens sources names task run state k := by
  induction h with
  | known | unknown | reentered | done | missing => exact .inl hk
  | @entered c run source result run' h hs hc body ih =>
      by_cases hkc : k = c
      · subst hkc
        exact .inr ⟨run, .here h hs hc⟩
      · rw [Run.has_close_of_ne hkc] at hk
        exact (ih hk).imp_right fun ⟨state, hopen⟩ => ⟨state, hopen.lift (.inside h hs hc)⟩
  | stopped h child ht ih =>
      exact (ih hk).imp_right fun ⟨state, hopen⟩ => ⟨state, hopen.lift (.first h)⟩
  | taken h child ht tail ihc iht =>
      rcases iht hk with hk | ⟨state, hopen⟩
      · exact (ihc hk).imp_right fun ⟨state, hopen⟩ => ⟨state, hopen.lift (.first h)⟩
      · exact .inr ⟨state, hopen.lift (.later h child ht)⟩

/-- A class that is opened at once is where its cycle is entered, unless a class of the cycle is being
expanded already. -/
theorem enters_or_linked {source : SchemaSource} (h : run.expanded.get? k = none)
    (hs : sources.get? k = some source) (hk : k ∉ run.resolving) :
    Enters sources names (.ofClass k) run k ∨ ∃ r ∈ run.resolving, Linked sources r k := by
  by_cases hopen : ∃ r ∈ run.resolving, Linked sources r k
  · exact .inr hopen
  · push Not at hopen
    exact .inl ⟨run, .here h hs hk, hopen⟩

/-- A task that opens a class enters its cycle, unless a class of the cycle is being expanded
already. -/
theorem Opens.enters (h : Opens sources names task run state k) :
    (∃ e, Enters sources names task run e ∧ Linked sources e k) ∨
      ∃ r ∈ run.resolving, Linked sources r k := by
  obtain ⟨hasked, habsent, hknown, hleft⟩ := h
  induction hasked with
  | @here k run =>
      obtain ⟨source, hs⟩ := hknown
      exact (enters_or_linked habsent hs hleft).imp_left fun hk => ⟨k, hk, .refl k⟩
  | inside h hs hc body ih =>
      rcases ih habsent hknown hleft with ⟨e, he, hek⟩ | ⟨r, hr, hrk⟩
      · exact .inl ⟨e, he.lift (.inside h hs hc), hek⟩
      rcases List.mem_cons.mp hr with rfl | hr
      · exact (enters_or_linked h hs hc).imp (fun hr => ⟨r, hr, hrk⟩)
          fun ⟨q, hq, hqr⟩ => ⟨q, hq, hqr.trans hrk⟩
      · exact .inr ⟨r, hr, hrk⟩
  | first h child ih =>
      exact (ih habsent hknown hleft).imp_left fun ⟨e, he, hek⟩ => ⟨e, he.lift (.first h), hek⟩
  | later h child ht tail ih =>
      rw [child.resolving_eq] at ih
      exact (ih habsent hknown hleft).imp_left fun ⟨e, he, hek⟩ =>
        ⟨e, he.lift (.later h child ht), hek⟩

/-- A chain of inheritances leads from a class to another, which is the first class of its cycle on
the chain. -/
def ArrivesAt (sources : Table SchemaSource) (a e : String) : Prop :=
  Relation.ReflTransGen (fun x y => Inherits sources x y ∧ ¬ Linked sources x e) a e

/-- A cycle is entered at a class that a chain from one of the classes asked for arrives at. -/
theorem Enters.arrivesAt {e : String} (h : Enters sources names task run e) :
    ∃ t ∈ task.asks, ArrivesAt sources t e := by
  obtain ⟨state, ⟨hasked, -, -, -⟩, hout⟩ := h
  induction hasked with
  | here => exact ⟨_, List.mem_singleton.mpr rfl, .refl⟩
  | @inside c run source k state h hs hc body ih =>
      obtain ⟨t, ht, hchain⟩ := ih hout
      have hlink : ¬ Linked sources c k := hout c (body.resolving_subset List.mem_cons_self)
      exact ⟨c, List.mem_singleton.mpr rfl, .head ⟨⟨source, hs, ht⟩, hlink⟩ hchain⟩
  | first h child ih =>
      obtain ⟨t, ht, hchain⟩ := ih hout
      exact ⟨t, List.mem_singleton.mp ht ▸ List.mem_cons_self, hchain⟩
  | later h child ht tail ih =>
      obtain ⟨t, ht, hchain⟩ := ih hout
      exact ⟨t, List.mem_cons_of_mem _ ht, hchain⟩

end Opens

/-- A part of the request for a class in a new run, which ends in a given state: the run of a task,
of which nothing is lost at the end, and after which nothing is kept if it fails. -/
structure Part (sources : Table SchemaSource) (names : SchemaNames) (c : String) (ended : Run)
    (task : Task) (run : Run) (result : Except Fault ClassRules) (run' : Run) : Prop where
  runs : Runs sources names task run result run'
  kept : ∀ {k rules}, run'.expanded.get? k = some rules → ended.expanded.get? k = some rules
  failed : ∀ {fault}, result = .error fault → run'.expanded = ended.expanded
  opens : ∀ {state k}, Opens sources names task run state k →
    Opens sources names (.ofClass c) .start state k
  above : run.Above sources task
  absent : ∀ k ∈ run.resolving, run.expanded.get? k = none
  full : run.Full sources

namespace Part

variable {c : String} {ended run run' : Run} {result : Except Fault ClassRules}

/-- The request as a whole. -/
theorem whole (h : Runs sources names (.ofClass c) .start result ended) :
    Part sources names c ended (.ofClass c) .start result ended where
  runs := h
  kept hk := hk
  failed _ := rfl
  opens hopen := hopen
  above := Run.above_of_resolving_eq_nil rfl _
  absent _ hk := by cases hk
  full _ _ hx := absurd rfl hx

/-- The part of a class that is opened consists of its inheritances. -/
theorem body {k : String} {source : SchemaSource}
    (p : Part sources names c ended (.ofClass k) run result run')
    (h : run.expanded.get? k = none) (hs : sources.get? k = some source)
    (hk : k ∉ run.resolving) :
    ∃ inner, Part sources names c ended (.inherits source (.own source) source.inheritance)
      (run.enter k) result inner ∧ run' = inner.close k result := by
  cases p.runs with
  | known h' => rw [h] at h'; cases h'
  | unknown _ hs' => rw [hs] at hs'; cases hs'
  | reentered _ _ hc => exact absurd hc hk
  | @entered _ _ _ _ inner _ hs' _ body =>
      rw [hs] at hs'
      cases hs'
      have hopen : inner.expanded.get? k = none := body.open_absent List.mem_cons_self h
      refine ⟨inner, ⟨body, fun {m rules} hm => ?_, fun {fault} hfault => ?_, ?_, ?_, ?_, ?_⟩, rfl⟩
      · have hmk : m ≠ k := fun hmk => by rw [hmk, hopen] at hm; cases hm
        exact p.kept ((Run.get?_close_of_ne _ _ hmk _).trans hm)
      · have hall := p.failed hfault
        rwa [hfault] at hall
      · exact fun hstate => p.opens (hstate.lift (.inside h hs hk))
      · exact p.above.body hs
      · intro m hm
        rcases List.mem_cons.mp hm with rfl | hm
        · exact h
        · exact p.absent m hm
      · exact p.full.enter k

/-- A class that is opened has rules exactly if they are kept at the end. -/
theorem ok_iff {k : String} {source : SchemaSource}
    (p : Part sources names c ended (.ofClass k) run result run')
    (h : run.expanded.get? k = none) (hs : sources.get? k = some source)
    (hk : k ∉ run.resolving) (rules : ClassRules) :
    result = .ok rules ↔ ended.expanded.get? k = some rules := by
  obtain ⟨inner, q, rfl⟩ := p.body h hs hk
  cases result with
  | ok found =>
      rw [p.kept (Run.get?_close_ok inner k found)]
      exact ⟨fun heq => congrArg some (Except.ok.inj heq),
        fun heq => congrArg Except.ok (Option.some.inj heq)⟩
  | error fault =>
      rw [← p.failed rfl]
      have hopen : inner.expanded.get? k = none := q.runs.open_absent List.mem_cons_self h
      constructor
      · intro heq
        cases heq
      · intro heq
        cases hopen.symm.trans heq

section Declared

variable {source : SchemaSource} {target : ClassRules} {declared : String × Inheritance}
variable {rest : Table Inheritance}

/-- The first of several inheritances is a part, and so are the others when it can be taken. -/
theorem child (p : Part sources names c ended (.inherits source target (declared :: rest)) run
      result run') (h : sources.get? declared.2.sourceClass ≠ none) :
    ∃ inherited mid,
      Part sources names c ended (.ofClass declared.2.sourceClass) run inherited mid ∧
      match inherited.bind (takeFrom names source target declared) with
      | .ok target' =>
        Part sources names c ended (.inherits source target' rest) mid result run'
      | .error fault => result = .error fault ∧ run' = mid := by
  cases p.runs with
  | missing h' => exact absurd h' h
  | @stopped _ _ _ _ _ inherited _ fault _ first ht =>
      refine ⟨inherited, run', ⟨first, p.kept, fun _ => p.failed rfl, ?_, p.above.child, p.absent,
        p.full⟩, ?_⟩
      · exact fun hopen => p.opens (hopen.lift (.first h))
      · rw [ht]
        exact ⟨rfl, rfl⟩
  | @taken _ _ _ _ _ inherited mid target' _ _ _ first ht tail =>
      refine ⟨inherited, mid, ⟨first, fun hm => p.kept (tail.keeps hm), ?_, ?_, p.above.child,
        p.absent, p.full⟩, ?_⟩
      · rintro fault rfl
        cases ht
      · exact fun hopen => p.opens (hopen.lift (.first h))
      · rw [ht]
        refine ⟨tail, p.kept, p.failed, ?_, p.above.tail first.resolving_eq, ?_, ?_⟩
        · exact fun hopen => p.opens (hopen.lift (.later h first ht))
        · intro m hm
          rw [first.resolving_eq] at hm
          exact first.open_absent hm (p.absent m hm)
        · cases inherited with
          | error fault => cases ht
          | ok inherited => exact first.full rfl p.full

end Declared

/-- The expansion of every class that a part asks for is a part. -/
theorem asked {task : Task} {state : Run} {k : String}
    (hasked : Asks sources names task run k state) :
    ∀ {result run'}, Part sources names c ended task run result run' →
      ∃ found after, Part sources names c ended (.ofClass k) state found after := by
  induction hasked with
  | here => exact fun {result run'} p => ⟨result, run', p⟩
  | inside h hs hc _ ih =>
      intro result run' p
      obtain ⟨inner, q, -⟩ := p.body h hs hc
      exact ih q
  | first h _ ih =>
      intro result run' p
      obtain ⟨inherited, mid, q, -⟩ := p.child h
      exact ih q
  | later h first ht _ ih =>
      intro result run' p
      obtain ⟨inherited, mid, q, hrest⟩ := p.child h
      obtain ⟨rfl, rfl⟩ := q.runs.deterministic first
      rw [ht] at hrest
      exact ih hrest

end Part

end RuleSchema.Inheritance
