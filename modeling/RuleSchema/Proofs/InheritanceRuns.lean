import Mathlib.Data.Finset.Card
import Mathlib.Data.Finset.SDiff
import RuleSchema.Inheritance

/-!
# Runs of the expansion

The expansion of a class as a relation between the state of the run before it, its outcome and the
state after it. A derivation follows the calls that the expansion makes and carries no bound on
their number; `runs_expandWithin` says that the bound of `expand` is never reached.

## Implementation notes

A task is either a class or what is left of the inheritances of a class, so that one relation
describes both recursions and a proof about every call is one induction.
-/

namespace RuleSchema.Inheritance

variable {sources : Table SchemaSource} {names : SchemaNames}

/-- The field at the source that a declared inheritance takes its rules from. -/
def fromField (declared : String × Inheritance) : String :=
  match declared.2.sourceField with
  | some field => if Text.isEmpty field then declared.1 else field
  | none => declared.1

/-- The fault of a declared inheritance from a class outside the sources. -/
def missingSource (source : SchemaSource) (declared : String × Inheritance) : Fault :=
  .inheritance source.className declared.1 declared.2.sourceClass
    "source class is not part of this generation run"

/-- The rules of a class after one declared inheritance from the rules of the source class. -/
def takeFrom (names : SchemaNames) (source : SchemaSource) (target : ClassRules)
    (declared : String × Inheritance) (inherited : ClassRules) : Except Fault ClassRules :=
  if inherited.declares (fromField declared) then
    .ok ((target.mergeField declared.1 inherited (fromField declared)).copyFragment names source
      declared.1 inherited (fromField declared))
  else
    .error (.inheritance source.className declared.1 declared.2.sourceClass
      ("'" ++ declared.2.sourceClass ++ "' declares no rules for '" ++ fromField declared ++ "'"))

/-- The run after the inheritances of a class: the class is left, and kept if it has rules. -/
def Run.close (run : Run) (c : String) : Except Fault ClassRules → Run
  | .ok rules => (run.leave c).keep c rules
  | .error _ => run.leave c

/-- Every source is found under its own class. -/
def Keyed (sources : Table SchemaSource) : Prop :=
  ∀ c source, sources.get? c = some source → source.className = c

theorem Keyed.put (h : Keyed sources) (source : SchemaSource) :
    Keyed (sources.put source.className source) := by
  intro c found hc
  by_cases hs : c = source.className
  · rw [hs, Table.get?_put_self] at hc
    cases hc
    exact hs.symm
  · rw [Table.get?_put_of_ne _ hs] at hc
    exact h c found hc

/-- A table of sources by class is keyed. -/
theorem keyed_sourceTable (sources : List SchemaSource) : Keyed (sourceTable sources) := by
  unfold sourceTable Table.ofPairs
  rw [List.foldl_map]
  have hstart : Keyed [] := fun _ _ h => by cases h
  generalize ([] : Table SchemaSource) = held at hstart ⊢
  induction sources generalizing held with
  | nil => exact hstart
  | cons source rest ih => exact ih _ (hstart.put source)

/-- What a run works on: a class, or the inheritances that a class still has to take. -/
inductive Task where
  | ofClass (c : String)
  | inherits (source : SchemaSource) (target : ClassRules) (declared : Table Inheritance)

/-- A task turns the state of a run into an outcome and the state after it. -/
inductive Runs (sources : Table SchemaSource) (names : SchemaNames) :
    Task → Run → Except Fault ClassRules → Run → Prop
  | known {c run rules} (h : run.expanded.get? c = some rules) :
      Runs sources names (.ofClass c) run (.ok rules) run
  | unknown {c run} (h : run.expanded.get? c = none) (hs : sources.get? c = none) :
      Runs sources names (.ofClass c) run (.error .missingKey) run
  | reentered {c run source} (h : run.expanded.get? c = none) (hs : sources.get? c = some source)
      (hc : c ∈ run.resolving) : Runs sources names (.ofClass c) run (.ok (.own source)) run
  | entered {c run source result run'} (h : run.expanded.get? c = none)
      (hs : sources.get? c = some source) (hc : c ∉ run.resolving)
      (body : Runs sources names (.inherits source (.own source) source.inheritance) (run.enter c)
        result run') : Runs sources names (.ofClass c) run result (run'.close c result)
  | done {source target run} : Runs sources names (.inherits source target []) run (.ok target) run
  | missing {source target declared rest run} (h : sources.get? declared.2.sourceClass = none) :
      Runs sources names (.inherits source target (declared :: rest)) run
        (.error (missingSource source declared)) run
  | stopped {source target declared rest run inherited run' fault}
      (h : sources.get? declared.2.sourceClass ≠ none)
      (child : Runs sources names (.ofClass declared.2.sourceClass) run inherited run')
      (ht : inherited.bind (takeFrom names source target declared) = .error fault) :
      Runs sources names (.inherits source target (declared :: rest)) run (.error fault) run'
  | taken {source target declared rest run inherited run' target' result run''}
      (h : sources.get? declared.2.sourceClass ≠ none)
      (child : Runs sources names (.ofClass declared.2.sourceClass) run inherited run')
      (ht : inherited.bind (takeFrom names source target declared) = .ok target')
      (tail : Runs sources names (.inherits source target' rest) run' result run'') :
      Runs sources names (.inherits source target (declared :: rest)) run result run''

section Close

variable (run : Run) (c : String)

@[simp] theorem Run.enter_resolving : (run.enter c).resolving = c :: run.resolving := rfl

@[simp] theorem Run.close_resolving (result : Except Fault ClassRules) :
    (run.close c result).resolving = run.resolving.filter (· != c) := by
  cases result <;> rfl

theorem Run.get?_close_of_ne {k : String} (hk : k ≠ c) (result : Except Fault ClassRules) :
    (run.close c result).expanded.get? k = run.expanded.get? k := by
  cases result with
  | ok rules => exact Table.get?_put_of_ne rules hk
  | error fault => rfl

theorem Run.get?_close_ok (rules : ClassRules) :
    (run.close c (.ok rules)).expanded.get? c = some rules :=
  Table.get?_put_self run.expanded c rules

theorem filter_ne_cons_self {c : String} {resolving : List String} (hc : c ∉ resolving) :
    (c :: resolving).filter (· != c) = resolving := by
  rw [List.filter_cons_of_neg (by simp)]
  exact List.filter_eq_self.mpr fun k hk => by
    simp only [bne_iff_ne]
    rintro rfl
    exact hc hk

end Close

/-- A task ends with the classes being expanded that it began with. -/
theorem Runs.resolving_eq {task run result run'} (h : Runs sources names task run result run') :
    run'.resolving = run.resolving := by
  induction h with
  | known | unknown | reentered | done | missing => rfl
  | entered h hs hc body ih =>
      rw [Run.close_resolving, ih, Run.enter_resolving, filter_ne_cons_self hc]
  | stopped h child ht ih => exact ih
  | taken h child ht tail ihc iht => exact iht.trans ihc

/-- The state of the run decides the outcome of a task and the state after it. -/
theorem Runs.deterministic {task run result run'} (h : Runs sources names task run result run') :
    ∀ {result' run''}, Runs sources names task run result' run'' →
      result = result' ∧ run' = run'' := by
  induction h with
  | known h =>
      intro _ _ other
      cases other with
      | known h' => exact ⟨congrArg Except.ok (Option.some.inj (h.symm.trans h')), rfl⟩
      | unknown h' | reentered h' | entered h' => rw [h] at h'; cases h'
  | unknown h hs =>
      intro _ _ other
      cases other with
      | known h' => rw [h] at h'; cases h'
      | unknown h' => exact ⟨rfl, rfl⟩
      | reentered h' hs' | entered h' hs' => rw [hs] at hs'; cases hs'
  | reentered h hs hc =>
      intro _ _ other
      cases other with
      | known h' => rw [h] at h'; cases h'
      | unknown h' hs' => rw [hs] at hs'; cases hs'
      | reentered h' hs' =>
          rw [hs] at hs'
          cases hs'
          exact ⟨rfl, rfl⟩
      | entered h' hs' hc' => exact absurd hc hc'
  | entered h hs hc body ih =>
      intro _ _ other
      cases other with
      | known h' => rw [h] at h'; cases h'
      | unknown h' hs' => rw [hs] at hs'; cases hs'
      | reentered h' hs' hc' => exact absurd hc' hc
      | entered h' hs' hc' body' =>
          rw [hs] at hs'
          cases hs'
          obtain ⟨rfl, rfl⟩ := ih body'
          exact ⟨rfl, rfl⟩
  | done =>
      intro _ _ other
      cases other
      exact ⟨rfl, rfl⟩
  | missing h =>
      intro _ _ other
      cases other with
      | missing => exact ⟨rfl, rfl⟩
      | stopped h' | taken h' => exact absurd h h'
  | stopped h child ht ih =>
      intro _ _ other
      cases other with
      | missing h' => exact absurd h' h
      | stopped h' child' ht' =>
          obtain ⟨rfl, rfl⟩ := ih child'
          exact ⟨ht.symm.trans ht', rfl⟩
      | taken h' child' ht' =>
          obtain ⟨rfl, rfl⟩ := ih child'
          rw [ht] at ht'
          cases ht'
  | taken h child ht tail ihc iht =>
      intro _ _ other
      cases other with
      | missing h' => exact absurd h' h
      | stopped h' child' ht' =>
          obtain ⟨rfl, rfl⟩ := ihc child'
          rw [ht] at ht'
          cases ht'
      | taken h' child' ht' tail' =>
          obtain ⟨rfl, rfl⟩ := ihc child'
          rw [ht] at ht'
          cases ht'
          exact iht tail'

/-- What is kept for the rest of the run stays as it is. -/
theorem Runs.keeps {task run result run'} (h : Runs sources names task run result run') :
    ∀ {k rules}, run.expanded.get? k = some rules → run'.expanded.get? k = some rules := by
  induction h with
  | known | unknown | reentered | done | missing => exact fun hk => hk
  | @entered c run source result run' h hs hc body ih =>
      intro k rules hk
      have hne : k ≠ c := fun hkc => by rw [hkc, h] at hk; cases hk
      rw [Run.get?_close_of_ne _ _ hne]
      exact ih hk
  | stopped h child ht ih => exact ih
  | taken h child ht tail ihc iht => exact fun hk => iht (ihc hk)

/-- A class that is being expanded is not kept before it is left. -/
theorem Runs.open_absent {task run result run'} (h : Runs sources names task run result run') :
    ∀ {k}, k ∈ run.resolving → run.expanded.get? k = none → run'.expanded.get? k = none := by
  induction h with
  | known | unknown | reentered | done | missing => exact fun _ hk => hk
  | @entered c run source result run' h hs hc body ih =>
      intro k hr hk
      have hne : k ≠ c := fun hkc => hc (hkc ▸ hr)
      rw [Run.get?_close_of_ne _ _ hne]
      exact ih (List.mem_cons_of_mem _ hr) hk
  | stopped h child ht ih => exact ih
  | taken h child ht tail ihc iht =>
      intro c hr hk
      exact iht (child.resolving_eq ▸ hr) (ihc hr hk)

section Adequacy

/-- The outcome of a computation in a state of the run, and the state after it. -/
def Run.perform {α : Type} (run : Run) (m : Expanding α) : Except Fault α × Run :=
  (ExceptT.run m).run run

/-- One declared inheritance takes from the expansion of its source class. -/
theorem perform_inheritField (expand : String → Expanding ClassRules) (source : SchemaSource)
    (target : ClassRules) (declared : String × Inheritance) (run : Run) :
    run.perform (inheritField sources names expand source target declared) =
      match sources.get? declared.2.sourceClass with
      | none => (.error (missingSource source declared), run)
      | some origin =>
        ((run.perform (expand origin.className)).1.bind (takeFrom names source target declared),
          (run.perform (expand origin.className)).2) := by
  obtain ⟨field, declaration⟩ := declared
  simp only [inheritField, Run.perform]
  cases sources.get? declaration.sourceClass with
  | none => rfl
  | some origin =>
      simp only [ExceptT.run_bind, StateT.run_bind]
      rcases (expand origin.className).run.run run with ⟨fault | inherited, run'⟩
      · rfl
      · change ((if inherited.declares (fromField (field, declaration)) = true then _ else _ :
          Expanding ClassRules).run.run run') = _
        simp only [takeFrom, Except.bind]
        split <;> rfl

/-- The inheritances of a class are taken one after the other, up to the first that fails. -/
theorem perform_foldlM_cons (expand : String → Expanding ClassRules) (source : SchemaSource)
    (target : ClassRules) (declared : String × Inheritance) (rest : Table Inheritance) (run : Run) :
    run.perform ((declared :: rest).foldlM (inheritField sources names expand source) target) =
      match run.perform (inheritField sources names expand source target declared) with
      | (.ok target', run') =>
        run'.perform (rest.foldlM (inheritField sources names expand source) target')
      | (.error fault, run') => (.error fault, run') := by
  unfold Run.perform
  rw [List.foldlM_cons, ExceptT.run_bind, StateT.run_bind]
  rcases (inheritField sources names expand source target declared).run.run run with
    ⟨fault | target', run'⟩ <;> rfl

/-- The expansion of a class that is not being expanded yet closes the run of its inheritances. -/
theorem perform_expandWithin (fuel : Nat) (c : String) (run : Run) :
    run.perform (expandWithin sources names (fuel + 1) c) =
      match run.expanded.get? c, sources.get? c with
      | some known, _ => (.ok known, run)
      | none, none => (.error .missingKey, run)
      | none, some source =>
        if c ∈ run.resolving then (.ok (.own source), run)
        else
          let inside := (run.enter c).perform (source.inheritance.foldlM
            (inheritField sources names (expandWithin sources names fuel) source) (.own source))
          (inside.1, inside.2.close c inside.1) := by
  simp only [expandWithin, Run.perform, ExceptT.run_bind, StateT.run_bind]
  change StateT.run (ExceptT.run (match run.expanded.get? c, sources.get? c with
    | some known, _ => _ | none, none => _ | none, some source => _)) run = _
  cases run.expanded.get? c with
  | some known => rfl
  | none =>
    cases sources.get? c with
    | none => rfl
    | some source =>
      simp only [List.contains_iff_mem]
      by_cases hc : c ∈ run.resolving
      · simp only [hc, if_true]; rfl
      · simp only [hc, if_false]
        generalize source.inheritance.foldlM
          (inheritField sources names (expandWithin sources names fuel) source) (.own source) = fold
        change StateT.run ((do
          let outcome ← ExceptT.lift (ExceptT.run fold)
          modify fun r => r.leave c
          match outcome with
          | .ok rules => do
            modify fun r => r.keep c rules
            return rules
          | .error fault => throw fault : Expanding ClassRules).run) (run.enter c) = _
        simp only [ExceptT.run_bind, StateT.run_bind, ExceptT.run_lift, StateT.run_map]
        rcases StateT.run (ExceptT.run fold) (run.enter c) with ⟨fault | rules, run'⟩ <;> rfl

/-- The number of sources that are not being expanded. -/
def unopened (sources : Table SchemaSource) (resolving : List String) : Nat :=
  (sources.keys.toFinset \ resolving.toFinset).card

theorem unopened_cons_lt {c : String} {source : SchemaSource} {resolving : List String}
    (hs : sources.get? c = some source) (hc : c ∉ resolving) :
    unopened sources (c :: resolving) < unopened sources resolving := by
  unfold unopened
  rw [List.toFinset_cons, Finset.sdiff_insert]
  refine Finset.card_erase_lt_of_mem (Finset.mem_sdiff.mpr ⟨?_, ?_⟩)
  · exact List.mem_toFinset.mpr (Table.mem_keys_of_get?_eq_some hs)
  · intro h
    exact hc (List.mem_toFinset.mp h)

theorem unopened_le_length (resolving : List String) :
    unopened sources resolving ≤ sources.length := by
  calc unopened sources resolving ≤ sources.keys.toFinset.card :=
        Finset.card_le_card Finset.sdiff_subset
    _ ≤ sources.keys.length := List.toFinset_card_le _
    _ = sources.length := List.length_map _

/-- Taking the inheritances of a class is a run of them, when expanding each class is one. -/
theorem runs_foldlM (keyed : Keyed sources) {expand : String → Expanding ClassRules}
    {resolving : List String}
    (h : ∀ c run, run.resolving = resolving → Runs sources names (.ofClass c) run
      (run.perform (expand c)).1 (run.perform (expand c)).2)
    (source : SchemaSource) (declared : Table Inheritance) :
    ∀ target run, run.resolving = resolving →
      Runs sources names (.inherits source target declared) run
        (run.perform (declared.foldlM (inheritField sources names expand source) target)).1
        (run.perform (declared.foldlM (inheritField sources names expand source) target)).2 := by
  induction declared with
  | nil => exact fun target run _ => .done
  | cons d rest ih =>
      intro target run hr
      rw [perform_foldlM_cons, perform_inheritField]
      cases hs : sources.get? d.2.sourceClass with
      | none => exact .missing hs
      | some origin =>
          have hsome : sources.get? d.2.sourceClass ≠ none := by
            rw [hs]
            exact Option.some_ne_none _
          have hchild := h d.2.sourceClass run hr
          simp only [keyed _ _ hs]
          cases ht : (run.perform (expand d.2.sourceClass)).1.bind
              (takeFrom names source target d) with
          | error fault => exact .stopped hsome hchild ht
          | ok target' =>
              exact .taken hsome hchild ht (ih target' _ (hchild.resolving_eq.trans hr))

/-- With more fuel than sources that are not being expanded, an expansion is a run. -/
theorem runs_expandWithin (keyed : Keyed sources) (fuel : Nat) :
    ∀ c run, unopened sources run.resolving < fuel → Runs sources names (.ofClass c) run
      (run.perform (expandWithin sources names fuel c)).1
      (run.perform (expandWithin sources names fuel c)).2 := by
  induction fuel with
  | zero => exact fun c run h => absurd h (Nat.not_lt_zero _)
  | succ fuel ih =>
      intro c run hfuel
      rw [perform_expandWithin]
      cases h : run.expanded.get? c with
      | some known => exact .known h
      | none =>
          cases hs : sources.get? c with
          | none => exact .unknown h hs
          | some source =>
              by_cases hc : c ∈ run.resolving
              · simp only [hc, if_true]
                exact .reentered h hs hc
              · simp only [hc, if_false]
                have hless := unopened_cons_lt hs hc
                refine .entered h hs hc
                  (runs_foldlM keyed (fun k inner hk => ih k inner ?_) source _ _ _ rfl)
                rw [hk, Run.enter_resolving]
                omega

/-- The expansion of a class is a run. -/
theorem runs_expand (names : SchemaNames) (keyed : Keyed sources) (run : Run) (c : String) :
    Runs sources names (.ofClass c) run (run.perform (expand sources names c)).1
      (run.perform (expand sources names c)).2 :=
  runs_expandWithin keyed (sources.length + 1) c run (Nat.lt_succ_of_le (unopened_le_length _))

end Adequacy

end RuleSchema.Inheritance
