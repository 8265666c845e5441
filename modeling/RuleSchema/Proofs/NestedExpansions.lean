import RuleSchema.Proofs.InheritanceOrder

/-!
# Expansions within an expansion

The expansion of a class asks for the classes it inherits from, at any depth. Every such call ends,
on cycles too, and leaves the classes being expanded as it found them. A fault goes through all the
calls above it unchanged, and no class on its way is kept. So after each call of a sequence nothing
is being expanded, and the kept classes have only grown.

## Implementation notes

`Asks` follows the derivation of a task down to one call. The calls of an earlier inheritance of a
class are over before a later one starts, hence the run in the constructor `later`.
-/

namespace RuleSchema.Inheritance

variable {sources : Table SchemaSource} {names : SchemaNames}

/-- A class whose expansion failed is not kept. -/
theorem Runs.absent_of_error {c run fault run'}
    (h : Runs sources names (.ofClass c) run (.error fault) run') :
    run'.expanded.get? c = none := by
  cases h with
  | unknown h => exact h
  | entered h hs hc body => exact body.open_absent (by simp) h

/-- A class that was not being expanded is kept once its expansion gave rules. -/
theorem Runs.kept_of_ok {c run rules run'}
    (h : Runs sources names (.ofClass c) run (.ok rules) run') (hc : c ∉ run.resolving) :
    run'.expanded.get? c = some rules := by
  cases h with
  | known h => exact h
  | reentered _ _ hc' => exact absurd hc' hc
  | entered => exact Run.get?_close_ok _ _ _

/-- A call that a task asks for ends. What is kept then stays to the end of the task, and a fault of
the call is the fault of the task, which keeps nothing after it. -/
theorem Runs.asked {task run k inner} (asked : Asks sources names task run k inner) :
    ∀ {result run'}, Runs sources names task run result run' →
      ∃ outcome inner', Runs sources names (.ofClass k) inner outcome inner' ∧
        (∀ m rules, inner'.expanded.get? m = some rules → run'.expanded.get? m = some rules) ∧
        ∀ fault, outcome = .error fault →
          result = .error fault ∧ run'.expanded = inner'.expanded := by
  induction asked with
  | here => exact fun {result run'} h => ⟨result, run', h, fun _ _ hm => hm, fun _ hf => ⟨hf, rfl⟩⟩
  | @inside c run source k inner h hs hc body ih =>
      intro result run' hrun
      cases hrun with
      | known h' => rw [h] at h'; cases h'
      | unknown _ hs' => rw [hs] at hs'; cases hs'
      | reentered _ _ hc' => exact absurd hc' hc
      | @entered _ _ _ _ last _ hs' _ body' =>
          rw [hs] at hs'
          cases hs'
          obtain ⟨outcome, inner', hcall, hkept, hfault⟩ := ih body'
          have hopen : last.expanded.get? c = none := body'.open_absent (by simp) h
          refine ⟨outcome, inner', hcall, fun m rules hm => ?_, fun fault hf => ?_⟩
          · have hlast := hkept m rules hm
            have hne : m ≠ c := by
              rintro rfl
              rw [hopen] at hlast
              cases hlast
            rwa [Run.get?_close_of_ne _ _ hne]
          · obtain ⟨rfl, hexpanded⟩ := hfault fault hf
            exact ⟨rfl, hexpanded⟩
  | first h child ih =>
      intro result run' hrun
      cases hrun with
      | missing h' => exact absurd h' h
      | stopped _ child' ht =>
          obtain ⟨outcome, inner', hcall, hkept, hfault⟩ := ih child'
          refine ⟨outcome, inner', hcall, hkept, fun fault hf => ?_⟩
          obtain ⟨rfl, hexpanded⟩ := hfault fault hf
          exact ⟨ht.symm, hexpanded⟩
      | taken _ child' ht tail =>
          obtain ⟨outcome, inner', hcall, hkept, hfault⟩ := ih child'
          refine ⟨outcome, inner', hcall, fun m rules hm => tail.keeps (hkept m rules hm),
            fun fault hf => ?_⟩
          obtain ⟨rfl, -⟩ := hfault fault hf
          cases ht
  | later h child ht tail ih =>
      intro result run' hrun
      cases hrun with
      | missing h' => exact absurd h' h
      | stopped _ child' ht' =>
          obtain ⟨rfl, rfl⟩ := child.deterministic child'
          rw [ht] at ht'
          cases ht'
      | taken _ child' ht' tail' =>
          obtain ⟨rfl, rfl⟩ := child.deterministic child'
          rw [ht] at ht'
          cases ht'
          exact ih tail'

/-- What a call between two states of a sequence does. -/
structure Run.Settles (sources : Table SchemaSource) (names : SchemaNames) (run : Run) (c : String)
    (result : Except Fault ClassRules) (run' : Run) : Prop where
  /-- The calls that it makes form a finite derivation of its outcome. -/
  ends : Runs sources names (.ofClass c) run result run'
  /-- No more classes are being expanded at once than there are sources. -/
  nested : ∀ fuel, sources.length < fuel →
    run.perform (expandWithin sources names fuel c) = (result, run')
  /-- No class is left being expanded. -/
  left : run'.resolving = []
  /-- What was kept is neither changed nor removed. -/
  keeps : ∀ m rules, run.expanded.get? m = some rules → run'.expanded.get? m = some rules
  /-- Rules are kept for the class. -/
  kept : ∀ rules, result = .ok rules → run'.expanded.get? c = some rules
  /-- Each call that it makes, at any depth, ends and leaves the classes being expanded as it found
  them. What is kept then stays, and a class whose expansion failed is not kept. -/
  asked : ∀ k inner, Asks sources names (.ofClass c) run k inner → ∃ outcome inner',
    Runs sources names (.ofClass k) inner outcome inner' ∧ inner'.resolving = inner.resolving ∧
      (∀ m rules, inner'.expanded.get? m = some rules → run'.expanded.get? m = some rules) ∧
      ∀ fault, outcome = .error fault → result = .error fault ∧ run'.expanded.get? k = none

/-- A call in a state in which nothing is being expanded settles. -/
theorem Run.settles_of_resolving (keyed : Keyed sources) {run : Run} (hr : run.resolving = [])
    (c : String) :
    run.Settles sources names c (run.perform (expand sources names c)).1
      (run.perform (expand sources names c)).2 := by
  have hrun := runs_expand names keyed run c
  have hunopened : unopened sources run.resolving ≤ sources.length := unopened_le_length _
  refine ⟨hrun, fun fuel hfuel => ?_, hrun.resolving_eq.trans hr, fun m rules => hrun.keeps,
    fun rules hrules => ?_, fun k inner hasked => ?_⟩
  · obtain ⟨hresult, hstate⟩ :=
      (runs_expandWithin keyed fuel c run (by omega)).deterministic hrun
    exact Prod.ext hresult hstate
  · rw [hrules] at hrun
    exact hrun.kept_of_ok (by simp [hr])
  · obtain ⟨outcome, inner', hcall, hkept, hfault⟩ := Runs.asked hasked hrun
    refine ⟨outcome, inner', hcall, hcall.resolving_eq, hkept, fun fault hf => ?_⟩
    subst hf
    obtain ⟨hresult, hexpanded⟩ := hfault fault rfl
    exact ⟨hresult, hexpanded ▸ hcall.absent_of_error⟩

theorem Run.after_concat (history : List String) (c : String) :
    Run.after sources names (history ++ [c]) =
      ((Run.after sources names history).perform (expand sources names c)).2 := by
  rw [Run.after, List.foldl_append]
  rfl

/-- Between the calls of a sequence no class is being expanded. -/
theorem Run.after_resolving (keyed : Keyed sources) (history : List String) :
    (Run.after sources names history).resolving = [] := by
  induction history using List.reverseRecOn with
  | nil => rfl
  | append_singleton earlier c ih =>
      rw [Run.after_concat]
      exact (Run.settles_of_resolving keyed ih c).left

/-- Every call of a sequence ends and cleans up, whatever was asked for before, on cycles and after
faults too, and what is kept stays for the rest of the sequence. -/
theorem expansion_settles (sources : List SchemaSource) (names : SchemaNames)
    (history : List String) (c : String) :
    (Run.after (sourceTable sources) names history).Settles (sourceTable sources) names c
        (outcomeAfter (sourceTable sources) names history c)
        (Run.after (sourceTable sources) names (history ++ [c])) ∧
      ∀ more m rules, (Run.after (sourceTable sources) names history).expanded.get? m = some rules →
        (Run.after (sourceTable sources) names (history ++ more)).expanded.get? m = some rules := by
  have keyed := keyed_sourceTable sources
  constructor
  · rw [Run.after_concat]
    exact Run.settles_of_resolving keyed (Run.after_resolving keyed history) c
  · intro more m rules hm
    induction more using List.reverseRecOn with
    | nil => rwa [List.append_nil]
    | append_singleton earlier d ih =>
        rw [← List.append_assoc, Run.after_concat]
        exact (Run.settles_of_resolving keyed (Run.after_resolving keyed _) d).keeps m rules ih

/-- After the first class of a cycle, a class that inherits from it fails on its second field. It is
not kept, and the classes of the cycle are. -/
theorem expansion_settles_link :
    (outcomeAfter (sourceTable linkedClasses) ⟨[]⟩ ["ProfileData"] "LinkData").toOption.isNone ∧
      (Run.after (sourceTable linkedClasses) ⟨[]⟩ ["ProfileData", "LinkData"]).expanded.keys =
        ["UserData", "ProfileData"] ∧
      (Run.after (sourceTable linkedClasses) ⟨[]⟩ ["ProfileData"]).Settles
        (sourceTable linkedClasses) ⟨[]⟩ "LinkData"
        (outcomeAfter (sourceTable linkedClasses) ⟨[]⟩ ["ProfileData"] "LinkData")
        (Run.after (sourceTable linkedClasses) ⟨[]⟩ ["ProfileData", "LinkData"]) :=
  ⟨by decide +kernel, by decide +kernel,
    (expansion_settles linkedClasses ⟨[]⟩ ["ProfileData"] "LinkData").1⟩

end RuleSchema.Inheritance
