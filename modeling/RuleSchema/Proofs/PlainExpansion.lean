import RuleSchema.Proofs.InheritanceOrder

/-!
# Plain expansion

The expansion of a class without keeping anything: its own rules with every declared inheritance
taken from the plain expansion of the source class. A class that reaches no cycle of inheritances
expands in this way whatever was asked for before in the same run, cycles and faults included.

## Implementation notes

The classes below a grounded class are never met twice on one chain of inheritances, so a bound on
the length of chains by the number of sources is not reached. `plain_eq_step` is the recursion
without a bound.
-/

namespace RuleSchema.Inheritance

variable {sources : Table SchemaSource} {names : SchemaNames}

/-- No cycle of inheritances is reached from a class. -/
def Grounded (sources : Table SchemaSource) (k : String) : Prop :=
  ∀ m, Reaches sources k m → ¬ OnCycle sources m

theorem Grounded.of_inherits {a b : String} (h : Grounded sources a) (hab : Inherits sources a b) :
    Grounded sources b :=
  fun m hm => h m (.head hab hm)

/-- The outcome of a task without keeping anything and without classes being expanded. -/
inductive Evaluates (sources : Table SchemaSource) (names : SchemaNames) :
    Task → Except Fault ClassRules → Prop
  | unknown {c} (hs : sources.get? c = none) :
      Evaluates sources names (.ofClass c) (.error .missingKey)
  | entered {c source result} (hs : sources.get? c = some source)
      (body : Evaluates sources names (.inherits source (.own source) source.inheritance) result) :
      Evaluates sources names (.ofClass c) result
  | done {source target} : Evaluates sources names (.inherits source target []) (.ok target)
  | missing {source target declared rest} (h : sources.get? declared.2.sourceClass = none) :
      Evaluates sources names (.inherits source target (declared :: rest))
        (.error (missingSource source declared))
  | stopped {source target declared rest inherited fault}
      (h : sources.get? declared.2.sourceClass ≠ none)
      (child : Evaluates sources names (.ofClass declared.2.sourceClass) inherited)
      (ht : inherited.bind (takeFrom names source target declared) = .error fault) :
      Evaluates sources names (.inherits source target (declared :: rest)) (.error fault)
  | taken {source target declared rest inherited target' result}
      (h : sources.get? declared.2.sourceClass ≠ none)
      (child : Evaluates sources names (.ofClass declared.2.sourceClass) inherited)
      (ht : inherited.bind (takeFrom names source target declared) = .ok target')
      (tail : Evaluates sources names (.inherits source target' rest) result) :
      Evaluates sources names (.inherits source target (declared :: rest)) result

/-- A task evaluates to one outcome. -/
theorem Evaluates.deterministic {task result} (h : Evaluates sources names task result) :
    ∀ {result'}, Evaluates sources names task result' → result = result' := by
  induction h with
  | unknown hs =>
      intro _ other
      cases other with
      | unknown => rfl
      | entered hs' => rw [hs] at hs'; cases hs'
  | entered hs body ih =>
      intro _ other
      cases other with
      | unknown hs' => rw [hs] at hs'; cases hs'
      | entered hs' body' =>
          rw [hs] at hs'
          cases hs'
          exact ih body'
  | done =>
      intro _ other
      cases other
      rfl
  | missing h =>
      intro _ other
      cases other with
      | missing => rfl
      | stopped h' | taken h' => exact absurd h h'
  | stopped h child ht ih =>
      intro _ other
      cases other with
      | missing h' => exact absurd h' h
      | stopped h' child' ht' =>
          obtain rfl := ih child'
          exact ht.symm.trans ht'
      | taken h' child' ht' =>
          obtain rfl := ih child'
          rw [ht] at ht'
          cases ht'
  | taken h child ht tail ihc iht =>
      intro _ other
      cases other with
      | missing h' => exact absurd h' h
      | stopped h' child' ht' =>
          obtain rfl := ihc child'
          rw [ht] at ht'
          cases ht'
      | taken h' child' ht' tail' =>
          obtain rfl := ihc child'
          rw [ht] at ht'
          cases ht'
          exact iht tail'

/-- What a run keeps of a class that reaches no cycle is what the class evaluates to. -/
def Run.Sound (sources : Table SchemaSource) (names : SchemaNames) (run : Run) : Prop :=
  ∀ k rules, Grounded sources k → run.expanded.get? k = some rules →
    Evaluates sources names (.ofClass k) (.ok rules)

theorem Run.start_sound : Run.start.Sound sources names :=
  fun _ _ _ h => by cases h

/-- A run stays sound. A task on classes that reach no cycle ends as it evaluates and leaves every
other class as it was. -/
theorem Runs.sound {task run result run'} (h : Runs sources names task run result run')
    (habove : run.Above sources task) (hsound : run.Sound sources names) :
    run'.Sound sources names ∧ ((∀ t ∈ task.asks, Grounded sources t) →
      Evaluates sources names task result ∧
        ∀ k, ¬ Grounded sources k → run'.expanded.get? k = run.expanded.get? k) := by
  induction h with
  | @known c run rules h =>
      exact ⟨hsound, fun hg => ⟨hsound c rules (hg c (by simp [Task.asks])) h, fun _ _ => rfl⟩⟩
  | unknown h hs => exact ⟨hsound, fun _ => ⟨.unknown hs, fun _ _ => rfl⟩⟩
  | @reentered c run source h hs hc =>
      refine ⟨hsound, fun hg => absurd ?_ (hg c (by simp [Task.asks]) c .refl)⟩
      exact habove c hc c (by simp [Task.asks])
  | @entered c run source result run' h hs hc body ih =>
      obtain ⟨hsound', hbody⟩ := ih (habove.body hs) hsound
      have heval : Grounded sources c → Evaluates sources names (.ofClass c) result ∧
          ∀ k, ¬ Grounded sources k → run'.expanded.get? k = run.expanded.get? k := by
        intro hg
        exact have hall := hbody fun t ht => hg.of_inherits ⟨source, hs, ht⟩
        ⟨.entered hs hall.1, hall.2⟩
      refine ⟨?_, fun hg => ?_⟩
      · intro k rules hk hget
        by_cases hkc : k = c
        · subst hkc
          cases result with
          | ok own =>
              rw [Run.get?_close_ok] at hget
              cases hget
              exact (heval hk).1
          | error fault => exact hsound' k rules hk hget
        · rw [Run.get?_close_of_ne _ _ hkc] at hget
          exact hsound' k rules hk hget
      · have hc' := hg c (by simp [Task.asks])
        refine ⟨(heval hc').1, fun k hk => ?_⟩
        have hkc : k ≠ c := fun hkc => hk (hkc ▸ hc')
        rw [Run.get?_close_of_ne _ _ hkc]
        exact (heval hc').2 k hk
  | done => exact ⟨hsound, fun _ => ⟨.done, fun _ _ => rfl⟩⟩
  | missing h => exact ⟨hsound, fun _ => ⟨.missing h, fun _ _ => rfl⟩⟩
  | stopped h child ht ih =>
      obtain ⟨hsound', hchild⟩ := ih habove.child hsound
      refine ⟨hsound', fun hg => ?_⟩
      obtain ⟨heval, hsame⟩ := hchild (asks_child hg)
      exact ⟨.stopped h heval ht, hsame⟩
  | taken h child ht tail ihc iht =>
      obtain ⟨hsound', hchild⟩ := ihc habove.child hsound
      obtain ⟨hsound'', htail⟩ := iht (habove.tail child.resolving_eq) hsound'
      refine ⟨hsound'', fun hg => ?_⟩
      obtain ⟨hevalc, hsamec⟩ := hchild (asks_child hg)
      obtain ⟨hevalt, hsamet⟩ := htail (asks_tail hg)
      exact ⟨.taken h hevalc ht hevalt, fun k hk => (hsamet k hk).trans (hsamec k hk)⟩

/-- The rules of a class after one declared inheritance, given the expansion of every class. -/
def takeExpanded (sources : Table SchemaSource) (names : SchemaNames)
    (expansion : String → Except Fault ClassRules) (source : SchemaSource) (target : ClassRules)
    (declared : String × Inheritance) : Except Fault ClassRules :=
  if sources.has declared.2.sourceClass then do
    takeFrom names source target declared (← expansion declared.2.sourceClass)
  else .error (missingSource source declared)

/-- The rules of a class with its inheritances taken one after the other, given the expansion of
every class. -/
def plainStep (sources : Table SchemaSource) (names : SchemaNames)
    (expansion : String → Except Fault ClassRules) (c : String) : Except Fault ClassRules :=
  match sources.get? c with
  | none => .error .missingKey
  | some source =>
    source.inheritance.foldlM (takeExpanded sources names expansion source) (.own source)

/-- The plain expansion of a class along chains of inheritances of a bounded length. -/
def plainWithin (sources : Table SchemaSource) (names : SchemaNames) :
    Nat → String → Except Fault ClassRules
  | 0 => fun _ => .error .missingKey
  | bound + 1 => plainStep sources names (plainWithin sources names bound)

/-- The plain expansion of a class. -/
def plain (sources : Table SchemaSource) (names : SchemaNames) (c : String) :
    Except Fault ClassRules :=
  plainWithin sources names (sources.length + 1) c

section Evaluation

variable {expansion : String → Except Fault ClassRules}

/-- Inheritances are evaluated one after the other when their source classes are. -/
theorem evaluates_foldlM (source : SchemaSource) (declared : Table Inheritance) :
    ∀ target, (∀ d ∈ declared, sources.get? d.2.sourceClass ≠ none →
        Evaluates sources names (.ofClass d.2.sourceClass) (expansion d.2.sourceClass)) →
      Evaluates sources names (.inherits source target declared)
        (declared.foldlM (takeExpanded sources names expansion source) target) := by
  induction declared with
  | nil => exact fun _ _ => .done
  | cons d rest ih =>
      intro target h
      rw [List.foldlM_cons, takeExpanded, Table.has]
      cases hs : sources.get? d.2.sourceClass with
      | none => exact .missing hs
      | some origin =>
          have hsome : sources.get? d.2.sourceClass ≠ none := by
            rw [hs]
            exact Option.some_ne_none _
          have hchild := h d List.mem_cons_self hsome
          change Evaluates sources names _ (((expansion d.2.sourceClass).bind
            (takeFrom names source target d)).bind _)
          cases ht : (expansion d.2.sourceClass).bind (takeFrom names source target d) with
          | error fault => exact .stopped hsome hchild ht
          | ok target' =>
              exact .taken hsome hchild ht
                (ih target' fun d hd => h d (List.mem_cons_of_mem _ hd))

/-- A class is evaluated by one step from evaluations of the classes that it inherits from. -/
theorem evaluates_plainStep {c : String}
    (h : ∀ b, Inherits sources c b → Evaluates sources names (.ofClass b) (expansion b)) :
    Evaluates sources names (.ofClass c) (plainStep sources names expansion c) := by
  rw [plainStep]
  cases hs : sources.get? c with
  | none => exact .unknown hs
  | some source =>
      refine .entered hs (evaluates_foldlM source _ _ fun d hd _ => h _ ⟨source, hs, ?_⟩)
      exact List.mem_map_of_mem hd

/-- A bound above the number of sources that do not lead to a grounded class evaluates it. -/
theorem evaluates_plainWithin (bound : Nat) :
    ∀ (c : String) (above : List String), Grounded sources c →
      (∀ r ∈ above, Relation.TransGen (Inherits sources) r c) →
      unopened sources above < bound →
      Evaluates sources names (.ofClass c) (plainWithin sources names bound c) := by
  induction bound with
  | zero => exact fun _ _ _ _ h => absurd h (Nat.not_lt_zero _)
  | succ bound ih =>
      intro c above hc habove hbound
      refine evaluates_plainStep fun b hb => ?_
      have hfresh : c ∉ above := fun hmem => hc c .refl (habove c hmem)
      have hless : unopened sources (c :: above) < unopened sources above := by
        obtain ⟨source, hs, -⟩ := hb
        exact unopened_cons_lt hs hfresh
      refine ih b (c :: above) (hc.of_inherits hb) (fun r hr => ?_) (by omega)
      rcases List.mem_cons.mp hr with rfl | hr
      · exact .single hb
      · exact (habove r hr).tail hb

theorem evaluates_plain {c : String} (hc : Grounded sources c) :
    Evaluates sources names (.ofClass c) (plain sources names c) :=
  evaluates_plainWithin _ c [] hc (fun _ h => absurd h List.not_mem_nil)
    (Nat.lt_succ_of_le (unopened_le_length _))

/-- The plain expansion of a grounded class takes from the plain expansions of other classes. -/
theorem plain_eq_step {c : String} (hc : Grounded sources c) :
    plain sources names c = plainStep sources names (plain sources names) c :=
  (evaluates_plain hc).deterministic
    (evaluates_plainStep fun _ hb => evaluates_plain (hc.of_inherits hb))

end Evaluation

/-- Between expansions no class is being expanded, and what is kept of grounded classes is sound. -/
theorem Run.after_sound (names : SchemaNames) (keyed : Keyed sources) (history : List String) :
    (Run.after sources names history).resolving = [] ∧
      (Run.after sources names history).Sound sources names := by
  induction history using List.reverseRecOn with
  | nil => exact ⟨rfl, Run.start_sound⟩
  | append_singleton earlier b ih =>
      obtain ⟨hr, hsound⟩ := ih
      have hrun := runs_expand names keyed (Run.after sources names earlier) b
      have habove : (Run.after sources names earlier).Above sources (.ofClass b) :=
        Run.above_of_resolving_eq_nil hr _
      simp only [Run.after, List.foldl_append, List.foldl_cons, List.foldl_nil]
      exact ⟨hrun.resolving_eq.trans hr, (hrun.sound habove hsound).1⟩

/-- The outcome of a class that reaches no cycle is its evaluation. -/
theorem evaluates_outcomeAfter (names : SchemaNames) (keyed : Keyed sources)
    (history : List String) {c : String} (hc : Grounded sources c) :
    Evaluates sources names (.ofClass c) (outcomeAfter sources names history c) := by
  obtain ⟨hr, hsound⟩ := Run.after_sound names keyed history
  have habove : (Run.after sources names history).Above sources (.ofClass c) :=
    Run.above_of_resolving_eq_nil hr _
  have hgrounded : ∀ t ∈ (Task.ofClass c).asks, Grounded sources t := by
    intro t ht
    exact List.mem_singleton.mp ht ▸ hc
  exact (((runs_expand names keyed _ c).sound habove hsound).2 hgrounded).1

/-- A class that reaches no cycle has its plain expansion as its outcome, rules and faults alike,
whatever was expanded before in the same run. -/
theorem outcomeAfter_eq_plain (sources : List SchemaSource) (names : SchemaNames)
    (history : List String) (c : String) (hc : Grounded (sourceTable sources) c) :
    outcomeAfter (sourceTable sources) names history c = plain (sourceTable sources) names c ∧
      plain (sourceTable sources) names c =
        plainStep (sourceTable sources) names (plain (sourceTable sources) names) c := by
  have heval := evaluates_outcomeAfter names (keyed_sourceTable sources) history hc
  exact ⟨heval.deterministic (evaluates_plain hc), plain_eq_step hc⟩

/-- A class is grounded when the classes that it inherits from are. -/
theorem Grounded.intro {a : String} (h : ∀ b, Inherits sources a b → Grounded sources b) :
    Grounded sources a := by
  intro m hm hcycle
  rcases Relation.ReflTransGen.cases_head hm with rfl | ⟨b, hab, hbm⟩
  · obtain ⟨b, hab, hba⟩ := Relation.TransGen.head'_iff.mp hcycle
    exact h b hab a hba hcycle
  · exact h b hab m hbm hcycle

/-- A chain of three classes beside two classes that inherit from each other, and a class that takes
from both and misses a field. -/
def chainedClasses : List SchemaSource :=
  [ruleClass "OrderData" [("total", .text "numeric")] [("street", ⟨"UserData", some "home"⟩)],
    ruleClass "UserData" [("home", .text "required")] [("home", ⟨"AddressData", some "line"⟩)],
    ruleClass "AddressData" [("line", .text "string|max:80"), ("line.unit", .text "integer")] [],
    ruleClass "LeftData" [("z", .text "string")] [("z", ⟨"RightData", none⟩)],
    ruleClass "RightData" [("z", .text "nullable")]
      [("home", ⟨"UserData", none⟩), ("z", ⟨"LeftData", none⟩)],
    ruleClass "BrokenData" [] [("home", ⟨"UserData", none⟩), ("z", ⟨"LeftData", some "y"⟩)]]

theorem grounded_order : Grounded (sourceTable chainedClasses) "OrderData" := by
  apply Grounded.intro
  intro b hb
  obtain rfl : b = "UserData" := by simpa [ruleClass] using hb.mem rfl
  apply Grounded.intro
  intro b hb
  obtain rfl : b = "AddressData" := by simpa [ruleClass] using hb.mem rfl
  apply Grounded.intro
  intro b hb
  exact absurd (hb.mem rfl) List.not_mem_nil

/-- The end of the chain is expanded plainly after a cycle that reaches the chain, and after a class
that failed. -/
theorem outcomeAfter_order_eq_plain : Grounded (sourceTable chainedClasses) "OrderData" ∧
    outcomeAfter (sourceTable chainedClasses) ⟨[]⟩ ["RightData", "BrokenData", "Missing"]
        "OrderData" = plain (sourceTable chainedClasses) ⟨[]⟩ "OrderData" ∧
    ((plain (sourceTable chainedClasses) ⟨[]⟩ "OrderData").map fun r => r.rules.keys).toOption =
      some ["total", "street", "street.unit"] :=
  ⟨grounded_order, (outcomeAfter_eq_plain chainedClasses ⟨[]⟩ _ "OrderData" grounded_order).1,
    by decide +kernel⟩

end RuleSchema.Inheritance
