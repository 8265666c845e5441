import RuleSchema.Proofs.OpenedClasses

/-!
# The order of expansions

A class is expanded with its own rules where it is met again inside its own expansion, and what is
computed there is kept for the rest of the run. Which classes were asked for before can therefore
show in the rules of a class on a cycle of inheritances, and of every class that reaches one. It
does not show when every earlier request enters a cycle at the class at which the request for the
class enters it in a new run.

## Implementation notes

A later run is compared with the request in a new run, part by part: whatever the later run expands
of the classes that the new run opens is either expanded beside it, class by class, or was expanded
before and is kept. Where the later run enters a cycle that the new run has left already, the part
to compare it with is the one at which the new run entered that cycle. The invariant is `Follows`.
-/

namespace RuleSchema.Inheritance

variable {sources : Table SchemaSource} {names : SchemaNames} {c : String}

/-- A run follows the request for `c` in a new run, which ends in a given state. Of the classes that
the request opens it keeps what the request keeps, and with each of them those that it inherits
from, unless they are being expanded or the request does not keep them. -/
structure Run.Follows (sources : Table SchemaSource) (names : SchemaNames) (c : String)
    (run ended : Run) : Prop where
  known : ∀ k, run.Has k → sources.get? k ≠ none
  agrees : ∀ state k rules, Opens sources names (.ofClass c) .start state k →
    run.expanded.get? k = some rules → ended.expanded.get? k = some rules
  closed : ∀ state x y, Opens sources names (.ofClass c) .start state x → run.Has x →
    Inherits sources x y → ended.Has y → y ∉ run.resolving → run.Has y
  absent : ∀ k ∈ run.resolving, run.expanded.get? k = none

/-- A part of the request and a later run that work on the same task expand the same classes below
it. What the part keeps of cycles that are being expanded, or of all classes, the run keeps too. -/
structure Run.Beside (sources : Table SchemaSource) (all : Prop) (run other : Run) (task : Task) :
    Prop where
  resolving : ∀ t ∈ task.asks, ∀ k, Reaches sources t k →
    (k ∈ run.resolving ↔ k ∈ other.resolving)
  held : ∀ t ∈ task.asks, ∀ k, Reaches sources t k →
    (all ∨ ∃ r ∈ other.resolving, Linked sources r k) → run.Has k → other.Has k

/-- What a part and a later run keep of cycles that are being expanded, or of all classes: if the run
keeps what the part keeps before a task, it does so after the task. -/
def HeldAfter (sources : Table SchemaSource) (all : Prop) (run run' other other' : Run) : Prop :=
  ∀ k, (all ∨ ∃ r ∈ other.resolving, Linked sources r k) →
    (run.Has k → other.Has k) → run'.Has k → other'.Has k

/-- A task enters cycles at the classes at which the request for `c` enters them in a new run. -/
def EntersAlike (sources : Table SchemaSource) (names : SchemaNames) (c : String) (task : Task)
    (run : Run) : Prop :=
  ∀ e e', Linked sources e e' → Enters sources names task run e →
    Enters sources names (.ofClass c) .start e' → e = e'

section Alike

variable {run run' : Run} {source : SchemaSource} {target target' : ClassRules}
variable {declared : String × Inheritance} {rest : Table Inheritance}
variable {inherited : Except Fault ClassRules}

theorem EntersAlike.body {k : String} (h : EntersAlike sources names c (.ofClass k) run)
    (hk : run.expanded.get? k = none) (hs : sources.get? k = some source)
    (hc : k ∉ run.resolving) :
    EntersAlike sources names c (.inherits source (.own source) source.inheritance)
      (run.enter k) :=
  fun e e' hee he he' => h e e' hee (he.lift (.inside hk hs hc)) he'

theorem EntersAlike.child
    (h : EntersAlike sources names c (.inherits source target (declared :: rest)) run)
    (hs : sources.get? declared.2.sourceClass ≠ none) :
    EntersAlike sources names c (.ofClass declared.2.sourceClass) run :=
  fun e e' hee he he' => h e e' hee (he.lift (.first hs)) he'

theorem EntersAlike.tail
    (h : EntersAlike sources names c (.inherits source target (declared :: rest)) run)
    (hs : sources.get? declared.2.sourceClass ≠ none)
    (hchild : Runs sources names (.ofClass declared.2.sourceClass) run inherited run')
    (ht : inherited.bind (takeFrom names source target declared) = .ok target') :
    EntersAlike sources names c (.inherits source target' rest) run' :=
  fun e e' hee he he' => h e e' hee (he.lift (.later hs hchild ht)) he'

end Alike

section Beside

variable {all : Prop} {run run' other other' : Run} {source : SchemaSource}
variable {target target' : ClassRules} {declared : String × Inheritance} {rest : Table Inheritance}

theorem Run.Beside.child
    (h : run.Beside sources all other (.inherits source target (declared :: rest))) :
    run.Beside sources all other (.ofClass declared.2.sourceClass) :=
  ⟨asks_child h.resolving, asks_child h.held⟩

theorem Run.Beside.tail
    (h : run.Beside sources all other (.inherits source target (declared :: rest)))
    (hr : run'.resolving = run.resolving) (ho : other'.resolving = other.resolving)
    (hheld : HeldAfter sources all run run' other other') :
    run'.Beside sources all other' (.inherits source target' rest) where
  resolving := by
    rw [hr, ho]
    exact asks_tail h.resolving
  held t ht k htk hlock := by
    rw [ho] at hlock
    exact hheld k hlock (asks_tail h.held t ht k htk hlock)

/-- Where a part and a later run both open a class, they stay beside each other inside it. -/
theorem Run.Beside.body {k : String} (h : run.Beside sources all other (.ofClass k))
    (hs : sources.get? k = some source) (hfull : run.Full sources)
    (hrun : run.expanded.get? k = none) (habove : run.Above sources (.ofClass k)) :
    (run.enter k).Beside sources all (other.enter k)
      (.inherits source target source.inheritance) where
  resolving t ht m htm := by
    have hkm : Reaches sources k m := .head ⟨source, hs, ht⟩ htm
    rw [Run.enter_resolving, Run.enter_resolving, List.mem_cons, List.mem_cons,
      h.resolving k (List.mem_singleton.mpr rfl) m hkm]
  held t ht m htm hlock hm := by
    have hself : k ∈ (Task.ofClass k).asks := List.mem_singleton.mpr rfl
    have hkm : Reaches sources k m := .head ⟨source, hs, ht⟩ htm
    by_cases hopen : ∃ r ∈ other.resolving, Linked sources r k
    · obtain ⟨r, hr, hrk⟩ := hopen
      refine h.held k hself m hkm (hlock.imp_right fun ⟨q, hq, hqm⟩ => ?_) hm
      rcases List.mem_cons.mp hq with rfl | hq
      · exact ⟨r, hr, hrk.trans hqm⟩
      · exact ⟨q, hq, hqm⟩
    · push Not at hopen
      rcases hlock with hall | ⟨q, hq, hqm⟩
      · exact h.held k hself m hkm (.inl hall) hm
      rcases List.mem_cons.mp hq with rfl | hq
      · -- no class of the cycle is being expanded, so the part keeps none of them
        refine absurd hm (hfull.none_linked hrun (fun r hr hrq => ?_) hqm)
        exact hopen r ((h.resolving q hself r hrq.2).mp hr) hrq
      · exact h.held k hself m hkm (.inr ⟨q, hq, hqm⟩) hm

/-- Where no class of its cycle is being expanded, neither run expands a class below a class. -/
theorem Run.Beside.of_out {k : String} (habove : run.Above sources (.ofClass k))
    (habove' : other.Above sources (.ofClass k))
    (hout : ∀ r ∈ run.resolving, ¬ Linked sources r k)
    (hout' : ∀ r ∈ other.resolving, ¬ Linked sources r k) :
    run.Beside sources False other (.ofClass k) where
  resolving t ht m htm := by
    rw [List.mem_singleton.mp ht] at htm
    exact ⟨fun hm => absurd (habove.linked hm htm) (hout m hm),
      fun hm => absurd (habove'.linked hm htm) (hout' m hm)⟩
  held t ht m htm hlock := by
    rw [List.mem_singleton.mp ht] at htm
    obtain hfalse | ⟨r, hr, hrm⟩ := hlock
    · exact hfalse.elim
    · exact absurd (habove'.linked hr (htm.trans hrm.2)) (hout' r hr)

end Beside

section Follows

variable {ended run other other' : Run} {result : Except Fault ClassRules} {k : String}
variable {source : SchemaSource}

theorem Run.Follows.enter (h : other.Follows sources names c ended)
    (hk : other.expanded.get? k = none) : (other.enter k).Follows sources names c ended where
  known := h.known
  agrees := h.agrees
  closed state x y hx hhas hxy hy hopen :=
    h.closed state x y hx hhas hxy hy fun hmem => hopen (List.mem_cons_of_mem k hmem)
  absent m hm := by
    rcases List.mem_cons.mp hm with rfl | hm
    · exact hk
    · exact h.absent m hm

/-- Closing a class keeps a run following the request if, for a class that the request opens, the
outcome is that of the request. -/
theorem Run.Follows.close (h : other'.Follows sources names c ended)
    (hbody : Runs sources names (.inherits source (.own source) source.inheritance)
      (other.enter k) result other')
    (hs : sources.get? k = some source) (hk : k ∉ other.resolving)
    (hresult : ∀ {state}, Opens sources names (.ofClass c) .start state k →
      ∀ rules, result = .ok rules ↔ ended.expanded.get? k = some rules)
    (hopened : ∀ m, ended.Has m → ∃ state, Opens sources names (.ofClass c) .start state m) :
    (other'.close k result).Follows sources names c ended := by
  have hresolving : (other'.close k result).resolving = other.resolving := by
    rw [Run.close_resolving, hbody.resolving_eq, Run.enter_resolving, filter_ne_cons_self hk]
  have habsent : other'.expanded.get? k = none :=
    h.absent k (hbody.resolving_eq ▸ List.mem_cons_self)
  have hok : (other'.close k result).Has k → ∃ rules, result = .ok rules := by
    intro hhas
    cases result with
    | ok rules => exact ⟨rules, rfl⟩
    | error fault => exact absurd habsent hhas
  refine ⟨fun m hm => ?_, fun state m rules hm hget => ?_, fun state x y hx hhas hxy hy hopen => ?_,
    fun m hm => ?_⟩
  · by_cases hmk : m = k
    · rw [hmk, hs]
      exact Option.some_ne_none _
    · exact h.known m ((Run.has_close_of_ne hmk result).mp hm)
  · by_cases hmk : m = k
    · subst hmk
      obtain ⟨found, rfl⟩ := hok (by rw [Run.Has, hget]; exact Option.some_ne_none _)
      rw [Run.get?_close_ok] at hget
      exact (hresult hm rules).mp (congrArg Except.ok (Option.some.inj hget))
    · rw [Run.get?_close_of_ne _ _ hmk] at hget
      exact h.agrees state m rules hm hget
  · rw [hresolving] at hopen
    by_cases hyk : y = k
    · subst hyk
      obtain ⟨state', hstate'⟩ := hopened y hy
      obtain ⟨rules, hrules⟩ := Option.ne_none_iff_exists'.mp hy
      rw [(hresult hstate' rules).mpr hrules]
      exact Run.has_close_ok rules
    have hnot : y ∉ other'.resolving := by
      rw [hbody.resolving_eq]
      exact fun hmem => (List.mem_cons.mp hmem).elim hyk hopen
    rw [Run.has_close_of_ne hyk]
    by_cases hxk : x = k
    · subst hxk
      obtain ⟨rules, hrules⟩ := hok hhas
      refine (hbody.has_asked hrules y (hxy.mem hs)).resolve_right fun hmem => hnot ?_
      rwa [hbody.resolving_eq]
    · exact h.closed state x y hx ((Run.has_close_of_ne hxk result).mp hhas) hxy hy hnot
  · rw [hresolving] at hm
    have hmk : m ≠ k := fun hmk => hk (hmk ▸ hm)
    rw [Run.get?_close_of_ne _ _ hmk]
    exact h.absent m (hbody.resolving_eq ▸ List.mem_cons_of_mem k hm)

/-- A run that keeps what a successful part asks for keeps every class that the part opens. -/
theorem Run.Follows.has_opened (h : other.Follows sources names c ended) {task : Task}
    {state : Run} (hopen : Opens sources names task run state k) :
    ∀ {rules run'}, Part sources names c ended task run (.ok rules) run' →
      (∀ t ∈ task.asks, ended.Has t → t ∉ other.resolving → other.Has t) →
      (∀ t ∈ task.asks, ∀ m, Reaches sources t m → m ∈ other.resolving → m ∈ run.resolving) →
      other.Has k := by
  have hclass : ∀ {k run source rules run'}, run.expanded.get? k = none →
      sources.get? k = some source → k ∉ run.resolving →
      Part sources names c ended (.ofClass k) run (.ok rules) run' →
      (∀ t ∈ (Task.ofClass k).asks, ended.Has t → t ∉ other.resolving → other.Has t) →
      (∀ t ∈ (Task.ofClass k).asks, ∀ m, Reaches sources t m → m ∈ other.resolving →
        m ∈ run.resolving) → other.Has k := by
    intro k run source rules run' hk hs hc p hasks hopens
    have hself : k ∈ (Task.ofClass k).asks := List.mem_singleton.mpr rfl
    refine hasks k hself ?_ fun hmem => hc (hopens k hself k .refl hmem)
    rw [Run.Has, (p.ok_iff hk hs hc rules).mp rfl]
    exact Option.some_ne_none _
  obtain ⟨hasked, habsent, hknown, hleft⟩ := hopen
  induction hasked with
  | here =>
      intro rules run' p hasks hopens
      obtain ⟨source, hs⟩ := hknown
      exact hclass habsent hs hleft p hasks hopens
  | @inside k run source m state hk hs hc body ih =>
      intro rules run' p hasks hopens
      have hhas := hclass hk hs hc p hasks hopens
      obtain ⟨inner, q, -⟩ := p.body hk hs hc
      refine ih habsent hknown hleft q (fun t ht hended hnot => ?_) fun t ht m htm hm => ?_
      · exact h.closed run k t (p.opens (.here hk hs hc)) hhas ⟨source, hs, ht⟩ hended hnot
      · exact List.mem_cons_of_mem k (hopens k (List.mem_singleton.mpr rfl) m
          (.head ⟨source, hs, ht⟩ htm) hm)
  | first hs child ih =>
      intro rules run' p hasks hopens
      obtain ⟨inherited, mid, q, hrest⟩ := p.child hs
      cases inherited with
      | error fault => cases hrest.1
      | ok inherited => exact ih habsent hknown hleft q (asks_child hasks) (asks_child hopens)
  | later hs child ht tail ih =>
      intro rules run' p hasks hopens
      obtain ⟨inherited, mid, q, hrest⟩ := p.child hs
      obtain ⟨rfl, rfl⟩ := q.runs.deterministic child
      rw [ht] at hrest
      exact ih habsent hknown hleft hrest (asks_tail hasks)
        (child.resolving_eq ▸ asks_tail hopens)

end Follows

section Request

variable {fresh : Except Fault ClassRules} {ended : Run}

/-- What the request keeps it has opened. -/
theorem Runs.opens_of_ended (hfresh : Runs sources names (.ofClass c) .start fresh ended)
    {k : String} (hk : ended.Has k) :
    ∃ state, Opens sources names (.ofClass c) .start state k :=
  (hfresh.opens_of_has hk).resolve_left fun h => h rfl

/-- A class that is kept by a part is opened by the request, and kept alike by a run that follows
the request and keeps it too. -/
theorem Part.eq_of_known (hfresh : Runs sources names (.ofClass c) .start fresh ended)
    {k : String} {run other run' : Run} {result : Except Fault ClassRules} {rules found : ClassRules}
    (p : Part sources names c ended (.ofClass k) run result run')
    (hfollows : other.Follows sources names c ended)
    (hk : run.expanded.get? k = some rules) (hother : other.expanded.get? k = some found) :
    rules = found := by
  have hended : ended.expanded.get? k = some rules := p.kept (p.runs.keeps hk)
  obtain ⟨state, hopen⟩ := Runs.opens_of_ended hfresh (k := k) (by
    rw [Run.Has, hended]
    exact Option.some_ne_none _)
  exact Option.some.inj (hended.symm.trans (hfollows.agrees state k found hopen hother))

/-- Where a later run enters a cycle that the request enters too, the class is one that the request
has opened as the first of its cycle. -/
theorem Part.entered (hfresh : Runs sources names (.ofClass c) .start fresh ended)
    {k x : String} {before other : Run} (hx : Opens sources names (.ofClass c) .start before x)
    (hkx : Linked sources k x) (halike : EntersAlike sources names c (.ofClass k) other)
    (hopen : Opens sources names (.ofClass k) other other k)
    (hout : ∀ r ∈ other.resolving, ¬ Linked sources r k) :
    ∃ state found after, (∀ r ∈ state.resolving, ¬ Linked sources r k) ∧
      Opens sources names (.ofClass c) .start state k ∧
      Part sources names c ended (.ofClass k) state found after := by
  obtain ⟨e, he, hex⟩ := hx.enters.resolve_right fun ⟨r, hr, _⟩ => by cases hr
  obtain rfl : k = e := halike k e (hkx.trans hex.symm) ⟨other, hopen, hout⟩ he
  obtain ⟨state, hstate, houtside⟩ := he
  obtain ⟨found, after, p⟩ := Part.asked hstate.asked (Part.whole hfresh)
  exact ⟨state, found, after, houtside, hstate, p⟩

/-- A class that a part expands and that a later run keeps has the rules that the run keeps, and the
run keeps every class that the part opens. -/
theorem Part.skipped {all : Prop} {k : String} {run other run' : Run}
    {result : Except Fault ClassRules} {found : ClassRules}
    (p : Part sources names c ended (.ofClass k) run result run')
    (hbeside : run.Beside sources all other (.ofClass k))
    (hfollows : other.Follows sources names c ended)
    (h : run.expanded.get? k = none) {source : SchemaSource} (hs : sources.get? k = some source)
    (hk : k ∉ run.resolving) (hother : other.expanded.get? k = some found) :
    result = .ok found ∧ HeldAfter sources all run run' other other := by
  have hopen := p.opens (.here h hs hk)
  obtain rfl : result = .ok found :=
    (p.ok_iff h hs hk found).mpr (hfollows.agrees run k found hopen hother)
  have hhas : other.Has k := by
    rw [Run.Has, hother]
    exact Option.some_ne_none _
  refine ⟨rfl, fun m _ hm hm' => ?_⟩
  rcases p.runs.opens_of_has hm' with hm' | ⟨state, hstate⟩
  · exact hm hm'
  refine hfollows.has_opened hstate p (fun t ht _ _ => ?_) fun t ht m htm hm => ?_
  · rwa [List.mem_singleton.mp ht]
  · exact (hbeside.resolving t ht m htm).mpr hm

/-- A later run that follows the request and works beside a part of it comes to the same outcome,
and goes on following the request. -/
theorem Runs.follow (hfresh : Runs sources names (.ofClass c) .start fresh ended) {all : Prop}
    {task other result' other'} (h : Runs sources names task other result' other') :
    ∀ {run result run'}, Part sources names c ended task run result run' →
      run.Beside sources all other task → other.Above sources task →
      other.Follows sources names c ended → (all ∨ EntersAlike sources names c task other) →
      result = result' ∧ other'.Follows sources names c ended ∧
        HeldAfter sources all run run' other other' := by
  have hopened : ∀ m, ended.Has m → ∃ state, Opens sources names (.ofClass c) .start state m :=
    fun _ hm => Runs.opens_of_ended hfresh hm
  induction h with
  | @known k other found h =>
      intro run result run' p hbeside habove hfollows _
      have hhas : other.Has k := by
        rw [Run.Has, h]
        exact Option.some_ne_none _
      cases p.runs with
      | known h' =>
          rw [Part.eq_of_known hfresh p hfollows h' h]
          exact ⟨rfl, hfollows, fun _ _ hm => hm⟩
      | unknown h' hs => exact absurd hs (hfollows.known k hhas)
      | reentered h' hs hc =>
          have hmem := (hbeside.resolving k (List.mem_singleton.mpr rfl) k .refl).mp hc
          exact absurd (hfollows.absent k hmem) hhas
      | entered h' hs hc body =>
          obtain ⟨hresult, hheld⟩ := p.skipped hbeside hfollows h' hs hc h
          exact ⟨hresult, hfollows, hheld⟩
  | @unknown k other h hs =>
      intro run result run' p hbeside habove hfollows _
      cases p.runs with
      | known h' =>
          obtain ⟨state, hstate⟩ := hopened k (by
            rw [Run.Has, p.kept h']
            exact Option.some_ne_none _)
          obtain ⟨source, hs'⟩ := hstate.known
          rw [hs] at hs'
          cases hs'
      | unknown => exact ⟨rfl, hfollows, fun _ _ hm => hm⟩
      | reentered _ hs' | entered _ hs' => rw [hs] at hs'; cases hs'
  | @reentered k other source h hs hc =>
      intro run result run' p hbeside habove hfollows _
      have hmem := (hbeside.resolving k (List.mem_singleton.mpr rfl) k .refl).mpr hc
      cases p.runs with
      | known h' =>
          rw [p.absent k hmem] at h'
          cases h'
      | unknown _ hs' => rw [hs] at hs'; cases hs'
      | reentered _ hs' =>
          rw [hs] at hs'
          cases hs'
          exact ⟨rfl, hfollows, fun _ _ hm => hm⟩
      | entered _ _ hc' => exact absurd hmem hc'
  | @entered k other source result' other' h hs hc body ih =>
      intro run result run' p hbeside habove hfollows halike
      have hself : k ∈ (Task.ofClass k).asks := List.mem_singleton.mpr rfl
      -- beside any part that opens the class too, the inheritances of the class are taken alike
      have hinside : ∀ {state found after},
          Part sources names c ended (.ofClass k) state found after →
          state.expanded.get? k = none → k ∉ state.resolving →
          state.Beside sources all other (.ofClass k) →
          found = result' ∧ (other'.close k result').Follows sources names c ended ∧
            HeldAfter sources all state after other (other'.close k result') := by
        intro state found after p hstate hk hbeside
        obtain ⟨inner, q, rfl⟩ := p.body hstate hs hk
        obtain ⟨rfl, hfollows', hheld⟩ := ih q (hbeside.body hs p.full hstate p.above)
          (habove.body hs) (hfollows.enter h) (halike.imp_right fun ha => ha.body h hs hc)
        refine ⟨rfl, ?_, fun m hlock hm hm' => ?_⟩
        · exact hfollows'.close body hs hc (fun _ => p.ok_iff hstate hs hk) hopened
        by_cases hmk : m = k
        · subst hmk
          cases found with
          | ok rules => exact Run.has_close_ok rules
          | error fault => exact absurd (q.runs.open_absent List.mem_cons_self hstate) hm'
        · rw [Run.has_close_of_ne hmk] at hm' ⊢
          refine hheld m (hlock.imp_right ?_) hm hm'
          rintro ⟨r, hr, hrm⟩
          exact ⟨r, List.mem_cons_of_mem k hr, hrm⟩
      cases p.runs with
      | @known _ _ rules h' =>
          have hhas : run.Has k := by
            rw [Run.Has, h']
            exact Option.some_ne_none _
          have hlack : ¬ (all ∨ ∃ r ∈ other.resolving, Linked sources r k) := fun hlock =>
            hbeside.held k hself k .refl hlock hhas h
          push Not at hlack
          obtain ⟨hall, hout⟩ := hlack
          have hended : ended.expanded.get? k = some rules := p.kept h'
          obtain ⟨before, hbefore⟩ := hopened k (by
            rw [Run.Has, hended]
            exact Option.some_ne_none _)
          obtain ⟨state, found, after, hout', hopen, q⟩ := Part.entered hfresh hbefore (.refl k)
            (halike.resolve_left hall) (.here h hs hc) hout
          obtain ⟨-, hstate, -, hk⟩ := hopen
          have hbeside' : state.Beside sources all other (.ofClass k) := by
            rw [eq_false hall]
            exact .of_out q.above habove hout' hout
          obtain ⟨hfound, hfollows', -⟩ := hinside q hstate hk hbeside'
          refine ⟨?_, hfollows', fun m _ hm hm' => (Runs.entered h hs hc body).has (hm hm')⟩
          rw [← hfound, (q.ok_iff hstate hs hk rules).mpr hended]
      | unknown _ hs' => rw [hs] at hs'; cases hs'
      | reentered _ _ hc' => exact absurd ((hbeside.resolving k hself k .refl).mp hc') hc
      | entered h' _ hc' _ => exact hinside p h' hc' hbeside
  | done =>
      intro run result run' p hbeside habove hfollows _
      cases p.runs
      exact ⟨rfl, hfollows, fun _ _ hm => hm⟩
  | missing h =>
      intro run result run' p hbeside habove hfollows _
      cases p.runs with
      | missing => exact ⟨rfl, hfollows, fun _ _ hm => hm⟩
      | stopped h' | taken h' => exact absurd h h'
  | stopped h child ht ih =>
      intro run result run' p hbeside habove hfollows halike
      obtain ⟨inherited, mid, q, hrest⟩ := p.child h
      obtain ⟨rfl, hfollows', hheld⟩ := ih q hbeside.child habove.child hfollows
        (halike.imp_right fun ha => ha.child h)
      rw [ht] at hrest
      obtain ⟨rfl, rfl⟩ := hrest
      exact ⟨rfl, hfollows', hheld⟩
  | taken h child ht tail ihc iht =>
      intro run result run' p hbeside habove hfollows halike
      obtain ⟨inherited, mid, q, hrest⟩ := p.child h
      obtain ⟨rfl, hfollows', hheld⟩ := ihc q hbeside.child habove.child hfollows
        (halike.imp_right fun ha => ha.child h)
      rw [ht] at hrest
      obtain ⟨rfl, hfollows'', hheld'⟩ := iht hrest
        (hbeside.tail q.runs.resolving_eq child.resolving_eq hheld)
        (habove.tail child.resolving_eq) hfollows'
        (halike.imp_right fun ha => ha.tail h child ht)
      refine ⟨rfl, hfollows'', fun m hlock hm hm' => ?_⟩
      exact hheld' m (child.resolving_eq ▸ hlock) (hheld m hlock hm) hm'

/-- A run that enters cycles alike follows the request also while it expands classes that share no
cycle with those that the request opens. -/
theorem Runs.follow_outside (hfresh : Runs sources names (.ofClass c) .start fresh ended)
    {task other result other'} (h : Runs sources names task other result other')
    (hout : ∀ r ∈ other.resolving, ∀ state x, Linked sources r x →
      ¬ Opens sources names (.ofClass c) .start state x)
    (habove : other.Above sources task) (hfollows : other.Follows sources names c ended)
    (halike : EntersAlike sources names c task other) :
    other'.Follows sources names c ended := by
  have hopened : ∀ m, ended.Has m → ∃ state, Opens sources names (.ofClass c) .start state m :=
    fun _ hm => Runs.opens_of_ended hfresh hm
  induction h with
  | known | unknown | reentered | done | missing => exact hfollows
  | @entered k other source result other' h hs hc body ih =>
      by_cases hmeet : ∃ state x, Linked sources k x ∧
        Opens sources names (.ofClass c) .start state x
      · -- the request enters the cycle of the class too, hence at the class
        obtain ⟨before, x, hkx, hx⟩ := hmeet
        have houtside : ∀ r ∈ other.resolving, ¬ Linked sources r k :=
          fun r hr hrk => hout r hr before x (hrk.trans hkx) hx
        obtain ⟨state, found, after, hout', -, p⟩ :=
          Part.entered hfresh hx hkx halike (.here h hs hc) houtside
        exact (Runs.follow hfresh (.entered h hs hc body) p
          (.of_out p.above habove hout' houtside) habove hfollows (.inr halike)).2.1
      · push Not at hmeet
        refine (ih ?_ (habove.body hs) (hfollows.enter h) (halike.body h hs hc)).close body hs hc
          (fun hk => absurd hk (hmeet _ k (.refl k))) hopened
        intro r hr state x hrx
        rcases List.mem_cons.mp hr with rfl | hr
        · exact hmeet state x hrx
        · exact hout r hr state x hrx
  | stopped h child ht ih => exact ih hout habove.child hfollows (halike.child h)
  | taken h child ht tail ihc iht =>
      refine iht ?_ (habove.tail child.resolving_eq)
        (ihc hout habove.child hfollows (halike.child h)) (halike.tail h child ht)
      rw [child.resolving_eq]
      exact hout

/-- Between expansions a run stands beside the request as a whole. -/
theorem Run.Beside.of_start {run : Run} (hr : run.resolving = []) :
    Run.start.Beside sources True run (.ofClass c) where
  resolving _ _ _ _ := by
    rw [hr]
    rfl
  held _ _ _ _ _ h := absurd rfl h

end Request

/-- The state of a run after expanding the given classes, of which some may have failed. -/
def Run.after (sources : Table SchemaSource) (names : SchemaNames) (history : List String) : Run :=
  history.foldl (fun run b => (run.perform (expand sources names b)).2) .start

/-- What expanding a class gives after expanding the given classes in the same run. -/
def outcomeAfter (sources : Table SchemaSource) (names : SchemaNames) (history : List String)
    (c : String) : Except Fault ClassRules :=
  ((Run.after sources names history).perform (expand sources names c)).1

/-- After expanding the given classes, the request for a class begins to expand another while no
class on a cycle with that one is being expanded. -/
def EntersAt (sources : Table SchemaSource) (names : SchemaNames) (history : List String)
    (c e : String) : Prop :=
  Enters sources names (.ofClass c) (Run.after sources names history) e

/-- Between expansions no class is being expanded, and requests that enter cycles alike leave a run
that follows the request. -/
theorem Run.after_follows (keyed : Keyed sources) {fresh ended}
    (hfresh : Runs sources names (.ofClass c) .start fresh ended) (history : List String)
    (h : ∀ earlier b, earlier ++ [b] <+: history → b ≠ c → ∀ e e', Linked sources e e' →
      EntersAt sources names earlier b e → EntersAt sources names [] c e' → e = e') :
    (Run.after sources names history).resolving = [] ∧
      (Run.after sources names history).Follows sources names c ended := by
  induction history using List.reverseRecOn with
  | nil =>
      refine ⟨rfl, fun _ hk => absurd rfl hk, fun _ _ _ _ hk => ?_, fun _ _ _ _ hx => absurd rfl hx,
        fun _ hk => ?_⟩
      · cases hk
      · cases hk
  | append_singleton earlier b ih =>
      obtain ⟨hr, hfollows⟩ := ih fun before k hpre =>
        h before k (hpre.trans (List.prefix_append earlier [b]))
      have hrun := runs_expand names keyed (Run.after sources names earlier) b
      have habove : (Run.after sources names earlier).Above sources (.ofClass b) :=
        Run.above_of_resolving_eq_nil hr _
      simp only [Run.after, List.foldl_append, List.foldl_cons, List.foldl_nil]
      refine ⟨hrun.resolving_eq.trans hr, ?_⟩
      by_cases hbc : b = c
      · subst hbc
        exact (Runs.follow hfresh hrun (Part.whole hfresh) (.of_start hr) habove hfollows
          (.inl trivial)).2.1
      · refine Runs.follow_outside hfresh hrun (fun r hmem => ?_) habove hfollows
          (h earlier b List.prefix_rfl hbc)
        rw [hr] at hmem
        cases hmem

/-- The outcome of a class does not depend on the classes that were expanded before, failed ones
included, as long as each request for another class enters a cycle at the class at which the request
for the class enters it in a new run. -/
theorem outcomeAfter_eq_fresh (sources : List SchemaSource) (names : SchemaNames)
    (history : List String) (c : String)
    (h : ∀ earlier b, earlier ++ [b] <+: history → b ≠ c → ∀ e e',
      Linked (sourceTable sources) e e' → EntersAt (sourceTable sources) names earlier b e →
        EntersAt (sourceTable sources) names [] c e' → e = e') :
    outcomeAfter (sourceTable sources) names history c =
      outcomeAfter (sourceTable sources) names [] c := by
  have keyed := keyed_sourceTable sources
  have hfresh := runs_expand names keyed .start c
  obtain ⟨hr, hfollows⟩ := Run.after_follows keyed hfresh history h
  have hrun := runs_expand names keyed (Run.after (sourceTable sources) names history) c
  exact (Runs.follow hfresh hrun (Part.whole hfresh) (.of_start hr)
    (Run.above_of_resolving_eq_nil hr _) hfollows (.inl trivial)).1.symm

/-- A class that declares only rules and inheritances. -/
def ruleClass (className : String) (rules : Table RuleValue) (inheritance : Table Inheritance) :
    SchemaSource :=
  ⟨className, rules, [], [], [], inheritance, [], .data, none⟩

/-- Two classes that inherit from each other, and three that inherit from the first of them, the
last of which misses a field. -/
def sharedClasses : List SchemaSource :=
  [ruleClass "LoopData" [("z", .text "string")] [("z", ⟨"BackData", none⟩)],
    ruleClass "BackData" [("z", .text "nullable")] [("z", ⟨"LoopData", none⟩)],
    ruleClass "LeftData" [] [("z", ⟨"LoopData", none⟩)],
    ruleClass "RightData" [("z", .text "max:5")] [("z", ⟨"LoopData", none⟩)],
    ruleClass "BrokenData" [] [("z", ⟨"LoopData", none⟩), ("y", ⟨"LoopData", none⟩)]]

section Shared

variable {b e k : String}

theorem reaches_loop (h : Reaches (sourceTable sharedClasses) "LoopData" k) :
    k = "LoopData" ∨ k = "BackData" := by
  induction h with
  | refl => exact .inl rfl
  | @tail _ t _ hab ih =>
      rcases ih with rfl | rfl
      · exact .inr (by simpa [ruleClass] using hab.mem rfl)
      · exact .inl (by simpa [ruleClass] using hab.mem rfl)

theorem inherits_back : Inherits (sourceTable sharedClasses) "LoopData" "BackData" :=
  ⟨_, rfl, List.mem_singleton.mpr rfl⟩

theorem inherits_loop : Inherits (sourceTable sharedClasses) "BackData" "LoopData" :=
  ⟨_, rfl, List.mem_singleton.mpr rfl⟩

/-- The classes outside the cycle inherit from its first class only. -/
theorem inherits_outside (hb : b ∈ ["LeftData", "RightData", "BrokenData"])
    (h : Inherits (sourceTable sharedClasses) b k) : k = "LoopData" := by
  simp only [List.mem_cons, List.not_mem_nil, or_false] at hb
  rcases hb with rfl | rfl | rfl <;> simpa [ruleClass] using h.mem rfl

theorem reaches_outside (hb : b ∈ ["LeftData", "RightData", "BrokenData"])
    (h : Reaches (sourceTable sharedClasses) b k) :
    k = b ∨ k = "LoopData" ∨ k = "BackData" := by
  rcases Relation.ReflTransGen.cases_head h with rfl | ⟨t, ht, htk⟩
  · exact .inl rfl
  · rw [inherits_outside hb ht] at htk
    exact .inr (reaches_loop htk)

/-- The classes outside the cycle arrive at themselves or at its first class. -/
theorem arrivesAt_outside (hb : b ∈ ["LeftData", "RightData", "BrokenData"])
    (h : ArrivesAt (sourceTable sharedClasses) b k) : k = b ∨ k = "LoopData" := by
  have hreach : ∀ {y}, Relation.ReflTransGen
      (fun x y => Inherits (sourceTable sharedClasses) x y ∧
        ¬ Linked (sourceTable sharedClasses) x k) b y → Reaches (sourceTable sharedClasses) b y :=
    fun hy => Relation.ReflTransGen.mono (fun _ _ => And.left) _ _ hy
  rcases reaches_outside hb (hreach h) with hk | hk | rfl
  · exact .inl hk
  · exact .inr hk
  -- the last step to the second class would come from a class of its cycle
  obtain rfl | ⟨y, hy, hback, hnot⟩ := Relation.ReflTransGen.cases_tail h
  · exact .inl rfl
  rcases reaches_outside hb (hreach hy) with rfl | rfl | rfl
  · exact .inr (inherits_outside hb hback)
  · exact absurd ⟨.single inherits_back, .single inherits_loop⟩ hnot
  · exact absurd (.refl _) hnot

/-- No class outside the cycle is reached from another class. -/
theorem eq_of_reaches_outside {a : String} (hb : b ∈ ["LeftData", "RightData", "BrokenData"])
    (ha : a = k ∨ a = "LoopData") (hk : k ∈ ["LeftData", "RightData", "BrokenData"])
    (h : Reaches (sourceTable sharedClasses) a b) : a = b := by
  have hne : b ≠ "LoopData" ∧ b ≠ "BackData" := by
    constructor <;> (rintro rfl; exact absurd hb (by decide))
  rcases ha with rfl | rfl
  · rcases reaches_outside hk h with hab | hab | hab
    · exact hab.symm
    · exact absurd hab hne.1
    · exact absurd hab hne.2
  · exact absurd (reaches_loop h) (not_or.mpr hne)

end Shared

/-- Every request enters the cycle at its first class, so a class that inherits from it may be
expanded after others that do so, failed ones included. -/
theorem outcomeAfter_right_eq_fresh :
    (∀ earlier b, earlier ++ [b] <+: ["BrokenData", "LeftData", "BrokenData"] → b ≠ "RightData" →
      ∀ e e', Linked (sourceTable sharedClasses) e e' →
        EntersAt (sourceTable sharedClasses) ⟨[]⟩ earlier b e →
        EntersAt (sourceTable sharedClasses) ⟨[]⟩ [] "RightData" e' → e = e') ∧
    OnCycle (sourceTable sharedClasses) "LoopData" ∧
    outcomeAfter (sourceTable sharedClasses) ⟨[]⟩ ["BrokenData", "LeftData", "BrokenData"]
      "RightData" = outcomeAfter (sourceTable sharedClasses) ⟨[]⟩ [] "RightData" := by
  have hright : "RightData" ∈ ["LeftData", "RightData", "BrokenData"] := by decide
  have h : ∀ earlier b, earlier ++ [b] <+: ["BrokenData", "LeftData", "BrokenData"] →
      b ≠ "RightData" → ∀ e e', Linked (sourceTable sharedClasses) e e' →
        EntersAt (sourceTable sharedClasses) ⟨[]⟩ earlier b e →
        EntersAt (sourceTable sharedClasses) ⟨[]⟩ [] "RightData" e' → e = e' := by
    intro earlier b hpre _ e e' hlinked he he'
    have hb : b ∈ ["LeftData", "RightData", "BrokenData"] := by
      have hsub : ["BrokenData", "LeftData", "BrokenData"] ⊆
          ["LeftData", "RightData", "BrokenData"] := by decide
      exact hsub (hpre.subset (List.mem_append_right earlier List.mem_cons_self))
    obtain ⟨t, ht, he⟩ := he.arrivesAt
    obtain ⟨t', ht', he'⟩ := he'.arrivesAt
    rw [List.mem_singleton.mp ht] at he
    rw [List.mem_singleton.mp ht'] at he'
    have hat := arrivesAt_outside hb he
    have hat' := arrivesAt_outside hright he'
    rcases hat with rfl | rfl
    · exact (eq_of_reaches_outside hb hat' hright hlinked.2).symm
    rcases hat' with rfl | rfl
    · exact eq_of_reaches_outside hright (.inr rfl) hright hlinked.1
    · rfl
  exact ⟨h, .tail (.single inherits_back) inherits_loop,
    outcomeAfter_eq_fresh sharedClasses ⟨[]⟩ _ "RightData" h⟩

/-- Two classes that inherit from each other, and a third that inherits from the first. -/
def linkedClasses : List SchemaSource :=
  [ruleClass "ProfileData" [("z", .text "string")] [("z", ⟨"UserData", none⟩)],
    ruleClass "UserData" [("x", .text "max:5"), ("z", .text "nullable"), ("z.k", .text "string")]
      [("x", ⟨"ProfileData", some "z"⟩)],
    ruleClass "LinkData" [] [("y", ⟨"ProfileData", some "z"⟩), ("q", ⟨"ProfileData", none⟩)]]

/-- A class on the cycle lacks rules after the other class on it was expanded. -/
theorem outcomeAfter_profile_ne_fresh :
    outcomeAfter (sourceTable linkedClasses) ⟨[]⟩ ["ProfileData"] "UserData" ≠
      outcomeAfter (sourceTable linkedClasses) ⟨[]⟩ [] "UserData" := by
  have hkeys : ((outcomeAfter (sourceTable linkedClasses) ⟨[]⟩ ["ProfileData"] "UserData").map
        fun r => r.rules.keys).toOption = some ["x", "z", "z.k"] ∧
      ((outcomeAfter (sourceTable linkedClasses) ⟨[]⟩ [] "UserData").map
        fun r => r.rules.keys).toOption = some ["x", "z", "z.k", "x.k"] := by decide +kernel
  intro heq
  rw [heq, hkeys.2] at hkeys
  exact absurd hkeys.1 (by decide)

end RuleSchema.Inheritance
