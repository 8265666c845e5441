import Mathlib.Tactic.Linarith
import RuleSchema.Proofs.BoundRules

/-!
# Numbers within bounds

A number keeps one call for each comparison, and of several bounds with one comparison the last one
stays, whether it is the tightest one or not. So the calls are as strict as all rules exactly when
they cannot be met at all, or each bound asked for is implied by one that stays. That a bound is
implied by several others only together does not happen: they are bounds on one number.
-/

namespace RuleSchema

namespace Comparison

/-- Whether a comparison is with the least value. -/
def isLower : Comparison → Bool
  | min | gt | gte => true
  | max | lt | lte => false

/-- Whether a comparison leaves out its bound. -/
def isStrict : Comparison → Bool
  | gt | lt => true
  | min | max | gte | lte => false

/-- The comparison with the signs changed. -/
def mirror : Comparison → Comparison
  | min => max
  | max => min
  | gt => lt
  | gte => lte
  | lt => gt
  | lte => gte

@[simp] theorem isLower_mirror (c : Comparison) : c.mirror.isLower = !c.isLower := by
  cases c <;> rfl

@[simp] theorem isStrict_mirror (c : Comparison) : c.mirror.isStrict = c.isStrict := by
  cases c <;> rfl

theorem holds_mirror {c : Comparison} {n x : Rat} : c.mirror.Holds (-n) (-x) ↔ c.Holds n x := by
  cases c <;> simp [mirror, Holds]

theorem holds_of_isLower {c : Comparison} (h : c.isLower = true) {n x : Rat} :
    c.Holds n x ↔ if c.isStrict then n < x else n ≤ x := by
  cases c with
  | min | gt | gte => rfl
  | max | lt | lte => cases h

/-- A value below one that has not too large passes as well. -/
theorem Holds.of_le {c : Comparison} (h : c.isLower = false) {n x y : Rat} (hx : c.Holds n x)
    (hyx : y ≤ x) : c.Holds n y := by
  cases c with
  | max | lte => exact hyx.trans hx
  | lt => exact hyx.trans_lt hx
  | min | gt | gte => cases h

end Comparison

namespace Bound

/-- A value compares with a bound. -/
abbrev Holds (p : Bound) (x : Rat) : Prop := p.1.Holds (p.2 : Rat) x

/-- A bound is on the same side as another one and at least as tight. -/
def Implies (p q : Bound) : Prop :=
  p.1.isLower = q.1.isLower ∧ ((if q.1.isLower then q.2 < p.2 else p.2 < q.2) ∨
    p.2 = q.2 ∧ (q.1.isStrict → p.1.isStrict))

instance (p q : Bound) : Decidable (p.Implies q) :=
  inferInstanceAs (Decidable (p.1.isLower = q.1.isLower ∧
    ((if q.1.isLower then q.2 < p.2 else p.2 < q.2) ∨
      p.2 = q.2 ∧ (q.1.isStrict → p.1.isStrict))))

/-- The bound with the signs changed. -/
def mirror (p : Bound) : Bound := (p.1.mirror, -p.2)

theorem holds_mirror {p : Bound} {x : Rat} : p.mirror.Holds (-x) ↔ p.Holds x := by
  rw [mirror, Holds, Int.cast_neg, Comparison.holds_mirror]

theorem implies_mirror {p q : Bound} : p.mirror.Implies q.mirror ↔ p.Implies q := by
  simp only [Implies, mirror, Comparison.isLower_mirror, Comparison.isStrict_mirror, neg_lt_neg_iff,
    neg_inj, Bool.not_inj_iff]
  cases q.1.isLower <;> simp

theorem le_of_holds {p : Bound} (hp : p.1.isLower = true) {x : Rat} (hx : p.Holds x) : p.2 ≤ x := by
  rw [Holds, Comparison.holds_of_isLower hp] at hx
  split at hx
  · exact hx.le
  · exact hx

theorem holds_of_lt {q : Bound} (hq : q.1.isLower = true) {x : Rat} (hx : q.2 < x) : q.Holds x := by
  rw [Holds, Comparison.holds_of_isLower hq]
  split
  · exact hx
  · exact hx.le

/-- A lower bound holds wherever one holds that implies it. -/
theorem Implies.holds_of_isLower {p q : Bound} (h : p.Implies q) (hq : q.1.isLower = true) {x : Rat}
    (hx : p.Holds x) : q.Holds x := by
  obtain ⟨hside, htight⟩ := h
  have hle := le_of_holds (hside.trans hq) hx
  rw [if_pos hq] at htight
  rcases htight with hlt | ⟨heq, hstrict⟩
  · have hlt : (q.2 : Rat) < p.2 := by exact_mod_cast hlt
    exact holds_of_lt hq (hlt.trans_le hle)
  · rw [Holds, Comparison.holds_of_isLower (hside.trans hq)] at hx
    rw [Holds, Comparison.holds_of_isLower hq, ← heq]
    by_cases hs : q.1.isStrict = true
    · rw [if_pos (hstrict hs)] at hx
      rwa [if_pos hs]
    · rwa [if_neg hs]

/-- A value just below a lower bound: the bound itself if it is left out, else half a unit less. -/
def below (p : Bound) : Rat := if p.1.isStrict then p.2 else p.2 - 1 / 2

theorem below_le {q : Bound} (hq : q.1.isLower = true) {x : Rat} (hx : q.Holds x) :
    q.below ≤ x := by
  have hle := le_of_holds hq hx
  rw [below]
  split
  · exact hle
  · linarith

theorem le_sub_half_iff {m n : Int} : (m : Rat) ≤ n - 1 / 2 ↔ m < n := by
  constructor
  · intro h
    have hlt : (m : Rat) < n := by linarith
    exact_mod_cast hlt
  · intro h
    have hle : (m : Rat) + 1 ≤ n := by exact_mod_cast h
    linarith

theorem lt_sub_half_iff {m n : Int} : (m : Rat) < n - 1 / 2 ↔ m < n := by
  refine ⟨fun h => le_sub_half_iff.mp h.le, fun h => ?_⟩
  have hle : (m : Rat) + 1 ≤ n := by exact_mod_cast h
  linarith

/-- Just below a lower bound, those lower bounds hold that do not imply it. -/
theorem holds_below_iff {p q : Bound} (hp : p.1.isLower = true) (hq : q.1.isLower = true) :
    p.Holds q.below ↔ ¬ p.Implies q := by
  rw [Holds, Comparison.holds_of_isLower hp, below, Implies, hp, hq]
  cases q.1.isStrict with
  | true =>
      cases p.1.isStrict
      · simp
      · simpa using lt_iff_le_and_ne
  | false =>
      simp only [Bool.false_eq_true, if_false, le_sub_half_iff, lt_sub_half_iff, ite_self]
      simpa using lt_iff_le_and_ne

/-- Values that pass some bounds include one that a further lower bound turns away, if none of the
bounds implies it: the value just below it is low enough for the upper bounds. -/
theorem exists_not_holds_of_isLower {kept : List Bound} {q : Bound} (hq : q.1.isLower = true)
    (hkept : ∀ p ∈ kept, ¬ p.Implies q) {x : Rat} (hx : Satisfied kept x) :
    ∃ y : Rat, Satisfied kept y ∧ ¬ q.Holds y := by
  by_cases hhold : q.Holds x
  · have himplied : q.Implies q := ⟨rfl, .inr ⟨rfl, id⟩⟩
    refine ⟨q.below, fun p hp => ?_, fun h => (holds_below_iff hq hq).mp h himplied⟩
    cases hside : p.1.isLower with
    | true => exact (holds_below_iff hside hq).mpr (hkept p hp)
    | false => exact (hx p hp).of_le hside (below_le hq hhold)
  · exact ⟨x, hx, hhold⟩

theorem satisfied_mirror {kept : List Bound} {x : Rat} :
    Satisfied (kept.map mirror) (-x) ↔ Satisfied kept x := by
  simp only [Satisfied, List.forall_mem_map]
  exact forall₂_congr fun p _ => holds_mirror

theorem isLower_mirror {q : Bound} (hq : q.1.isLower = false) : q.mirror.1.isLower = true := by
  rw [mirror, Comparison.isLower_mirror, hq, Bool.not_false]

/-- A bound holds wherever one holds that implies it. -/
theorem Implies.holds {p q : Bound} (h : p.Implies q) {x : Rat} (hx : p.Holds x) : q.Holds x := by
  cases hq : q.1.isLower with
  | true => exact h.holds_of_isLower hq hx
  | false =>
      have hmirror : p.mirror.Implies q.mirror := implies_mirror.mpr h
      exact holds_mirror.mp (hmirror.holds_of_isLower (isLower_mirror hq) (holds_mirror.mpr hx))

theorem exists_not_holds {kept : List Bound} {q : Bound} (hkept : ∀ p ∈ kept, ¬ p.Implies q)
    {x : Rat} (hx : Satisfied kept x) : ∃ y : Rat, Satisfied kept y ∧ ¬ q.Holds y := by
  cases hq : q.1.isLower with
  | true => exact exists_not_holds_of_isLower hq hkept hx
  | false =>
      have hmirror : ∀ p ∈ kept.map mirror, ¬ p.Implies q.mirror :=
        List.forall_mem_map.mpr fun p hp => mt implies_mirror.mp (hkept p hp)
      obtain ⟨y, hy, hnot⟩ :=
        exists_not_holds_of_isLower (isLower_mirror hq) hmirror (satisfied_mirror.mpr hx)
      rw [← neg_neg y] at hy hnot
      exact ⟨-y, satisfied_mirror.mp hy, mt holds_mirror.mpr hnot⟩

/-- Bounds on one number imply further bounds only if they cannot be met, or each of these is
implied by a single one of them. -/
theorem satisfied_imp_satisfied_iff {kept asked : List Bound} :
    (∀ x : Rat, Satisfied kept x → Satisfied asked x) ↔
      (∀ x : Rat, ¬ Satisfied kept x) ∨ ∀ q ∈ asked, ∃ p ∈ kept, p.Implies q := by
  constructor
  · intro h
    by_contra hnone
    push Not at hnone
    obtain ⟨⟨x, hx⟩, q, hq, hkept⟩ := hnone
    obtain ⟨y, hy, hnot⟩ := exists_not_holds hkept hx
    exact hnot (h y hy q hq)
  · rintro (hnone | himplied) x hx
    · exact (hnone x hx).elim
    · intro q hq
      obtain ⟨p, hp, himplies⟩ := himplied q hq
      exact himplies.holds (hx p hp)

/-- Of the bounds asked for in turn, this one is the last with its comparison. -/
def IsLast (bound : Bound) (asked : List Bound) : Prop :=
  ∃ before later, asked = before ++ bound :: later ∧ ∀ p ∈ later, p.1 ≠ bound.1

/-- The bounds that stay of those asked for in turn. -/
def inForce (asked : List Bound) : List Bound := asked.foldl put []

theorem inForce_concat (asked : List Bound) (bound : Bound) :
    inForce (asked ++ [bound]) = put (inForce asked) bound := by
  rw [inForce, List.foldl_concat]
  rfl

theorem isLast_concat {asked : List Bound} {last bound : Bound} :
    bound.IsLast (asked ++ [last]) ↔ bound = last ∨ bound.IsLast asked ∧ last.1 ≠ bound.1 := by
  constructor
  · rintro ⟨before, later, heq, hlater⟩
    rcases List.eq_nil_or_concat later with rfl | ⟨later, final, rfl⟩
    · exact .inl (List.singleton_inj.mp (List.append_inj' heq rfl).2.symm)
    · rw [List.concat_eq_append, ← List.cons_append, ← List.append_assoc] at heq
      rw [List.concat_eq_append] at hlater
      obtain ⟨rfl, hfinal⟩ := List.append_inj' heq rfl
      obtain ⟨hlater, hne⟩ := List.forall_mem_append.mp hlater
      rw [List.singleton_inj.mp hfinal]
      exact .inr ⟨⟨before, later, rfl, hlater⟩, hne final (List.mem_singleton_self final)⟩
  · rintro (rfl | ⟨⟨before, later, rfl, hlater⟩, hne⟩)
    · exact ⟨asked, [], rfl, List.forall_mem_nil _⟩
    · exact ⟨before, later ++ [last], List.append_assoc _ _ _,
        List.forall_mem_append.mpr ⟨hlater, List.forall_mem_singleton.mpr hne⟩⟩

/-- A bound stays exactly if it is the last one with its comparison. -/
theorem mem_inForce {asked : List Bound} {bound : Bound} :
    bound ∈ inForce asked ↔ bound.IsLast asked := by
  induction asked using List.reverseRecOn with
  | nil => exact ⟨fun h => (List.not_mem_nil h).elim, fun ⟨_, _, heq, _⟩ => by simp at heq⟩
  | append_singleton asked last ih =>
      rw [inForce_concat, isLast_concat, ← ih, put, List.mem_append, List.mem_filter,
        List.mem_singleton, or_comm, decide_eq_true_iff, ne_comm]

end Bound

namespace NumberRule

open RuleSchema.Bound (Admits Satisfied calls inForce ofOption)
open BoundRule (asked applyAll chainAfter)

variable {b : Builder} {o : Operand} {rules : List BoundRule} {m : Option String}

/-- A builder for a number keeps the calls on the last bounds of those asked for. -/
def KeepsLast (asked : List Bound) (b : Builder) : Prop :=
  (∃ m, b.base = .number m) ∧ b.chain.Perm (calls (inForce asked))

theorem yields_bounded (ho : o.IsFair) (c : Comparison) :
    Yields KeepsLast (bounded c.name [some o.parameter] none) () (ofOption c o.value?) := by
  refine Yields.withNumber ho (fun n _ asked b hb => ⟨_, rfl, hb.1, ?_⟩) []
  rw [Bound.inForce_concat, ← Comparison.call_eq]
  exact Bound.chain_replaceCall hb.2 c n

/-- The method of a rule on numbers. -/
def methodOf : BoundRule → RuleMethod
  | .compare c _ => bounded c.name
  | .between .. => between
  | .size _ => size

theorem method?_eq (h : b.base = .number m) (r : BoundRule) :
    b.method? r.name = some (methodOf r) := by
  rw [Builder.method?, BoundRule.methodName_name, h]
  cases r with
  | compare c n => cases c <;> rfl
  | between low high => rfl
  | size n => rfl

theorem yields_of_isFair {r : BoundRule} (hfair : r.IsFair) :
    Yields KeepsLast r.apply true r.bounds := by
  refine Yields.apply (methodOf r) (fun asked b hb => ?_) ?_
  · obtain ⟨m, hbase⟩ := hb.1
    exact method?_eq hbase r
  · cases r with
    | compare c n => exact yields_bounded (hfair n (List.mem_singleton_self n)) c
    | between low high =>
        exact (yields_bounded (hfair low List.mem_cons_self) .min).bind
          (yields_bounded (hfair high (List.mem_cons_of_mem _ (List.mem_singleton_self high))) .max)
    | size n =>
        have hn := hfair n (List.mem_singleton_self n)
        exact (yields_bounded hn .min).bind (yields_bounded hn .max)

/-- Rules on the size of a number are all applied, and the calls are as strict as all rules exactly
if no number passes them, or each bound asked for is implied by one that is the last with its
comparison. -/
theorem calls_as_strict_iff (hbase : b.base = .number m) (hchain : b.chain = [])
    (hrules : ∀ r ∈ rules, r.IsFair) :
    (applyAll rules).run b = (.ok (rules.map fun _ => true), Chain.after (applyAll rules) b) ∧
      ((∀ x : Rat, Admits (chainAfter rules b) x → ∀ r ∈ rules, r.Admits x) ↔
        (∀ x : Rat, ¬ Admits (chainAfter rules b) x) ∨
          ∀ bound ∈ asked rules, ∃ kept : Bound, kept.IsLast (asked rules) ∧
            kept.Implies bound) := by
  have hstart : KeepsLast [] b := ⟨⟨m, hbase⟩, by rw [hchain]; exact List.Perm.refl _⟩
  obtain ⟨hrun, -, hperm⟩ :=
    Yields.after_applyAll (fun r hr => yields_of_isFair (hrules r hr)) hstart
  have hadmits : ∀ x : Rat, Admits (chainAfter rules b) x ↔ Satisfied (inForce (asked rules)) x :=
    fun x => by rw [chainAfter, Bound.admits_perm hperm, Bound.admits_calls_iff]
  refine ⟨hrun, ?_⟩
  simp only [hadmits, BoundRule.forall_admits_iff, ← Bound.mem_inForce]
  exact Bound.satisfied_imp_satisfied_iff

/-- A tighter bound takes the place of a looser one: at least three, then between five and ten. -/
theorem calls_from_five_to_ten :
    let rules : List BoundRule :=
      [.compare .min (.whole 3), .between (.written 5) (.whole 10), .compare .lt (.whole 20)]
    let b := Builder.ofBase (.number none)
    (∀ r ∈ rules, r.IsFair) ∧ chainAfter rules b = [".min(5)", ".max(10)", ".lt(20)"] ∧
      ∀ x : Rat, Admits [".min(5)", ".max(10)", ".lt(20)"] x → ∀ r ∈ rules, r.Admits x := by
  intro rules b
  have hrules : ∀ r ∈ rules, r.IsFair := by decide +kernel
  have hchain : chainAfter rules b = [".min(5)", ".max(10)", ".lt(20)"] := by decide +kernel
  have himplied : ∀ bound ∈ asked rules, ∃ kept ∈ inForce (asked rules), kept.Implies bound := by
    decide +kernel
  have hstrict := (calls_as_strict_iff (b := b) rfl rfl hrules).2.mpr
    (.inr fun bound hbound =>
      (himplied bound hbound).imp fun _ h => ⟨Bound.mem_inForce.mp h.1, h.2⟩)
  rw [hchain] at hstrict
  exact ⟨hrules, hchain, hstrict⟩

/-- A looser bound takes the place of a tighter one: four passes the call, but not the rules. -/
theorem four_passes_at_least_five :
    let rules : List BoundRule := [.compare .min (.whole 5), .compare .min (.whole 3)]
    chainAfter rules (Builder.ofBase (.number none)) = [".min(3)"] ∧
      Admits [".min(3)"] (4 : Rat) ∧ ¬ ∀ r ∈ rules, r.Admits (4 : Rat) := by
  intro rules
  have hcall : [".min(3)"] = calls [(.min, 3)] := by decide +kernel
  refine ⟨by decide +kernel, ?_, fun h => ?_⟩
  · rw [hcall, Bound.admits_calls_iff, Bound.satisfied_singleton]
    simp only [Comparison.Holds]
    norm_num
  · have hfive := Bound.satisfied_singleton.mp (h _ List.mem_cons_self)
    simp only [Comparison.Holds] at hfive
    norm_num at hfive

end NumberRule

end RuleSchema
