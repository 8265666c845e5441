import Mathlib.Order.OrderDual
import RuleSchema.Proofs.BoundRules
import RuleSchema.Proofs.FailedRules

/-!
# Lengths within bounds

Texts, addresses of mail and arrays keep at most one call on the least length and one on the
greatest length. After any number of rules these calls accept exactly the lengths that all rules
accept. The invariant is that the recorded bounds and the calls are the same, and that they accept
the lengths that the bounds asked for so far accept.
-/

namespace RuleSchema

/-- A builder that no rule has been applied to. -/
structure Builder.IsBare (b : Builder) : Prop where
  chain_eq : b.chain = []
  least_eq : b.least = none
  greatest_eq : b.greatest = none

/-- The bases whose rules are on lengths. -/
def Base.IsMeasured : Base → Prop
  | .text _ | .url .. | .password _ | .email _ | .array _ => True
  | _ => False

/-- A rule on one or two bounds, but not on an exact size. -/
def BoundRule.IsRange : BoundRule → Prop
  | compare .. | between .. => True
  | size _ => False

instance : DecidablePred BoundRule.IsRange
  | .compare .. | .between .. => isTrue trivial
  | .size _ => isFalse id

namespace Length

open RuleSchema.Bound (Satisfied Admits calls put ofOption)

variable {least greatest : Option Int} {b : Builder} {n : Int}

/-- The bounds of a least and a greatest length, where there are some. -/
def span (least greatest : Option Int) : List Bound := ofOption .min least ++ ofOption .max greatest

theorem satisfied_span {length : Int} : Satisfied (span least greatest) length ↔
    (∀ low ∈ least, low ≤ length) ∧ ∀ high ∈ greatest, length ≤ high := by
  simp only [span, Bound.satisfied_append, Bound.satisfied_ofOption, Comparison.Holds, Int.cast_id]

theorem put_span_min : (put (span least greatest) (.min, n)).Perm (span (some n) greatest) := by
  have hkept : (span least greatest).filter (·.1 ≠ .min) = ofOption .max greatest := by
    cases least <;> cases greatest <;> rfl
  rw [put, hkept]
  exact List.perm_append_comm

theorem put_span_max : (put (span least greatest) (.max, n)).Perm (span least (some n)) := by
  have hkept : (span least greatest).filter (·.1 ≠ .max) = ofOption .min least := by
    cases least <;> cases greatest <;> rfl
  rw [put, hkept]
  exact List.Perm.refl _

/-- A builder has recorded a least and a greatest length, and its calls are on these bounds. -/
structure Records (least greatest : Option Int) (b : Builder) : Prop where
  isMeasured : b.base.IsMeasured
  least_eq : b.least = least.map .whole
  greatest_eq : b.greatest = greatest.map .whole
  chain_perm : b.chain.Perm (calls (span least greatest))

/-- What a builder has recorded accepts the lengths that the bounds asked for accept. -/
def IsTight (asked : List Bound) (b : Builder) : Prop :=
  ∃ least greatest, Records least greatest b ∧
    ∀ length : Int, Satisfied (span least greatest) length ↔ Satisfied asked length

section Tighter

variable {α : Type} [Preorder α] {recorded : Option α} {bound : α}

theorem forall_le_and_le_of_exists (h : ∃ low ∈ recorded, bound ≤ low) (x : α) :
    (∀ low ∈ recorded, low ≤ x) ↔ (∀ low ∈ recorded, low ≤ x) ∧ bound ≤ x := by
  obtain ⟨low, hlow, hle⟩ := h
  exact ⟨fun hrecorded => ⟨hrecorded, hle.trans (hrecorded low hlow)⟩, And.left⟩

theorem forall_le_and_le_of_forall (h : ∀ low ∈ recorded, low ≤ bound) (x : α) :
    (∀ low ∈ some bound, low ≤ x) ↔ (∀ low ∈ recorded, low ≤ x) ∧ bound ≤ x := by
  simp only [Option.mem_some_iff, forall_eq']
  exact ⟨fun hle => ⟨fun low hlow => (h low hlow).trans hle, hle⟩, And.right⟩

end Tighter

/-- A recorded bound stays if it implies the new one, and gives way to it otherwise. -/
theorem Records.after_raise (h : Records least greatest b) (n : Int) :
    ∃ tighter, Records tighter greatest (Chain.after (raise (.whole n) none) b) ∧
      ∀ length : Int,
        (∀ low ∈ tighter, low ≤ length) ↔ (∀ low ∈ least, low ≤ length) ∧ n ≤ length := by
  have himplied : (b.least.map (Number.whole n).le).getD false = true ↔ ∃ low ∈ least, n ≤ low := by
    rw [h.least_eq]
    cases least <;> simp
  rw [Chain.after_raise]
  by_cases hkept : ∃ low ∈ least, n ≤ low
  · rw [if_pos (himplied.mpr hkept)]
    exact ⟨least, h, forall_le_and_le_of_exists hkept⟩
  · rw [if_neg (mt himplied.mp hkept)]
    have hchain := (Bound.chain_replaceCall h.chain_perm .min n).trans (put_span_min.map _)
    rw [Comparison.call_eq] at hchain
    have hlooser : ∀ low ∈ least, low ≤ n := fun low hlow =>
      le_of_not_ge fun hge => hkept ⟨low, hlow, hge⟩
    exact ⟨some n, ⟨h.isMeasured, rfl, h.greatest_eq, hchain⟩, forall_le_and_le_of_forall hlooser⟩

theorem Records.after_lower (h : Records least greatest b) (n : Int) :
    ∃ tighter, Records least tighter (Chain.after (lower (.whole n) none) b) ∧
      ∀ length : Int,
        (∀ high ∈ tighter, length ≤ high) ↔ (∀ high ∈ greatest, length ≤ high) ∧ length ≤ n := by
  have himplied : (b.greatest.map (·.le (Number.whole n))).getD false = true ↔
      ∃ high ∈ greatest, high ≤ n := by
    rw [h.greatest_eq]
    cases greatest <;> simp
  rw [Chain.after_lower]
  by_cases hkept : ∃ high ∈ greatest, high ≤ n
  · rw [if_pos (himplied.mpr hkept)]
    exact ⟨greatest, h, forall_le_and_le_of_exists (α := Intᵒᵈ) hkept⟩
  · rw [if_neg (mt himplied.mp hkept)]
    have hchain := (Bound.chain_replaceCall h.chain_perm .max n).trans (put_span_max.map _)
    rw [Comparison.call_eq] at hchain
    have hlooser : ∀ high ∈ greatest, n ≤ high := fun high hhigh =>
      le_of_not_ge fun hge => hkept ⟨high, hhigh, hge⟩
    exact ⟨some n, ⟨h.isMeasured, h.least_eq, rfl, hchain⟩,
      forall_le_and_le_of_forall (α := Intᵒᵈ) hlooser⟩

theorem yields_raise (n : Int) : Yields IsTight (raise (.whole n) none) () [(.min, n)] := by
  rintro asked b ⟨least, greatest, hb, htight⟩
  obtain ⟨tighter, hnext, hlengths⟩ := hb.after_raise n
  refine ⟨_, (sure_raise _ _).run b, tighter, greatest, hnext, fun length => ?_⟩
  rw [Bound.satisfied_append, ← htight, Bound.satisfied_singleton, satisfied_span, satisfied_span,
    hlengths]
  simp only [Comparison.Holds, Int.cast_id]
  tauto

theorem yields_lower (n : Int) : Yields IsTight (lower (.whole n) none) () [(.max, n)] := by
  rintro asked b ⟨least, greatest, hb, htight⟩
  obtain ⟨tighter, hnext, hlengths⟩ := hb.after_lower n
  refine ⟨_, (sure_lower _ _).run b, least, tighter, hnext, fun length => ?_⟩
  rw [Bound.satisfied_append, ← htight, Bound.satisfied_singleton, satisfied_span, satisfied_span,
    hlengths]
  simp only [Comparison.Holds, Int.cast_id]
  tauto

/-- A bound may be stated in another way that accepts the same lengths. -/
theorem yields_of_satisfied_iff {x : Building Unit} {first second : List Bound}
    (h : Yields IsTight x () first)
    (hsame : ∀ length : Int, Satisfied first length ↔ Satisfied second length) :
    Yields IsTight x () second := by
  intro asked b hb
  obtain ⟨next, hrun, least, greatest, hnext, htight⟩ := h asked b hb
  refine ⟨next, hrun, least, greatest, hnext, fun length => ?_⟩
  rw [htight, Bound.satisfied_append, Bound.satisfied_append, hsame]

/-- The rule that a comparison names. -/
def method : Comparison → RuleMethod
  | .min => min
  | .max => max
  | .gt => gt
  | .gte => gte
  | .lt => lt
  | .lte => lte

theorem asBound_whole (hn : n.natAbs < 2 ^ 53) : asBound (.whole n) = pure (.whole n) := by
  have hnumber : (Parameter.number (.whole n)).number? = .ok (some (.whole n)) :=
    Parameter.number?_ofInt hn
  rw [asBound, hnumber]
  rfl

section Rules

variable {o : Operand}

/-- A bound that is one more, one less or the same is small enough for a number. -/
theorem yields_withBound {c : Comparison} (ho : o.IsFair) {change : Int}
    (hchange : change.natAbs ≤ 1) {act : Number → Option String → Building Unit}
    (hact : ∀ n, Yields IsTight (act (.whole (n + change)) none) () [(c, n)]) :
    Yields IsTight (withBound change act [some o.parameter] none) () (ofOption c o.value?) := by
  refine Yields.withNumber ho (fun n hn => ?_) []
  have hmoved : (if change = 0 then Number.whole n else (Number.whole n).addInt change) =
      .whole (n + change) := by
    split
    · rw [‹change = 0›, Int.add_zero]
    · rfl
  have hsmall : (n + change).natAbs < 2 ^ 53 := by
    have := ho.natAbs_lt hn
    omega
  rw [hmoved, asBound_whole hsmall]
  exact hact n

theorem yields_compare (ho : o.IsFair) (c : Comparison) :
    Yields IsTight (method c [some o.parameter] none) () (ofOption c o.value?) := by
  cases c with
  | min => exact Yields.withNumber ho (fun n _ => yields_raise n) []
  | max => exact Yields.withNumber ho (fun n _ => yields_lower n) []
  | gt =>
      refine yields_withBound ho (by decide) fun n => ?_
      refine yields_of_satisfied_iff (yields_raise (n + 1)) fun length => ?_
      simp only [Bound.satisfied_singleton, Comparison.Holds, Int.cast_id, Int.add_one_le_iff]
  | gte =>
      refine yields_withBound ho (by decide) fun n => ?_
      rw [Int.add_zero]
      exact yields_of_satisfied_iff (yields_raise n) fun length => by
        simp only [Bound.satisfied_singleton, Comparison.Holds]
  | lt =>
      refine yields_withBound ho (by decide) fun n => ?_
      refine yields_of_satisfied_iff (yields_lower (n + -1)) fun length => ?_
      simp only [Bound.satisfied_singleton, Comparison.Holds, Int.cast_id, ← Int.sub_eq_add_neg,
        Int.le_sub_one_iff]
  | lte =>
      refine yields_withBound ho (by decide) fun n => ?_
      rw [Int.add_zero]
      exact yields_of_satisfied_iff (yields_lower n) fun length => by
        simp only [Bound.satisfied_singleton, Comparison.Holds]

theorem yields_between {low high : Operand} (hlow : low.IsFair) (hhigh : high.IsFair) :
    Yields IsTight (between [some low.parameter, some high.parameter] none) ()
      (ofOption .min low.value? ++ ofOption .max high.value?) :=
  (yields_compare hlow .min).bind (yields_compare hhigh .max)

end Rules

/-- The method of a rule on lengths. -/
def methodOf : BoundRule → RuleMethod
  | .compare c _ => method c
  | .between .. => between
  | .size _ => size

theorem method?_eq (h : b.base.IsMeasured) (r : BoundRule) :
    b.method? r.name = some (methodOf r) := by
  rw [Builder.method?, BoundRule.methodName_name]
  cases hbase : b.base with
  | text | url | password | email | array =>
    cases r with
    | compare c n => cases c <;> rfl
    | between low high => rfl
    | size n => rfl
  | number | boolean | file | object | reference | enumeration =>
    rw [hbase] at h
    exact h.elim

open BoundRule (asked applyAll chainAfter)

variable {rules : List BoundRule}

theorem yields_of_isRange {r : BoundRule} (hrange : r.IsRange) (hfair : r.IsFair) :
    Yields IsTight r.apply true r.bounds := by
  refine Yields.apply (methodOf r) (fun asked b hb => ?_) ?_
  · obtain ⟨least, greatest, hrecords, -⟩ := hb
    exact method?_eq hrecords.isMeasured r
  · cases r with
    | compare c n => exact yields_compare (hfair n (List.mem_singleton_self n)) c
    | between low high =>
        exact yields_between (hfair low List.mem_cons_self)
          (hfair high (List.mem_cons_of_mem _ (List.mem_singleton_self high)))
    | size n => exact hrange.elim

theorem isTight_of_isBare (hbase : b.base.IsMeasured) (hb : b.IsBare) : IsTight [] b := by
  refine ⟨none, none, ⟨hbase, hb.least_eq, hb.greatest_eq, ?_⟩, fun length => Iff.rfl⟩
  rw [hb.chain_eq]
  exact List.Perm.refl _

section Runs

variable (hbase : b.base.IsMeasured) (hb : b.IsBare) (hrules : ∀ r ∈ rules, r.IsRange ∧ r.IsFair)

include hbase hb hrules

theorem after_applyAll :
    (applyAll rules).run b = (.ok (rules.map fun _ => true), Chain.after (applyAll rules) b) ∧
      IsTight (asked rules) (Chain.after (applyAll rules) b) :=
  Yields.after_applyAll (fun r hr => yields_of_isRange (hrules r hr).1 (hrules r hr).2)
    (isTight_of_isBare hbase hb)

theorem admits_chainAfter_iff (length : Int) :
    Admits (chainAfter rules b) length ↔ ∀ r ∈ rules, r.Admits length := by
  obtain ⟨-, least, greatest, hrecords, htight⟩ := after_applyAll hbase hb hrules
  rw [chainAfter, Bound.admits_perm hrecords.chain_perm, Bound.admits_calls_iff, htight,
    BoundRule.forall_admits_iff]

/-- Rules on the least and the greatest length are all applied, and they leave at most one call on
each. These calls accept exactly the lengths that all rules accept. The order of the rules plays no
part for the lengths. -/
theorem lengths_of_all_rules :
    (applyAll rules).run b = (.ok (rules.map fun _ => true), Chain.after (applyAll rules) b) ∧
      (∃ least greatest, (chainAfter rules b).Perm (calls (span least greatest))) ∧
      (∀ length : Nat, Admits (chainAfter rules b) (length : Int) ↔
        ∀ r ∈ rules, r.Admits (length : Int)) ∧
      ∀ other, rules.Perm other → ∀ length : Nat,
        Admits (chainAfter other b) (length : Int) ↔
          Admits (chainAfter rules b) (length : Int) := by
  obtain ⟨hrun, least, greatest, hrecords, -⟩ := after_applyAll hbase hb hrules
  have hlengths := admits_chainAfter_iff hbase hb hrules
  refine ⟨hrun, ⟨least, greatest, hrecords.chain_perm⟩, fun length => hlengths length, ?_⟩
  intro other hother length
  have hsame := admits_chainAfter_iff hbase hb fun r hr => hrules r (hother.mem_iff.mpr hr)
  rw [hsame, hlengths]
  simp only [hother.mem_iff]

end Runs

/-- Longer than two, between one and another field, at most nine, and at most twenty. -/
theorem lengths_from_three_to_nine :
    let rules : List BoundRule := [.compare .gt (.written 2), .between (.whole 1) (.other "limit"),
      .compare .max (.whole 9), .compare .lte (.written 20)]
    let b := Builder.ofBase (.email none)
    (∀ r ∈ rules, r.IsRange ∧ r.IsFair) ∧ chainAfter rules b = [".min(3)", ".max(9)"] ∧
      ∀ length : Nat, Admits [".min(3)", ".max(9)"] (length : Int) ↔
        ∀ r ∈ rules, r.Admits (length : Int) := by
  intro rules b
  have hrules : ∀ r ∈ rules, r.IsRange ∧ r.IsFair := by decide +kernel
  have hchain : chainAfter rules b = [".min(3)", ".max(9)"] := by decide +kernel
  have hlengths := (lengths_of_all_rules (b := b) trivial ⟨rfl, rfl, rfl⟩ hrules).2.2.1
  rw [hchain] at hlengths
  exact ⟨hrules, hchain, hlengths⟩

end Length

end RuleSchema
