import Mathlib.Algebra.Order.Field.Power
import Mathlib.Data.Nat.Cast.Order.Field
import Mathlib.Tactic.FieldSimp
import Mathlib.Tactic.Linarith
import Mathlib.Tactic.Positivity
import RuleSchema.Number.Text

/-!
# Rounding to binary numbers

What a fraction is rounded to has a significand below `2 ^ 53` and an exponent between the smallest
and the largest one, or it is an infinity. It is an infinity exactly from half a step beyond the
largest finite number onwards.

## Implementation notes

Significands and exponents are found with logarithms of the numerator and the denominator. The
fraction itself is compared as a rational number with powers of two whose exponents are integers, so
that scaling up and scaling down need no cases.
-/

namespace RuleSchema

/-- A power as a quotient of powers with natural exponents, one of which is zero. -/
theorem zpow_eq_div_pow {x : Rat} (hx : x ≠ 0) (e : Int) :
    x ^ e = x ^ e.toNat / x ^ (-e).toNat := by
  rw [← zpow_natCast, ← zpow_natCast, ← zpow_sub₀ hx]
  congr 1
  omega

namespace Binary64

/-- From here on positive values round to an infinity. -/
def overflow : Nat := (2 ^ 54 - 1) * 2 ^ 970

/-- Whether a binary number is finite. -/
def IsFinite : Binary64 → Prop
  | finite .. => True
  | _ => False

instance : DecidablePred IsFinite
  | finite .. => .isTrue trivial
  | infinite _ => .isFalse id
  | notANumber => .isFalse id

/-- A finite number has a significand and an exponent of the format. -/
def InRange : Binary64 → Prop
  | finite _ significand exponent =>
    significand < 2 ^ 53 ∧ minExponent ≤ exponent ∧ exponent ≤ maxExponent
  | _ => True

section Scaling

variable {num den : Nat}

theorem scaled_den_pos (hden : 0 < den) (e : Int) : 0 < (scaled num den e).2 := by
  unfold scaled
  split
  · exact Nat.mul_pos hden (Nat.pow_pos (by decide))
  · exact hden

/-- A scaled fraction is the fraction divided by the power of two. -/
theorem scaled_eq (num den : Nat) (e : Int) :
    ((scaled num den e).1 : Rat) / (scaled num den e).2 = num / den / 2 ^ e := by
  rw [zpow_eq_div_pow two_ne_zero]
  unfold scaled
  split
  · rename_i he
    have hnone : (-e).toNat = 0 := by omega
    simp only [hnone, pow_zero, div_one, div_div, Nat.pow_eq, Nat.cast_mul, Nat.cast_pow,
      Nat.cast_ofNat]
  · rename_i he
    have hnone : e.toNat = 0 := by omega
    simp only [hnone, pow_zero, one_div, div_inv_eq_mul, div_mul_eq_mul_div, Nat.pow_eq,
      Nat.cast_mul, Nat.cast_pow, Nat.cast_ofNat]

theorem pow_log2_le (h : num ≠ 0) : (2 : Rat) ^ (num.log2 : Int) ≤ num := by
  rw [zpow_natCast]
  exact_mod_cast Nat.log2_self_le h

theorem lt_pow_log2_succ (num : Nat) : (num : Rat) < 2 ^ ((num.log2 : Int) + 1) := by
  rw [← Nat.cast_succ, zpow_natCast]
  exact_mod_cast Nat.lt_log2_self

/-- The logarithms tell a fraction up to a factor of two on either side. -/
theorem fraction_bounds (hnum : num ≠ 0) (hden : 0 < den) :
    (2 : Rat) ^ ((num.log2 : Int) - den.log2 - 1) < num / den ∧
      (num : Rat) / den < 2 ^ ((num.log2 : Int) - den.log2 + 1) := by
  have hpos : (0 : Rat) < den := by exact_mod_cast hden
  constructor
  · rw [lt_div_iff₀ hpos]
    calc (2 : Rat) ^ ((num.log2 : Int) - den.log2 - 1) * den
        < 2 ^ ((num.log2 : Int) - den.log2 - 1) * 2 ^ ((den.log2 : Int) + 1) :=
          mul_lt_mul_of_pos_left (lt_pow_log2_succ den) (by positivity)
      _ = 2 ^ (num.log2 : Int) := by
          rw [← zpow_add₀ two_ne_zero]
          congr 1
          omega
      _ ≤ num := pow_log2_le hnum
  · rw [div_lt_iff₀ hpos]
    calc (num : Rat) < 2 ^ ((num.log2 : Int) + 1) := lt_pow_log2_succ num
      _ = 2 ^ ((num.log2 : Int) - den.log2 + 1) * 2 ^ (den.log2 : Int) := by
          rw [← zpow_add₀ two_ne_zero]
          congr 1
          omega
      _ ≤ 2 ^ ((num.log2 : Int) - den.log2 + 1) * den :=
          mul_le_mul_of_nonneg_left (pow_log2_le hden.ne') (by positivity)

/-- The integral part of a scaled fraction is small exactly where the fraction is. -/
theorem scaled_div_lt_iff (num : Nat) (hden : 0 < den) (e : Int) (k : Nat) :
    (scaled num den e).1 / (scaled num den e).2 < 2 ^ k ↔ (num : Rat) / den < 2 ^ (e + k) := by
  have hpos : 0 < (scaled num den e).2 := scaled_den_pos hden e
  have hcast : (0 : Rat) < (scaled num den e).2 := by exact_mod_cast hpos
  have hstep : (0 : Rat) < 2 ^ e := by positivity
  rw [Nat.div_lt_iff_lt_mul hpos, zpow_add₀ two_ne_zero, ← div_lt_iff₀' hstep, ← scaled_eq,
    div_lt_iff₀ hcast, zpow_natCast]
  exact_mod_cast Iff.rfl

/-- The fitting exponent leaves a fraction below `2 ^ 53` steps, and from `2 ^ 52` steps on unless
it is the smallest exponent. -/
theorem fittingExponent_spec (hnum : num ≠ 0) (hden : 0 < den) :
    let e := fittingExponent num den
    minExponent ≤ e ∧ (num : Rat) / den < 2 ^ (e + 53) ∧
      (minExponent < e → (2 : Rat) ^ (e + 52) ≤ num / den) := by
  intro e
  obtain ⟨hlow, hhigh⟩ := fraction_bounds hnum hden
  set guess : Int := (num.log2 : Int) - den.log2 - 52 with hguess
  have hstart : e = max (if (num : Rat) / den < 2 ^ (guess + 52) then guess - 1 else guess)
      minExponent := by
    have hiff := scaled_div_lt_iff num hden guess 52
    simp only [e, fittingExponent, ← hguess, minFull]
    exact congrArg (max · minExponent) (if_congr hiff rfl rfl)
  have hmono {a b : Int} (h : a ≤ b) : (2 : Rat) ^ a ≤ 2 ^ b := zpow_le_zpow_right₀ one_le_two h
  split at hstart
  · rename_i hsmall
    refine ⟨by omega, hsmall.trans_le (hmono (by omega)), fun hmin => ?_⟩
    exact (hmono (by omega)).trans hlow.le
  · rename_i hlarge
    refine ⟨by omega, hhigh.trans_le (hmono (by omega)), fun hmin => ?_⟩
    exact (hmono (by omega)).trans (not_lt.mp hlarge)

end Scaling

section Rounding

/-- A quotient below an even number is rounded to it exactly from half a step below it on. -/
theorem roundHalfEven_eq_iff {n d k : Nat} (hd : 0 < d) (hk : k % 2 = 0) (hlt : n < k * d) :
    roundHalfEven n d ≤ k ∧ (roundHalfEven n d = k ↔ (2 * k - 1) * d ≤ 2 * n) := by
  have hq : n / d < k := (Nat.div_lt_iff_lt_mul hd).mpr hlt
  have hsplit : d * (n / d) + n % d = n := Nat.div_add_mod n d
  have hrest : n % d < d := Nat.mod_lt n hd
  by_cases hlast : n / d + 1 = k
  · have hbound : (2 * k - 1) * d = 2 * (d * (n / d)) + d := by
      have hodd : 2 * k - 1 = 2 * (n / d) + 1 := by omega
      rw [hodd, Nat.add_mul, Nat.one_mul, Nat.mul_comm d, Nat.mul_assoc]
    have hodd : ¬ n / d % 2 = 0 := by omega
    simp only [roundHalfEven, hbound, if_neg hodd]
    split_ifs <;> omega
  · have hfar : 2 * (d * (n / d)) + 3 * d ≤ (2 * k - 1) * d := by
      have hle : 2 * (n / d) + 3 ≤ 2 * k - 1 := by omega
      calc 2 * (d * (n / d)) + 3 * d = (2 * (n / d) + 3) * d := by
            rw [Nat.add_mul, Nat.mul_comm d, Nat.mul_assoc]
        _ ≤ (2 * k - 1) * d := Nat.mul_le_mul_right d hle
    have hnear : roundHalfEven n d ≤ n / d + 1 := by
      simp only [roundHalfEven]
      split_ifs <;> omega
    refine ⟨by omega, ?_⟩
    constructor <;> omega

end Rounding

theorem cast_overflow : (overflow : Rat) = ((2 ^ 54 - 1 : Nat) : Rat) * 2 ^ (970 : Int) := by
  have hpow : (2 : Rat) ^ (970 : Int) = 2 ^ 970 := zpow_natCast 2 970
  rw [hpow, overflow, Nat.cast_mul, Nat.cast_pow 2 970, Nat.cast_ofNat]

section Ratio

variable {num den : Nat}

/-- A fraction other than zero is rounded at its fitting exponent; a significand that has become too
large by that is halved. -/
theorem ofRatio_eq (negative : Bool) (hnum : num ≠ 0) :
    let e := fittingExponent num den
    let significand := roundHalfEven (scaled num den e).1 (scaled num den e).2
    ofRatio negative num den =
      if significand = 2 ^ 53 then
        if maxExponent < e + 1 then infinite negative else finite negative (2 ^ 52) (e + 1)
      else if maxExponent < e then infinite negative else finite negative significand e := by
  intro e significand
  have hfull : 2 ^ 53 = 2 * minFull := by decide
  rw [ofRatio, if_neg hnum, hfull]
  change (fun p : Nat × Int => if maxExponent < p.2 then infinite negative
      else finite negative p.1 p.2)
    (if significand = 2 * minFull then (minFull, e + 1) else (significand, e)) = _
  by_cases h : significand = 2 * minFull
  · rw [if_pos h, if_pos h]
    rfl
  · rw [if_neg h, if_neg h]

/-- At its fitting exponent a fraction is rounded to at most `2 ^ 53` steps, and to that many
exactly from half a step below them on. -/
theorem significand_spec (hnum : num ≠ 0) (hden : 0 < den) :
    let e := fittingExponent num den
    let significand := roundHalfEven (scaled num den e).1 (scaled num den e).2
    significand ≤ 2 ^ 53 ∧
      (significand = 2 ^ 53 ↔ ((2 ^ 54 - 1 : Nat) : Rat) * 2 ^ (e - 1) ≤ num / den) := by
  intro e significand
  have hpos : 0 < (scaled num den e).2 := scaled_den_pos hden e
  have hcast : (0 : Rat) < (scaled num den e).2 := by exact_mod_cast hpos
  have hhalf : (0 : Rat) < 2 ^ (e - 1) := by positivity
  have hsmall : (scaled num den e).1 < 2 ^ 53 * (scaled num den e).2 :=
    (Nat.div_lt_iff_lt_mul hpos).mp
      ((scaled_div_lt_iff num hden e 53).mpr (fittingExponent_spec hnum hden).2.1)
  obtain ⟨hle, hiff⟩ := roundHalfEven_eq_iff hpos (by decide) hsmall
  refine ⟨hle, hiff.trans ?_⟩
  have htwice : (num : Rat) / den / 2 ^ (e - 1) =
      ((2 * (scaled num den e).1 : Nat) : Rat) / (scaled num den e).2 := by
    rw [zpow_sub_one₀ two_ne_zero, ← div_div, div_inv_eq_mul, ← scaled_eq, Nat.cast_mul,
      Nat.cast_ofNat, mul_comm, mul_div_assoc]
  rw [← le_div_iff₀ hhalf, htwice, le_div_iff₀ hcast]
  exact_mod_cast Iff.rfl

theorem inRange_ofRatio (negative : Bool) (num : Nat) (hden : 0 < den) :
    InRange (ofRatio negative num den) := by
  by_cases hnum : num = 0
  · subst hnum
    exact ⟨by decide, le_refl _, by decide⟩
  · obtain ⟨hmin, -, -⟩ := fittingExponent_spec hnum hden
    obtain ⟨hle, -⟩ := significand_spec hnum hden
    rw [ofRatio_eq negative hnum]
    split_ifs with hfull hlarge hlarge
    · trivial
    · exact ⟨by decide, by omega, by omega⟩
    · trivial
    · exact ⟨by omega, by omega, by omega⟩

/-- A fraction is rounded to a finite number exactly where it is below the overflow. -/
theorem isFinite_ofRatio_iff (negative : Bool) (num : Nat) (hden : 0 < den) :
    IsFinite (ofRatio negative num den) ↔ (num : Rat) / den < overflow := by
  by_cases hnum : num = 0
  · subst hnum
    refine iff_of_true trivial ?_
    rw [Nat.cast_zero, zero_div, cast_overflow]
    exact mul_pos (by norm_num) (zpow_pos two_pos _)
  · obtain ⟨-, hhigh, hlow⟩ := fittingExponent_spec hnum hden
    obtain ⟨-, hfull⟩ := significand_spec hnum hden
    rw [ofRatio_eq negative hnum]
    generalize fittingExponent num den = e at *
    have hmono {a b : Int} (h : a ≤ b) : (2 : Rat) ^ a ≤ 2 ^ b := zpow_le_zpow_right₀ one_le_two h
    rcases lt_trichotomy e maxExponent with hless | rfl | hmore
    · have hfinite : (num : Rat) / den < overflow := by
        refine hhigh.trans_le ((hmono (b := 53 + 970) ?_).trans ?_)
        · rw [maxExponent] at hless
          omega
        · rw [cast_overflow, zpow_add₀ two_ne_zero]
          exact mul_le_mul_of_nonneg_right (by norm_num) (by positivity)
      refine iff_of_true ?_ hfinite
      split_ifs
      · omega
      · trivial
      · omega
      · trivial
    · have hlast : (maxExponent - 1 : Int) = 970 := rfl
      rw [hlast, ← cast_overflow, ← not_lt] at hfull
      split_ifs with hsig
      · exact iff_of_false id (hfull.mp hsig)
      · omega
      · omega
      · exact iff_of_true trivial (by_contra fun h => hsig (hfull.mpr h))
    · have hinfinite : (overflow : Rat) ≤ num / den := by
        refine le_trans ?_ (hlow (lt_trans (by decide) hmore))
        refine le_trans ?_ (hmono (a := 54 + 970) ?_)
        · rw [cast_overflow, zpow_add₀ two_ne_zero]
          exact mul_le_mul_of_nonneg_right (by norm_num) (by positivity)
        · rw [maxExponent] at hmore
          omega
      refine iff_of_false ?_ (not_lt.mpr hinfinite)
      split_ifs
      · exact id
      · omega
      · exact id

end Ratio

section Decimal

theorem cast_mul_pow_div (m : Nat) (e : Int) :
    ((m * Nat.pow 10 e.toNat : Nat) : Rat) / (Nat.pow 10 (-e).toNat : Nat) = m * 10 ^ e := by
  rw [zpow_eq_div_pow (by norm_num), mul_div_assoc']
  simp only [Nat.pow_eq, Nat.cast_mul, Nat.cast_pow, Nat.cast_ofNat]

/-- A decimal number of more than four hundred digits before its point is beyond the overflow. -/
theorem overflow_le_of_lt {m : Nat} {e : Int} (hm : m ≠ 0)
    (h : 400 < ((m.log2 / 4 : Nat) : Int) + e) : (overflow : Rat) ≤ m * 10 ^ e := by
  have hdigits : 10 ^ (m.log2 / 4) ≤ m :=
    calc 10 ^ (m.log2 / 4) ≤ (2 ^ 4) ^ (m.log2 / 4) := Nat.pow_le_pow_left (by decide) _
      _ = 2 ^ (4 * (m.log2 / 4)) := (Nat.pow_mul 2 4 _).symm
      _ ≤ 2 ^ m.log2 := Nat.pow_le_pow_right (by decide) (Nat.mul_div_le _ 4)
      _ ≤ m := Nat.log2_self_le hm
  have hlarge : overflow ≤ 10 ^ 400 := by decide +kernel
  calc (overflow : Rat) ≤ 10 ^ ((400 : Nat) : Int) := by
        rw [zpow_natCast]
        exact_mod_cast hlarge
    _ ≤ 10 ^ (((m.log2 / 4 : Nat) : Int) + e) := zpow_le_zpow_right₀ (by norm_num) h.le
    _ = ((10 ^ (m.log2 / 4) : Nat) : Rat) * 10 ^ e := by
        rw [zpow_add₀ (by norm_num), zpow_natCast, Nat.cast_pow, Nat.cast_ofNat]
    _ ≤ m * 10 ^ e := mul_le_mul_of_nonneg_right (by exact_mod_cast hdigits) (by positivity)

/-- A decimal number of more than four hundred zeros behind its point is below the overflow. -/
theorem lt_overflow_of_lt {m : Nat} {e : Int}
    (h : ((m.log2 / 3 : Nat) : Int) + 1 + e < -400) : (m : Rat) * 10 ^ e < overflow := by
  have hdigits : m ≤ 10 ^ (m.log2 / 3 + 1) :=
    calc m ≤ 2 ^ (m.log2 + 1) := Nat.lt_log2_self.le
      _ ≤ 2 ^ (3 * (m.log2 / 3 + 1)) := Nat.pow_le_pow_right (by decide) (by omega)
      _ = (2 ^ 3) ^ (m.log2 / 3 + 1) := Nat.pow_mul 2 3 _
      _ ≤ 10 ^ (m.log2 / 3 + 1) := Nat.pow_le_pow_left (by decide) _
  have hone : 1 < overflow := by decide +kernel
  calc (m : Rat) * 10 ^ e ≤ ((10 ^ (m.log2 / 3 + 1) : Nat) : Rat) * 10 ^ e :=
        mul_le_mul_of_nonneg_right (by exact_mod_cast hdigits) (by positivity)
    _ = 10 ^ (((m.log2 / 3 : Nat) : Int) + 1 + e) := by
        rw [zpow_add₀ (by norm_num), ← Nat.cast_succ, zpow_natCast, Nat.cast_pow, Nat.cast_ofNat]
    _ ≤ 10 ^ (0 : Int) := zpow_le_zpow_right₀ (by norm_num) (by omega)
    _ < overflow := by
        rw [zpow_zero]
        exact_mod_cast hone

/-- A decimal number is rounded to a finite number exactly where it is below the overflow. -/
theorem isFinite_ofDecimal_iff (negative : Bool) (m : Nat) (e : Int) :
    IsFinite (ofDecimal negative m e) ↔ (m : Rat) * 10 ^ e < overflow := by
  have hratio := cast_mul_pow_div m e
  unfold ofDecimal
  dsimp only
  split_ifs with hm hlarge hsmall he
  · subst hm
    refine iff_of_true trivial ?_
    rw [Nat.cast_zero, zero_mul]
    exact_mod_cast (by decide +kernel : 0 < overflow)
  · exact iff_of_false id (not_lt.mpr (overflow_le_of_lt hm (by omega)))
  · exact iff_of_true trivial (lt_overflow_of_lt (by omega))
  · have hnone : (-e).toNat = 0 := by omega
    rw [hnone] at hratio
    rw [isFinite_ofRatio_iff negative _ Nat.one_pos, ← hratio]
  · have hnone : e.toNat = 0 := by omega
    have hpos : 0 < Nat.pow 10 (-e).toNat := Nat.pow_pos (by decide)
    rw [hnone] at hratio
    change ((m * 1 : Nat) : Rat) / _ = _ at hratio
    rw [Nat.mul_one] at hratio
    rw [isFinite_ofRatio_iff negative _ hpos, hratio]

theorem inRange_zero (negative : Bool) : InRange (finite negative 0 minExponent) :=
  ⟨by decide, le_refl _, by decide⟩

theorem inRange_ofDecimal (negative : Bool) (m : Nat) (e : Int) :
    InRange (ofDecimal negative m e) := by
  unfold ofDecimal
  dsimp only
  split_ifs
  · exact inRange_zero negative
  · trivial
  · exact inRange_zero negative
  · exact inRange_ofRatio negative _ Nat.one_pos
  · exact inRange_ofRatio negative _ (Nat.pow_pos (by decide))

end Decimal

section Arithmetic

variable {x y : Binary64}

theorem inRange_addInt (hx : InRange x) (i : Int) : InRange (x.addInt i) := by
  unfold addInt
  split
  · exact inRange_ofRatio _ _ (Rat.den_pos _)
  · exact hx

theorem inRange_mulNat (x : Binary64) (n : Nat) : InRange (x.mulNat n) := by
  cases x with
  | finite negative significand exponent =>
      unfold mulNat
      dsimp only
      split_ifs
      · exact inRange_ofRatio negative _ Nat.one_pos
      · exact inRange_ofRatio negative _ (Nat.pow_pos (by decide))
  | infinite negative => trivial
  | notANumber => trivial

theorem inRange_div (x : Binary64) (hy : y.isZero = false) : InRange (x.div y) := by
  cases x with
  | notANumber => trivial
  | infinite negative => cases y <;> trivial
  | finite negative m e =>
      cases y with
      | notANumber => trivial
      | infinite other => exact inRange_zero _
      | finite other n f =>
          have hn : 0 < n := Nat.pos_of_ne_zero fun h => by
            rw [h] at hy
            cases hy
          unfold div
          dsimp only
          split_ifs
          · exact inRange_ofRatio _ _ hn
          · exact inRange_ofRatio _ _ (Nat.mul_pos hn (Nat.pow_pos (by decide)))

theorem inRange_of_readUnsigned? {negative : Bool} {cs : List Char}
    (h : readUnsigned? negative cs = some x) : InRange x := by
  simp only [readUnsigned?] at h
  split_ifs at h
  obtain ⟨exponent, -, rfl⟩ := Option.map_eq_some_iff.mp h
  exact inRange_ofDecimal negative _ _

/-- Every number that a text denotes is one of the format. -/
theorem inRange_of_ofChars? {cs : List Char} (h : ofChars? cs = some x) : InRange x := by
  obtain ⟨bare, -, hread⟩ := Option.bind_eq_some_iff.mp h
  dsimp only at hread
  split_ifs at hread
  · cases hread
    trivial
  · cases hread
    trivial
  · exact inRange_of_readUnsigned? hread

end Arithmetic

end Binary64

end RuleSchema
