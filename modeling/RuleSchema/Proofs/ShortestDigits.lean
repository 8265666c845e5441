import RuleSchema.Proofs.DecimalLiterals

/-!
# The digits of finite numbers

The place of the decimal point is found from the logarithm of a number, up to two places, and then
by comparison, so the digits that are looked for start right behind it. What is found reads back as
the number, so a finite number is written as a decimal literal that is finite as well, and a number
that is not finite is written as no literal.

## Implementation notes

Powers of ten and of two are compared by `2 ^ 93 ≤ 10 ^ 28` and `10 ^ 31 ≤ 2 ^ 103`. These tell the
logarithm of two closely enough for all exponents of the format.
-/

namespace RuleSchema

section Powers

/-- Powers compare as fixed powers of their bases do, where the exponents are in the same ratio. -/
theorem zpow_le_zpow_of_pow_le {x y : Rat} (hx : 0 < x) (hy : 1 ≤ y) {a b : Nat} (ha : a ≠ 0)
    (hab : x ^ a ≤ y ^ b) {g m : Int} (hg : 0 ≤ g) (h : b * g ≤ a * m) : x ^ g ≤ y ^ m := by
  refine le_of_pow_le_pow_left₀ ha (zpow_nonneg (zero_le_one.trans hy) m) ?_
  calc (x ^ g) ^ a = (x ^ a) ^ g := by
        rw [← zpow_natCast, ← zpow_mul, mul_comm, zpow_mul, zpow_natCast]
    _ ≤ (y ^ b) ^ g := zpow_le_zpow_left₀ hg (pow_pos hx a).le hab
    _ = y ^ ((b : Int) * g) := by rw [zpow_mul, zpow_natCast]
    _ ≤ y ^ ((a : Int) * m) := zpow_le_zpow_right₀ hy h
    _ = (y ^ m) ^ a := by rw [mul_comm, zpow_mul, zpow_natCast]

theorem ten_zpow_le_two_zpow {g m : Int} (hg : 0 ≤ g) (h : 103 * g ≤ 31 * m) :
    (10 : Rat) ^ g ≤ 2 ^ m :=
  zpow_le_zpow_of_pow_le (a := 31) (b := 103) (by norm_num) one_le_two (by decide) (by norm_num) hg
    (by exact_mod_cast h)

theorem two_zpow_le_ten_zpow {g m : Int} (hm : 0 ≤ m) (h : 28 * m ≤ 93 * g) :
    (2 : Rat) ^ m ≤ 10 ^ g :=
  zpow_le_zpow_of_pow_le (a := 93) (b := 28) two_pos (by norm_num) (by decide) (by norm_num) hm
    (by exact_mod_cast h)

theorem zpow_le_zpow_of_neg {x y : Rat} (hx : 0 < x) (hy : 0 < y) {g m : Int}
    (h : y ^ (-m) ≤ x ^ (-g)) : x ^ g ≤ y ^ m := by
  rw [zpow_neg, zpow_neg] at h
  exact (inv_le_inv₀ (zpow_pos hy m) (zpow_pos hx g)).mp h

end Powers

namespace Shortest

variable {significand : Nat} {exponent grid point : Int}

section Scale

theorem factors_pos (exponent grid : Int) : 0 < (factors exponent grid).2 :=
  Nat.mul_pos (Nat.pow_pos (by decide)) (Nat.pow_pos (by decide))

/-- The factors bring quarters of a binary step and decimal steps to one scale. -/
theorem factors_eq (exponent grid : Int) :
    ((factors exponent grid).1 : Rat) =
      2 ^ (exponent - 2) / 10 ^ grid * (factors exponent grid).2 := by
  rw [zpow_eq_div_pow two_ne_zero (exponent - 2),
    zpow_eq_div_pow (by norm_num : (10 : Rat) ≠ 0) grid, neg_sub]
  simp only [factors, Nat.pow_eq, Nat.cast_mul, Nat.cast_pow, Nat.cast_ofNat]
  field_simp

theorem mul_factors_le_iff (a c : Nat) :
    a * (factors exponent grid).1 ≤ c * (factors exponent grid).2 ↔
      (a : Rat) * 2 ^ (exponent - 2) ≤ c * 10 ^ grid := by
  have hd : (0 : Rat) < (factors exponent grid).2 := by exact_mod_cast factors_pos exponent grid
  have hgrid : (0 : Rat) < 10 ^ grid := by positivity
  rw [← Nat.cast_le (α := Rat), Nat.cast_mul, Nat.cast_mul, factors_eq, ← mul_assoc,
    mul_le_mul_iff_left₀ hd, mul_div_assoc', div_le_iff₀ hgrid]

theorem mul_factors_lt_iff (a c : Nat) :
    a * (factors exponent grid).1 < c * (factors exponent grid).2 ↔
      (a : Rat) * 2 ^ (exponent - 2) < c * 10 ^ grid := by
  have hd : (0 : Rat) < (factors exponent grid).2 := by exact_mod_cast factors_pos exponent grid
  have hgrid : (0 : Rat) < 10 ^ grid := by positivity
  rw [← Nat.cast_lt (α := Rat), Nat.cast_mul, Nat.cast_mul, factors_eq, ← mul_assoc,
    mul_lt_mul_iff_left₀ hd, mul_div_assoc', div_lt_iff₀ hgrid]

theorem le_mul_factors_iff (a c : Nat) :
    c * (factors exponent grid).2 ≤ a * (factors exponent grid).1 ↔
      (c : Rat) * 10 ^ grid ≤ a * 2 ^ (exponent - 2) := by
  rw [← not_lt, mul_factors_lt_iff, not_lt]

theorem lt_mul_factors_iff (a c : Nat) :
    c * (factors exponent grid).2 < a * (factors exponent grid).1 ↔
      (c : Rat) * 10 ^ grid < a * 2 ^ (exponent - 2) := by
  rw [← not_le, mul_factors_le_iff, not_le]

theorem quarters (significand : Nat) (exponent : Int) :
    ((4 * significand : Nat) : Rat) * 2 ^ (exponent - 2) = significand * 2 ^ exponent := by
  have hfour : (2 : Rat) ^ (2 : Int) = 4 := by norm_num
  rw [zpow_sub₀ two_ne_zero, hfour, Nat.cast_mul, Nat.cast_ofNat, mul_div_assoc', mul_assoc,
    mul_div_cancel_left₀ _ four_ne_zero]

end Scale

section Point

theorem isBelow_iff :
    isBelow significand exponent point = true ↔
      (significand : Rat) * 2 ^ exponent < 10 ^ point := by
  have h : 4 * significand * (factors exponent point).1 < 1 * (factors exponent point).2 ↔ _ :=
    mul_factors_lt_iff (4 * significand) 1
  rw [quarters, Nat.one_mul, Nat.cast_one, one_mul] at h
  rw [← h]
  exact decide_eq_true_iff

/-- The point is right before the first digit. -/
theorem pointOf_spec (hpos : significand ≠ 0) (hsignificand : significand < 2 ^ 53)
    (hmin : Binary64.minExponent ≤ exponent) (hmax : exponent ≤ Binary64.maxExponent) :
    let point := pointOf significand exponent
    (10 : Rat) ^ (point - 1) ≤ significand * 2 ^ exponent ∧
      (significand : Rat) * 2 ^ exponent < 10 ^ point := by
  have hlog : significand.log2 < 53 := (Nat.log2_lt hpos).mpr hsignificand
  set log : Int := significand.log2 + exponent with hlogDef
  set guess : Int := log * 30103 / 100000 with hguess
  rw [Binary64.minExponent] at hmin
  rw [Binary64.maxExponent] at hmax
  have hlow : (2 : Rat) ^ log ≤ significand * 2 ^ exponent := by
    rw [hlogDef, zpow_add₀ two_ne_zero]
    exact mul_le_mul_of_nonneg_right (Binary64.pow_log2_le hpos) (by positivity)
  have hhigh : (significand : Rat) * 2 ^ exponent < 2 ^ (log + 1) := by
    have hsplit : log + 1 = (significand.log2 : Int) + 1 + exponent := by omega
    rw [hsplit, zpow_add₀ two_ne_zero]
    exact mul_lt_mul_of_pos_right (Binary64.lt_pow_log2_succ significand) (by positivity)
  have hbefore : (10 : Rat) ^ (guess - 1) ≤ 2 ^ log := by
    by_cases hlog : 0 < log
    · by_cases hguess : 1 ≤ guess
      · exact ten_zpow_le_two_zpow (by omega) (by omega)
      · calc (10 : Rat) ^ (guess - 1) ≤ 10 ^ (0 : Int) :=
              zpow_le_zpow_right₀ (by norm_num) (by omega)
          _ = 2 ^ (0 : Int) := by rw [zpow_zero, zpow_zero]
          _ ≤ 2 ^ log := zpow_le_zpow_right₀ one_le_two hlog.le
    · exact zpow_le_zpow_of_neg (by norm_num) two_pos (two_zpow_le_ten_zpow (by omega) (by omega))
  have hbehind : (2 : Rat) ^ (log + 1) ≤ 10 ^ (guess + 2) := by
    by_cases hlog : 0 ≤ log + 1
    · exact two_zpow_le_ten_zpow hlog (by omega)
    · by_cases hguess : guess + 2 ≤ 0
      · exact zpow_le_zpow_of_neg two_pos (by norm_num)
          (ten_zpow_le_two_zpow (by omega) (by omega))
      · calc (2 : Rat) ^ (log + 1) ≤ 2 ^ (0 : Int) :=
              zpow_le_zpow_right₀ one_le_two (by omega)
          _ = 10 ^ (0 : Int) := by rw [zpow_zero, zpow_zero]
          _ ≤ 10 ^ (guess + 2) := zpow_le_zpow_right₀ (by norm_num) (by omega)
  simp only [pointOf, ← hlogDef, ← hguess]
  split_ifs with hfirst hsecond
  · exact ⟨hbefore.trans hlow, isBelow_iff.mp hfirst⟩
  · refine ⟨?_, isBelow_iff.mp hsecond⟩
    rw [isBelow_iff, not_lt] at hfirst
    rwa [add_sub_cancel_right]
  · refine ⟨?_, hhigh.trans_le hbehind⟩
    rw [isBelow_iff, not_lt] at hsecond
    rwa [add_sub_assoc]

end Point

section Search

/-- Decimal digits up to half a binary step above a number; not that far where the significand is
odd. -/
def IsNear (significand : Nat) (exponent : Int) (x : Rat) : Prop :=
  x ≤ ((2 * significand + 1 : Nat) : Rat) * 2 ^ (exponent - 1) ∧
    (significand % 2 = 1 → x < ((2 * significand + 1 : Nat) : Rat) * 2 ^ (exponent - 1))

theorem half_step (significand : Nat) (exponent : Int) :
    ((4 * significand + 2 : Nat) : Rat) * 2 ^ (exponent - 2) =
      ((2 * significand + 1 : Nat) : Rat) * 2 ^ (exponent - 1) := by
  have htwice : 4 * significand + 2 = (2 * significand + 1) * 2 := by omega
  have hpower : exponent - 1 = 1 + (exponent - 2) := by omega
  rw [htwice, hpower, zpow_add₀ two_ne_zero, zpow_one, Nat.cast_mul, Nat.cast_ofNat, mul_assoc]

/-- A number is near itself and what is below it. -/
theorem isNear_of_le {x : Rat} (h : x ≤ significand * 2 ^ exponent) :
    IsNear significand exponent x := by
  have hlt : (significand : Rat) * 2 ^ exponent <
      ((2 * significand + 1 : Nat) : Rat) * 2 ^ (exponent - 1) := by
    rw [← quarters, ← half_step]
    exact mul_lt_mul_of_pos_right (by exact_mod_cast (by omega)) (by positivity)
  exact ⟨(h.trans_lt hlt).le, fun _ => h.trans_lt hlt⟩

/-- A decimal number that reads back is near. -/
theorem isNear_of_readsBack {c : Nat} (h : readsBack significand exponent grid c = true) :
    IsNear significand exponent (c * 10 ^ grid) := by
  simp only [readsBack] at h
  by_cases heven : significand % 2 = 0
  · rw [if_pos heven, Bool.and_eq_true, decide_eq_true_iff, decide_eq_true_iff,
      le_mul_factors_iff, half_step] at h
    exact ⟨h.2, fun hodd => by omega⟩
  · rw [if_neg heven, Bool.and_eq_true, decide_eq_true_iff, decide_eq_true_iff,
      lt_mul_factors_iff, half_step] at h
    exact ⟨h.2.le, fun _ => h.2⟩

/-- The decimal number right below a number on a grid. -/
def below (significand : Nat) (exponent grid : Int) : Nat :=
  4 * significand * (factors exponent grid).1 / (factors exponent grid).2

theorem below_mul_le : (below significand exponent grid : Rat) * 10 ^ grid ≤
    significand * 2 ^ exponent := by
  rw [← quarters, ← le_mul_factors_iff]
  exact Nat.div_mul_le_self _ _

/-- Where the point is right before the first digit, the decimal numbers right below have as many
digits as the grid has places. -/
theorem below_bounds {count : Nat} (hcount : 1 ≤ count)
    (hlow : (10 : Rat) ^ (point - 1) ≤ significand * 2 ^ exponent)
    (hhigh : (significand : Rat) * 2 ^ exponent < 10 ^ point) :
    10 ^ (count - 1) ≤ below significand exponent (point - count) ∧
      below significand exponent (point - count) < 10 ^ count := by
  have hpower (k : Nat) : ((10 ^ k : Nat) : Rat) * 10 ^ (point - count) =
      10 ^ (point - count + k) := by
    rw [Nat.cast_pow, Nat.cast_ofNat, mul_comm, zpow_add₀ (by norm_num), zpow_natCast]
  constructor
  · rw [below, Nat.le_div_iff_mul_le (factors_pos _ _), le_mul_factors_iff, quarters, hpower]
    have hplaces : point - count + (count - 1 : Nat) = point - 1 := by omega
    rwa [hplaces]
  · rw [below, Nat.div_lt_iff_lt_mul (factors_pos _ _), mul_factors_lt_iff, quarters, hpower]
    rwa [sub_add_cancel]

theorem onGrid?_eq_some {c : Nat} (h : onGrid? significand exponent grid = some c) :
    (c = below significand exponent grid ∨ c = below significand exponent grid + 1) ∧
      readsBack significand exponent grid c = true := by
  simp only [onGrid?] at h
  split_ifs at h with hboth hless hmore heven hbelow habove
  all_goals
    obtain rfl := Option.some.inj h
    simp_all [below]

theorem length_digitsOf {n count : Nat} (hcount : 1 ≤ count) (hlow : 10 ^ (count - 1) ≤ n)
    (hhigh : n < 10 ^ count) : (digitsOf n).length = count := by
  have hle : (digitsOf n).length ≤ count :=
    (Nat.length_toDigits_le_iff (by decide) hcount).mpr hhigh
  have hpos : 0 < (digitsOf n).length := Nat.length_toDigits_pos
  by_cases hone : count = 1
  · omega
  · have hnot : ¬ (digitsOf n).length ≤ count - 1 := by
      rw [digitsOf, Nat.length_toDigits_le_iff (by decide) (by omega)]
      exact Nat.not_lt.mpr hlow
    omega

theorem value_of_bounds {n count : Nat} (hcount : 1 ≤ count) (hlow : 10 ^ (count - 1) ≤ n)
    (hhigh : n < 10 ^ count) : (⟨n, point⟩ : Digits).value = n * 10 ^ (point - count) := by
  rw [Digits.value, length_digitsOf hcount hlow hhigh]

/-- The digits that are found are not zero and are near the number. -/
theorem search_spec (hlow : (10 : Rat) ^ (point - 1) ≤ significand * 2 ^ exponent)
    (hhigh : (significand : Rat) * 2 ^ exponent < 10 ^ point) (fuel : Nat) {count : Nat}
    (hcount : 1 ≤ count) :
    let d := search significand exponent point fuel count
    d.digits ≠ 0 ∧ IsNear significand exponent d.value := by
  induction fuel generalizing count with
  | zero =>
      obtain ⟨hleast, hgreatest⟩ := below_bounds hcount hlow hhigh
      have hpos : 0 < 10 ^ (count - 1) := Nat.pow_pos (by decide)
      refine ⟨(hpos.trans_le hleast).ne', isNear_of_le ?_⟩
      change (⟨below significand exponent (point - count), point⟩ : Digits).value ≤ _
      rw [value_of_bounds hcount hleast hgreatest]
      exact below_mul_le
  | succ fuel ih =>
      rw [search]
      cases hgrid : onGrid? significand exponent (point - count) with
      | none => exact ih (Nat.le_add_right_of_le hcount)
      | some c =>
          obtain ⟨hleast, hgreatest⟩ := below_bounds hcount hlow hhigh
          obtain ⟨hc, hreads⟩ := onGrid?_eq_some hgrid
          have hpos : 0 < 10 ^ (count - 1) := Nat.pow_pos (by decide)
          have hnear := isNear_of_readsBack hreads
          dsimp only
          rw [Nat.pow_eq]
          split
          · rename_i hfull
            refine ⟨Nat.one_ne_zero, ?_⟩
            have hvalue : (⟨1, point + 1⟩ : Digits).value = c * 10 ^ (point - count) := by
              rw [value_of_bounds (Nat.le_refl 1) (Nat.le_refl 1) (by decide), hfull]
              simp only [Nat.cast_pow, Nat.cast_one, one_mul, Nat.cast_ofNat]
              rw [← zpow_natCast, ← zpow_add₀ (by norm_num)]
              congr 1
              omega
            rwa [hvalue]
          · rename_i hfull
            have hpositive : c ≠ 0 := by omega
            refine ⟨hpositive, ?_⟩
            rw [value_of_bounds hcount (by omega) (by omega)]
            exact hnear

end Search

/-- What is near a finite number is below the overflow. -/
theorem IsNear.lt_overflow {x : Rat} (h : IsNear significand exponent x)
    (hsignificand : significand < 2 ^ 53) (hmax : exponent ≤ Binary64.maxExponent) :
    x < Binary64.overflow := by
  have hpow : (2 : Rat) ^ (exponent - 1) ≤ 2 ^ (970 : Int) :=
    zpow_le_zpow_right₀ one_le_two (by rw [Binary64.maxExponent] at hmax; omega)
  have hlast : ((2 * significand + 1 : Nat) : Rat) * 2 ^ (exponent - 1) ≤ Binary64.overflow := by
    rw [Binary64.cast_overflow]
    exact mul_le_mul (by exact_mod_cast (by omega)) hpow (by positivity) (by norm_num)
  by_cases hodd : significand % 2 = 1
  · exact (h.2 hodd).trans_le hlast
  · refine h.1.trans_lt ?_
    rw [Binary64.cast_overflow]
    calc ((2 * significand + 1 : Nat) : Rat) * 2 ^ (exponent - 1)
        ≤ ((2 * significand + 1 : Nat) : Rat) * 2 ^ (970 : Int) :=
          mul_le_mul_of_nonneg_left hpow (Nat.cast_nonneg _)
      _ < ((2 ^ 54 - 1 : Nat) : Rat) * 2 ^ (970 : Int) :=
          mul_lt_mul_of_pos_right (by exact_mod_cast (by omega)) (zpow_pos two_pos _)

end Shortest

namespace Binary64

open Script

/-- A literal of zero. -/
def zeroNumeral : Numeral where
  negative := false
  whole := ['0']
  fraction := some ['0']
  exponent := none
  isDigit_of_mem := List.all_eq_true.mp (by decide)
  digits_ne_nil := by decide
  eq_zero_of_head := fun _ => rfl

/-- The body of the text of a finite number is a literal below the overflow. -/
theorem exists_body {negative : Bool} {significand : Nat} {exponent : Int}
    (h : InRange (finite negative significand exponent)) :
    ∃ n : Numeral, n.magnitude < overflow ∧ n.negative = false ∧
      n.body = if significand = 0 then ['0', '.', '0']
        else Shortest.layout (Shortest.ofPositive significand exponent) := by
  obtain ⟨hsignificand, hmin, hmax⟩ := h
  by_cases hpos : significand = 0
  · rw [if_pos hpos]
    refine ⟨zeroNumeral, ?_, rfl, rfl⟩
    have hvalue : zeroNumeral.mantissa = 0 := by decide
    rw [Numeral.magnitude, hvalue, Nat.cast_zero, zero_mul, cast_overflow]
    exact mul_pos (by norm_num) (zpow_pos two_pos _)
  · rw [if_neg hpos]
    obtain ⟨hlow, hhigh⟩ := Shortest.pointOf_spec hpos hsignificand hmin hmax
    obtain ⟨hdigits, hnear⟩ := Shortest.search_spec hlow hhigh 17 (Nat.le_refl 1)
    obtain ⟨n, hsign, hbody, hvalue⟩ := Shortest.exists_layout hdigits
    exact ⟨n, hvalue ▸ hnear.lt_overflow hsignificand hmax, hsign, hbody⟩

theorem isFiniteLiteral_text {x : Binary64} (h : InRange x) (hx : IsFinite x) :
    IsFiniteLiteral x.text := by
  cases x with
  | finite negative significand exponent =>
      obtain ⟨n, hvalue, hsign, hbody⟩ := exists_body h
      refine ⟨n.withSign negative, ?_, hvalue⟩
      have hsame : (n.withSign negative).body = n.body := rfl
      rw [Numeral.chars, hsame, hbody, text, String.toList_ofList]
      cases negative <;> rfl
  | infinite => exact hx.elim
  | notANumber => exact hx.elim

/-- A number of the format is written as a literal of a finite number exactly where it is finite. -/
theorem isFiniteLiteral_text_iff {x : Binary64} (h : InRange x) :
    IsFiniteLiteral x.text ↔ IsFinite x := by
  refine ⟨fun ht => ?_, isFiniteLiteral_text h⟩
  have hword (t : String) (hmem : 'n' ∈ t.toList) : ¬ IsFiniteLiteral t :=
    not_isFiniteLiteral_of_mem hmem (by unfold IsLiteralChar; decide)
  cases x with
  | finite => trivial
  | infinite negative => cases negative <;> exact absurd ht (hword _ (by decide))
  | notANumber => exact absurd ht (hword _ (by decide))

end Binary64

namespace Number

open Script

/-- Whether a number is finite; an integer is if it is not rounded to an infinity. -/
def IsFinite : Number → Prop
  | whole i => i.natAbs < Binary64.overflow
  | real x => x.IsFinite

instance : DecidablePred IsFinite
  | whole i => inferInstanceAs (Decidable (i.natAbs < Binary64.overflow))
  | real x => inferInstanceAs (Decidable x.IsFinite)

/-- A number that is not an integer is one of the format. -/
def InRange : Number → Prop
  | whole _ => True
  | real x => x.InRange

variable {n : Number}

theorem inRange_ofBinary {x : Binary64} (h : x.InRange) : InRange (ofBinary x) := by
  unfold ofBinary
  split
  · trivial
  · exact h

theorem inRange_addInt (h : InRange n) (i : Int) : InRange (n.addInt i) := by
  cases n with
  | whole j => trivial
  | real x => exact Binary64.inRange_addInt h i

theorem inRange_mulNat (n : Number) (k : Nat) : InRange (n.mulNat k) := by
  cases n with
  | whole j => trivial
  | real x => exact Binary64.inRange_mulNat x k

theorem inRange_of_numberOfText? {s : String} (h : Parameter.numberOfText? s = some n) :
    InRange n := by
  obtain ⟨x, hread, rfl⟩ := Option.map_eq_some_iff.mp h
  exact inRange_ofBinary (Binary64.inRange_of_ofChars? hread)

/-- The text of a number is a literal of a finite number exactly where the number is finite. -/
theorem isFiniteLiteral_text_iff (h : InRange n) : IsFiniteLiteral n.text ↔ n.IsFinite := by
  cases n with
  | whole i => exact isFiniteLiteral_intText_iff i
  | real x => exact Binary64.isFiniteLiteral_text_iff h

/-- The characters of numbers are those of literals and of the words for what is not finite. -/
theorem isLiteralChar_of_mem_text (h : InRange n) {c : Char} (hc : c ∈ n.text.toList) :
    IsLiteralChar c ∨ c ∈ ['i', 'n', 'f', 'a'] := by
  cases n with
  | whole i =>
      rcases Binary64.isNumeral_of_mem_intText hc with rfl | hdigit
      · exact .inl (.inr (by decide))
      · exact .inl (.inl (Binary64.isDigit_iff.mpr hdigit))
  | real x =>
      by_cases hx : x.IsFinite
      · obtain ⟨m, hchars, -⟩ := Binary64.isFiniteLiteral_text h hx
        exact .inl (m.isLiteralChar_of_mem (hchars ▸ hc))
      · have hword : (real x).text ∈ ["-inf", "inf", "nan"] := by
          cases x with
          | finite => exact absurd trivial hx
          | infinite negative => cases negative <;> decide
          | notANumber => decide
        have hchars : ∀ t ∈ ["-inf", "inf", "nan"], t.toList ⊆ ['-', 'i', 'n', 'f', 'a'] := by
          decide
        rcases List.mem_cons.mp (hchars _ hword hc) with rfl | hletter
        · exact .inl (.inr (by decide))
        · exact .inr hletter

end Number

end RuleSchema
