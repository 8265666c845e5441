import Mathlib.Data.List.TakeWhile
import Mathlib.Data.Rat.Lemmas
import RuleSchema.Rule.Parameter

/-!
# Integers and their decimal texts

An integer of at most 53 bits is a binary number exactly, so as a parameter it stands for itself,
and its decimal text, read as a binary number, stands for it as well.
-/

namespace RuleSchema

namespace Binary64

section Exact

variable {n : Nat}

theorem roundHalfEven_one (n : Nat) : roundHalfEven n 1 = n := by
  simp [roundHalfEven, Nat.mod_one]

theorem scaled_neg (n k : Nat) : scaled n 1 (-(k : Int)) = (n * 2 ^ k, 1) := by
  cases k with
  | zero => simp [scaled]
  | succ k =>
      have hneg : ¬ (0 : Int) ≤ -((k + 1 : Nat) : Int) := by omega
      rw [scaled, if_neg hneg, Int.neg_neg, Int.toNat_natCast]
      rfl

/-- An integer of at most 53 bits needs no rounding. -/
theorem ofRatio_one (hn : n < 2 ^ 53) (negative : Bool) :
    ∃ k : Nat, ofRatio negative n 1 = finite negative (n * 2 ^ k) (-(k : Int)) := by
  by_cases hpos : n = 0
  · refine ⟨1074, ?_⟩
    rw [hpos, Nat.zero_mul]
    rfl
  have hlog : n.log2 < 53 := (Nat.log2_lt hpos).mpr hn
  obtain ⟨k, hk⟩ : ∃ k, n.log2 + k = 52 := ⟨52 - n.log2, by omega⟩
  have hlow : 2 ^ 52 ≤ n * 2 ^ k := by
    rw [← hk, Nat.pow_add]
    exact Nat.mul_le_mul_right _ (Nat.log2_self_le hpos)
  have hhigh : n * 2 ^ k < 2 ^ 53 := by
    have hlt := (Nat.mul_lt_mul_right (Nat.two_pow_pos k)).mpr (Nat.lt_log2_self (n := n))
    rwa [← Nat.pow_add, Nat.add_right_comm, hk] at hlt
  have hfit : fittingExponent n 1 = -(k : Int) := by
    have hguess : (n.log2 : Int) - Nat.log2 1 - 52 = -(k : Int) := by
      have hone : Nat.log2 1 = 0 := by decide
      omega
    have hfull : ¬ n * 2 ^ k / 1 < minFull := by
      rw [Nat.div_one]
      exact Nat.not_lt.mpr hlow
    simp only [fittingExponent, hguess, scaled_neg, if_neg hfull]
    rw [minExponent]
    omega
  have hnarrow : n * 2 ^ k ≠ 2 * minFull := Nat.ne_of_lt hhigh
  have hexponent : ¬ maxExponent < -(k : Int) := by
    rw [maxExponent]
    omega
  refine ⟨k, ?_⟩
  simp only [ofRatio, if_neg hpos, hfit, scaled_neg, roundHalfEven_one, if_neg hnarrow,
    if_neg hexponent]

theorem toRat?_shifted (n k : Nat) (negative : Bool) :
    (finite negative (n * 2 ^ k) (-(k : Int))).toRat? =
      some (if negative then -(n : Rat) else n) := by
  have hmagnitude : (if (0 : Int) ≤ -(k : Int) then
      ((n * 2 ^ k * Nat.pow 2 (-(k : Int)).toNat : Nat) : Rat)
      else mkRat (n * 2 ^ k : Nat) (Nat.pow 2 (- -(k : Int)).toNat)) = (n : Rat) := by
    cases k with
    | zero => simp
    | succ k =>
        have hneg : ¬ (0 : Int) ≤ -((k + 1 : Nat) : Int) := by omega
        have hone := Rat.mkRat_mul_right (n := n) (d := 1) (Nat.two_pow_pos (k + 1)).ne'
        rw [if_neg hneg, Int.neg_neg, Int.toNat_natCast, ← Nat.one_mul (Nat.pow 2 (k + 1)),
          Nat.cast_mul]
        exact hone.trans (Rat.mkRat_one n)
  rw [toRat?, hmagnitude]

/-- An integer of at most 53 bits is the number nearest to it. -/
theorem toInt?_ofInt {i : Int} (hi : i.natAbs < 2 ^ 53) : (ofInt i).toInt? = some i := by
  have hvalue : (ofInt i).toRat? = some (i : Rat) := by
    obtain ⟨k, hk⟩ := ofRatio_one hi (decide (i < 0))
    rw [ofInt, hk, toRat?_shifted]
    congr 1
    by_cases hneg : i < 0
    · rw [decide_eq_true hneg, if_pos rfl, ← Int.cast_natCast, Int.ofNat_natAbs_of_nonpos hneg.le,
        Int.cast_neg, neg_neg]
    · rw [decide_eq_false hneg, if_neg Bool.false_ne_true, ← Int.cast_natCast,
        Int.natAbs_of_nonneg (not_lt.mp hneg)]
  simp [toInt?, hvalue]

/-- An integer of at most 53 bits is not too large. -/
theorem ofInt_ne_infinite {i : Int} (hi : i.natAbs < 2 ^ 53) (negative : Bool) :
    ofInt i ≠ infinite negative := by
  intro h
  have hvalue := toInt?_ofInt hi
  rw [h] at hvalue
  cases hvalue

end Exact

section Reading

/-- The characters of a written integer. -/
def IsNumeral (c : Char) : Prop := c = '-' ∨ 48 ≤ c.toNat ∧ c.toNat ≤ 57

theorem isDigit_iff {c : Char} : c.isDigit = true ↔ 48 ≤ c.toNat ∧ c.toNat ≤ 57 := by
  simp only [Char.isDigit, Bool.and_eq_true, decide_eq_true_eq]
  rfl

theorem isBlank_of_isNumeral {c : Char} (h : IsNumeral c) : Text.isBlank c = false := by
  rcases h with rfl | h
  · decide
  · simp only [Text.isBlank, Bool.or_eq_false_iff, Bool.and_eq_false_iff,
      decide_eq_false_iff_not, beq_eq_false_iff_ne]
    omega

theorem isMargin_of_isNumeral {c : Char} (h : IsNumeral c) : isMargin c = false := by
  rcases h with rfl | h
  · decide
  · have hspace : c ≠ ' ' := by
      rintro rfl
      exact absurd h (by decide)
    have hascii : c.toNat < 128 := by omega
    simp only [isMargin, if_pos hascii, Bool.or_eq_false_iff, Bool.and_eq_false_iff,
      decide_eq_false_iff_not, beq_eq_false_iff_ne]
    exact ⟨hspace, by omega⟩

theorem plainDigit_of_isNumeral {c : Char} (h : IsNumeral c) : plainDigit c = c := by
  rcases h with rfl | h
  · decide
  · have hdigit := Text.decimalDigit?_ascii (c := c) h.1 h.2
    rw [plainDigit, hdigit]
    simp only [Nat.add_sub_cancel' h.1]
    exact Char.ofNat_toNat c

theorem dropUnderscores?_of_forall {cs : List Char} (h : ∀ c ∈ cs, c ≠ '_') (afterDigit : Bool) :
    dropUnderscores? afterDigit cs = some cs := by
  induction cs generalizing afterDigit with
  | nil => rfl
  | cons c rest ih =>
      have hrest := ih (fun d hd => h d (List.mem_cons_of_mem c hd)) c.isDigit
      rw [dropUnderscores?, hrest]
      · rfl
      · exact h c List.mem_cons_self

theorem readUnsigned?_digits {digits : List Char} (hne : digits ≠ [])
    (h : ∀ c ∈ digits, c.isDigit = true) (negative : Bool) :
    readUnsigned? negative digits = some (ofDecimal negative (digitsValue digits) 0) := by
  have htake : digits.takeWhile Char.isDigit = digits := List.takeWhile_eq_self_iff.mpr h
  have hdrop : digits.dropWhile Char.isDigit = [] := List.dropWhile_eq_nil_iff.mpr h
  simp [readUnsigned?, htake, hdrop, hne, readExponent?]

theorem ofDecimal_zero {n : Nat} (hn : n < 2 ^ 53) (negative : Bool) :
    ofDecimal negative n 0 = ofRatio negative n 1 := by
  by_cases hpos : n = 0
  · subst hpos
    rfl
  · have hlog : n.log2 < 53 := (Nat.log2_lt hpos).mpr hn
    have hlarge : ¬ 400 < (n.log2 : Int) / 4 + 0 := by omega
    have hsmall : ¬ (n.log2 : Int) / 3 + 1 + 0 < -400 := by omega
    simp only [ofDecimal, if_neg hpos, if_neg hlarge, if_neg hsmall]
    exact congrArg (ofRatio negative · 1) (Nat.mul_one n)

end Reading

end Binary64

theorem digitsValue_digitsOf (n : Nat) : Binary64.digitsValue (digitsOf n) = n :=
  Nat.ofDigitChars_toDigits (by decide) (by decide)

theorem isDigit_of_mem_digitsOf {n : Nat} {c : Char} (h : c ∈ digitsOf n) : c.isDigit = true :=
  Nat.isDigit_of_mem_toDigits (by decide) (by decide) h

theorem toList_intText (i : Int) :
    (intText i).toList = if i < 0 then '-' :: digitsOf i.natAbs else digitsOf i.natAbs :=
  String.toList_ofList

namespace Binary64

theorem isNumeral_of_mem_intText {i : Int} {c : Char} (h : c ∈ (intText i).toList) :
    IsNumeral c := by
  rw [toList_intText] at h
  split at h
  · rcases List.mem_cons.mp h with rfl | h
    · exact .inl rfl
    · exact .inr (isDigit_iff.mp (isDigit_of_mem_digitsOf h))
  · exact .inr (isDigit_iff.mp (isDigit_of_mem_digitsOf h))

theorem readSign_intText (i : Int) :
    readSign (intText i).toList = (decide (i < 0), digitsOf i.natAbs) := by
  rw [toList_intText]
  by_cases hneg : i < 0
  · rw [if_pos hneg, decide_eq_true hneg]
    rfl
  · rw [if_neg hneg, decide_eq_false hneg]
    cases hdigits : digitsOf i.natAbs with
    | nil => rfl
    | cons c rest =>
        have hc : c.isDigit = true := isDigit_of_mem_digitsOf (hdigits ▸ List.mem_cons_self)
        rw [readSign]
        · rintro _ ⟨⟩
          exact absurd hc (by decide)
        · rintro _ ⟨⟩
          exact absurd hc (by decide)

/-- No word for infinity, or for what is not a number, starts with a digit. -/
theorem lower_ne_of_isDigit {digits : List Char} (hne : digits ≠ [])
    (h : ∀ c ∈ digits, c.isDigit = true) (first : Char) (word : List Char)
    (hfirst : first.isDigit = false) : (digits.map Char.toLower == first :: word) = false := by
  obtain ⟨c, rest, rfl⟩ := List.exists_cons_of_ne_nil hne
  have hc := h c List.mem_cons_self
  rw [beq_eq_false_iff_ne]
  intro heq
  have hlower : c.toLower = c := by
    refine dif_neg fun hupper => ?_
    have hlow : 65 ≤ c.toNat := hupper.1
    have hbounds := isDigit_iff.mp hc
    omega
  rw [List.map_cons, hlower, List.cons.injEq] at heq
  rw [heq.1, hfirst] at hc
  cases hc

/-- The decimal text of an integer reads as the number nearest to it. -/
theorem ofChars?_intText {i : Int} (hi : i.natAbs < 2 ^ 53) :
    ofChars? (intText i).toList = some (ofInt i) := by
  have hnumeral : ∀ c ∈ (intText i).toList, IsNumeral c := fun c => isNumeral_of_mem_intText
  have hplain : (intText i).toList.map plainDigit = (intText i).toList :=
    (List.map_congr_left fun c hc => plainDigit_of_isNumeral (hnumeral c hc)).trans (List.map_id _)
  have hbare : dropUnderscores? false (intText i).toList = some (intText i).toList := by
    refine dropUnderscores?_of_forall (fun c hc => ?_) false
    rintro rfl
    exact absurd (hnumeral _ hc) (by simp [IsNumeral])
  have hdigits : ∀ c ∈ digitsOf i.natAbs, c.isDigit = true := fun c => isDigit_of_mem_digitsOf
  have hne : digitsOf i.natAbs ≠ [] := Nat.toDigits_ne_nil
  have hinf := lower_ne_of_isDigit hne hdigits 'i' ['n', 'f'] (by decide)
  have hinfinity := lower_ne_of_isDigit hne hdigits 'i' "nfinity".toList (by decide)
  have hnan := lower_ne_of_isDigit hne hdigits 'n' ['a', 'n'] (by decide)
  have hword : "infinity".toList = 'i' :: "nfinity".toList := by decide
  rw [ofChars?, Text.strip_of_forall fun c hc => isMargin_of_isNumeral (hnumeral c hc), hplain,
    hbare, Option.bind_some, readSign_intText]
  simp only [hinf, hword, hinfinity, hnan, Bool.or_self, Bool.false_eq_true, if_false]
  rw [readUnsigned?_digits hne hdigits, digitsValue_digitsOf, ofDecimal_zero hi]
  rfl

end Binary64

namespace Parameter

variable {i : Int}

/-- An integer of at most 53 bits stands for itself. -/
theorem number?_ofInt (hi : i.natAbs < 2 ^ 53) : (ofInt i).number? = .ok (some (.whole i)) := by
  rw [ofInt, number?]
  cases hbinary : Binary64.ofInt i with
  | finite | notANumber => rfl
  | infinite negative => exact absurd hbinary (Binary64.ofInt_ne_infinite hi negative)

/-- The decimal text of an integer of at most 53 bits stands for the integer. -/
theorem number?_intText (hi : i.natAbs < 2 ^ 53) :
    (text (intText i)).number? = .ok (some (.whole i)) := by
  have hbare : Text.trimChars (intText i).toList = (intText i).toList :=
    Text.strip_of_forall fun c hc =>
      Binary64.isBlank_of_isNumeral (Binary64.isNumeral_of_mem_intText hc)
  rw [number?, numberOfText?, hbare, Binary64.ofChars?_intText hi, Option.map_some,
    Number.ofBinary, Binary64.toInt?_ofInt hi]

end Parameter

/-- Different integers have different texts. -/
theorem intText_injective : Function.Injective intText := by
  intro i j h
  have hread := congrArg (fun s : String => Binary64.readSign s.toList) h
  have hsign := (Binary64.readSign_intText i).symm.trans (hread.trans (Binary64.readSign_intText j))
  rw [Prod.mk.injEq, decide_eq_decide] at hsign
  have habs : i.natAbs = j.natAbs := by
    rw [← digitsValue_digitsOf i.natAbs, hsign.2, digitsValue_digitsOf]
  omega

end RuleSchema
