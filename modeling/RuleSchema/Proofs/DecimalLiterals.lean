import RuleSchema.Proofs.RoundedNumbers
import RuleSchema.Proofs.WrittenIntegers

/-!
# Decimal literals

The grammar of decimal literals of the target language, the values that they have, and the way in
which decimal notation is read and digits are laid out. What is read from a literal is its value,
rounded, and digits are laid out as a literal of their value.

## Implementation notes

Separators between digits are left out of the grammar: no text is written with them.
-/

namespace RuleSchema

section Digits

theorem digitsValue_append (cs ds : List Char) :
    Binary64.digitsValue (cs ++ ds) =
      Binary64.digitsValue cs * 10 ^ ds.length + Binary64.digitsValue ds := by
  change Nat.ofDigitChars 10 (cs ++ ds) 0 = Nat.ofDigitChars 10 cs 0 * _ + Nat.ofDigitChars 10 ds 0
  rw [Nat.ofDigitChars_append, Nat.ofDigitChars_eq_ofDigitChars_zero, Nat.mul_comm]

theorem digitsValue_zeros (k : Nat) : Binary64.digitsValue (zeros k) = 0 :=
  Nat.ofDigitChars_replicate_zero

theorem isDigit_of_mem_zeros {k : Nat} {c : Char} (h : c ∈ zeros k) : c.isDigit = true := by
  rw [List.eq_of_mem_replicate h]
  decide

/-- Decimal digits start with a zero only for zero itself. -/
theorem eq_zero_of_head?_digitsOf {n : Nat} (h : (digitsOf n).head? = some '0') : n = 0 := by
  induction n using Nat.strongRecOn with
  | ind n ih =>
      rw [digitsOf, Nat.toDigits_eq_if (by decide)] at h
      split at h
      · exact Nat.digitChar_eq_zero.mp (Option.some.inj h)
      · rename_i hlarge
        rw [List.head?_append_of_ne_nil _ Nat.toDigits_ne_nil] at h
        have hzero := ih (n / 10) (by omega) h
        omega

end Digits

namespace Script

/-- The exponent of a literal. -/
structure Exponent where
  mark : Char
  sign : List Char
  digits : List Char
  mark_eq : mark = 'e' ∨ mark = 'E'
  sign_mem : sign ∈ [[], ['-'], ['+']]
  digits_ne_nil : digits ≠ []
  isDigit_of_mem : ∀ c ∈ digits, c.isDigit = true

/-- A decimal literal, which may have a minus in front of it. It has a digit before or behind its
point, and starts with a zero only where that is all there is before the point. -/
structure Numeral where
  negative : Bool
  whole : List Char
  fraction : Option (List Char)
  exponent : Option Exponent
  isDigit_of_mem : ∀ c ∈ whole ++ fraction.getD [], c.isDigit = true
  digits_ne_nil : whole ++ fraction.getD [] ≠ []
  eq_zero_of_head : whole.head? = some '0' → whole = ['0']

namespace Exponent

def chars (e : Exponent) : List Char := e.mark :: (e.sign ++ e.digits)

def value (e : Exponent) : Int :=
  if e.sign = ['-'] then -(Binary64.digitsValue e.digits : Int)
  else Binary64.digitsValue e.digits

/-- The text of an integer as an exponent. -/
theorem exists_exponentChars (i : Int) :
    ∃ e : Exponent, e.chars = Shortest.exponentChars i ∧ e.value = i := by
  let digits := zeros (2 - (digitsOf i.natAbs).length) ++ digitsOf i.natAbs
  have hvalue : Binary64.digitsValue digits = i.natAbs := by
    rw [digitsValue_append, digitsValue_zeros, Nat.zero_mul, Nat.zero_add, digitsValue_digitsOf]
  have hdigit : ∀ c ∈ digits, c.isDigit = true := by
    intro c hc
    rcases List.mem_append.mp hc with hc | hc
    · exact isDigit_of_mem_zeros hc
    · exact isDigit_of_mem_digitsOf hc
  have hne : digits ≠ [] := List.append_ne_nil_of_right_ne_nil _ Nat.toDigits_ne_nil
  by_cases hneg : i < 0
  · refine ⟨⟨'e', ['-'], digits, .inl rfl, by simp, hne, hdigit⟩, ?_, ?_⟩
    · simp only [chars, Shortest.exponentChars, if_pos hneg]
      rfl
    · rw [value, if_pos rfl, hvalue]
      omega
  · refine ⟨⟨'e', ['+'], digits, .inl rfl, by simp, hne, hdigit⟩, ?_, ?_⟩
    · simp only [chars, Shortest.exponentChars, if_neg hneg]
      rfl
    · rw [value, if_neg (by simp), hvalue]
      omega

end Exponent

namespace Numeral

/-- A literal without its minus. -/
def body (n : Numeral) : List Char :=
  n.whole ++ ((n.fraction.elim [] ('.' :: ·)) ++ n.exponent.elim [] Exponent.chars)

def chars (n : Numeral) : List Char := (if n.negative then ['-'] else []) ++ n.body

/-- All digits before the exponent as one integer. -/
def mantissa (n : Numeral) : Nat := Binary64.digitsValue (n.whole ++ n.fraction.getD [])

/-- The power of ten that belongs to the mantissa. -/
def power (n : Numeral) : Int := n.exponent.elim 0 Exponent.value - (n.fraction.getD []).length

/-- The value of a literal, its minus aside. -/
def magnitude (n : Numeral) : Rat := n.mantissa * 10 ^ n.power

/-- A literal with a minus or without one. -/
def withSign (negative : Bool) (n : Numeral) : Numeral := { n with negative := negative }

end Numeral

section Reading

open Binary64

/-- The characters of literals. -/
def IsLiteralChar (c : Char) : Prop := c.isDigit = true ∨ c ∈ ['-', '+', '.', 'e', 'E']

theorem forall_mem_marks {p : Char → Prop} :
    (∀ c ∈ ['-', '+', '.', 'e', 'E'], p c) ↔ p '-' ∧ p '+' ∧ p '.' ∧ p 'e' ∧ p 'E' := by
  simp

theorem isMargin_of_isLiteralChar {c : Char} (h : IsLiteralChar c) : isMargin c = false := by
  rcases h with hdigit | hmark
  · exact isMargin_of_isNumeral (.inr (isDigit_iff.mp hdigit))
  · have hmarks : ∀ c ∈ ['-', '+', '.', 'e', 'E'], isMargin c = false :=
      forall_mem_marks.mpr (by decide)
    exact hmarks c hmark

theorem isBlank_of_isLiteralChar {c : Char} (h : IsLiteralChar c) : Text.isBlank c = false := by
  rcases h with hdigit | hmark
  · exact isBlank_of_isNumeral (.inr (isDigit_iff.mp hdigit))
  · have hmarks : ∀ c ∈ ['-', '+', '.', 'e', 'E'], Text.isBlank c = false :=
      forall_mem_marks.mpr (by decide)
    exact hmarks c hmark

theorem plainDigit_of_isLiteralChar {c : Char} (h : IsLiteralChar c) : plainDigit c = c := by
  rcases h with hdigit | hmark
  · exact plainDigit_of_isNumeral (.inr (isDigit_iff.mp hdigit))
  · have hmarks : ∀ c ∈ ['-', '+', '.', 'e', 'E'], plainDigit c = c :=
      forall_mem_marks.mpr (by decide)
    exact hmarks c hmark

theorem ne_underscore_of_isLiteralChar {c : Char} (h : IsLiteralChar c) : c ≠ '_' := by
  rintro rfl
  revert h
  unfold IsLiteralChar
  decide

theorem Exponent.isLiteralChar_of_mem {e : Exponent} {c : Char} (h : c ∈ e.chars) :
    IsLiteralChar c := by
  rcases List.mem_cons.mp h with rfl | h
  · exact .inr (by rcases e.mark_eq with h | h <;> simp [h])
  · rcases List.mem_append.mp h with h | h
    · have hsign := e.sign_mem
      simp only [List.mem_cons, List.not_mem_nil, or_false] at hsign
      rcases hsign with hsign | hsign | hsign <;> simp_all [IsLiteralChar]
    · exact .inl (e.isDigit_of_mem c h)

/-- The exponent of a literal is read as its value. -/
theorem readExponent?_chars (e : Exponent) : readExponent? e.chars = some e.value := by
  have hne : e.digits.isEmpty = false := List.isEmpty_eq_false_iff.mpr e.digits_ne_nil
  have hall : e.digits.all Char.isDigit = true := List.all_eq_true.mpr e.isDigit_of_mem
  have hmark : (e.mark == 'e' || e.mark == 'E') = true := by
    rcases e.mark_eq with h | h <;> simp [h]
  have hsign : readSign (e.sign ++ e.digits) = (decide (e.sign = ['-']), e.digits) := by
    have hsign := e.sign_mem
    simp only [List.mem_cons, List.not_mem_nil, or_false] at hsign
    rcases hsign with hsign | hsign | hsign
    · obtain ⟨c, rest, hdigits⟩ := List.exists_cons_of_ne_nil e.digits_ne_nil
      have hc := e.isDigit_of_mem c (hdigits ▸ List.mem_cons_self)
      rw [hsign, hdigits, List.nil_append, readSign]
      · rfl
      · rintro _ ⟨⟩
        exact absurd hc (by decide)
      · rintro _ ⟨⟩
        exact absurd hc (by decide)
    · rw [hsign]
      rfl
    · rw [hsign]
      rfl
  simp only [Exponent.chars, readExponent?, hsign, hmark, hne, hall, Bool.not_false, Bool.and_true,
    if_true, Exponent.value, decide_eq_true_eq]

/-- Digits end where something else begins. -/
theorem span_digits {digits rest : List Char} (h : ∀ c ∈ digits, c.isDigit = true)
    (hrest : ∀ c ∈ rest.head?, c.isDigit = false) :
    (digits ++ rest).takeWhile Char.isDigit = digits ∧
      (digits ++ rest).dropWhile Char.isDigit = rest := by
  rw [List.takeWhile_append_of_pos h, List.dropWhile_append_of_pos h]
  cases rest with
  | nil => exact ⟨List.append_nil _, rfl⟩
  | cons c rest =>
      have hc : ¬ c.isDigit = true := Bool.eq_false_iff.mp (hrest c rfl)
      rw [List.takeWhile_cons_of_neg hc, List.dropWhile_cons_of_neg hc, List.append_nil]
      exact ⟨rfl, rfl⟩

namespace Numeral

variable (n : Numeral)

/-- What stands behind the digits of a literal is its exponent, if anything. -/
theorem exponent_spec :
    let tail := n.exponent.elim [] Exponent.chars
    (∀ c ∈ tail.head?, c.isDigit = false ∧ c ≠ '.') ∧
      readExponent? tail = some (n.exponent.elim 0 Exponent.value) := by
  cases n.exponent with
  | none => exact ⟨fun c hc => (by cases hc), rfl⟩
  | some e =>
      refine ⟨fun c hc => ?_, readExponent?_chars e⟩
      obtain rfl : e.mark = c := Option.some.inj hc
      rcases e.mark_eq with h | h <;> rw [h] <;> decide

/-- A literal is read as its value, rounded. -/
theorem readUnsigned?_body (negative : Bool) :
    readUnsigned? negative n.body = some (ofDecimal negative n.mantissa n.power) := by
  obtain ⟨htail, hread⟩ := n.exponent_spec
  have hdigits := List.forall_mem_append.mp n.isDigit_of_mem
  have hne := n.digits_ne_nil
  cases hfraction : n.fraction with
  | none =>
      rw [hfraction, Option.getD_none, List.append_nil] at hne
      obtain ⟨htake, hdrop⟩ := span_digits hdigits.1 fun c hc => (htail c hc).1
      have hpoint : ∀ rest, n.exponent.elim [] Exponent.chars ≠ '.' :: rest := by
        intro rest h
        exact (htail '.' (by rw [h]; rfl)).2 rfl
      have hbody : n.body = n.whole ++ n.exponent.elim [] Exponent.chars := by
        rw [body, hfraction]
        rfl
      simp only [readUnsigned?, hbody, htake, hdrop, mantissa, power, hfraction]
      rw [if_neg (by simpa using hne), hread]
      rfl
  | some digits =>
      rw [hfraction, Option.getD_some] at hdigits hne
      obtain ⟨htake, hdrop⟩ := span_digits hdigits.2 fun c hc => (htail c hc).1
      have hpoint : ∀ c ∈ List.head? ('.' :: (digits ++ n.exponent.elim [] Exponent.chars)),
          c.isDigit = false := by
        intro c hc
        obtain rfl := Option.some.inj hc
        decide
      obtain ⟨hwhole, hrest⟩ := span_digits hdigits.1 hpoint
      have hbody : n.body = n.whole ++ '.' :: (digits ++ n.exponent.elim [] Exponent.chars) := by
        rw [body, hfraction]
        rfl
      simp only [readUnsigned?, hbody, hwhole, hrest, htake, hdrop, mantissa, power, hfraction]
      rw [if_neg (by simpa using hne), hread]
      rfl

theorem isLiteralChar_of_mem_body {c : Char} (h : c ∈ n.body) : IsLiteralChar c := by
  rcases List.mem_append.mp h with h | h
  · exact .inl (n.isDigit_of_mem c (List.mem_append_left _ h))
  · rcases List.mem_append.mp h with h | h
    · cases hfraction : n.fraction with
      | none =>
          rw [hfraction] at h
          cases h
      | some digits =>
          rw [hfraction] at h
          rcases List.mem_cons.mp h with rfl | h
          · exact .inr (by decide)
          · refine .inl (n.isDigit_of_mem c (List.mem_append_right _ ?_))
            rwa [hfraction]
    · cases hexponent : n.exponent with
      | none =>
          rw [hexponent] at h
          cases h
      | some e =>
          rw [hexponent] at h
          exact e.isLiteralChar_of_mem h

theorem isLiteralChar_of_mem {c : Char} (h : c ∈ n.chars) : IsLiteralChar c := by
  rcases List.mem_append.mp h with h | h
  · split at h
    · obtain rfl := List.mem_singleton.mp h
      exact .inr (by decide)
    · cases h
  · exact n.isLiteralChar_of_mem_body h

/-- A literal without its minus starts with a digit or with its point. -/
theorem exists_cons_body : ∃ c rest, n.body = c :: rest ∧ (c.isDigit = true ∨ c = '.') := by
  cases hwhole : n.whole with
  | cons c rest =>
      refine ⟨c, _, by rw [body, hwhole]; rfl, .inl (n.isDigit_of_mem c ?_)⟩
      rw [hwhole]
      exact List.mem_cons_self
  | nil =>
      cases hfraction : n.fraction with
      | none => exact absurd (by rw [hwhole, hfraction]; rfl) n.digits_ne_nil
      | some digits => exact ⟨'.', _, by rw [body, hwhole, hfraction]; rfl, .inr rfl⟩

theorem readSign_chars : readSign n.chars = (n.negative, n.body) := by
  obtain ⟨c, rest, hbody, hc⟩ := n.exists_cons_body
  rw [chars]
  cases n.negative with
  | true => rfl
  | false =>
      rw [hbody]
      change readSign (c :: rest) = _
      rw [readSign]
      · rintro _ ⟨⟩
        exact absurd hc (by decide)
      · rintro _ ⟨⟩
        exact absurd hc (by decide)

/-- A literal is none of the words for infinity and for what is not a number. -/
theorem lower_body_ne (first : Char) (word : List Char)
    (hfirst : first.isDigit = false ∧ first ≠ '.') :
    (n.body.map Char.toLower == first :: word) = false := by
  obtain ⟨c, rest, hbody, hc⟩ := n.exists_cons_body
  have hlower : c.toLower = c := by
    rcases hc with hdigit | rfl
    · refine dif_neg fun hupper => ?_
      have hlow : 65 ≤ c.toNat := hupper.1
      have hbounds := isDigit_iff.mp hdigit
      omega
    · rfl
  rw [beq_eq_false_iff_ne, hbody, List.map_cons, hlower]
  intro h
  obtain ⟨rfl, -⟩ := List.cons.inj h
  rcases hc with hdigit | rfl
  · exact absurd hdigit (by rw [hfirst.1]; decide)
  · exact hfirst.2 rfl

/-- A literal denotes its value, rounded. -/
theorem ofChars?_chars :
    ofChars? n.chars = some (ofDecimal n.negative n.mantissa n.power) := by
  have hchar : ∀ c ∈ n.chars, IsLiteralChar c := fun c => n.isLiteralChar_of_mem
  have hplain : n.chars.map plainDigit = n.chars :=
    (List.map_congr_left fun c hc => plainDigit_of_isLiteralChar (hchar c hc)).trans (List.map_id _)
  have hbare : dropUnderscores? false n.chars = some n.chars :=
    dropUnderscores?_of_forall (fun c hc => ne_underscore_of_isLiteralChar (hchar c hc)) false
  have hinf := n.lower_body_ne 'i' ['n', 'f'] (by decide)
  have hinfinity := n.lower_body_ne 'i' "nfinity".toList (by decide)
  have hnan := n.lower_body_ne 'n' ['a', 'n'] (by decide)
  have hword : "infinity".toList = 'i' :: "nfinity".toList := by decide
  rw [ofChars?, Text.strip_of_forall fun c hc => isMargin_of_isLiteralChar (hchar c hc), hplain,
    hbare, Option.bind_some, readSign_chars]
  simp only [hinf, hword, hinfinity, hnan, Bool.or_self, Bool.false_eq_true, if_false]
  exact n.readUnsigned?_body n.negative

end Numeral

end Reading

/-- A text is a decimal literal of a finite number. -/
def IsFiniteLiteral (t : String) : Prop :=
  ∃ n : Numeral, n.chars = t.toList ∧ n.magnitude < Binary64.overflow

section Texts

open Binary64

variable {t : String}

/-- A decimal literal of a finite number is read as one. -/
theorem IsFiniteLiteral.exists_isFinite (h : IsFiniteLiteral t) :
    ∃ x, ofChars? t.toList = some x ∧ x.IsFinite := by
  obtain ⟨n, hchars, hvalue⟩ := h
  exact ⟨_, hchars ▸ n.ofChars?_chars, (isFinite_ofDecimal_iff _ _ _).mpr hvalue⟩

/-- Whether a literal is one of a finite number depends on its text alone. -/
theorem isFiniteLiteral_iff_of_chars (n : Numeral) (h : n.chars = t.toList) :
    IsFiniteLiteral t ↔ n.magnitude < overflow := by
  refine ⟨fun ht => ?_, fun hvalue => ⟨n, h, hvalue⟩⟩
  obtain ⟨x, hread, hx⟩ := ht.exists_isFinite
  rw [← h, n.ofChars?_chars] at hread
  obtain rfl := Option.some.inj hread
  exact (isFinite_ofDecimal_iff _ _ _).mp hx

/-- A text with a character that no literal has is none. -/
theorem not_isFiniteLiteral_of_mem {c : Char} (hc : c ∈ t.toList) (h : ¬ IsLiteralChar c) :
    ¬ IsFiniteLiteral t := by
  rintro ⟨n, hchars, -⟩
  exact h (n.isLiteralChar_of_mem (hchars ▸ hc))

/-- A text that stands for no number is no literal. -/
theorem not_isFiniteLiteral_of_numberOfText? (h : Parameter.numberOfText? t = none) :
    ¬ IsFiniteLiteral t := by
  intro ht
  obtain ⟨x, hread, -⟩ := ht.exists_isFinite
  obtain ⟨n, hchars, -⟩ := ht
  have htrim : Text.trimChars t.toList = t.toList := Text.strip_of_forall fun c hc =>
    isBlank_of_isLiteralChar (n.isLiteralChar_of_mem (hchars ▸ hc))
  rw [Parameter.numberOfText?, htrim, hread] at h
  cases h

end Texts

section Writing

/-- A literal without a fraction and an exponent. -/
def Numeral.ofInt (i : Int) : Numeral where
  negative := decide (i < 0)
  whole := digitsOf i.natAbs
  fraction := none
  exponent := none
  isDigit_of_mem := by
    rw [Option.getD_none, List.append_nil]
    exact fun c => isDigit_of_mem_digitsOf
  digits_ne_nil := by
    rw [Option.getD_none, List.append_nil]
    exact Nat.toDigits_ne_nil
  eq_zero_of_head := by
    intro h
    rw [eq_zero_of_head?_digitsOf h]
    rfl

/-- The text of an integer is a literal of a finite number where the integer is finite. -/
theorem isFiniteLiteral_intText_iff (i : Int) :
    IsFiniteLiteral (intText i) ↔ i.natAbs < Binary64.overflow := by
  have hchars : (Numeral.ofInt i).chars = (intText i).toList := by
    have hbody : (Numeral.ofInt i).body = digitsOf i.natAbs := List.append_nil _
    have hsign : (Numeral.ofInt i).negative = decide (i < 0) := rfl
    rw [toList_intText, Numeral.chars, hbody, hsign]
    by_cases hneg : i < 0
    · rw [if_pos hneg, if_pos (decide_eq_true hneg)]
      rfl
    · rw [if_neg hneg, if_neg (by simpa using hneg)]
      rfl
  have hvalue : (Numeral.ofInt i).magnitude = i.natAbs := by
    have hmantissa : (Numeral.ofInt i).mantissa = i.natAbs := by
      rw [Numeral.mantissa, ← digitsValue_digitsOf i.natAbs]
      exact congrArg Binary64.digitsValue (List.append_nil _)
    have hpower : (Numeral.ofInt i).power = 0 := rfl
    rw [Numeral.magnitude, hmantissa, hpower, zpow_zero, mul_one]
  rw [isFiniteLiteral_iff_of_chars _ hchars, hvalue]
  exact Nat.cast_lt

/-- Digits of a positive number as they are laid out: without leading and trailing zeros. -/
structure Kept (digits : List Char) : Prop where
  ne_nil : digits ≠ []
  isDigit_of_mem : ∀ c ∈ digits, c.isDigit = true
  head?_ne : digits.head? ≠ some '0'

/-- Digits laid out with a point at some place have a value. -/
def Lays (digits : List Char) (point : Int) (text : List Char) : Prop :=
  ∃ n : Numeral, n.negative = false ∧ n.body = text ∧
    n.magnitude = Binary64.digitsValue digits * 10 ^ (point - digits.length)

variable {digits : List Char}

/-- All digits before the point. -/
theorem lays_whole (h : Kept digits) {whole : Nat} (hcount : digits.length ≤ whole) :
    Lays digits whole (digits ++ zeros (whole - digits.length) ++ ['.', '0']) := by
  let n : Numeral :=
    { negative := false
      whole := digits ++ zeros (whole - digits.length)
      fraction := some ['0']
      exponent := none
      isDigit_of_mem := by
        simp only [Option.getD_some, List.forall_mem_append, List.forall_mem_singleton]
        exact ⟨⟨h.isDigit_of_mem, fun c => isDigit_of_mem_zeros⟩, by decide⟩
      digits_ne_nil := List.append_ne_nil_of_right_ne_nil _ (List.cons_ne_nil _ _)
      eq_zero_of_head := fun hhead => by
        rw [List.head?_append_of_ne_nil _ h.ne_nil] at hhead
        exact absurd hhead h.head?_ne }
  refine ⟨n, rfl, rfl, ?_⟩
  have hmantissa : n.mantissa =
      Binary64.digitsValue digits * 10 ^ (whole - digits.length + 1) := by
    change Binary64.digitsValue ((digits ++ zeros (whole - digits.length)) ++ zeros 1) = _
    rw [digitsValue_append, digitsValue_append, digitsValue_zeros, digitsValue_zeros, Nat.add_zero,
      Nat.add_zero, Nat.mul_assoc, ← Nat.pow_add, zeros, zeros, List.length_replicate,
      List.length_replicate]
  have hpower : n.power = -1 := rfl
  have hplaces : ((whole - digits.length + 1 : Nat) : Int) + -1 = whole - digits.length := by omega
  rw [Numeral.magnitude, hmantissa, hpower, Nat.cast_mul, Nat.cast_pow, Nat.cast_ofNat, mul_assoc,
    ← zpow_natCast, ← zpow_add₀ (by norm_num), hplaces]

/-- Digits on both sides of the point. -/
theorem lays_split (h : Kept digits) {whole : Nat} (hpos : 0 < whole)
    (hcount : whole < digits.length) :
    Lays digits whole (digits.take whole ++ '.' :: digits.drop whole) := by
  let n : Numeral :=
    { negative := false
      whole := digits.take whole
      fraction := some (digits.drop whole)
      exponent := none
      isDigit_of_mem := by
        rw [Option.getD_some, List.take_append_drop]
        exact h.isDigit_of_mem
      digits_ne_nil := by
        rw [Option.getD_some, List.take_append_drop]
        exact h.ne_nil
      eq_zero_of_head := fun hhead => by
        rw [List.head?_take, if_neg hpos.ne'] at hhead
        exact absurd hhead h.head?_ne }
  refine ⟨n, rfl, ?_, ?_⟩
  · change digits.take whole ++ (('.' :: digits.drop whole) ++ []) = _
    rw [List.append_nil]
  · have hmantissa : n.mantissa = Binary64.digitsValue digits := by
      change Binary64.digitsValue (digits.take whole ++ digits.drop whole) = _
      rw [List.take_append_drop]
    have hpower : n.power = whole - digits.length := by
      change 0 - ((digits.drop whole).length : Int) = _
      rw [List.length_drop]
      omega
    rw [Numeral.magnitude, hmantissa, hpower]

/-- All digits behind the point, after some zeros. -/
theorem lays_fraction (h : Kept digits) (count : Nat) :
    Lays digits (-count) ('0' :: '.' :: (zeros count ++ digits)) := by
  let n : Numeral :=
    { negative := false
      whole := ['0']
      fraction := some (zeros count ++ digits)
      exponent := none
      isDigit_of_mem := by
        simp only [Option.getD_some, List.forall_mem_append, List.forall_mem_singleton]
        exact ⟨by decide, fun c => isDigit_of_mem_zeros, h.isDigit_of_mem⟩
      digits_ne_nil := List.cons_ne_nil _ _
      eq_zero_of_head := fun _ => rfl }
  refine ⟨n, rfl, ?_, ?_⟩
  · change '0' :: '.' :: ((zeros count ++ digits) ++ []) = _
    rw [List.append_nil]
  · have hmantissa : n.mantissa = Binary64.digitsValue digits := by
      change Binary64.digitsValue (zeros 1 ++ (zeros count ++ digits)) = _
      rw [digitsValue_append, digitsValue_append, digitsValue_zeros, digitsValue_zeros,
        Nat.zero_mul, Nat.zero_mul, Nat.zero_add, Nat.zero_add]
    have hpower : n.power = -count - digits.length := by
      change 0 - ((zeros count ++ digits).length : Int) = _
      rw [List.length_append, zeros, List.length_replicate]
      omega
    rw [Numeral.magnitude, hmantissa, hpower]

/-- One digit before the point and an exponent. -/
theorem lays_exponent (h : Kept digits) (point : Int) :
    Lays digits point (digits.take 1 ++
      (if (digits.drop 1).isEmpty then [] else '.' :: digits.drop 1) ++
        Shortest.exponentChars (point - 1)) := by
  obtain ⟨e, hchars, hvalue⟩ := Exponent.exists_exponentChars (point - 1)
  let fraction := if (digits.drop 1).isEmpty then none else some (digits.drop 1)
  have hfraction : fraction.getD [] = digits.drop 1 := by
    cases hdrop : digits.drop 1 with
    | nil => simp only [fraction, hdrop, List.isEmpty_nil, if_true, Option.getD_none]
    | cons c rest => simp [fraction, hdrop]
  let n : Numeral :=
    { negative := false
      whole := digits.take 1
      fraction := fraction
      exponent := some e
      isDigit_of_mem := by
        rw [hfraction, List.take_append_drop]
        exact h.isDigit_of_mem
      digits_ne_nil := by
        rw [hfraction, List.take_append_drop]
        exact h.ne_nil
      eq_zero_of_head := fun hhead => by
        rw [List.head?_take, if_neg (by decide)] at hhead
        exact absurd hhead h.head?_ne }
  refine ⟨n, rfl, ?_, ?_⟩
  · change digits.take 1 ++ (fraction.elim [] ('.' :: ·) ++ e.chars) = _
    rw [hchars, List.append_assoc]
    congr 2
    cases hdrop : digits.drop 1 with
    | nil => simp only [fraction, hdrop, List.isEmpty_nil, if_true, Option.elim_none]
    | cons c rest => simp [fraction, hdrop]
  · have hmantissa : n.mantissa = Binary64.digitsValue digits := by
      change Binary64.digitsValue (digits.take 1 ++ fraction.getD []) = _
      rw [hfraction, List.take_append_drop]
    have hlength : 0 < digits.length := List.length_pos_iff.mpr h.ne_nil
    have hpower : n.power = point - digits.length := by
      change e.value - ((fraction.getD []).length : Int) = _
      rw [hfraction, hvalue, List.length_drop]
      omega
    rw [Numeral.magnitude, hmantissa, hpower]

end Writing

end Script

namespace Shortest

open Script

/-- The value of decimal digits with a point. -/
def Digits.value (d : Digits) : Rat := d.digits * 10 ^ (d.point - (digitsOf d.digits).length)

/-- Trailing zeros are left out, and nothing else. -/
theorem exists_significant {n : Nat} (hn : n ≠ 0) :
    ∃ k, digitsOf n = significant (digitsOf n) ++ zeros k ∧ Kept (significant (digitsOf n)) := by
  obtain ⟨tail, hsplit, htail⟩ := Text.exists_append_stripEnd (· == '0') (digitsOf n)
  have hzeros : tail = zeros tail.length :=
    List.eq_replicate_iff.mpr ⟨rfl, fun c hc => beq_iff_eq.mp (htail c hc)⟩
  have hne : Text.stripEnd (· == '0') (digitsOf n) ≠ [] := by
    intro hnil
    rw [hnil, List.nil_append, hzeros] at hsplit
    have hvalue := congrArg Binary64.digitsValue hsplit
    rw [digitsValue_digitsOf, digitsValue_zeros] at hvalue
    exact hn hvalue
  have hkept : significant (digitsOf n) = Text.stripEnd (· == '0') (digitsOf n) := by
    unfold significant
    split
    · contradiction
    · rfl
  rw [hkept]
  refine ⟨tail.length, hzeros ▸ hsplit, hne, fun c hc => ?_, fun hhead => ?_⟩
  · refine isDigit_of_mem_digitsOf (n := n) ?_
    rw [hsplit]
    exact List.mem_append_left _ hc
  · refine hn (eq_zero_of_head?_digitsOf ?_)
    rw [hsplit, List.head?_append_of_ne_nil _ hne, hhead]

/-- Decimal digits are laid out as a literal of their value. -/
theorem exists_layout {d : Digits} (hd : d.digits ≠ 0) :
    ∃ n : Numeral, n.negative = false ∧ n.body = layout d ∧ n.magnitude = d.value := by
  obtain ⟨k, hsplit, hkept⟩ := exists_significant hd
  have hlays : Lays (significant (digitsOf d.digits)) d.point (layout d) := by
    unfold layout
    dsimp only
    split
    · rename_i hwhole
      have hpoint : (d.point.toNat : Int) = d.point := Int.toNat_of_nonneg hwhole.1.le
      rw [← hpoint, Int.toNat_natCast]
      split
      · rename_i hcount
        exact lays_whole hkept hcount
      · rename_i hcount
        exact lays_split hkept (by omega) (by omega)
    · split
      · have hpoint : -((-d.point).toNat : Int) = d.point := by omega
        have hlays := lays_fraction hkept (-d.point).toNat
        rwa [hpoint] at hlays
      · exact lays_exponent hkept d.point
  obtain ⟨n, hsign, hbody, hvalue⟩ := hlays
  refine ⟨n, hsign, hbody, hvalue.trans ?_⟩
  have hdigits : d.digits = Binary64.digitsValue (significant (digitsOf d.digits)) * 10 ^ k := by
    conv_lhs => rw [← digitsValue_digitsOf d.digits, hsplit]
    rw [digitsValue_append, digitsValue_zeros, Nat.add_zero, zeros, List.length_replicate]
  have hlength : (digitsOf d.digits).length = (significant (digitsOf d.digits)).length + k := by
    conv_lhs => rw [hsplit]
    rw [List.length_append, zeros, List.length_replicate]
  have hpower : d.point - (significant (digitsOf d.digits)).length =
      k + (d.point - (digitsOf d.digits).length) := by omega
  rw [Digits.value, hpower, zpow_add₀ (by norm_num), zpow_natCast, ← mul_assoc]
  congr 1
  conv_rhs => rw [hdigits]
  rw [Nat.cast_mul, Nat.cast_pow, Nat.cast_ofNat]

end Shortest

end RuleSchema
