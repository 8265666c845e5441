/-!
# Blank characters and trimming

The blank characters are the white space of Unicode together with the four ASCII separators. A
trimmed text neither starts nor ends with one.
-/

namespace RuleSchema.Text

/-- White space of Unicode and the ASCII separators. -/
def isBlank (c : Char) : Bool :=
  let n := c.toNat
  (9 ≤ n && n ≤ 13) || (28 ≤ n && n ≤ 32) || n == 0x85 || n == 0xA0 || n == 0x1680 ||
    (0x2000 ≤ n && n ≤ 0x200A) || n == 0x2028 || n == 0x2029 || n == 0x202F || n == 0x205F ||
    n == 0x3000

/-- A list without its leading elements that satisfy `p`. -/
def stripStart (p : Char → Bool) (cs : List Char) : List Char := cs.dropWhile p

/-- A list without its trailing elements that satisfy `p`. -/
def stripEnd (p : Char → Bool) : List Char → List Char
  | [] => []
  | c :: rest =>
    match stripEnd p rest with
    | [] => if p c then [] else [c]
    | kept => c :: kept

/-- A list without leading and trailing elements that satisfy `p`. -/
def strip (p : Char → Bool) (cs : List Char) : List Char := stripEnd p (stripStart p cs)

/-- Characters without blanks at either end. -/
def trimChars (cs : List Char) : List Char := strip isBlank cs

/-- A text without blanks at either end. -/
def trim (s : String) : String := String.ofList (trimChars s.toList)

@[simp] theorem stripEnd_nil (p : Char → Bool) : stripEnd p [] = [] := rfl

theorem stripEnd_eq_nil_iff {p : Char → Bool} {cs : List Char} :
    stripEnd p cs = [] ↔ ∀ c ∈ cs, p c = true := by
  induction cs with
  | nil => simp
  | cons c rest ih =>
    simp only [stripEnd, List.mem_cons, forall_eq_or_imp]
    cases hr : stripEnd p rest with
    | nil =>
      have all := ih.mp hr
      by_cases hc : p c = true <;> simp_all
    | cons d kept =>
      have : ¬ ∀ x ∈ rest, p x = true := fun all => by simp [ih.mpr all] at hr
      simp [this]

/-- What trimming at the end removes satisfies the predicate. -/
theorem exists_append_stripEnd (p : Char → Bool) (cs : List Char) :
    ∃ tail, cs = stripEnd p cs ++ tail ∧ ∀ c ∈ tail, p c = true := by
  induction cs with
  | nil => exact ⟨[], rfl, by simp⟩
  | cons c rest ih =>
    obtain ⟨tail, split, all⟩ := ih
    cases hr : stripEnd p rest with
    | nil =>
      by_cases hc : p c = true
      · refine ⟨c :: rest, by simp [stripEnd, hr, hc], ?_⟩
        simpa [hc] using stripEnd_eq_nil_iff.mp hr
      · exact ⟨rest, by simp [stripEnd, hr, hc], stripEnd_eq_nil_iff.mp hr⟩
    | cons d kept =>
      have head : stripEnd p (c :: rest) = c :: d :: kept := by simp [stripEnd, hr]
      refine ⟨tail, ?_, all⟩
      rw [head]
      simpa [hr] using split

/-- Where no element satisfies the predicate, trimming removes nothing. -/
theorem strip_of_forall {p : Char → Bool} {cs : List Char} (h : ∀ c ∈ cs, p c = false) :
    strip p cs = cs := by
  have start : stripStart p cs = cs := by
    cases cs with
    | nil => rfl
    | cons c rest => exact List.dropWhile_cons_of_neg (by simp [h c List.mem_cons_self])
  obtain ⟨tail, split, all⟩ := exists_append_stripEnd p cs
  rw [strip, start]
  cases tail with
  | nil =>
    rw [List.append_nil] at split
    exact split.symm
  | cons c rest =>
    have hc := all c List.mem_cons_self
    rw [h c (split ▸ List.mem_append_right _ List.mem_cons_self)] at hc
    cases hc

end RuleSchema.Text
