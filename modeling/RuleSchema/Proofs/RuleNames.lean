import RuleSchema.Rule.Normal
import RuleSchema.Table

/-!
# Canonical rule names

Making a name canonical keeps it from being blank: trimming and separating words drop nothing but
blanks, and lower case makes no character blank. So the entries that a written rule denotes have
names that are still there when they are made canonical again.
-/

namespace RuleSchema

namespace RuleName

open Text

theorem mem_separateWords {c : Char} {afterWord : Bool} {cs : List Char} (h : c ∈ cs) :
    c ∈ separateWords afterWord cs := by
  induction cs generalizing afterWord with
  | nil => simp at h
  | cons d cs ih =>
      simp only [separateWords]
      rcases List.mem_cons.mp h with rfl | h
      · split <;> simp
      · split <;> simp [ih h]

theorem mem_trimChars {c : Char} {cs : List Char} (h : c ∈ cs) (hc : isBlank c = false) :
    c ∈ trimChars cs := by
  have hs : c ∈ stripStart isBlank cs := by
    have hm : c ∈ cs.takeWhile isBlank ++ cs.dropWhile isBlank := by
      rwa [List.takeWhile_append_dropWhile]
    rcases List.mem_append.mp hm with ht | hd
    · have ha := List.all_eq_true.mp List.all_takeWhile c ht
      simp [hc] at ha
    · exact hd
  obtain ⟨tail, split, all⟩ :=
    exists_append_stripEnd isBlank (stripStart isBlank cs)
  rw [split] at hs
  rcases List.mem_append.mp hs with hk | ht
  · exact hk
  · have ha := all c ht
    simp [hc] at ha

/-- The code points of the blank characters. -/
def blankCodes : List Nat :=
  [9, 10, 11, 12, 13, 28, 29, 30, 31, 32, 0x85, 0xA0, 0x1680, 0x2000, 0x2001, 0x2002, 0x2003,
    0x2004, 0x2005, 0x2006, 0x2007, 0x2008, 0x2009, 0x200A, 0x2028, 0x2029, 0x202F, 0x205F, 0x3000]

theorem isBlank_iff {c : Char} : isBlank c = true ↔ c.toNat ∈ blankCodes := by
  simp only [isBlank, Bool.or_eq_true, Bool.and_eq_true, decide_eq_true_eq, beq_iff_eq, blankCodes,
    List.mem_cons, List.not_mem_nil, or_false]
  omega

/-- No stretch of lower-case counterparts meets a blank character. -/
theorem lowerShifts_avoid_blanks : (lowerShifts.all fun s => blankCodes.all fun b =>
    decide (0 < b) && (decide ((s.last : Int) + s.distance < b) ||
      decide ((b : Int) < s.first + s.distance))) = true := by
  decide +kernel

theorem shiftCode_not_mem_blankCodes {n : Nat} (h : n ∉ blankCodes) :
    shiftCode lowerShifts n ∉ blankCodes := by
  unfold shiftCode
  split
  · rename_i s hfound
    have hcovers := List.find?_some hfound
    simp only [Bool.and_eq_true, decide_eq_true_eq] at hcovers
    intro hb
    have havoid := List.all_eq_true.mp (List.all_eq_true.mp lowerShifts_avoid_blanks s
      (List.mem_of_find?_eq_some hfound)) _ hb
    simp only [Bool.and_eq_true, Bool.or_eq_true, decide_eq_true_eq] at havoid
    omega
  · exact h

theorem toNat_ofNat (n : Nat) : (Char.ofNat n).toNat = if n.isValidChar then n else 0 := by
  by_cases h : n.isValidChar
  · rw [Char.ofNat, dif_pos h, if_pos h]
    rfl
  · rw [Char.ofNat, dif_neg h, if_neg h]
    rfl

theorem isBlank_toLower : ∀ n < 128, isBlank (Char.ofNat n) = false →
    isBlank (Char.ofNat n).toLower = false := by
  decide +kernel

/-- Lower case makes no character blank. -/
theorem isBlank_lowerChar {c : Char} (h : isBlank c = false) : isBlank (lowerChar c) = false := by
  unfold lowerChar
  split
  · rename_i hascii
    have hlower := isBlank_toLower c.toNat hascii
    rw [Char.ofNat_toNat] at hlower
    exact hlower h
  · rw [Bool.eq_false_iff, Ne, isBlank_iff] at h ⊢
    have hcode := shiftCode_not_mem_blankCodes h
    intro hb
    rw [toNat_ofNat] at hb
    split at hb
    · exact hcode hb
    · exact absurd hb (by decide)

/-- A text with a character that is not blank. -/
def IsVisible (cs : List Char) : Prop := ∃ c ∈ cs, isBlank c = false

theorem isVisible_lowerAfter {before cs : List Char} (h : IsVisible cs) :
    IsVisible (lowerAfter before cs) := by
  obtain ⟨c, hc, hb⟩ := h
  induction cs generalizing before with
  | nil => cases hc
  | cons d cs ih =>
      rcases List.mem_cons.mp hc with rfl | hc
      · rw [lowerAfter]
        split
        · split
          · exact ⟨_, List.mem_append_left _ List.mem_cons_self, by decide⟩
          · exact ⟨_, List.mem_append_left _ List.mem_cons_self, by decide⟩
        · split
          · exact ⟨'i', List.mem_append_left _ List.mem_cons_self, by decide⟩
          · exact ⟨_, List.mem_append_left _ List.mem_cons_self, isBlank_lowerChar hb⟩
      · obtain ⟨x, hx, hbx⟩ : IsVisible (lowerAfter (d :: before) cs) := ih hc
        exact ⟨x, List.mem_append_right _ hx, hbx⟩

/-- A canonical name is visible when the name is. -/
theorem isVisible_canonical {name : String} (h : IsVisible name.toList) :
    IsVisible (canonical name).toList := by
  have hspelled : IsVisible (snakeChars (trimChars name.toList)) := by
    obtain ⟨c, hc, hb⟩ := h
    exact isVisible_lowerAfter ⟨c, mem_separateWords (mem_trimChars hc hb), hb⟩
  rw [canonical]
  cases hfound : aliases.lookup (String.ofList (snakeChars (trimChars name.toList))) with
  | none => rwa [Option.getD_none, String.toList_ofList]
  | some word =>
      have hmem := Table.mem_of_lookup_eq_some hfound
      have hwords : ∀ p ∈ aliases, p.2.toList.any (!isBlank ·) = true := by decide
      obtain ⟨c, hc, hb⟩ := List.any_eq_true.mp (hwords _ hmem)
      exact ⟨c, hc, by simpa using hb⟩

/-- A canonical name that is not empty belongs to a visible name. -/
theorem isVisible_of_canonical_ne {name : String} (h : canonical name ≠ "") :
    IsVisible name.toList := by
  by_cases hv : IsVisible name.toList
  · exact hv
  · refine absurd ?_ h
    have htrim : trimChars name.toList = [] := by
      apply stripEnd_eq_nil_iff.mpr
      intro c hc
      have hmem := (List.dropWhile_sublist isBlank).mem hc
      cases hb : isBlank c with
      | true => rfl
      | false => exact absurd ⟨c, hmem, hb⟩ hv
    rw [canonical, htrim]
    decide

end RuleName

namespace RuleEntry

open RuleName Text

/-- An entry whose name was made canonical from a canonical name has a visible name. -/
theorem isVisible_of_make? {head : String} {parameters : List Parameter} {e : RuleEntry}
    (h : make? (canonical head) parameters = .ok e) : IsVisible e.name.toList := by
  have hne : canonical head ≠ "" := fun hempty => by
    rw [hempty] at h
    cases h
  have hvisible := isVisible_canonical (isVisible_canonical (isVisible_of_canonical_ne hne))
  rw [make?, isEmpty_eq_false hne, if_neg Bool.false_ne_true, Except.ok.injEq] at h
  rw [← h]
  simpa only using hvisible

/-- The entry that a written rule denotes has a visible name. -/
theorem isVisible_of_parse {segment : String} {e : RuleEntry} (h : parse segment = .ok e) :
    IsVisible e.name.toList := by
  simp only [parse] at h
  generalize (cutFirst ':' (trimChars segment.toList)).1 = head at h
  cases hraw : (cutFirst ':' (trimChars segment.toList)).2 with
  | none =>
      rw [hraw] at h
      exact isVisible_of_make? h
  | some raw =>
      simp only [hraw] at h
      cases hp : parametersOf (canonical (String.ofList head)) raw with
      | error fault =>
          simp only [hp, bind, Except.bind] at h
          cases h
      | ok parameters =>
          simp only [hp, bind, Except.bind] at h
          exact isVisible_of_make? h

end RuleEntry

end RuleSchema
