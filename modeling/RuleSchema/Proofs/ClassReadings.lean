import Mathlib.Data.Set.Basic
import RuleSchema.Proofs.PatternTokens

/-!
# What a character class denotes

The members of a class are atoms, and a hyphen on its own between two of them makes a range. Without
the backslashes of dots, and without those of hyphens where a hyphen is no range anyway, a class is
read as before, so that it denotes the same characters.
-/

namespace RuleSchema.Script.Pattern

/-- A member of a class: a character, or an escaped letter or digit that names a kind of them. -/
inductive Atom where
  | char (c : Char)
  | kind (name : Char)

/-- An escaped letter or digit names a kind; any other character stands for itself. -/
def Token.atom : Token → Atom
  | plain c => .char c
  | escaped c => if c.isAlphanum then .kind c else .char c

/-- A member of a class, or a hyphen on its own between two members. -/
inductive Mark where
  | atom (a : Atom)
  | hyphen

/-- A hyphen on its own at either edge of a class is a member. -/
def marks (before : Bool) : List Token → List Mark
  | [] => []
  | t :: ts =>
    (if t = .plain '-' ∧ before = true ∧ ts ≠ [] then .hyphen else .atom t.atom) :: marks true ts

/-- What the text between the brackets of a class is read as. -/
structure Reading where
  negated : Bool
  marks : List Mark

/-- The text between the brackets of a class, with a leading negation. -/
def readClass : List Char → Reading
  | '^' :: members => ⟨true, marks false (tokens members)⟩
  | members => ⟨false, marks false (tokens members)⟩

namespace Atom

/-- The characters of an atom, from those of each kind. -/
def chars (kinds : Char → Set Char) : Atom → Set Char
  | char c => {c}
  | kind name => kinds name

/-- The characters of a range. Between atoms of which one is a kind the hyphen is a member. -/
def span (kinds : Char → Set Char) : Atom → Atom → Set Char
  | char first, char last => {c | first ≤ c ∧ c ≤ last}
  | a, b => a.chars kinds ∪ {'-'} ∪ b.chars kinds

end Atom

namespace Mark

/-- A mark as a member. -/
def member : Mark → Atom
  | atom a => a
  | hyphen => .char '-'

/-- The characters of marks, read from the left. A hyphen behind a range is a member. -/
def chars (kinds : Char → Set Char) : List Mark → Set Char
  | [] => ∅
  | [m] => m.member.chars kinds
  | m :: hyphen :: n :: rest => Atom.span kinds m.member n.member ∪ chars kinds rest
  | m :: n :: rest => m.member.chars kinds ∪ chars kinds (n :: rest)

end Mark

/-- The characters that a class lists, negated or not. -/
def Reading.chars (kinds : Char → Set Char) (r : Reading) : Set Char := Mark.chars kinds r.marks

section Members

theorem atom_loosened (before behind : Bool) (t : Token) :
    (t.loosened before behind).atom = t.atom := by
  by_cases h : t.Loses before behind
  · rw [Token.loosened_of_loses h]
    rcases h with rfl | ⟨rfl, -⟩ <;> rfl
  · rw [Token.loosened_of_not_loses h]

/-- Only a hyphen at an edge becomes a hyphen on its own, and there it is a member. -/
theorem marks_loosenedMembers (before : Bool) (ts : List Token) :
    marks before (loosenedMembers before false ts) = marks before ts := by
  induction ts generalizing before with
  | nil => rfl
  | cons t ts ih =>
      have hhyphen : (t.loosened before (!ts.isEmpty || false) = .plain '-' ∧ before = true ∧
          ts ≠ []) ↔ (t = .plain '-' ∧ before = true ∧ ts ≠ []) := by
        refine and_congr_left fun ⟨hbefore, hts⟩ => ?_
        rw [hbefore, List.isEmpty_eq_false_iff.mpr hts]
        exact Token.loosened_eq_hyphen_iff
      simp only [loosenedMembers, marks, ne_eq, loosenedMembers_eq_nil_iff, atom_loosened, ih]
      simp only [← ne_eq, hhyphen]

theorem loosenedMembers_idem (before more : Bool) (ts : List Token) :
    loosenedMembers before more (loosenedMembers before more ts) =
      loosenedMembers before more ts := by
  induction ts generalizing before with
  | nil => rfl
  | cons t ts ih =>
      have hempty : (loosenedMembers true more ts).isEmpty = ts.isEmpty := by
        rw [Bool.eq_iff_iff, List.isEmpty_iff, List.isEmpty_iff, loosenedMembers_eq_nil_iff]
      rw [loosenedMembers, loosenedMembers, ih, hempty, Token.loosened_idem]

end Members

section Classes

variable {members : List Char}

theorem classMembers_idem (before : Bool) (members : List Char) :
    classMembers before (classMembers before members) = classMembers before members := by
  rw [classMembers_eq, tokens_classMembers, loosenedMembers_idem, ← classMembers_eq]

/-- Members that do not start with a negation do not start with one without their backslashes. -/
theorem head?_classMembers_ne (h : members.head? ≠ some '^') :
    (classMembers false members).head? ≠ some '^' := by
  have hspell : ∀ t : Token, t.spell.head? = some '^' → t = .plain '^' := by
    rintro (c | c) <;> simp [Token.spell]
  intro hnext
  rw [classMembers_eq, head?_spelling] at hnext
  rw [← spelling_tokens members, head?_spelling] at h
  cases hts : tokens members with
  | nil => simp [hts, loosenedMembers] at hnext
  | cons t ts =>
      rw [hts, loosenedMembers, List.head?_cons, Option.bind_some] at hnext
      rw [hts, List.head?_cons, Option.bind_some] at h
      rw [(Token.loosened_eq_plain_iff (by decide)).mp (hspell _ hnext)] at h
      exact h rfl

theorem readClass_of_ne (h : members.head? ≠ some '^') :
    readClass members = ⟨false, marks false (tokens members)⟩ := by
  unfold readClass
  split
  · exact absurd rfl h
  · rfl

theorem readClass_normalizedBody (body : List Char) :
    readClass (normalizedBody body) = readClass body := by
  by_cases h : body.head? = some '^'
  · obtain ⟨members, rfl⟩ := List.head?_eq_some_iff.mp h
    simp only [normalizedBody, readClass, tokens_classMembers, marks_loosenedMembers]
  · rw [normalizedBody_of_ne h, readClass_of_ne h, readClass_of_ne (head?_classMembers_ne h),
      tokens_classMembers, marks_loosenedMembers]

theorem normalizedBody_idem (body : List Char) :
    normalizedBody (normalizedBody body) = normalizedBody body := by
  by_cases h : body.head? = some '^'
  · obtain ⟨members, rfl⟩ := List.head?_eq_some_iff.mp h
    simp only [normalizedBody, classMembers_idem]
  · rw [normalizedBody_of_ne h, normalizedBody_of_ne (head?_classMembers_ne h), classMembers_idem]

/-- A normalized class is a class that is read as before, mark by mark. So it is negated as before
and lists the same characters, whatever the kinds are. It is not changed when it is normalized
again. -/
theorem normalizeClass_keeps_class (body : List Char) :
    ∃ next, normalizeClass ('[' :: (body ++ [']'])) = '[' :: (next ++ [']']) ∧
      readClass next = readClass body ∧
      (readClass next).negated = (readClass body).negated ∧
      (∀ kinds, (readClass next).chars kinds = (readClass body).chars kinds) ∧
      normalizeClass ('[' :: (next ++ [']'])) = '[' :: (next ++ [']']) := by
  have hread := readClass_normalizedBody body
  refine ⟨normalizedBody body, normalizeClass_eq body, hread, ?_, fun kinds => ?_, ?_⟩
  · rw [hread]
  · rw [hread]
  · rw [normalizeClass_eq, normalizedBody_idem]

/-- Between two members the hyphen keeps its backslash, at the edge it does not need it. -/
example : normalizeClass "[^\\w\\-\\.\\-]".toList = "[^\\w\\-.-]".toList := rfl

end Classes

end RuleSchema.Script.Pattern
