import Mathlib.Data.List.Basic
import RuleSchema.Script.Pattern

/-!
# Patterns read by backslashes

A pattern is a list of characters that stand on their own or behind a backslash. Brackets are
looked for without regard to backslashes, and each character between them may lose its backslash.
Since no bracket ever splits a backslash from the character that it escapes, the pass over the text
is a pass over these tokens, which keeps their number and their order.
-/

namespace RuleSchema.Script.Pattern

/-- A character of a pattern, on its own or behind a backslash. -/
inductive Token where
  | plain (c : Char)
  | escaped (c : Char)
deriving DecidableEq, Repr

namespace Token

def char : Token → Char
  | plain c | escaped c => c

@[simp] theorem char_plain (c : Char) : (plain c).char = c := rfl

@[simp] theorem char_escaped (c : Char) : (escaped c).char = c := rfl

def spell : Token → List Char
  | plain c => [c]
  | escaped c => ['\\', c]

/-- An escaped dot loses its backslash, and so does an escaped hyphen with nothing before it or
nothing behind it. -/
def Loses (before behind : Bool) (t : Token) : Prop :=
  t = escaped '.' ∨ t = escaped '-' ∧ (before && behind) = false

instance (before behind : Bool) : DecidablePred (Loses before behind) := fun t =>
  inferInstanceAs (Decidable (t = escaped '.' ∨ t = escaped '-' ∧ (before && behind) = false))

/-- A token without its backslash if it loses it. -/
def loosened (before behind : Bool) (t : Token) : Token :=
  if t.Loses before behind then plain t.char else t

section Loosened

variable {before behind : Bool} {t : Token} {c : Char}

theorem loosened_of_loses (h : t.Loses before behind) : t.loosened before behind = plain t.char :=
  if_pos h

theorem loosened_of_not_loses (h : ¬ t.Loses before behind) : t.loosened before behind = t :=
  if_neg h

@[simp] theorem loosened_plain (before behind : Bool) (c : Char) :
    (plain c).loosened before behind = plain c := loosened_of_not_loses (by simp [Loses])

@[simp] theorem char_loosened (before behind : Bool) (t : Token) :
    (t.loosened before behind).char = t.char := by
  unfold loosened
  split <;> rfl

theorem loosened_idem (before behind : Bool) (t : Token) :
    (t.loosened before behind).loosened before behind = t.loosened before behind := by
  by_cases h : t.Loses before behind
  · rw [loosened_of_loses h, loosened_plain]
  · rw [loosened_of_not_loses h, loosened_of_not_loses h]

/-- Nothing but a dot and a hyphen is put on its own. -/
theorem loosened_eq_plain_iff (hc : c ≠ '.' ∧ c ≠ '-') :
    t.loosened before behind = plain c ↔ t = plain c := by
  by_cases h : t.Loses before behind
  · rw [loosened_of_loses h]
    rcases h with rfl | ⟨rfl, -⟩
    · simp [hc.1.symm]
    · simp [hc.2.symm]
  · rw [loosened_of_not_loses h]

/-- A hyphen between others is not put on its own. -/
theorem loosened_eq_hyphen_iff : t.loosened true true = plain '-' ↔ t = plain '-' := by
  by_cases h : t.Loses true true
  · rw [loosened_of_loses h]
    rcases h with rfl | ⟨-, h⟩
    · simp
    · cases h
  · rw [loosened_of_not_loses h]

end Loosened

end Token

/-- A pattern read from the left. A backslash at its end stands on its own. -/
def tokens : List Char → List Token
  | [] => []
  | [c] => [.plain c]
  | c :: next :: rest =>
    if c = '\\' then .escaped next :: tokens rest else .plain c :: tokens (next :: rest)

/-- The text of tokens. -/
def spelling (ts : List Token) : List Char := ts.flatMap Token.spell

/-- A backslash on its own is the last token. -/
def IsRead : List Token → Prop
  | [] => True
  | t :: ts => (t = .plain '\\' → ts = []) ∧ IsRead ts

section Reading

variable {c : Char} {cs rest : List Char} {t : Token} {ts us : List Token}

@[simp] theorem spelling_nil : spelling [] = [] := rfl

@[simp] theorem spelling_cons (t : Token) (ts : List Token) :
    spelling (t :: ts) = t.spell ++ spelling ts := rfl

@[simp] theorem spelling_append (ts us : List Token) :
    spelling (ts ++ us) = spelling ts ++ spelling us := List.flatMap_append

theorem head?_spelling (ts : List Token) :
    (spelling ts).head? = ts.head?.bind fun t => t.spell.head? := by
  rcases ts with _ | ⟨c | c, ts⟩ <;> rfl

@[simp] theorem tokens_nil : tokens [] = [] := rfl

theorem tokens_escaped (c : Char) (rest : List Char) :
    tokens ('\\' :: c :: rest) = .escaped c :: tokens rest := by
  rw [tokens, if_pos rfl]

theorem tokens_plain (hc : c ≠ '\\') (rest : List Char) :
    tokens (c :: rest) = .plain c :: tokens rest := by
  cases rest with
  | nil => rfl
  | cons next rest => rw [tokens, if_neg hc]

theorem spelling_tokens (cs : List Char) : spelling (tokens cs) = cs := by
  fun_induction tokens cs with
  | case1 => rfl
  | case2 c => rfl
  | case3 next rest ih => rw [spelling_cons, ih]; rfl
  | case4 c next rest hc ih => rw [spelling_cons, ih]; rfl

@[simp] theorem tokens_eq_nil_iff : tokens cs = [] ↔ cs = [] := by
  refine ⟨fun h => ?_, fun h => by rw [h, tokens_nil]⟩
  rw [← spelling_tokens cs, h, spelling_nil]

theorem isRead_tokens (cs : List Char) : IsRead (tokens cs) := by
  fun_induction tokens cs with
  | case1 => trivial
  | case2 c => exact ⟨fun _ => rfl, trivial⟩
  | case3 next rest ih => exact ⟨nofun, ih⟩
  | case4 c next rest hc ih => exact ⟨fun h => absurd (Token.plain.inj h) hc, ih⟩

/-- Tokens are read back from their text. -/
theorem tokens_spelling (h : IsRead ts) : tokens (spelling ts) = ts := by
  induction ts with
  | nil => rfl
  | cons t ts ih =>
      rw [spelling_cons]
      cases t with
      | escaped c =>
          rw [Token.spell, List.cons_append, List.cons_append, List.nil_append, tokens_escaped,
            ih h.2]
      | plain c =>
          by_cases hc : c = '\\'
          · rw [h.1 (by rw [hc])]
            rfl
          · rw [Token.spell, List.cons_append, List.nil_append, tokens_plain hc, ih h.2]

/-- Tokens without a lone backslash do not change how what follows them is read. -/
theorem tokens_spelling_append (h : .plain '\\' ∉ ts) (rest : List Char) :
    tokens (spelling ts ++ rest) = ts ++ tokens rest := by
  induction ts with
  | nil => rfl
  | cons t ts ih =>
      rw [List.mem_cons, not_or] at h
      rw [spelling_cons, List.append_assoc, List.cons_append, ← ih h.2]
      cases t with
      | escaped c => exact tokens_escaped c _
      | plain c => exact tokens_plain (fun hc => h.1 (by rw [hc])) _

/-- A lone backslash takes the character that is put behind it. -/
theorem tokens_spelling_backslash (h : .plain '\\' ∉ ts) (c : Char) (rest : List Char) :
    tokens (spelling (ts ++ [.plain '\\']) ++ c :: rest) = ts ++ .escaped c :: tokens rest := by
  rw [spelling_append, List.append_assoc, tokens_spelling_append h]
  exact congrArg (ts ++ ·) (tokens_escaped c rest)

/-- Tokens that have been read have no lone backslash, or one at their end. -/
theorem IsRead.cases (h : IsRead ts) :
    .plain '\\' ∉ ts ∨ ∃ us, ts = us ++ [.plain '\\'] ∧ .plain '\\' ∉ us := by
  induction ts with
  | nil => exact Or.inl List.not_mem_nil
  | cons t ts ih =>
      by_cases ht : t = .plain '\\'
      · rw [ht, h.1 ht]
        exact Or.inr ⟨[], rfl, List.not_mem_nil⟩
      · rcases ih h.2 with hnone | ⟨us, rfl, hus⟩
        · exact Or.inl fun hmem => (List.mem_cons.mp hmem).elim (ht ∘ Eq.symm) hnone
        · exact Or.inr ⟨t :: us, rfl, fun hmem => (List.mem_cons.mp hmem).elim (ht ∘ Eq.symm) hus⟩

/-- A character other than a backslash is that of some token. -/
theorem exists_char_iff (hc : c ≠ '\\') : (∃ t ∈ tokens cs, t.char = c) ↔ c ∈ cs := by
  fun_induction tokens cs with
  | case1 => simp
  | case2 d => simp [eq_comm]
  | case3 next rest ih => rw [List.exists_mem_cons_iff, ih]; simp [hc, eq_comm]
  | case4 d next rest hd ih => rw [List.exists_mem_cons_iff, ih]; simp [eq_comm]

end Reading

/-- Members of a class without the backslashes that they lose; `before` and `more` tell whether
something precedes them and whether something follows. -/
def loosenedMembers (before more : Bool) : List Token → List Token
  | [] => []
  | t :: ts => t.loosened before (!ts.isEmpty || more) :: loosenedMembers true more ts

section Members

variable {before more : Bool} {c : Char} {ts : List Token} {members : List Char}

@[simp] theorem loosenedMembers_eq_nil_iff : loosenedMembers before more ts = [] ↔ ts = [] := by
  cases ts <;> simp [loosenedMembers]

theorem loosenedMembers_concat (before : Bool) (ts : List Token) (c : Char) :
    loosenedMembers before false (ts ++ [.plain c]) =
      loosenedMembers before true ts ++ [.plain c] := by
  induction ts generalizing before with
  | nil => simp [loosenedMembers]
  | cons t ts ih =>
      have hmore : (ts ++ [Token.plain c]).isEmpty = false := by simp
      rw [List.cons_append, loosenedMembers, loosenedMembers, ih, hmore, Bool.or_true]
      rfl

theorem isRead_loosenedMembers (h : IsRead ts) : IsRead (loosenedMembers before more ts) := by
  induction ts generalizing before with
  | nil => trivial
  | cons t ts ih =>
      refine ⟨fun ht => ?_, ih h.2⟩
      rw [h.1 ((Token.loosened_eq_plain_iff (by decide)).mp ht)]
      rfl

theorem classMembers_eq (before : Bool) (members : List Char) :
    classMembers before members = spelling (loosenedMembers before false (tokens members)) := by
  fun_induction tokens members generalizing before with
  | case1 => rfl
  | case2 c => simp [classMembers, loosenedMembers, Token.spell]
  | case3 next rest ih =>
      have hempty : (tokens rest).isEmpty = rest.isEmpty := by
        rw [Bool.eq_iff_iff, List.isEmpty_iff, List.isEmpty_iff, tokens_eq_nil_iff]
      rw [classMembers, ih, loosenedMembers, spelling_cons, hempty]
      simp only [Token.loosened, Token.Loses, Token.escaped.injEq, Token.char, beq_iff_eq]
      split_ifs <;> simp_all [Token.spell]
  | case4 c next rest hc ih =>
      rw [classMembers, if_neg (by simpa using hc), ih, loosenedMembers, spelling_cons,
        Token.loosened_plain]
      rfl

theorem tokens_classMembers (before : Bool) (members : List Char) :
    tokens (classMembers before members) = loosenedMembers before false (tokens members) := by
  rw [classMembers_eq, tokens_spelling (isRead_loosenedMembers (isRead_tokens members))]

/-- The text between the brackets of a class as it is normalized. -/
def normalizedBody : List Char → List Char
  | '^' :: members => '^' :: classMembers false members
  | members => classMembers false members

theorem normalizedBody_of_ne (h : members.head? ≠ some '^') :
    normalizedBody members = classMembers false members := by
  unfold normalizedBody
  split
  · exact absurd rfl h
  · rfl

theorem normalizeClass_eq (body : List Char) :
    normalizeClass ('[' :: (body ++ [']'])) = '[' :: (normalizedBody body ++ [']']) := by
  simp only [normalizeClass, List.reverse_append, List.reverse_singleton, List.singleton_append,
    List.reverse_reverse]
  match body with
  | [] => rfl
  | c :: members =>
      by_cases hc : c = '^'
      · subst hc
        rfl
      · rw [normalizedBody_of_ne (by simpa using hc)]
        simp [hc]

end Members

end RuleSchema.Script.Pattern
