import RuleSchema.Proofs.PatternTokens

/-!
# Rewriting between brackets

Every character between an opening bracket and the next closing one is rewritten, where backslashes
in front of the brackets count for nothing. Token by token this is a pass that knows where it
stands, and what follows up to the next closing bracket. A class, in contrast, starts at an opening
bracket on its own and ends at the next closing bracket on its own.
-/

namespace RuleSchema.Script.Pattern

/-- Where a token stands among the brackets that are looked for without regard to backslashes. -/
inductive Place where
  | outside
  /-- Right behind an opening bracket. -/
  | opened
  /-- Behind a negation. -/
  | negated
  /-- Behind a member. -/
  | inside
deriving DecidableEq

namespace Place

/-- The place behind a token. -/
def next : Place → Token → Place
  | outside, t => if t.char = '[' then opened else outside
  | p, t =>
    if t.char = ']' then outside else if p = opened ∧ t = .plain '^' then negated else inside

/-- A token between brackets loses its backslash. The first one has nothing before it, and the one
in front of a closing bracket on its own has nothing behind it. -/
def Loses (p : Place) (t : Token) (behind : List Token) : Prop :=
  p ≠ outside ∧ (∃ u ∈ behind, u.char = ']') ∧
    t.Loses (decide (p = inside)) (decide (behind.head? ≠ some (.plain ']')))

instance (p : Place) (t : Token) (behind : List Token) : Decidable (p.Loses t behind) :=
  inferInstanceAs (Decidable (p ≠ outside ∧ (∃ u ∈ behind, u.char = ']') ∧
    t.Loses (decide (p = inside)) (decide (behind.head? ≠ some (.plain ']')))))

end Place

/-- Tokens without the backslashes that they lose between brackets. -/
def rewritten (p : Place) : List Token → List Token
  | [] => []
  | t :: ts => (if p.Loses t ts then .plain t.char else t) :: rewritten (p.next t) ts

section Spans

variable {p : Place} {t : Token} {ts behind : List Token} {held inner cs : List Char}

/-- What is held of brackets up to the closing one is normalized as a class. -/
theorem rewriteClasses_closed (held : List Char) (h : ']' ∉ inner) (rest : List Char) :
    rewriteClasses (some held) (inner ++ ']' :: rest) =
      normalizeClass (held.reverse ++ inner ++ [']']) ++ rewriteClasses none rest := by
  induction inner generalizing held with
  | nil => simp [rewriteClasses]
  | cons c inner ih =>
      rw [List.mem_cons, not_or] at h
      rw [List.cons_append, rewriteClasses, if_neg (by simpa using Ne.symm h.1), ih _ h.2]
      simp

/-- Without a closing bracket nothing is changed. -/
theorem rewriteClasses_open (held : List Char) (h : ']' ∉ cs) :
    rewriteClasses (some held) cs = held.reverse ++ cs := by
  induction cs generalizing held with
  | nil => simp [rewriteClasses]
  | cons c cs ih =>
      rw [List.mem_cons, not_or] at h
      rw [rewriteClasses, if_neg (by simpa using Ne.symm h.1), ih _ h.2]
      simp

theorem rewritten_open (h : ∀ t ∈ ts, t.char ≠ ']') : rewritten p ts = ts := by
  induction ts generalizing p with
  | nil => rfl
  | cons t ts ih =>
      rw [List.forall_mem_cons] at h
      rw [rewritten, ih h.2, if_neg]
      rintro ⟨-, ⟨u, hu, hchar⟩, -⟩
      exact h.2 u hu hchar

/-- Up to the closing bracket the tokens between brackets are rewritten as members of a class, also
where this bracket stands behind a backslash. -/
theorem rewritten_closed {close : Token} (hp : p ≠ .outside)
    (hneg : p = .opened → ts.head? ≠ some (.plain '^')) (hts : ∀ t ∈ ts, t.char ≠ ']')
    (hclose : close.char = ']') (behind : List Token) :
    rewritten p (ts ++ close :: behind) =
      loosenedMembers (decide (p = .inside)) (decide (close ≠ .plain ']')) ts ++
        close :: rewritten .outside behind := by
  induction ts generalizing p with
  | nil =>
      have hkept : ¬ p.Loses close behind := by
        rintro ⟨-, -, rfl | ⟨rfl, -⟩⟩ <;> simp at hclose
      have hnext : p.next close = .outside := by
        cases p with
        | outside => exact absurd rfl hp
        | opened | negated | inside => simp [Place.next, hclose]
      rw [List.nil_append, rewritten, if_neg hkept, hnext]
      rfl
  | cons t ts ih =>
      rw [List.forall_mem_cons] at hts
      have hnext : p.next t = .inside := by
        cases p with
        | outside => exact absurd rfl hp
        | opened => simpa [Place.next, hts.1] using hneg rfl
        | negated | inside => simp [Place.next, hts.1]
      have hmore : decide ((ts ++ close :: behind).head? ≠ some (.plain ']')) =
          (!ts.isEmpty || decide (close ≠ .plain ']')) := by
        cases ts with
        | nil => simp
        | cons u us =>
            have hu : u ≠ .plain ']' := by
              rintro rfl
              exact hts.2 _ List.mem_cons_self rfl
            simp [hu]
      have hloses : p.Loses t (ts ++ close :: behind) ↔
          t.Loses (decide (p = .inside)) (!ts.isEmpty || decide (close ≠ .plain ']')) := by
        rw [Place.Loses, hmore]
        exact ⟨fun h => h.2.2, fun h => ⟨hp, ⟨close, by simp, hclose⟩, h⟩⟩
      rw [List.cons_append, rewritten, hnext, ih (by simp) (by simp) hts.2, loosenedMembers,
        Token.loosened, List.cons_append]
      simp only [hloses, decide_true]

/-- Between brackets the text is rewritten as the text of members, whether the closing bracket
stands behind a backslash or not. -/
theorem spelling_rewritten_closed (hp : p ≠ .outside)
    (hneg : p = .opened → inner.head? ≠ some '^') (h : ']' ∉ inner) (rest : List Char) :
    spelling (rewritten p (tokens (inner ++ ']' :: rest))) =
      classMembers (decide (p = .inside)) inner ++
        ']' :: spelling (rewritten .outside (tokens rest)) := by
  have hchars : ∀ t ∈ tokens inner, t.char ≠ ']' := fun t ht hchar =>
    h ((exists_char_iff (by decide)).mp ⟨t, ht, hchar⟩)
  have hhead : p = .opened → (tokens inner).head? ≠ some (.plain '^') := by
    intro hopened hfirst
    have := head?_spelling (tokens inner)
    rw [spelling_tokens, hfirst] at this
    exact hneg hopened this
  rw [classMembers_eq]
  rcases (isRead_tokens inner).cases with hcomplete | ⟨us, hus, hcomplete⟩
  · have hread : tokens (inner ++ ']' :: rest) = tokens inner ++ .plain ']' :: tokens rest := by
      conv_lhs => rw [← spelling_tokens inner]
      rw [tokens_spelling_append hcomplete, tokens_plain (by decide)]
    rw [hread, rewritten_closed hp hhead hchars rfl]
    simp [Token.spell]
  · have hread : tokens (inner ++ ']' :: rest) = us ++ .escaped ']' :: tokens rest := by
      conv_lhs => rw [← spelling_tokens inner, hus]
      rw [tokens_spelling_backslash hcomplete]
    rw [hus] at hchars hhead
    have hfirst : p = .opened → us.head? ≠ some (.plain '^') := by
      intro hopened hus
      exact hhead hopened (by rw [List.head?_append, hus]; rfl)
    rw [hread, hus, rewritten_closed hp hfirst (fun t ht => hchars t (by simp [ht])) rfl,
      loosenedMembers_concat]
    simp [Token.spell]

end Spans

/-- Behind an opening bracket the text is rewritten token by token, if it is behind the closing
one. -/
theorem rewriteClasses_opened {cs : List Char}
    (h : ∀ inner rest, cs = inner ++ ']' :: rest →
      rewriteClasses none rest = spelling (rewritten .outside (tokens rest))) :
    rewriteClasses (some ['[']) cs = '[' :: spelling (rewritten .opened (tokens cs)) := by
  by_cases hclosed : ']' ∈ cs
  · obtain ⟨inner, rest, rfl, hinner⟩ := List.eq_append_cons_of_mem hclosed
    rw [rewriteClasses_closed _ hinner, List.reverse_singleton, List.singleton_append,
      List.cons_append, normalizeClass_eq, h inner rest rfl]
    by_cases hneg : inner.head? = some '^'
    · obtain ⟨members, rfl⟩ := List.head?_eq_some_iff.mp hneg
      rw [List.mem_cons, not_or] at hinner
      have hnext : Place.opened.next (.plain '^') = .negated := by decide
      have hkept : ¬ Place.opened.Loses (.plain '^') (tokens (members ++ ']' :: rest)) := by
        rintro ⟨-, -, hloses⟩
        simp [Token.Loses] at hloses
      have hread : tokens ('^' :: members ++ ']' :: rest) =
          .plain '^' :: tokens (members ++ ']' :: rest) := tokens_plain (by decide) _
      rw [hread, rewritten, if_neg hkept, hnext, spelling_cons,
        spelling_rewritten_closed (p := .negated) (by decide) (fun h => by cases h) hinner.2]
      simp [normalizedBody, Token.spell]
    · rw [spelling_rewritten_closed (by decide) (fun _ => hneg) hinner, normalizedBody_of_ne hneg]
      simp
  · rw [rewriteClasses_open _ hclosed, rewritten_open fun t ht hchar =>
      hclosed ((exists_char_iff (by decide)).mp ⟨t, ht, hchar⟩), spelling_tokens]
    rfl

/-- The text is rewritten token by token. -/
theorem rewriteClasses_eq (cs : List Char) :
    rewriteClasses none cs = spelling (rewritten .outside (tokens cs)) := by
  induction hn : cs.length using Nat.strongRecOn generalizing cs with
  | ind n ih =>
      have hkept : ∀ t ts, rewritten .outside (t :: ts) =
          t :: rewritten (Place.next .outside t) ts := by
        intro t ts
        rw [rewritten, if_neg fun h => h.1 rfl]
      have hopened : ∀ rest : List Char, rest.length < n →
          rewriteClasses (some ['[']) rest = '[' :: spelling (rewritten .opened (tokens rest)) := by
        intro rest hrest
        refine rewriteClasses_opened fun inner behind hbehind => ih behind.length ?_ behind rfl
        rw [hbehind, List.length_append, List.length_cons] at hrest
        omega
      subst hn
      match cs with
      | [] => rfl
      | c :: rest =>
          by_cases hc : c = '['
          · subst hc
            rw [tokens_plain (by decide), hkept, rewriteClasses, if_pos (by rfl),
              hopened rest (by simp)]
            rfl
          · rw [rewriteClasses, if_neg (by simpa using hc)]
            by_cases hb : c = '\\'
            · subst hb
              match rest with
              | [] => rfl
              | d :: rest =>
                  rw [tokens_escaped, hkept, rewriteClasses]
                  by_cases hd : d = '['
                  · subst hd
                    rw [if_pos (by rfl), hopened rest (by simp only [List.length_cons]; omega)]
                    rfl
                  · rw [if_neg (by simpa using hd),
                      ih rest.length (by simp only [List.length_cons]; omega) rest rfl]
                    simp [Place.next, hd, Token.spell]
            · rw [tokens_plain hb, hkept, ih rest.length (by simp) rest rfl]
              simp [Place.next, hc, Token.spell]

theorem isRead_rewritten {p : Place} {ts : List Token} (h : IsRead ts) :
    IsRead (rewritten p ts) := by
  induction ts generalizing p with
  | nil => trivial
  | cons t ts ih =>
      refine ⟨fun ht => ?_, ih h.2⟩
      have hplain : t = .plain '\\' := by
        by_cases hloses : p.Loses t ts
        · rw [if_pos hloses] at ht
          obtain ⟨-, -, rfl | ⟨rfl, -⟩⟩ := hloses <;> simp at ht
        · rwa [if_neg hloses] at ht
      rw [h.1 hplain]
      rfl

theorem tokens_rewriteClasses (cs : List Char) :
    tokens (rewriteClasses none cs) = rewritten .outside (tokens cs) := by
  rw [rewriteClasses_eq, tokens_spelling (isRead_rewritten (isRead_tokens cs))]

end RuleSchema.Script.Pattern
