import Mathlib.Data.List.Forall2
import Mathlib.Tactic.ByContra
import RuleSchema.Text.Cut

/-!
# Replacing in joined texts

A text whose pieces are joined by a needle is replaced piece by piece, as long as the first
character of the needle does not come again in it: no occurrence then lies across the border of a
piece. The result is the pieces joined by the other text exactly when no piece contains the needle,
unless the needle is replaced by itself.
-/

namespace RuleSchema.Text

variable {c : Char} {tail by' : List Char}

theorem replaceFrom_drop (needle by' : List Char) (skip : Nat) (cs : List Char) :
    replaceFrom needle by' skip cs = replaceChars needle by' (cs.drop skip) := by
  induction cs generalizing skip with
  | nil => cases skip <;> rfl
  | cons d rest ih =>
      cases skip with
      | zero => rfl
      | succ skip => exact ih skip

/-- An occurrence at the head gives way to the other text. -/
theorem replaceChars_append (c : Char) (tail by' rest : List Char) :
    replaceChars (c :: tail) by' (c :: tail ++ rest) =
      by' ++ replaceChars (c :: tail) by' rest := by
  have hprefix : (c :: tail).isPrefixOf (c :: (tail ++ rest)) = true :=
    List.isPrefixOf_iff_prefix.mpr ⟨rest, rfl⟩
  rw [List.cons_append, replaceChars, replaceFrom, if_pos hprefix, replaceFrom_drop,
    List.length_cons, Nat.add_sub_cancel, List.drop_left]

/-- A character at which no occurrence starts stays. -/
theorem replaceChars_cons {needle : List Char} {d : Char} {rest : List Char}
    (h : ¬ needle <+: d :: rest) :
    replaceChars needle by' (d :: rest) = d :: replaceChars needle by' rest := by
  rw [replaceChars, replaceFrom, if_neg (by rwa [List.isPrefixOf_iff_prefix])]
  rfl

/-- Every text is empty, or starts with an occurrence, or starts with a character of its own. -/
theorem replace_cases (needle cs : List Char) :
    cs = [] ∨ (∃ rest, cs = needle ++ rest) ∨
      ∃ d rest, cs = d :: rest ∧ ¬ needle <+: d :: rest := by
  cases cs with
  | nil => exact .inl rfl
  | cons d rest =>
      by_cases h : needle <+: d :: rest
      · obtain ⟨more, hmore⟩ := h
        exact .inr (.inl ⟨more, hmore.symm⟩)
      · exact .inr (.inr ⟨d, rest, rfl, h⟩)

/-- Induction along the occurrences of a needle that is not empty. -/
theorem replace_induction (c : Char) (tail : List Char) {motive : List Char → Prop}
    (nil : motive []) (found : ∀ rest, motive rest → motive (c :: tail ++ rest))
    (kept : ∀ d rest, ¬ c :: tail <+: d :: rest → motive rest → motive (d :: rest))
    (cs : List Char) : motive cs := by
  induction hlength : cs.length using Nat.strongRecOn generalizing cs with
  | _ n ih =>
      subst hlength
      rcases replace_cases (c :: tail) cs with rfl | ⟨rest, rfl⟩ | ⟨d, rest, rfl, hkept⟩
      · exact nil
      · refine found rest (ih rest.length ?_ rest rfl)
        rw [List.length_append, List.length_cons]
        omega
      · exact kept d rest hkept (ih rest.length (Nat.lt_succ_self _) rest rfl)

theorem occursIn_cons {needle : List Char} {d : Char} {rest : List Char} :
    occursIn needle (d :: rest) = true ↔ needle <+: d :: rest ∨ occursIn needle rest = true := by
  rw [occursIn, Bool.or_eq_true, List.isPrefixOf_iff_prefix]

theorem replaceChars_of_not_occursIn {needle cs : List Char} (h : occursIn needle cs = false) :
    replaceChars needle by' cs = cs := by
  induction cs with
  | nil => rfl
  | cons d rest ih =>
      rw [← Bool.not_eq_true, occursIn_cons, not_or, Bool.not_eq_true] at h
      rw [replaceChars_cons h.1, ih h.2]

theorem replaceChars_self (c : Char) (tail cs : List Char) :
    replaceChars (c :: tail) (c :: tail) cs = cs := by
  induction cs using replace_induction c tail with
  | nil => rfl
  | found rest ih => rw [replaceChars_append, ih]
  | kept d rest h ih => rw [replaceChars_cons h, ih]

/-- A longer text in place of the needle makes no text shorter. -/
theorem length_le_replaceChars (h : (c :: tail).length ≤ by'.length) (cs : List Char) :
    cs.length ≤ (replaceChars (c :: tail) by' cs).length := by
  induction cs using replace_induction c tail with
  | nil => exact Nat.zero_le _
  | found rest ih =>
      rw [replaceChars_append, List.length_append, List.length_append]
      exact Nat.add_le_add h ih
  | kept d rest hkept ih =>
      rw [replaceChars_cons hkept]
      exact Nat.succ_le_succ ih

/-- A shorter text in place of the needle makes no text longer. -/
theorem length_replaceChars_le (h : by'.length ≤ (c :: tail).length) (cs : List Char) :
    (replaceChars (c :: tail) by' cs).length ≤ cs.length := by
  induction cs using replace_induction c tail with
  | nil => exact Nat.zero_le _
  | found rest ih =>
      rw [replaceChars_append, List.length_append, List.length_append]
      exact Nat.add_le_add h ih
  | kept d rest hkept ih =>
      rw [replaceChars_cons hkept]
      exact Nat.succ_le_succ ih

/-- Replacing changes a text exactly when the needle occurs in it and is not replaced by itself. -/
theorem replaceChars_eq_self_iff (cs : List Char) :
    replaceChars (c :: tail) by' cs = cs ↔
      occursIn (c :: tail) cs = false ∨ by' = c :: tail := by
  constructor
  · intro h
    by_contra hnot
    rw [not_or, Bool.not_eq_false] at hnot
    obtain ⟨hoccurs, hne⟩ := hnot
    induction cs using replace_induction c tail with
    | nil => cases hoccurs
    | found rest ih =>
        rw [replaceChars_append] at h
        have hlength := congrArg List.length h
        rw [List.length_append, List.length_append] at hlength
        have hsame : by'.length = (c :: tail).length := by
          rcases Nat.le_total by'.length (c :: tail).length with hle | hle
          · have := length_replaceChars_le hle rest
            omega
          · have := length_le_replaceChars hle rest
            omega
        exact hne (List.append_inj_left h hsame)
    | kept d rest hkept ih =>
        rw [replaceChars_cons hkept] at h
        exact ih (List.cons.inj h).2 ((occursIn_cons.mp hoccurs).resolve_left hkept)
  · rintro (habsent | rfl)
    · exact replaceChars_of_not_occursIn habsent
    · exact replaceChars_self c tail cs

section Joined

variable (hc : c ∉ tail)

include hc

/-- No occurrence lies across the head of another one. -/
theorem prefix_append_cons_iff {d : Char} {before after : List Char} :
    c :: tail <+: d :: before ++ c :: after ↔ c :: tail <+: d :: before := by
  constructor
  · intro h
    rcases Nat.lt_or_ge (d :: before).length (c :: tail).length with hlt | hge
    · exfalso
      rw [List.cons_append, List.cons_prefix_cons] at h
      have hshort : before ++ [c] <+: tail := by
        refine List.prefix_of_prefix_length_le ?_ h.2 ?_
        · exact ⟨after, by rw [List.append_assoc, List.singleton_append]⟩
        · rw [List.length_append, List.length_singleton]
          exact Nat.lt_of_succ_lt_succ hlt
      exact hc (hshort.subset (List.mem_append_right _ (List.mem_singleton_self c)))
    · exact List.prefix_of_prefix_length_le h (List.prefix_append _ _) hge
  · intro h
    exact h.trans (List.prefix_append _ _)

/-- A text with an occurrence is replaced before it and behind it. -/
theorem replaceChars_append_append (by' before after : List Char) :
    replaceChars (c :: tail) by' (before ++ (c :: tail ++ after)) =
      replaceChars (c :: tail) by' before ++ (by' ++ replaceChars (c :: tail) by' after) := by
  induction before using replace_induction c tail with
  | nil => exact replaceChars_append c tail by' after
  | found rest ih =>
      rw [List.append_assoc, replaceChars_append, ih, replaceChars_append, List.append_assoc]
  | kept d rest hkept ih =>
      have hlonger : ¬ c :: tail <+: d :: (rest ++ (c :: tail ++ after)) := by
        rw [← List.cons_append]
        exact fun h => hkept ((prefix_append_cons_iff hc).mp h)
      rw [List.cons_append, replaceChars_cons hlonger, ih, replaceChars_cons hkept,
        List.cons_append]

/-- Pieces joined by the needle are replaced one by one and joined by the other text. -/
theorem replaceChars_joinChars (by' : List Char) {pieces : List (List Char)} (hne : pieces ≠ []) :
    replaceChars (c :: tail) by' (joinChars (c :: tail) pieces) =
      joinChars by' (pieces.map (replaceChars (c :: tail) by')) := by
  induction pieces with
  | nil => exact absurd rfl hne
  | cons piece rest ih =>
      cases rest with
      | nil => rfl
      | cons next rest =>
          have hrest := ih (List.cons_ne_nil next rest)
          simp only [joinChars, List.map_cons, List.append_assoc] at hrest ⊢
          rw [replaceChars_append_append hc, hrest]

end Joined

section Lengths

variable {shorter longer : List (List Char)}

theorem length_joinChars_le (sep : List Char)
    (h : List.Forall₂ (fun a b : List Char => a.length ≤ b.length) shorter longer) :
    (joinChars sep shorter).length ≤ (joinChars sep longer).length := by
  induction h with
  | nil => exact Nat.le_refl _
  | @cons a b as bs hab hrest ih =>
      cases hrest with
      | nil => exact hab
      | cons =>
          simp only [joinChars, List.length_append] at ih ⊢
          omega

/-- Joined texts are equal only piece by piece, where no piece of one is longer than its counterpart
of the other. -/
theorem eq_of_joinChars_eq (sep : List Char)
    (h : List.Forall₂ (fun a b : List Char => a.length ≤ b.length) shorter longer)
    (heq : joinChars sep shorter = joinChars sep longer) : shorter = longer := by
  induction h with
  | nil => rfl
  | @cons a b as bs hab hrest ih =>
      cases hrest with
      | nil => exact congrArg (fun piece => [piece]) heq
      | @cons next other as bs hnext hrest =>
          have htail := length_joinChars_le sep (.cons hnext hrest)
          simp only [joinChars, List.append_assoc] at heq
          have hsame : a.length = b.length := by
            have hlength := congrArg List.length heq
            simp only [List.length_append] at hlength
            omega
          obtain ⟨rfl, hmore⟩ := List.append_inj heq hsame
          rw [ih (List.append_cancel_left hmore)]

end Lengths

/-- Of pieces joined by a needle the replacement gives the pieces joined by the other text exactly
when no piece contains the needle, unless the needle is replaced by itself. -/
theorem replaceChars_joinChars_iff (hc : c ∉ tail) {pieces : List (List Char)}
    (hne : pieces ≠ []) :
    replaceChars (c :: tail) by' (joinChars (c :: tail) pieces) = joinChars by' pieces ↔
      (∀ piece ∈ pieces, occursIn (c :: tail) piece = false) ∨ by' = c :: tail := by
  rw [replaceChars_joinChars hc by' hne]
  have hpieces : joinChars by' (pieces.map (replaceChars (c :: tail) by')) = joinChars by' pieces ↔
      pieces.map (replaceChars (c :: tail) by') = pieces.map id := by
    rw [List.map_id]
    refine ⟨fun heq => ?_, fun heq => by rw [heq]⟩
    rcases Nat.le_total by'.length (c :: tail).length with hle | hle
    · refine eq_of_joinChars_eq by' ?_ heq
      rw [List.forall₂_map_left_iff]
      exact List.forall₂_same.mpr fun piece _ => length_replaceChars_le hle piece
    · refine (eq_of_joinChars_eq by' ?_ heq.symm).symm
      rw [List.forall₂_map_right_iff]
      exact List.forall₂_same.mpr fun piece _ => length_le_replaceChars hle piece
  rw [hpieces, List.map_inj_left]
  simp only [id, replaceChars_eq_self_iff]
  by_cases hself : by' = c :: tail
  · simp only [hself, or_true, implies_true]
  · simp only [hself, or_false]

end RuleSchema.Text
