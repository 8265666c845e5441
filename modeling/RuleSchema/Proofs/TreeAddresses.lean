import RuleSchema.Node.Declared
import RuleSchema.Proofs.DottedPaths

/-!
# Addresses in trees of fields

A head is found in its tree by names: a star leads to the item of an array, any other name to a
property. In an addressed tree every head carries the path of its address, and no two heads share
one; so the heads with a path are those at its address.
-/

namespace RuleSchema

namespace Tree

open DottedPath

variable {α : Type}

/-- The trees right below a node by name; the item of an array goes by a star. -/
def inside : Tree α → List (String × Tree α)
  | leaf _ => []
  | array _ item => [(RuleGroup.wildcard, item)]
  | object _ properties => properties

/-- The head at an address. -/
def at? : List String → Tree α → Option α
  | [], t => some t.head
  | name :: rest, t => (Table.get? t.inside name).bind (at? rest)

/-- The head at an address whose first name names one of several trees. -/
def atAll? (trees : List (String × Tree α)) : List String → Option α
  | [] => none
  | name :: rest => (Table.get? trees name).bind (at? rest)

theorem heads_eq (t : Tree α) : t.heads = t.head :: headsOfAll t.inside := by
  cases t with
  | leaf h => rfl
  | array h item => simp only [heads, head, inside, headsOfAll, List.append_nil]
  | object h properties => rfl

theorem mem_headsOfAll {trees : List (String × Tree α)} {d : α} :
    d ∈ headsOfAll trees ↔ ∃ p ∈ trees, d ∈ p.2.heads := by
  induction trees with
  | nil => simp only [headsOfAll, List.not_mem_nil, false_and, exists_false]
  | cons p rest ih =>
      simp only [headsOfAll, List.mem_append, ih, List.mem_cons, exists_eq_or_imp]

/-- Every head of a tree at an address carries the path of its own address. -/
inductive Addressed (path : α → String) : List String → Tree α → Prop
  | node {base t} (hpath : path t.head = ofNames base) (hkeys : (Table.keys t.inside).Nodup)
      (hnames : ∀ p ∈ t.inside, IsName p.1)
      (hall : ∀ p ∈ t.inside, Addressed path (base ++ [p.1]) p.2) : Addressed path base t

section Unique

variable {path : α → String} {base : List String} {trees : List (String × Tree α)}

/-- A head of an addressed tree is found at the address that its path spells. -/
theorem Addressed.exists_address {t : Tree α} (h : Addressed path base t) :
    ∀ d ∈ t.heads, ∃ q, IsAddress q ∧ path d = ofNames (base ++ q) ∧ t.at? q = some d := by
  induction h with
  | node hpath hkeys hnames hall ih =>
      intro d hd
      rw [heads_eq] at hd
      rcases List.mem_cons.mp hd with rfl | hd
      · exact ⟨[], isAddress_nil, by rw [List.append_nil, hpath], rfl⟩
      · obtain ⟨p, hmem, hd⟩ := mem_headsOfAll.mp hd
        obtain ⟨q, hq, hp, hat⟩ := ih p hmem d hd
        refine ⟨p.1 :: q, (isAddress_singleton (hnames p hmem)).append hq, ?_, ?_⟩
        · rw [hp, List.append_assoc, List.singleton_append]
        · rw [at?, Table.get?_eq_some_of_mem hkeys hmem, Option.bind_some, hat]

/-- The heads below a name have no path that goes on with another name. -/
theorem Addressed.filter_eq_nil {t : Tree α} {other : String}
    (h : Addressed path (base ++ [other]) t) (hbase : IsAddress base) (hother : IsName other)
    {q : List String} (hq : IsAddress q) (hne : base ++ q ≠ []) (hhead : q.head? ≠ some other) :
    t.heads.filter (path · = ofNames (base ++ q)) = [] := by
  apply List.filter_eq_nil_iff.mpr
  intro d hd
  obtain ⟨r, hr, hp, -⟩ := h.exists_address d hd
  rw [decide_eq_true_eq, hp, List.append_assoc]
  intro heq
  have hsame := ofNames_injOn (hbase.append ((isAddress_singleton hother).append hr))
    (hbase.append hq) (by simp) hne heq
  exact hhead (List.append_cancel_left hsame ▸ rfl)

/-- Among named trees whose heads are unique by path, a head is unique by path. -/
theorem filter_headsOfAll (hbase : IsAddress base) (hkeys : (Table.keys trees).Nodup)
    (hnames : ∀ p ∈ trees, IsName p.1)
    (haddress : ∀ p ∈ trees, Addressed path (base ++ [p.1]) p.2)
    (hunique : ∀ p ∈ trees, ∀ q, IsAddress q →
      p.2.heads.filter (path · = ofNames (base ++ [p.1] ++ q)) = (p.2.at? q).toList)
    {name : String} {rest : List String} (hq : IsAddress (name :: rest)) :
    (headsOfAll trees).filter (path · = ofNames (base ++ name :: rest)) =
      (atAll? trees (name :: rest)).toList := by
  induction trees with
  | nil => rfl
  | cons p more ih =>
      obtain ⟨other, t⟩ := p
      rw [Table.keys, List.map_cons, List.nodup_cons] at hkeys
      have hmore := ih hkeys.2 (fun p hp => hnames p (List.mem_cons_of_mem _ hp))
        (fun p hp => haddress p (List.mem_cons_of_mem _ hp))
        fun p hp => hunique p (List.mem_cons_of_mem _ hp)
      rw [headsOfAll, List.filter_append, hmore]
      by_cases heq : other = name
      · subst heq
        have hrest : IsAddress rest := fun n hn => hq n (List.mem_cons_of_mem _ hn)
        have hhere := hunique (other, t) List.mem_cons_self rest hrest
        rw [List.append_assoc, List.singleton_append] at hhere
        rw [hhere, atAll?, Table.get?_eq_none_of_not_mem hkeys.1, atAll?, Table.get?, if_pos rfl]
        exact List.append_nil _
      · have hnone := (haddress (other, t) List.mem_cons_self).filter_eq_nil hbase
          (hnames (other, t) List.mem_cons_self) hq (by simp) (by simpa using Ne.symm heq)
        rw [hnone, atAll?, atAll?, Table.get?, if_neg heq]
        rfl

/-- The heads of an addressed tree with a path are those at the address that it spells. -/
theorem Addressed.filter_heads {t : Tree α} (h : Addressed path base t) (hbase : IsAddress base)
    (hne : base ≠ []) : ∀ q, IsAddress q →
      t.heads.filter (path · = ofNames (base ++ q)) = (t.at? q).toList := by
  induction h with
  | @node base t hpath hkeys hnames hall ih =>
      intro q hq
      have hunique : ∀ p ∈ t.inside, ∀ q, IsAddress q →
          p.2.heads.filter (path · = ofNames (base ++ [p.1] ++ q)) = (p.2.at? q).toList :=
        fun p hp => ih p hp (hbase.append (isAddress_singleton (hnames p hp))) (by simp)
      rw [heads_eq]
      cases q with
      | nil =>
          have hinside : (headsOfAll t.inside).filter (path · = ofNames base) = [] := by
            apply List.filter_eq_nil_iff.mpr
            intro d hd
            obtain ⟨p, hp, hd⟩ := mem_headsOfAll.mp hd
            have hnone := (hall p hp).filter_eq_nil hbase (hnames p hp) isAddress_nil
              (by simpa using hne) (by simp)
            rw [List.append_nil] at hnone
            exact List.filter_eq_nil_iff.mp hnone d hd
          rw [List.append_nil, List.filter_cons_of_pos (by simpa using hpath), hinside]
          rfl
      | cons name rest =>
          have hhead : path t.head ≠ ofNames (base ++ name :: rest) := by
            rw [hpath]
            intro heq
            have hsame := ofNames_injOn hbase (hbase.append hq) hne (by simp) heq
            simp at hsame
          rw [List.filter_cons_of_neg (by simpa using hhead)]
          exact filter_headsOfAll hbase hkeys hnames hall hunique hq

end Unique

end Tree

end RuleSchema
