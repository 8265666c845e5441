import RuleSchema.Condition.Basic

/-!
# Equality of data

Two data are the same in either order, and data that are the same as a third are the same. Lists and
tuples are compared item by item. Of sets, maps and records each item has its like in the other one,
a relation with the two sides alike.

## Implementation notes

Equality recurses on its first argument only, so the relation between two sets is written as two
functions on the items of the first one. It is brought back to one function on both lists here.
-/

namespace RuleSchema

namespace Datum

/-- Whether each of some items has its like among the others, and the other way round. -/
def matched {α : Type} (like : α → α → Bool) (as bs : List α) : Bool :=
  as.all (fun a => bs.any (like a)) && bs.all fun b => as.any (like · b)

theorem matched_comm {α : Type} {like : α → α → Bool} {as bs : List α}
    (h : ∀ a ∈ as, ∀ b, like a b = like b a) : matched like as bs = matched like bs as := by
  rw [Bool.eq_iff_iff]
  simp only [matched, Bool.and_eq_true, List.all_eq_true, List.any_eq_true]
  rw [and_comm]
  refine and_congr (forall₂_congr fun b _ => exists_congr fun a => and_congr_right fun ha => ?_)
    (forall₂_congr fun a ha => exists_congr fun b => ?_)
  · rw [h a ha b]
  · rw [h a ha b]

theorem matched_trans {α : Type} {like : α → α → Bool} {as bs cs : List α}
    (h : ∀ a ∈ as, ∀ b c, like a b = true → like b c = true → like a c = true)
    (hab : matched like as bs = true) (hbc : matched like bs cs = true) :
    matched like as cs = true := by
  simp only [matched, Bool.and_eq_true, List.all_eq_true, List.any_eq_true] at hab hbc ⊢
  constructor
  · intro a ha
    obtain ⟨b, hb, hlike⟩ := hab.1 a ha
    obtain ⟨c, hc, hlike'⟩ := hbc.1 b hb
    exact ⟨c, hc, h a ha b c hlike hlike'⟩
  · intro c hc
    obtain ⟨b, hb, hlike'⟩ := hbc.2 c hc
    obtain ⟨a, ha, hlike⟩ := hab.2 b hb
    exact ⟨a, ha, h a ha b c hlike hlike'⟩

/-- Equality of keys and of values. -/
def sameEntry (p q : Datum × Datum) : Bool := same p.1 q.1 && same p.2 q.2

/-- Equality of names and of values. -/
def samePart (p q : String × Datum) : Bool := p.1 == q.1 && same p.2 q.2

section Equations

theorem among_eq (as : List Datum) (b : Datum) : among as b = as.any (same · b) := by
  induction as with
  | nil => rfl
  | cons a rest ih => rw [among, ih, List.any_cons]

theorem allAmong_eq (as bs : List Datum) : allAmong as bs = as.all fun a => bs.any (same a) := by
  induction as with
  | nil => rfl
  | cons a rest ih => rw [allAmong, ih, List.all_cons]

theorem entryAmong_eq (es : List (Datum × Datum)) (q : Datum × Datum) :
    entryAmong es q = es.any (sameEntry · q) := by
  induction es with
  | nil => rfl
  | cons e rest ih => rw [entryAmong, ih, List.any_cons, sameEntry]

theorem allEntriesAmong_eq (es fs : List (Datum × Datum)) :
    allEntriesAmong es fs = es.all fun e => fs.any (sameEntry e) := by
  induction es with
  | nil => rfl
  | cons e rest ih =>
      rw [allEntriesAmong, ih, List.all_cons]
      rfl

theorem partAmong_eq (ps : List (String × Datum)) (q : String × Datum) :
    partAmong ps q = ps.any (samePart · q) := by
  induction ps with
  | nil => rfl
  | cons p rest ih => rw [partAmong, ih, List.any_cons, samePart]

theorem allPartsAmong_eq (ps qs : List (String × Datum)) :
    allPartsAmong ps qs = ps.all fun p => qs.any (samePart p) := by
  induction ps with
  | nil => rfl
  | cons p rest ih =>
      rw [allPartsAmong, ih, List.all_cons]
      rfl

theorem same_set (as bs : List Datum) : same (set as) (set bs) = matched same as bs := by
  rw [same, allAmong_eq, funext (among_eq as), matched]

theorem same_map (es fs : List (Datum × Datum)) :
    same (map es) (map fs) = matched sameEntry es fs := by
  rw [same, allEntriesAmong_eq, funext (entryAmong_eq es), matched]

theorem same_record (ps qs : List (String × Datum)) :
    same (record ps) (record qs) = matched samePart ps qs := by
  rw [same, allPartsAmong_eq, funext (partAmong_eq ps), matched]

end Equations

/-- Whether a datum has no data inside that equality looks at. -/
def isFlat : Datum → Bool
  | list _ => false
  | tuple _ => false
  | set _ => false
  | map _ => false
  | record _ => false
  | _ => true

theorem sameNumber_comm (a b : Number) : sameNumber a b = sameNumber b a := Bool.and_comm ..

/-- Scalars are the same in either order, and so are data of sorts that no datum but one of the same
sort is equal to. -/
theorem same_comm_of_flat {a : Datum} (h : a.isFlat) (b : Datum) : same a b = same b a := by
  cases a with
  | list | tuple | set | map | record => cases h
  | absent | function | object => cases b <;> rfl
  | truth | whole | real => cases b <;> first | rfl | exact sameNumber_comm ..
  | text a =>
      cases b with
      | text b => exact Bool.beq_comm
      | _ => rfl
  | enumeration a cases =>
      cases b with
      | enumeration b cases => exact Bool.beq_comm
      | _ => rfl
  | member a x value =>
      cases b with
      | member b y value => rw [same, same, Bool.beq_comm, Bool.beq_comm (a := x)]
      | _ => rfl
  | entry a =>
      cases b with
      | entry b => exact decide_eq_decide.mpr eq_comm
      | _ => rfl

mutual
/-- Equality of data does not depend on which of them comes first. -/
theorem same_comm (a b : Datum) : same a b = same b a := by
  cases a with
  | list as =>
      cases b with
      | list bs => exact sameItems_comm as bs
      | _ => rfl
  | tuple as =>
      cases b with
      | tuple bs => exact sameItems_comm as bs
      | _ => rfl
  | set as =>
      cases b with
      | set bs => rw [same_set, same_set, matched_comm (same_comm_of_mem as)]
      | _ => rfl
  | map es =>
      cases b with
      | map fs => rw [same_map, same_map, matched_comm (sameEntry_comm_of_mem es)]
      | _ => rfl
  | record ps =>
      cases b with
      | record qs => rw [same_record, same_record, matched_comm (samePart_comm_of_mem ps)]
      | _ => rfl
  | _ => exact same_comm_of_flat rfl b
termination_by structural a
theorem sameItems_comm (as bs : List Datum) : sameItems as bs = sameItems bs as := by
  match as, bs with
  | [], [] => rfl
  | [], _ :: _ => rfl
  | _ :: _, [] => rfl
  | a :: as, b :: bs => rw [sameItems, sameItems, same_comm a b, sameItems_comm as bs]
termination_by structural as
theorem same_comm_of_mem (as : List Datum) : ∀ a ∈ as, ∀ b, same a b = same b a := by
  cases as with
  | nil => nofun
  | cons a as => exact List.forall_mem_cons.mpr ⟨same_comm a, same_comm_of_mem as⟩
termination_by structural as
theorem sameEntry_comm_of_mem (es : List (Datum × Datum)) :
    ∀ e ∈ es, ∀ f, sameEntry e f = sameEntry f e := by
  match es with
  | [] => nofun
  | (k, v) :: es =>
      refine List.forall_mem_cons.mpr ⟨fun f => ?_, sameEntry_comm_of_mem es⟩
      rw [sameEntry, sameEntry, same_comm k, same_comm v]
termination_by structural es
theorem samePart_comm_of_mem (ps : List (String × Datum)) :
    ∀ p ∈ ps, ∀ q, samePart p q = samePart q p := by
  match ps with
  | [] => nofun
  | (n, v) :: ps =>
      refine List.forall_mem_cons.mpr ⟨fun q => ?_, samePart_comm_of_mem ps⟩
      rw [samePart, samePart, Bool.beq_comm, same_comm v]
termination_by structural ps
end

/-- Numbers are the same where they have the same exact place. -/
theorem sameNumber_iff {m n : Number} :
    sameNumber m n = true ↔ ∃ place, m.place? = some place ∧ n.place? = some place := by
  unfold sameNumber Number.le
  cases m.place? with
  | none => simp
  | some p =>
      cases n.place? with
      | none => simp
      | some q =>
          obtain ⟨i, r⟩ := p
          obtain ⟨j, s⟩ := q
          simp only [Bool.and_eq_true, Bool.or_eq_true, decide_eq_true_eq, beq_iff_eq,
            Option.some.injEq, exists_eq_left', Prod.mk.injEq]
          constructor
          · rintro ⟨h | ⟨rfl, h⟩, h' | ⟨heq, h'⟩⟩
            · omega
            · omega
            · omega
            · exact ⟨rfl, Rat.le_antisymm h' h⟩
          · rintro ⟨rfl, rfl⟩
            exact ⟨.inr ⟨rfl, Rat.le_refl⟩, .inr ⟨rfl, Rat.le_refl⟩⟩

theorem sameNumber_trans {k m n : Number} (h : sameNumber k m = true)
    (h' : sameNumber m n = true) : sameNumber k n = true := by
  obtain ⟨place, hk, hm⟩ := sameNumber_iff.mp h
  obtain ⟨place', hm', hn⟩ := sameNumber_iff.mp h'
  rw [hm, Option.some.injEq] at hm'
  subst hm'
  exact sameNumber_iff.mpr ⟨place, hk, hn⟩

/-- A number is the same as no datum but the same number. -/
theorem same_iff_of_number? {a b : Datum} {m : Number} (h : a.number? = some m) :
    same a b = true ↔ ∃ n, b.number? = some n ∧ sameNumber m n = true := by
  have heq : same a b = b.number?.any (sameNumber m) := by
    cases a with
    | truth | whole | real =>
        obtain rfl := Option.some.inj h
        cases b <;> rfl
    | _ => cases h
  rw [heq, Option.any_eq_true]

theorem same_trans_of_flat {a b c : Datum} (h : a.isFlat) (hab : same a b = true)
    (hbc : same b c = true) : same a c = true := by
  cases a with
  | list | tuple | set | map | record => cases h
  | function | object => cases b <;> cases hab
  | truth | whole | real =>
      obtain ⟨m, hm, hnumber⟩ := (same_iff_of_number? rfl).mp hab
      obtain ⟨n, hn, hnumber'⟩ := (same_iff_of_number? hm).mp hbc
      exact (same_iff_of_number? rfl).mpr ⟨n, hn, sameNumber_trans hnumber hnumber'⟩
  | absent =>
      cases b with
      | absent => exact hbc
      | _ => cases hab
  | text s =>
      cases b with
      | text t =>
          obtain rfl := eq_of_beq hab
          exact hbc
      | _ => cases hab
  | enumeration name cases =>
      cases b with
      | enumeration other cases' =>
          obtain rfl : name = other := eq_of_beq hab
          cases c with
          | enumeration => exact hbc
          | _ => cases hbc
      | _ => cases hab
  | member owner name value =>
      cases b with
      | member owner' name' value' =>
          obtain ⟨howner, hname⟩ := Bool.and_eq_true_iff.mp hab
          obtain rfl := eq_of_beq howner
          obtain rfl := eq_of_beq hname
          cases c with
          | member => exact hbc
          | _ => cases hbc
      | _ => cases hab
  | entry e =>
      cases b with
      | entry e' =>
          obtain rfl : e = e' := of_decide_eq_true hab
          exact hbc
      | _ => cases hab

mutual
/-- Data that are the same as a third one are the same. -/
theorem same_trans (a : Datum) {b c : Datum} (hab : same a b = true) (hbc : same b c = true) :
    same a c = true := by
  cases a with
  | list as =>
      cases b with
      | list bs =>
          cases c with
          | list cs => exact sameItems_trans as hab hbc
          | _ => cases hbc
      | _ => cases hab
  | tuple as =>
      cases b with
      | tuple bs =>
          cases c with
          | tuple cs => exact sameItems_trans as hab hbc
          | _ => cases hbc
      | _ => cases hab
  | set as =>
      cases b with
      | set bs =>
          cases c with
          | set cs =>
              rw [same_set] at hab hbc ⊢
              exact matched_trans (same_trans_of_mem as) hab hbc
          | _ => cases hbc
      | _ => cases hab
  | map es =>
      cases b with
      | map fs =>
          cases c with
          | map gs =>
              rw [same_map] at hab hbc ⊢
              exact matched_trans (sameEntry_trans_of_mem es) hab hbc
          | _ => cases hbc
      | _ => cases hab
  | record ps =>
      cases b with
      | record qs =>
          cases c with
          | record rs =>
              rw [same_record] at hab hbc ⊢
              exact matched_trans (samePart_trans_of_mem ps) hab hbc
          | _ => cases hbc
      | _ => cases hab
  | _ => exact same_trans_of_flat rfl hab hbc
termination_by structural a
theorem sameItems_trans (as : List Datum) {bs cs : List Datum} (hab : sameItems as bs = true)
    (hbc : sameItems bs cs = true) : sameItems as cs = true := by
  match as, bs, cs with
  | [], [], _ => exact hbc
  | [], _ :: _, _ => cases hab
  | _ :: _, [], _ => cases hab
  | _ :: _, _ :: _, [] => cases hbc
  | a :: as, b :: bs, c :: cs =>
      rw [sameItems, Bool.and_eq_true] at hab hbc ⊢
      exact ⟨same_trans a hab.1 hbc.1, sameItems_trans as hab.2 hbc.2⟩
termination_by structural as
theorem same_trans_of_mem (as : List Datum) :
    ∀ a ∈ as, ∀ b c, same a b = true → same b c = true → same a c = true := by
  cases as with
  | nil => nofun
  | cons a as =>
      exact List.forall_mem_cons.mpr ⟨fun b c => same_trans a, same_trans_of_mem as⟩
termination_by structural as
theorem sameEntry_trans_of_mem (es : List (Datum × Datum)) :
    ∀ e ∈ es, ∀ f g, sameEntry e f = true → sameEntry f g = true → sameEntry e g = true := by
  match es with
  | [] => nofun
  | (k, v) :: es =>
      refine List.forall_mem_cons.mpr ⟨fun f g hef hfg => ?_, sameEntry_trans_of_mem es⟩
      rw [sameEntry, Bool.and_eq_true] at hef hfg ⊢
      exact ⟨same_trans k hef.1 hfg.1, same_trans v hef.2 hfg.2⟩
termination_by structural es
theorem samePart_trans_of_mem (ps : List (String × Datum)) :
    ∀ p ∈ ps, ∀ q r, samePart p q = true → samePart q r = true → samePart p r = true := by
  match ps with
  | [] => nofun
  | (n, v) :: ps =>
      refine List.forall_mem_cons.mpr ⟨fun q r hpq hqr => ?_, samePart_trans_of_mem ps⟩
      rw [samePart, Bool.and_eq_true, beq_iff_eq] at hpq hqr ⊢
      exact ⟨hpq.1.trans hqr.1, same_trans v hpq.2 hqr.2⟩
termination_by structural ps
end

/-- Data that are the same are the same as the same data. -/
theorem same_congr {a b : Datum} (h : same a b = true) (c : Datum) : same a c = same b c :=
  Bool.eq_iff_iff.mpr ⟨same_trans b (same_comm a b ▸ h), same_trans a h⟩

end Datum
end RuleSchema
