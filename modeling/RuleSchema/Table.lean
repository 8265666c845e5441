/-!
# Ordered tables

A table keeps its keys in the order in which they were first put. Putting a value under a present
key replaces the value and keeps the place.
-/

namespace RuleSchema

/-- Keys with their values, in order. -/
abbrev Table (α : Type) := List (String × α)

namespace Table

variable {α β : Type}

/-- The value under a key. -/
def get? : Table α → String → Option α
  | [], _ => none
  | (k, v) :: rest, key => if k = key then some v else get? rest key

/-- The keys in order. -/
def keys (t : Table α) : List String := t.map Prod.fst

/-- Whether a key is present. -/
def has (t : Table α) (key : String) : Bool := (t.get? key).isSome

/-- A table with a value under a key. -/
def put : Table α → String → α → Table α
  | [], key, value => [(key, value)]
  | (k, v) :: rest, key, value => if k = key then (k, value) :: rest else (k, v) :: put rest key value

/-- A table of pairs, of which a later one replaces the value of an earlier one. -/
def ofPairs (pairs : List (String × α)) : Table α := pairs.foldl (fun t p => t.put p.1 p.2) []

/-- A table with every value changed. -/
def mapValues (f : α → β) (t : Table α) : Table β := t.map fun p => (p.1, f p.2)

/-- A table with a value under a key, unless the key is present. -/
def putNew (t : Table α) (key : String) (value : α) : Table α :=
  if t.has key then t else t.put key value

/-- A table with the pairs of another under the keys that it lacks. -/
def putAllNew (t other : Table α) : Table α := other.foldl (fun held p => held.putNew p.1 p.2) t

@[simp] theorem get?_nil (key : String) : get? ([] : Table α) key = none := rfl

theorem get?_put_self (t : Table α) (key : String) (value : α) :
    (t.put key value).get? key = some value := by
  induction t with
  | nil => simp [put, get?]
  | cons p rest ih =>
    obtain ⟨k, v⟩ := p
    by_cases h : k = key <;> simp [put, get?, h, ih]

theorem get?_put_of_ne {t : Table α} {key other : String} (value : α) (h : other ≠ key) :
    (t.put key value).get? other = t.get? other := by
  induction t with
  | nil => simp [put, get?, Ne.symm h]
  | cons p rest ih =>
    obtain ⟨k, v⟩ := p
    by_cases hk : k = key
    · subst hk; simp [put, get?, Ne.symm h]
    · rw [put, if_neg hk, get?, get?, ih]

/-- Putting keeps the keys and adds a new one at the end. -/
theorem keys_put (t : Table α) (key : String) (value : α) :
    (t.put key value).keys = if key ∈ t.keys then t.keys else t.keys ++ [key] := by
  induction t with
  | nil => simp [put, keys]
  | cons p rest ih =>
    obtain ⟨k, v⟩ := p
    by_cases h : k = key
    · subst h; simp [put, keys]
    · simp only [keys] at ih
      simp only [put, h, if_false, keys, List.map_cons, ih, List.mem_cons, Ne.symm h, false_or]
      split
      · rename_i present; simp [present]
      · rename_i missing; simp [missing]

/-- A new key is put at the end. -/
theorem put_of_not_mem {t : Table α} {key : String} (value : α) (h : key ∉ t.keys) :
    t.put key value = t ++ [(key, value)] := by
  induction t with
  | nil => rfl
  | cons p rest ih =>
    obtain ⟨k, v⟩ := p
    simp only [keys, List.map_cons, List.mem_cons, not_or] at h
    rw [put, if_neg (Ne.symm h.1), ih h.2, List.cons_append]

theorem mem_keys_of_get?_eq_some {t : Table α} {key : String} {value : α}
    (h : t.get? key = some value) : key ∈ t.keys := by
  induction t with
  | nil => simp at h
  | cons p rest ih =>
    obtain ⟨k, v⟩ := p
    by_cases hk : k = key
    · simp [keys, hk]
    · rw [get?, if_neg hk] at h
      exact List.mem_cons_of_mem _ (ih h)

theorem get?_eq_none_of_not_mem {t : Table α} {key : String} (h : key ∉ t.keys) :
    t.get? key = none := by
  cases hget : t.get? key with
  | none => rfl
  | some _ => exact absurd (mem_keys_of_get?_eq_some hget) h

theorem get?_eq_none_iff {t : Table α} {key : String} : t.get? key = none ↔ key ∉ t.keys := by
  refine ⟨fun hnone hkey => ?_, get?_eq_none_of_not_mem⟩
  induction t with
  | nil => cases hkey
  | cons p rest ih =>
    obtain ⟨k, v⟩ := p
    rw [get?] at hnone
    split at hnone
    · cases hnone
    · rename_i hne
      exact ih hnone ((List.mem_cons.mp hkey).resolve_left (Ne.symm hne))

theorem mem_of_get?_eq_some {t : Table α} {key : String} {value : α}
    (h : t.get? key = some value) : (key, value) ∈ t := by
  induction t with
  | nil => simp at h
  | cons p rest ih =>
    obtain ⟨k, v⟩ := p
    by_cases hk : k = key
    · rw [get?, if_pos hk, Option.some.injEq] at h
      rw [hk, h]
      exact List.mem_cons_self
    · rw [get?, if_neg hk] at h
      exact List.mem_cons_of_mem _ (ih h)

theorem get?_eq_some_of_mem {t : Table α} (hkeys : t.keys.Nodup) {p : String × α} (h : p ∈ t) :
    t.get? p.1 = some p.2 := by
  induction t with
  | nil => cases h
  | cons first rest ih =>
    rw [keys, List.map_cons, List.nodup_cons] at hkeys
    rcases List.mem_cons.mp h with rfl | h
    · rw [get?, if_pos rfl]
    · have hne : first.1 ≠ p.1 := fun heq => hkeys.1 (heq ▸ List.mem_map_of_mem h)
      rw [get?, if_neg hne]
      exact ih hkeys.2 h

/-- What is under a key after keys have been filtered. -/
theorem get?_filter (p : String → Bool) (t : Table α) (key : String) :
    get? (t.filter fun e => p e.1) key = if p key then t.get? key else none := by
  induction t with
  | nil => exact (ite_self none).symm
  | cons e rest ih =>
    obtain ⟨other, value⟩ := e
    rw [List.filter_cons]
    by_cases hkey : other = key
    · subst hkey
      rw [get?, if_pos rfl]
      split
      · rw [get?, if_pos rfl]
      · rename_i hp
        rw [ih, if_neg hp]
    · rw [get?, if_neg hkey, ← ih]
      split
      · rw [get?, if_neg hkey]
      · rfl

theorem mem_of_lookup_eq_some {pairs : List (String × α)} {key : String} {value : α}
    (h : pairs.lookup key = some value) : (key, value) ∈ pairs := by
  obtain ⟨before, later, rfl, -⟩ := List.lookup_eq_some_iff.mp h
  exact List.mem_append_right before List.mem_cons_self

/-- Elements that are kept where they first occur are distinct. -/
theorem nodup_eraseDups [BEq α] [LawfulBEq α] (l : List α) : l.eraseDups.Nodup :=
  match l with
  | [] => List.nodup_nil
  | a :: rest => by
    rw [List.eraseDups_cons, List.nodup_cons, List.mem_eraseDups]
    exact ⟨by simp, nodup_eraseDups _⟩
termination_by l.length
decreasing_by exact Nat.lt_succ_of_le (List.length_filter_le _ _)

end Table

end RuleSchema
