import Mathlib.Data.List.Induction
import RuleSchema.Handler.Basic

/-!
# The order of a registry

Handlers are registered, removed by their class and cleared, in any sequence. The registry then
lists the handlers that were registered and not removed since, by falling priority, and those of one
priority in the order in which they were registered. The handler found for a type or a field is the
first one of this order that accepts it.

## Implementation notes

Sorting again after each registration keeps the handlers of every single priority in their order,
and so does removing handlers. That the sorted list is read off the history one priority at a time
is what carries the induction over the changes.
-/

namespace RuleSchema.Registry

variable {H : Type}

/-- The first handler of a listing that accepts. -/
def IsFirst (accepts : H → Bool) (listing : List H) (h : H) : Prop :=
  ∃ before later, listing = before ++ h :: later ∧ accepts h = true ∧
    ∀ g ∈ before, accepts g = false

/-- A search gives the first handler of a listing that accepts, and a fault exactly where none of
the handlers does. -/
structure Finds (accepts : H → Bool) (listing handlers : List H) (fault : Fault)
    (result : Except Fault H) : Prop where
  found : ∀ h, result = .ok h ↔ IsFirst accepts listing h
  refused : result = .error fault ↔ ∀ h ∈ handlers, accepts h = false

theorem isFirst_iff {accepts : H → Bool} {listing : List H} {h : H} :
    IsFirst accepts listing h ↔ listing.find? accepts = some h := by
  rw [List.find?_eq_some_iff_append, IsFirst]
  constructor
  · rintro ⟨before, later, heq, haccepts, hbefore⟩
    exact ⟨haccepts, before, later, heq, by simpa using hbefore⟩
  · rintro ⟨haccepts, before, later, heq, hbefore⟩
    exact ⟨before, later, heq, haccepts, by simpa using hbefore⟩

theorem finds_find? {listing handlers : List H} (hperm : listing.Perm handlers)
    (accepts : H → Bool) (fault : Fault) :
    Finds accepts listing handlers fault (match listing.find? accepts with
      | some h => .ok h
      | none => .error fault) := by
  have hnone : listing.find? accepts = none ↔ ∀ h ∈ handlers, accepts h = false := by
    simp [hperm.mem_iff]
  cases hfind : listing.find? accepts with
  | none => exact ⟨fun h => by simp [isFirst_iff, hfind], by simpa [hfind] using hnone⟩
  | some g => exact ⟨fun h => by simp [isFirst_iff, hfind], by simpa [hfind] using hnone⟩

variable [Handling H]

/-- The handlers of one priority, in their order. -/
def ofPriority (p : Int) (handlers : List H) : List H :=
  handlers.filter fun h => decide (Handling.priority h = p)

/-- No handler of a listing has a lower priority than one behind it. -/
def IsFalling (listing : List H) : Prop :=
  listing.Pairwise fun a b => Handling.priority b ≤ Handling.priority a

/-- A listing of handlers by falling priority that keeps the order of those of one priority. -/
structure IsPriorityOrder (listing handlers : List H) : Prop where
  perm : listing.Perm handlers
  falling : IsFalling listing
  stable : ∀ p, ofPriority p listing = ofPriority p handlers

@[simp] theorem ofPriority_append (p : Int) (handlers more : List H) :
    ofPriority p (handlers ++ more) = ofPriority p handlers ++ ofPriority p more :=
  List.filter_append ..

theorem ofPriority_cons {p : Int} (h : H) (rest : List H) :
    ofPriority p (h :: rest) = ofPriority p [h] ++ ofPriority p rest :=
  ofPriority_append p [h] rest

theorem ofPriority_filter (p : Int) (keep : H → Bool) (handlers : List H) :
    ofPriority p (handlers.filter keep) = (ofPriority p handlers).filter keep := by
  simp only [ofPriority, List.filter_filter, Bool.and_comm]

theorem ofPriority_eq_nil {p : Int} {handlers : List H}
    (h : ∀ g ∈ handlers, Handling.priority g < p) : ofPriority p handlers = [] := by
  rw [ofPriority, List.filter_eq_nil_iff]
  intro g hg
  have hlt := h g hg
  simp only [decide_eq_true_eq]
  omega

section Sorting

variable {h : H} {listing handlers : List H}

theorem place_perm (h : H) (listing : List H) : (place h listing).Perm (listing ++ [h]) := by
  induction listing with
  | nil => exact .refl _
  | cons g rest ih =>
      rw [place]
      split
      · exact (List.perm_append_singleton h (g :: rest)).symm
      · exact ih.cons g

theorem IsFalling.place (hl : IsFalling listing) : IsFalling (place h listing) := by
  induction listing with
  | nil => exact List.pairwise_singleton _ h
  | cons g rest ih =>
      obtain ⟨hg, hrest⟩ := List.pairwise_cons.mp hl
      rw [Registry.place]
      split
      · rename_i hlt
        have hle := Int.le_of_lt hlt
        exact List.pairwise_cons.mpr
          ⟨List.forall_mem_cons.mpr ⟨hle, fun a ha => Int.le_trans (hg a ha) hle⟩, hl⟩
      · rename_i hge
        refine List.pairwise_cons.mpr ⟨fun a ha => ?_, ih hrest⟩
        rcases List.mem_append.mp ((place_perm h rest).mem_iff.mp ha) with ha | ha
        · exact hg a ha
        · rw [List.mem_singleton.mp ha]
          exact Int.not_lt.mp hge

/-- A handler is placed behind all handlers of its own priority. -/
theorem ofPriority_place (p : Int) (hl : IsFalling listing) :
    ofPriority p (place h listing) = ofPriority p listing ++ ofPriority p [h] := by
  induction listing with
  | nil => rfl
  | cons g rest ih =>
      obtain ⟨hg, hrest⟩ := List.pairwise_cons.mp hl
      rw [place]
      split
      · rename_i hlt
        by_cases hp : Handling.priority h = p
        · have hbelow : ofPriority p (g :: rest) = [] := ofPriority_eq_nil <| by
            rw [← hp]
            exact List.forall_mem_cons.mpr ⟨hlt, fun a ha => Int.lt_of_le_of_lt (hg a ha) hlt⟩
          rw [ofPriority_cons h, hbelow, List.append_nil, List.nil_append]
        · have hnone : ofPriority p [h] = [] := by simp [ofPriority, hp]
          rw [ofPriority_cons h, hnone, List.append_nil, List.nil_append]
      · rw [ofPriority_cons, ih hrest, ofPriority_cons g rest, List.append_assoc]

theorem IsPriorityOrder.place (hl : IsPriorityOrder listing handlers) (h : H) :
    IsPriorityOrder (place h listing) (handlers ++ [h]) where
  perm := (place_perm h listing).trans (hl.perm.append_right [h])
  falling := hl.falling.place
  stable p := by rw [ofPriority_place p hl.falling, ofPriority_append, hl.stable]

theorem isPriorityOrder_sort (handlers : List H) : IsPriorityOrder (sort handlers) handlers := by
  induction handlers using List.reverseRecOn with
  | nil => exact ⟨.refl _, List.Pairwise.nil, fun _ => rfl⟩
  | append_singleton handlers h ih =>
      rw [sort, List.foldl_append]
      exact ih.place h

/-- Sorting a listing with one more handler at its end orders the handlers that it lists together
with the new one. -/
theorem IsPriorityOrder.register (hl : IsPriorityOrder listing handlers) (h : H) :
    IsPriorityOrder (register listing h) (handlers ++ [h]) := by
  have hsorted := isPriorityOrder_sort (listing ++ [h])
  refine ⟨hsorted.perm.trans (hl.perm.append_right [h]), hsorted.falling, fun p => ?_⟩
  rw [Registry.register, hsorted.stable, ofPriority_append, ofPriority_append, hl.stable]

theorem IsPriorityOrder.registerAll (hl : IsPriorityOrder listing handlers) (more : List H) :
    IsPriorityOrder (registerAll listing more) (handlers ++ more) := by
  induction more generalizing listing handlers with
  | nil => rwa [List.append_nil]
  | cons h rest ih =>
      rw [← List.singleton_append, ← List.append_assoc]
      exact ih (hl.register h)

theorem IsPriorityOrder.filter (hl : IsPriorityOrder listing handlers) (keep : H → Bool) :
    IsPriorityOrder (listing.filter keep) (handlers.filter keep) where
  perm := hl.perm.filter keep
  falling := hl.falling.filter keep
  stable p := by rw [ofPriority_filter, ofPriority_filter, hl.stable]

end Sorting

/-- A change of a registry. -/
inductive Change (H : Type) where
  | register (h : H)
  | registerAll (handlers : List H)
  /-- Removes the handlers of the class of a handler. -/
  | unregister (h : H)
  | clear

namespace Change

/-- The registry after a change. -/
def apply (registry : Registry H) : Change H → Registry H
  | register h => registry.register h
  | registerAll handlers => registry.registerAll handlers
  | unregister h => registry.unregister h
  | clear => []

/-- The handlers that a change registers, in order. -/
def registered : Change H → List H
  | register h => [h]
  | registerAll handlers => handlers
  | unregister _ | clear => []

/-- Whether a change removes a handler. -/
def removes : Change H → H → Bool
  | register _, _ | registerAll _, _ => false
  | unregister g, h => Handling.sameClass g h
  | clear, _ => true

end Change

/-- The registry after changes, one after the other, of an empty one. -/
def after (changes : List (Change H)) : Registry H := changes.foldl Change.apply []

/-- The handlers that changes register and no later one removes, in the order of registration. -/
def standing : List (Change H) → List H
  | [] => []
  | change :: later =>
    (change.registered.filter fun h => ! later.any (·.removes h)) ++ standing later

/-- One more change removes some of the standing handlers and registers its own. -/
theorem standing_concat (changes : List (Change H)) (last : Change H) :
    standing (changes ++ [last]) =
      (standing changes).filter (! last.removes ·) ++ last.registered := by
  induction changes with
  | nil => simp [standing]
  | cons change later ih =>
      rw [List.cons_append, standing, ih, standing, List.filter_append, List.append_assoc,
        List.filter_filter]
      congr 2
      funext h
      simp [Bool.and_comm]

theorem Change.isPriorityOrder_apply {registry : Registry H} {handlers : List H}
    (hr : IsPriorityOrder registry handlers) (change : Change H) :
    IsPriorityOrder (change.apply registry)
      (handlers.filter (! change.removes ·) ++ change.registered) := by
  cases change with
  | register h =>
      have hkept : handlers.filter (! (register h).removes ·) = handlers :=
        List.filter_eq_self.mpr fun _ _ => rfl
      rw [hkept]
      exact hr.register h
  | registerAll more =>
      have hkept : handlers.filter (! (registerAll more).removes ·) = handlers :=
        List.filter_eq_self.mpr fun _ _ => rfl
      rw [hkept]
      exact hr.registerAll more
  | unregister h =>
      rw [registered, List.append_nil]
      exact hr.filter _
  | clear =>
      have hkept : handlers.filter (! clear.removes ·) = [] :=
        List.filter_eq_nil_iff.mpr fun _ _ => Bool.false_ne_true
      rw [hkept]
      exact ⟨.refl _, List.Pairwise.nil, fun _ => rfl⟩

theorem isPriorityOrder_after (changes : List (Change H)) :
    IsPriorityOrder (after changes) (standing changes) := by
  induction changes using List.reverseRecOn with
  | nil => exact ⟨.refl _, List.Pairwise.nil, fun _ => rfl⟩
  | append_singleton changes last ih =>
      rw [after, List.foldl_append, standing_concat]
      exact last.isPriorityOrder_apply ih

/-- After any changes a registry lists the handlers that were registered and not removed since, by
falling priority and for one priority in the order of registration, and gives for a type and for a
field the first one of them that accepts it, or the fault that there is none. -/
theorem priority_order_after_changes (changes : List (Change H)) :
    IsPriorityOrder (after changes) (standing changes) ∧
    (∀ type, Finds (Handling.acceptsType · type) (after changes) (standing changes)
      (.noHandler none type) ((after changes).forType? type)) ∧
    ∀ field : Resolved, Finds (Handling.accepts · field) (after changes) (standing changes)
      (.noHandler (some field.path) field.inferredType) ((after changes).forField? field) := by
  have horder := isPriorityOrder_after changes
  exact ⟨horder, fun _ => finds_find? horder.perm _ _, fun _ => finds_find? horder.perm _ _⟩

/-- Amounts registered behind the built-in handlers go between those for enumerations and those for
references, and a second class of the same priority goes behind the first. -/
example :
    after [.registerAll [Handler.oneOf, .enumeration, .reference, .universal],
      .register (.amount "MoneyHandler" 250 "money"),
      .register (.amount "PriceHandler" 250 "price"), .unregister .universal] =
      [.oneOf, .enumeration, .amount "MoneyHandler" 250 "money", .amount "PriceHandler" 250 "price",
        .reference] := by decide

end RuleSchema.Registry
