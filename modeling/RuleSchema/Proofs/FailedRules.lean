import RuleSchema.Proofs.BuilderFrames

/-!
# What a failed rule leaves behind

A rule fails where it has too few parameters, or where one is too large or of the wrong sort. Nearly
every rule reads its parameters before it changes anything, so a builder is as it was where the rule
fails. A rule on two bounds is a rule on the lower one and then a rule on the upper one: where the
second of them fails, the first has been applied and stays.

## Implementation notes

Whatever the fault, a failed rule leaves what its first half leaves, where only the rules on two
bounds have one. Which of these failures are passed over is read off the faults of the two halves.
-/

namespace RuleSchema

open Chain (after)

section Changes

variable {α β : Type}

/-- The answer of a change, or its fault. -/
def Building.outcome (x : Building α) (b : Builder) : Except Fault α := (x.run.run b).1

open Building (outcome)

/-- A change that fails only with certain faults. -/
def FailsWith (allowed : Fault → Prop) (x : Building α) : Prop :=
  ∀ b fault, outcome x b = .error fault → allowed fault

/-- A change that never fails. -/
abbrev Sure (x : Building α) : Prop := FailsWith (fun _ => False) x

/-- A change that leaves every builder as it was where it fails. -/
def Atomic (x : Building α) : Prop := ∀ b fault, outcome x b = .error fault → after x b = b

/-- A change that changes nothing. -/
def Reads (x : Building α) : Prop := ∀ b, after x b = b

variable {x : Building α} {f : α → Building β} {b : Builder} {fault : Fault}
  {allowed : Fault → Prop}

theorem outcome_bind (x : Building α) (f : α → Building β) (b : Builder) :
    outcome (x >>= f) b = (outcome x b).bind fun a => outcome (f a) (after x b) := by
  simp only [outcome, after, ExceptT.run_bind, StateT.run_bind]
  cases x.run.run b with
  | mk result next => cases result <;> rfl

/-- Of two changes the first one fails, or it succeeds and the second one fails behind it. -/
theorem failed_bind (h : outcome (x >>= f) b = .error fault) :
    (outcome x b = .error fault ∧ after (x >>= f) b = after x b) ∨
      ∃ a, outcome x b = .ok a ∧ outcome (f a) (after x b) = .error fault ∧
        after (x >>= f) b = after (f a) (after x b) := by
  simp only [outcome, after, ExceptT.run_bind, StateT.run_bind] at h ⊢
  cases hx : x.run.run b with
  | mk result next =>
      rw [hx] at h
      cases result with
      | error e => exact .inl ⟨congrArg _ (Except.error.inj h), rfl⟩
      | ok a => exact .inr ⟨a, rfl, h, rfl⟩

theorem failsWith_of_ok (h : ∀ b, ∃ a, outcome x b = .ok a) : FailsWith allowed x := by
  intro b fault hfail
  obtain ⟨a, ha⟩ := h b
  rw [ha] at hfail
  cases hfail

theorem failsWith_pure (a : α) : FailsWith allowed (pure a) := failsWith_of_ok fun _ => ⟨a, rfl⟩

theorem failsWith_get : FailsWith allowed (get : Building Builder) :=
  failsWith_of_ok fun b => ⟨b, rfl⟩

theorem failsWith_modify (g : Builder → Builder) :
    FailsWith allowed (modify g : Building Unit) := failsWith_of_ok fun _ => ⟨(), rfl⟩

theorem failsWith_add (call : String) : FailsWith allowed (Building.add call) :=
  failsWith_modify _

theorem failsWith_replace (method call : String) :
    FailsWith allowed (Building.replace method call) := failsWith_modify _

theorem FailsWith.bind (hx : FailsWith allowed x) (hf : ∀ a, FailsWith allowed (f a)) :
    FailsWith allowed (x >>= f) := by
  intro b fault h
  rcases failed_bind h with ⟨hfirst, -⟩ | ⟨a, -, hsecond, -⟩
  · exact hx b fault hfirst
  · exact hf a _ fault hsecond

theorem FailsWith.ite {p : Prop} [Decidable p] {x y : Building α} (hx : FailsWith allowed x)
    (hy : FailsWith allowed y) : FailsWith allowed (if p then x else y) := by
  split
  · exact hx
  · exact hy

theorem Sure.failsWith (h : Sure x) : FailsWith allowed x :=
  fun b fault hfail => (h b fault hfail).elim

/-- A change that never fails runs to its builder. -/
theorem Sure.run {x : Building Unit} (h : Sure x) (b : Builder) :
    x.run b = (.ok (), after x b) := by
  cases hanswer : outcome x b with
  | error fault => exact (h b fault hanswer).elim
  | ok => exact Prod.ext hanswer rfl

theorem sure_remove_add (needle call : String) :
    Sure (do modify (·.removeContaining needle); Building.add call) :=
  (failsWith_modify _).bind fun _ => failsWith_add _

theorem Sure.atomic (h : Sure x) : Atomic x := fun b fault hfail => (h b fault hfail).elim

/-- Reading first and changing afterwards is atomic where the change is. -/
theorem Reads.bind_atomic (hx : Reads x) (hf : ∀ a, Atomic (f a)) : Atomic (x >>= f) := by
  intro b fault h
  rcases failed_bind h with ⟨-, hafter⟩ | ⟨a, -, hsecond, hafter⟩
  · exact hafter.trans (hx b)
  · rw [hx b] at hsecond hafter
    exact hafter.trans (hf a b fault hsecond)

theorem Atomic.ite {p : Prop} [Decidable p] {x y : Building α} (hx : Atomic x) (hy : Atomic y) :
    Atomic (if p then x else y) := by
  split
  · exact hx
  · exact hy

/-- Where the second of two changes is atomic, a failure leaves what the first one leaves. -/
theorem after_failed_bind {x : Building Unit} {y : Building β} (hy : Atomic y)
    (h : outcome (do x; y) b = .error fault) : after (do x; y) b = after x b := by
  rcases failed_bind h with ⟨-, hafter⟩ | ⟨_, -, hsecond, hafter⟩
  · exact hafter
  · exact hafter.trans (hy _ fault hsecond)

/-- Of two changes that fail alike, whatever the builder, the second one never fails alone. -/
theorem Atomic.bind_alike {x : Building Unit} {y : Building Unit} (hx : Atomic x)
    (hsame : ∀ b c, outcome x b = outcome y c) : Atomic (do x; y) := by
  intro b fault h
  rcases failed_bind h with ⟨hfirst, hafter⟩ | ⟨_, hfirst, hsecond, -⟩
  · exact hafter.trans (hx b fault hfirst)
  · rw [hsame b (after x b), hsecond] at hfirst
    cases hfirst

theorem reads_ofExcept (r : Except Fault α) : Reads (Building.ofExcept r) := by
  cases r with
  | error fault => exact fun _ => rfl
  | ok a => exact fun _ => rfl

theorem outcome_ofExcept (r : Except Fault α) (b : Builder) :
    outcome (Building.ofExcept r) b = r := by
  cases r with
  | error fault => rfl
  | ok a => rfl

theorem reads_first (arguments : List Argument) : Reads (Building.first arguments) := by
  cases arguments with
  | nil => exact fun _ => rfl
  | cons a rest => exact fun _ => rfl

theorem reads_firstNumber? (arguments : List Argument) :
    Reads (Building.firstNumber? arguments) := by
  cases arguments with
  | nil => exact fun _ => rfl
  | cons a rest => exact reads_ofExcept _

end Changes

open Building (outcome)

/-- A rule that never fails. -/
def Unfailing (method : RuleMethod) : Prop := ∀ arguments message, Sure (method arguments message)

/-- A failed rule leaves what another rule, its half, leaves. -/
def Leaves (method half : RuleMethod) : Prop :=
  ∀ arguments message b fault, outcome (method arguments message) b = .error fault →
    after (method arguments message) b = after (half arguments message) b

section Rules

variable {method half : RuleMethod}

theorem Unfailing.leaves (h : Unfailing method) : Leaves method half :=
  fun arguments message b fault hfail => (h arguments message b fault hfail).elim

theorem leaves_nothing (h : ∀ arguments message, Atomic (method arguments message)) :
    Leaves method Building.nothing :=
  fun arguments message b fault hfail => h arguments message b fault hfail

theorem unfailing_nothing : Unfailing Building.nothing := fun _ _ => failsWith_pure ()

theorem unfailing_required : Unfailing Building.required := by
  intro arguments message
  unfold Building.required
  split
  · exact failsWith_modify _
  · exact failsWith_pure ()

/-- An action on the number read first, if there is one, is atomic where the action is. -/
theorem Reads.withNumber {x : Building (Option Number)} {act : Number → Building Unit}
    (hx : Reads x) (h : ∀ n, Atomic (act n)) :
    Atomic (do match ← x with | none => return | some n => act n) := by
  apply hx.bind_atomic
  intro n
  cases n with
  | none => exact Sure.atomic (failsWith_pure ())
  | some n => exact h n

/-- An action that never fails on the number read first fails only where the reading does. -/
theorem outcome_withNumber {x : Building (Option Number)} {act : Number → Building Unit}
    (h : ∀ n b, outcome (act n) b = .ok ()) (b : Builder) :
    outcome (do match ← x with | none => return | some n => act n) b =
      (outcome x b).map fun _ => () := by
  rw [outcome_bind]
  cases outcome x b with
  | error fault => rfl
  | ok n =>
      cases n with
      | none => rfl
      | some n => exact h n _

end Rules

namespace Length

theorem sure_raise (bound : Number) (message : Option String) : Sure (raise bound message) := by
  refine failsWith_get.bind fun b => (failsWith_pure ()).ite ?_
  exact failsWith_of_ok fun _ => ⟨(), rfl⟩

theorem sure_lower (bound : Number) (message : Option String) : Sure (lower bound message) := by
  refine failsWith_get.bind fun b => (failsWith_pure ()).ite ?_
  exact failsWith_of_ok fun _ => ⟨(), rfl⟩

theorem atomic_min (arguments : List Argument) (message : Option String) :
    Atomic (min arguments message) :=
  (reads_firstNumber? arguments).withNumber fun n => (sure_raise n message).atomic

theorem atomic_max (arguments : List Argument) (message : Option String) :
    Atomic (max arguments message) :=
  (reads_firstNumber? arguments).withNumber fun n => (sure_lower n message).atomic

theorem reads_asBound (n : Number) : Reads (asBound n) := by
  intro b
  unfold asBound
  cases (Parameter.number n).number? with
  | error fault => rfl
  | ok bound => rfl

theorem atomic_withBound {change : Int} {act : Number → Option String → Building Unit}
    (h : ∀ n message, Sure (act n message)) (arguments : List Argument)
    (message : Option String) : Atomic (withBound change act arguments message) :=
  (reads_firstNumber? arguments).withNumber fun _ =>
    (reads_asBound _).bind_atomic fun n => (h n message).atomic

theorem atomic_size (arguments : List Argument) (message : Option String) :
    Atomic (size arguments message) :=
  (reads_firstNumber? arguments).withNumber fun _ => Sure.atomic (failsWith_replace _ _)

theorem unfailing_trim : Unfailing trim := by
  intro arguments message
  exact failsWith_get.bind fun b => (failsWith_pure ()).ite (failsWith_add _)

/-- The rule on the lower bound is the first half of the rule on two bounds. -/
def firstHalf (name : String) : RuleMethod :=
  if name = "between" then fun arguments => min (arguments.take 1) else Building.nothing

theorem leaves_between : Leaves between fun arguments => min (arguments.take 1) := by
  intro arguments message b fault h
  match arguments with
  | [] => cases h
  | [_] => cases h
  | low :: high :: rest => exact after_failed_bind (atomic_max [high] message) h

theorem leaves_methods : ∀ p ∈ methods, Leaves p.2 (firstHalf p.1) := by
  simp only [methods, List.forall_mem_cons]
  exact ⟨leaves_nothing atomic_min, leaves_nothing atomic_max,
    leaves_nothing (atomic_withBound sure_lower), leaves_nothing (atomic_withBound sure_lower),
    leaves_nothing (atomic_withBound sure_raise), leaves_nothing (atomic_withBound sure_raise),
    leaves_between, leaves_nothing atomic_size, unfailing_trim.leaves, List.forall_mem_nil _⟩

end Length

namespace TextRule

theorem unfailing_required : Unfailing required := fun _ message =>
  failsWith_get.bind fun _ => (sure_remove_add _ _).ite
    ((failsWith_modify _).bind fun _ => Length.sure_raise _ message)

theorem unfailing_regex : Unfailing regex := by
  intro arguments message
  unfold regex
  split
  · exact failsWith_pure ()
  · exact sure_remove_add _ _

theorem unfailing_notRegex : Unfailing notRegex := by
  intro arguments message
  unfold notRegex
  split
  · exact failsWith_pure ()
  · exact failsWith_add _

theorem unfailing_uuid : Unfailing uuid := fun _ _ => failsWith_replace _ _

theorem unfailing_marked (name pattern : String) : Unfailing (marked name pattern) :=
  fun _ _ => sure_remove_add _ _

theorem unfailing_cased (method fallback : String) : Unfailing (cased method fallback) :=
  fun _ _ => failsWith_replace _ _

theorem unfailing_affixed (method affix fallback : String) :
    Unfailing (affixed method affix fallback) := by
  intro arguments message
  unfold affixed
  split
  · exact failsWith_pure ()
  · exact failsWith_replace _ _
  · exact failsWith_replace _ _

theorem unfailing_notAffixed (method affix fallback : String) :
    Unfailing (notAffixed method affix fallback) := by
  intro arguments message
  unfold notAffixed
  split
  · exact failsWith_pure ()
  · exact failsWith_add _

theorem unfailing_listed (negation : String) : Unfailing (listed negation) := by
  intro arguments message
  unfold listed
  split
  · exact failsWith_pure ()
  · exact failsWith_add _

theorem unfailing_json : Unfailing json := fun _ _ => failsWith_add _

theorem unfailing_ip : Unfailing ip := fun _ _ => failsWith_modify _

theorem unfailing_format (name : String) : Unfailing (format name) := fun _ _ => failsWith_modify _

theorem unfailing_macAddress : Unfailing macAddress := fun _ _ => sure_remove_add _ _

theorem unfailing_date : Unfailing date := fun _ _ => failsWith_add _

theorem unfailing_dateFormat : Unfailing dateFormat := by
  intro arguments message
  refine (failsWith_pure ()).ite ((failsWith_modify _).bind fun _ => ?_)
  split
  · exact failsWith_add _
  · exact failsWith_add _

theorem unfailing_url : Unfailing url := fun _ _ => failsWith_modify _

theorem unfailing_passwordPattern (pattern fallback : String) :
    Unfailing (passwordPattern pattern fallback) := fun _ _ => failsWith_add _

theorem unfailing_passwordMixed : Unfailing passwordMixed := fun _ _ => failsWith_add _

theorem leaves_methods : ∀ p ∈ methods, Leaves p.2 (Length.firstHalf p.1) := by
  simp only [methods, List.forall_mem_append, List.forall_mem_cons]
  exact ⟨⟨unfailing_required.leaves, unfailing_nothing.leaves, unfailing_regex.leaves,
    unfailing_notRegex.leaves, unfailing_uuid.leaves, (unfailing_marked _ _).leaves,
    (unfailing_marked _ _).leaves, (unfailing_marked _ _).leaves, (unfailing_marked _ _).leaves,
    (unfailing_cased _ _).leaves, (unfailing_cased _ _).leaves, (unfailing_affixed _ _ _).leaves,
    (unfailing_affixed _ _ _).leaves, (unfailing_notAffixed _ _ _).leaves,
    (unfailing_notAffixed _ _ _).leaves, (unfailing_listed _).leaves, (unfailing_listed _).leaves,
    unfailing_json.leaves, unfailing_ip.leaves, (unfailing_format _).leaves,
    (unfailing_format _).leaves, (unfailing_format _).leaves, unfailing_macAddress.leaves,
    unfailing_date.leaves, unfailing_dateFormat.leaves, List.forall_mem_nil _⟩,
    Length.leaves_methods⟩

end TextRule

section Compare

variable {number? : List Argument → Building (Option Number)}
variable (h : ∀ arguments, Reads (number? arguments))

include h

theorem atomic_compare (method : String) (arguments : List Argument) (message : Option String) :
    Atomic (Building.compare number? method arguments message) :=
  (h arguments).withNumber fun _ => Sure.atomic (failsWith_replace _ _)

/-- Equality with a number fails before it changes anything, when whether there is a number is
decided by the arguments alone. -/
theorem atomic_exactly
    (halike : ∀ arguments b c, outcome (number? arguments) b = outcome (number? arguments) c)
    (arguments : List Argument) (message : Option String) :
    Atomic (Building.exactly number? arguments message) := by
  refine (atomic_compare h "min" _ message).bind_alike fun b c => ?_
  calc outcome (Building.compare number? "min" (arguments.take 1) message) b
      _ = Except.map (fun _ => ()) _ := outcome_withNumber (fun _ _ => rfl) b
      _ = Except.map (fun _ => ()) _ := congrArg _ (halike _ b c)
      _ = outcome (Building.compare number? "max" (arguments.take 1) message) c :=
        (outcome_withNumber (fun _ _ => rfl) c).symm

/-- A failed comparison with two numbers leaves what the first one does. -/
theorem leaves_within : Leaves (Building.within number?)
    fun arguments => Building.compare number? "min" (arguments.take 1) :=
  fun _ message _ _ hfail => after_failed_bind (atomic_compare h "max" _ message) hfail

end Compare

namespace NumberRule

theorem unfailing_integer : Unfailing integer := by
  intro arguments message
  cases message with
  | none => exact (failsWith_pure ()).bind fun _ => failsWith_replace _ _
  | some m => exact (failsWith_modify _).bind fun _ => failsWith_replace _ _

theorem atomic_bounded (method : String) (arguments : List Argument) (message : Option String) :
    Atomic (bounded method arguments message) :=
  atomic_compare reads_firstNumber? method arguments message

theorem outcome_firstNumber? (arguments : List Argument) (b c : Builder) :
    outcome (Building.firstNumber? arguments) b = outcome (Building.firstNumber? arguments) c := by
  cases arguments with
  | nil => rfl
  | cons a rest => exact (outcome_ofExcept _ b).trans (outcome_ofExcept _ c).symm

theorem atomic_decimal (arguments : List Argument) (message : Option String) :
    Atomic (decimal arguments message) := by
  unfold decimal
  split
  · exact Sure.atomic (failsWith_pure ())
  · exact (reads_ofExcept _).bind_atomic fun _ => Sure.atomic (failsWith_add _)
  · exact (reads_ofExcept _).bind_atomic fun _ =>
      (reads_ofExcept _).bind_atomic fun _ => Sure.atomic (failsWith_add _)

theorem atomic_digits (operator : String) (arguments : List Argument) (message : Option String) :
    Atomic (digits operator arguments message) :=
  (reads_first arguments).bind_atomic fun _ =>
    (reads_ofExcept _).bind_atomic fun _ => Sure.atomic (failsWith_add _)

theorem atomic_listed (negation : String) (arguments : List Argument) (message : Option String) :
    Atomic (listed negation arguments message) :=
  (Sure.atomic (failsWith_pure ())).ite <|
    (reads_ofExcept _).bind_atomic fun _ => Sure.atomic (failsWith_add _)

/-- The rules on the lower bound are the first halves of the rules on two bounds. -/
def firstHalf (name : String) : RuleMethod :=
  if name = "between" then fun arguments => bounded "min" (arguments.take 1)
  else if name = "digits_between" then fun arguments => digits ">=" (arguments.take 1)
  else Building.nothing

theorem leaves_digitsBetween :
    Leaves digitsBetween fun arguments => digits ">=" (arguments.take 1) :=
  fun _ message _ _ h => after_failed_bind (atomic_digits "<=" _ message) h

theorem leaves_methods : ∀ p ∈ methods, Leaves p.2 (firstHalf p.1) := by
  simp only [methods, List.forall_mem_cons]
  exact ⟨RuleSchema.unfailing_required.leaves, unfailing_nothing.leaves, unfailing_integer.leaves,
    leaves_nothing (atomic_bounded _), leaves_nothing (atomic_bounded _),
    leaves_nothing (atomic_bounded _), leaves_nothing (atomic_bounded _),
    leaves_nothing (atomic_bounded _), leaves_nothing (atomic_bounded _),
    leaves_nothing (atomic_bounded _), leaves_within reads_firstNumber?,
    leaves_nothing (atomic_exactly reads_firstNumber? outcome_firstNumber?),
    leaves_nothing atomic_decimal, leaves_nothing (atomic_digits _),
    leaves_nothing (atomic_digits _), leaves_nothing (atomic_digits _), leaves_digitsBetween,
    leaves_nothing (atomic_listed _), leaves_nothing (atomic_listed _), List.forall_mem_nil _⟩

end NumberRule

namespace FileRule

theorem unfailing_image : Unfailing image := fun _ _ =>
  failsWith_get.bind fun _ => (failsWith_pure ()).ite (failsWith_add _)

theorem unfailing_mediaTypes : Unfailing mediaTypes := fun _ _ =>
  (failsWith_pure ()).ite (failsWith_replace _ _)

theorem unfailing_extensions : Unfailing extensions := fun _ message =>
  unfailing_mediaTypes _ message

theorem reads_bytes? (arguments : List Argument) : Reads (bytes? arguments) := by
  intro b
  match arguments with
  | [] => rfl
  | none :: _ => rfl
  | some p :: _ =>
      change after (Building.ofExcept p.number? >>= fun n => pure (n.map (·.mulNat 1024))) b = b
      cases p.number? <;> rfl

theorem atomic_bounded (method : String) (arguments : List Argument) (message : Option String) :
    Atomic (bounded method arguments message) :=
  atomic_compare reads_bytes? method arguments message

theorem outcome_bytes? (arguments : List Argument) (b c : Builder) :
    outcome (bytes? arguments) b = outcome (bytes? arguments) c := by
  match arguments with
  | [] => rfl
  | none :: _ => rfl
  | some p :: _ =>
      simp only [bytes?, Building.first, pure_bind, outcome_bind, outcome_ofExcept]
      rfl

theorem unfailing_dimensions : Unfailing dimensions := by
  intro arguments message
  unfold dimensions
  split
  · exact failsWith_pure ()
  · exact failsWith_add _

/-- The rule on the least size is the first half of the rule on two sizes. -/
def firstHalf (name : String) : RuleMethod :=
  if name = "between" then fun arguments => bounded "min" (arguments.take 1)
  else Building.nothing

theorem leaves_methods : ∀ p ∈ methods, Leaves p.2 (firstHalf p.1) := by
  simp only [methods, List.forall_mem_cons]
  exact ⟨RuleSchema.unfailing_required.leaves, unfailing_nothing.leaves, unfailing_image.leaves,
    unfailing_extensions.leaves, unfailing_extensions.leaves, unfailing_mediaTypes.leaves,
    leaves_nothing (atomic_bounded _), leaves_nothing (atomic_bounded _),
    leaves_nothing (atomic_exactly reads_bytes? outcome_bytes?), leaves_within reads_bytes?,
    unfailing_dimensions.leaves, List.forall_mem_nil _⟩

end FileRule

namespace Builder

theorem unfailing_mail : Unfailing mail := fun _ _ => failsWith_modify _

theorem unfailing_mailRequired : Unfailing mailRequired := by
  intro arguments message
  cases message with
  | none => exact (failsWith_pure ()).bind fun _ => Length.sure_raise _ _
  | some m => exact (failsWith_modify _).bind fun _ => Length.sure_raise _ _

theorem unfailing_distinct : Unfailing distinct := fun _ _ => failsWith_replace _ _

theorem unfailing_decided (value fallback : String) : Unfailing (decided value fallback) :=
  fun _ _ => failsWith_replace _ _

theorem unfailing_enumerationRequired : Unfailing enumerationRequired := by
  intro arguments message
  unfold enumerationRequired
  split
  · exact failsWith_modify _
  · exact failsWith_pure ()

theorem unfailing_enumerationValues : Unfailing enumerationValues := fun _ _ => failsWith_modify _

theorem unfailing_enumerationName : Unfailing enumerationName := fun _ _ => failsWith_modify _

end Builder

/-- The first half of a rule of a builder, by its name; most rules have none. -/
def Base.firstHalf : Base → String → RuleMethod
  | text _ | url .. | password _ | email _ | array _ => Length.firstHalf
  | number _ => NumberRule.firstHalf
  | file => FileRule.firstHalf
  | boolean | object _ | reference _ | enumeration .. => fun _ => Building.nothing

/-- Every rule of every builder that fails leaves what its first half leaves. -/
theorem Base.leaves_methods (base : Base) :
    ∀ p ∈ base.methods, Leaves p.2 (base.firstHalf p.1) := by
  cases base with
  | text => exact TextRule.leaves_methods
  | url =>
      exact List.forall_mem_cons.mpr ⟨TextRule.unfailing_url.leaves, TextRule.leaves_methods⟩
  | password =>
      simp only [methods, TextRule.passwordMethods, List.forall_mem_append, List.forall_mem_cons]
      exact ⟨⟨unfailing_nothing.leaves, (TextRule.unfailing_passwordPattern _ _).leaves,
        TextRule.unfailing_passwordMixed.leaves, (TextRule.unfailing_passwordPattern _ _).leaves,
        (TextRule.unfailing_passwordPattern _ _).leaves, unfailing_nothing.leaves,
        List.forall_mem_nil _⟩, TextRule.leaves_methods⟩
  | email =>
      simp only [methods, List.forall_mem_append, List.forall_mem_cons]
      exact ⟨⟨Builder.unfailing_mail.leaves, unfailing_nothing.leaves,
        Builder.unfailing_mailRequired.leaves, List.forall_mem_nil _⟩, Length.leaves_methods⟩
  | number => exact NumberRule.leaves_methods
  | boolean =>
      simp only [methods, List.forall_mem_cons]
      exact ⟨unfailing_required.leaves, unfailing_nothing.leaves,
        (Builder.unfailing_decided _ _).leaves, (Builder.unfailing_decided _ _).leaves,
        List.forall_mem_nil _⟩
  | file => exact FileRule.leaves_methods
  | array =>
      simp only [methods, List.forall_mem_append, List.forall_mem_cons]
      exact ⟨⟨unfailing_required.leaves, unfailing_nothing.leaves, unfailing_nothing.leaves,
        Builder.unfailing_distinct.leaves, List.forall_mem_nil _⟩, Length.leaves_methods⟩
  | object => exact List.forall_mem_singleton.mpr unfailing_required.leaves
  | reference => exact List.forall_mem_singleton.mpr unfailing_required.leaves
  | enumeration =>
      simp only [methods, List.forall_mem_cons]
      exact ⟨Builder.unfailing_enumerationRequired.leaves,
        Builder.unfailing_enumerationValues.leaves, Builder.unfailing_enumerationName.leaves,
        List.forall_mem_nil _⟩

namespace Builder

variable {b : Builder} {rule : String} {arguments : List Argument} {message : Option String}
  {fault : Fault}

/-- A rule that fails on a builder is one that the builder knows. -/
theorem exists_method_of_failed (h : outcome (applyRule rule arguments message) b = .error fault) :
    ∃ method, b.method? rule = some method ∧
      outcome (method arguments message) b = .error fault ∧
      after (applyRule rule arguments message) b = after (method arguments message) b := by
  cases hmethod : b.method? rule with
  | none =>
      have hrun : (applyRule rule arguments message).run b = _ := run_applyRule_of_none hmethod
      cases h.symm.trans (congrArg Prod.fst hrun : outcome (applyRule rule arguments message) b = _)
  | some method =>
      have hrun : (applyRule rule arguments message).run b = _ := run_applyRule_of_some hmethod
      have hsame : after (applyRule rule arguments message) b =
          after (method arguments message >>= fun _ => pure true) b := congrArg Prod.snd hrun
      have hanswer : outcome (applyRule rule arguments message) b =
          outcome (method arguments message >>= fun _ => pure true) b := congrArg Prod.fst hrun
      rcases failed_bind (hanswer.symm.trans h) with ⟨hfirst, hafter⟩ | ⟨_, -, hsecond, -⟩
      · exact ⟨method, rfl, hfirst, hsame.trans hafter⟩
      · cases hsecond

theorem after_failed_applyRule
    (h : outcome (applyRule rule arguments message) b = .error fault) :
    after (applyRule rule arguments message) b =
      after (b.base.firstHalf (methodName rule) arguments message) b := by
  obtain ⟨method, hmethod, hfail, hafter⟩ := exists_method_of_failed h
  have hleaves := b.base.leaves_methods _ (Table.mem_of_lookup_eq_some hmethod)
  exact hafter.trans (hleaves arguments message b fault hfail)

end Builder

section Grave

variable {fault : Fault}

/-- A fault that is not passed over. -/
def IsGrave (fault : Fault) : Prop := Compiler.isUnusable fault = false

theorem isGrave_of_number? {a : Argument} (h : a.number? = .error fault) : IsGrave fault := by
  match a with
  | none => cases h
  | some (.text s) => cases h
  | some (.number (.real x)) => cases h
  | some (.number (.whole i)) =>
      simp only [Argument.number?, Parameter.number?] at h
      split at h
      · cases h
        rfl
      · cases h

theorem isGrave_of_numeral {a : Argument} (h : a.numeral = .error fault) : IsGrave fault := by
  unfold Argument.numeral at h
  cases hread : a.number? with
  | error e =>
      rw [hread] at h
      cases h
      exact isGrave_of_number? hread
  | ok n =>
      rw [hread] at h
      cases h

theorem grave_ofExcept {α : Type} {r : Except Fault α}
    (h : ∀ fault, r = .error fault → IsGrave fault) :
    FailsWith IsGrave (Building.ofExcept r) := fun b fault hfail =>
  h fault ((outcome_ofExcept r b).symm.trans hfail)

theorem grave_firstNumber? (arguments : List Argument) :
    FailsWith IsGrave (Building.firstNumber? arguments) := by
  cases arguments with
  | nil => exact failsWith_pure none
  | cons a rest => exact grave_ofExcept fun _ => isGrave_of_number?

theorem FailsWith.withNumber {allowed : Fault → Prop} {x : Building (Option Number)}
    {act : Number → Building Unit} (hx : FailsWith allowed x)
    (h : ∀ n, FailsWith allowed (act n)) :
    FailsWith allowed (do match ← x with | none => return | some n => act n) := by
  refine hx.bind fun n => ?_
  cases n with
  | none => exact failsWith_pure ()
  | some n => exact h n

theorem Length.grave_between (arguments : List Argument) (message : Option String) :
    FailsWith IsGrave (between arguments message) := by
  match arguments with
  | [] => exact failsWith_pure ()
  | [_] => exact failsWith_pure ()
  | low :: high :: rest =>
      exact ((grave_firstNumber? [low]).withNumber fun n => (sure_raise n message).failsWith).bind
        fun _ => (grave_firstNumber? [high]).withNumber fun n => (sure_lower n message).failsWith

theorem NumberRule.grave_bounded (method : String) (arguments : List Argument)
    (message : Option String) : FailsWith IsGrave (bounded method arguments message) :=
  (grave_firstNumber? arguments).withNumber fun _ => failsWith_replace _ _

theorem NumberRule.grave_between (arguments : List Argument) (message : Option String) :
    FailsWith IsGrave (between arguments message) :=
  (grave_bounded "min" _ message).bind fun _ => grave_bounded "max" _ message

theorem NumberRule.grave_digits (operator : String) (a : Argument) (message : Option String) :
    FailsWith IsGrave (digits operator [a] message) :=
  (grave_ofExcept fun _ => isGrave_of_numeral).bind fun _ => failsWith_add _

theorem FileRule.grave_bytes? (a : Argument) : FailsWith IsGrave (bytes? [a]) := by
  cases a with
  | none =>
      intro b fault h
      cases h
      rfl
  | some p =>
      exact (grave_ofExcept fun _ h => isGrave_of_number? (a := some p) h).bind
        fun _ => failsWith_pure _

theorem FileRule.grave_bounded (method : String) (a : Argument) (message : Option String) :
    FailsWith IsGrave (bounded method [a] message) :=
  (grave_bytes? a).withNumber fun _ => failsWith_replace _ _

end Grave

section OneBound

variable {b : Builder} {rule : String} {arguments : List Argument} {message : Option String}
  {fault : Fault}

/-- A failure on the count of digits that is passed over lacks the greatest count, and then the
least one is checked already. -/
theorem NumberRule.untouched_by_digitsBetween_iff
    (hfail : outcome (digitsBetween arguments message) b = .error fault)
    (hskip : ¬ IsGrave fault) :
    after (digits ">=" (arguments.take 1) message) b = b ↔ ¬ ∃ bound, arguments = [bound] := by
  match arguments with
  | [] => exact iff_of_true rfl (by simp)
  | [bound] =>
      refine iff_of_false (fun hsame => ?_) (fun h => h ⟨bound, rfl⟩)
      cases hread : bound.numeral with
      | error e =>
          have hfirst : outcome (digitsBetween [bound] message) b = .error e := by
            simp only [digitsBetween, digits, List.take, Building.first, pure_bind, hread]
            rfl
          cases hfirst.symm.trans hfail
          exact hskip (isGrave_of_numeral hread)
      | ok count =>
          have hadded : ∃ call, after (digits ">=" [bound] message) b = b.addCall call := by
            simp only [digits, Building.first, pure_bind, hread]
            exact ⟨_, rfl⟩
          obtain ⟨call, hcall⟩ := hadded
          have hchain : b.chain ++ [call] = b.chain :=
            congrArg Builder.chain (hcall.symm.trans hsame)
          simp at hchain
  | low :: high :: rest =>
      exact absurd (((grave_digits ">=" low message).bind fun _ => grave_digits "<=" high message)
        b fault hfail) hskip

/-- The call for the least size of a file in kilobytes. -/
def FileRule.minCall (n : Number) (message : Option String) : String :=
  ".min(" ++ (n.mulNat 1024).text ++ Script.messageArgument message ++ ")"

/-- A failure on two sizes that is passed over lacks the greatest size, and then the least one is
set already if it is a number. -/
theorem FileRule.untouched_by_between_iff
    (hfail : outcome (between arguments message) b = .error fault) (hskip : ¬ IsGrave fault) :
    after (bounded "min" (arguments.take 1) message) b = b ↔
      ¬ ∃ bound, arguments = [bound] ∧ ∃ n, bound.number? = .ok (some n) ∧
        b.replaceCall "min" (minCall n message) ≠ b := by
  match arguments with
  | [] => exact iff_of_true rfl (by simp)
  | [none] =>
      cases hfail
      exact absurd rfl hskip
  | [some p] =>
      have hnumber : Argument.number? (some p) = p.number? := rfl
      rw [List.take_succ_cons, List.take_nil]
      simp only [bounded, Building.compare, bytes?, Building.first, pure_bind, List.cons.injEq,
        and_true, exists_eq_left', hnumber]
      cases p.number? with
      | error e => exact iff_of_true rfl (by simp)
      | ok n =>
          cases n with
          | none => exact iff_of_true rfl (by simp)
          | some n =>
              change b.replaceCall "min" (minCall n message) = b ↔ _
              simp
  | low :: high :: rest =>
      exact absurd (((grave_bounded "min" low message).bind
        fun _ => grave_bounded "max" high message) b fault hfail) hskip

/-- A rule on two bounds has only the first of them, and this one changes the builder: a count of
digits always does, a size does if it is a number, unless its call is there already. -/
def HasOneBound (b : Builder) (rule : String) (arguments : List Argument)
    (message : Option String) : Prop :=
  ∃ bound, arguments = [bound] ∧
    ((∃ m, b.base = .number m) ∧ Builder.methodName rule = "digits_between" ∨
      b.base = .file ∧ Builder.methodName rule = "between" ∧ ∃ n, bound.number? = .ok (some n) ∧
        b.replaceCall "min" (FileRule.minCall n message) ≠ b)

namespace Builder

/-- The builders of lengths only fail on two bounds where a bound is too large. -/
theorem untouched_of_length (hhalf : b.base.firstHalf = Length.firstHalf)
    (hfound : b.base.methods.lookup "between" = some Length.between)
    (hfail : outcome (applyRule rule arguments message) b = .error fault)
    (hskip : ¬ IsGrave fault) :
    after (b.base.firstHalf (methodName rule) arguments message) b = b := by
  by_cases hname : methodName rule = "between"
  · obtain ⟨method, hmethod, hfail, -⟩ := exists_method_of_failed hfail
    rw [method?, hname, hfound] at hmethod
    cases hmethod
    exact absurd (Length.grave_between arguments message b fault hfail) hskip
  · rw [hhalf, Length.firstHalf, if_neg hname]
    rfl

theorem untouched_of_number_iff {m : Option String} (hbase : b.base = .number m)
    (hfail : outcome (applyRule rule arguments message) b = .error fault)
    (hskip : ¬ IsGrave fault) :
    after (NumberRule.firstHalf (methodName rule) arguments message) b = b ↔
      ¬ ∃ bound, arguments = [bound] ∧ methodName rule = "digits_between" := by
  obtain ⟨method, hmethod, hfail, -⟩ := exists_method_of_failed hfail
  rw [method?, hbase] at hmethod
  by_cases hbetween : methodName rule = "between"
  · rw [hbetween] at hmethod
    cases (rfl : (Base.number m).methods.lookup "between" = some NumberRule.between).symm.trans
      hmethod
    exact absurd (NumberRule.grave_between arguments message b fault hfail) hskip
  · by_cases hdigits : methodName rule = "digits_between"
    · rw [hdigits] at hmethod
      cases (rfl : (Base.number m).methods.lookup "digits_between" =
        some NumberRule.digitsBetween).symm.trans hmethod
      rw [NumberRule.firstHalf, if_neg hbetween, if_pos hdigits,
        NumberRule.untouched_by_digitsBetween_iff hfail hskip]
      simp [hdigits]
    · rw [NumberRule.firstHalf, if_neg hbetween, if_neg hdigits]
      exact iff_of_true rfl (by simp [hdigits])

theorem untouched_of_file_iff (hbase : b.base = .file)
    (hfail : outcome (applyRule rule arguments message) b = .error fault)
    (hskip : ¬ IsGrave fault) :
    after (FileRule.firstHalf (methodName rule) arguments message) b = b ↔
      ¬ ∃ bound, arguments = [bound] ∧ methodName rule = "between" ∧
        ∃ n, bound.number? = .ok (some n) ∧
          b.replaceCall "min" (FileRule.minCall n message) ≠ b := by
  obtain ⟨method, hmethod, hfail, -⟩ := exists_method_of_failed hfail
  rw [method?, hbase] at hmethod
  by_cases hbetween : methodName rule = "between"
  · rw [hbetween] at hmethod
    cases (rfl : Base.file.methods.lookup "between" = some FileRule.between).symm.trans hmethod
    rw [FileRule.firstHalf, if_pos hbetween, FileRule.untouched_by_between_iff hfail hskip]
    simp [hbetween]
  · rw [FileRule.firstHalf, if_neg hbetween]
    exact iff_of_true rfl (by simp [hbetween])

/-- A failed rule leaves what its first half leaves. If the failure is passed over, the builder is
as it was before if and only if the rule is not one on two bounds that has only the first. -/
theorem skipped_rule_untouched_iff
    (hfail : outcome (applyRule rule arguments message) b = .error fault) :
    after (applyRule rule arguments message) b =
        after (b.base.firstHalf (methodName rule) arguments message) b ∧
      (Compiler.isUnusable fault = true →
        (after (applyRule rule arguments message) b = b ↔
          ¬ HasOneBound b rule arguments message)) := by
  refine ⟨after_failed_applyRule hfail, fun hunusable => ?_⟩
  have hskip : ¬ IsGrave fault := fun hgrave => absurd (hgrave.symm.trans hunusable) (by decide)
  rw [after_failed_applyRule hfail]
  cases hbase : b.base with
  | number m =>
      change after (NumberRule.firstHalf (methodName rule) arguments message) b = b ↔ _
      rw [untouched_of_number_iff hbase hfail hskip]
      simp [HasOneBound, hbase]
  | file =>
      change after (FileRule.firstHalf (methodName rule) arguments message) b = b ↔ _
      rw [untouched_of_file_iff hbase hfail hskip]
      simp [HasOneBound, hbase]
  | text | url | password | email | array =>
      have huntouched := untouched_of_length (by rw [hbase]; rfl) (by rw [hbase]; rfl) hfail hskip
      rw [hbase] at huntouched
      exact iff_of_true huntouched (by simp [HasOneBound, hbase])
  | boolean | object | reference | enumeration =>
      exact iff_of_true rfl (by simp [HasOneBound, hbase])

/-- The builder of a file whose least size is set by a rule. -/
def leastSized : Builder := after (applyRule "min" [some (.text "3")] none) (ofBase .file)

/-- A rule on two sizes that lacks the greatest one fails and is passed over. After a rule that has
set the same least size, it changes nothing. -/
theorem skipped_between_untouched :
    leastSized.chain = [".min(3072)"] ∧
      outcome (applyRule "between" [some (.text "3")] none) leastSized = .error .outOfRange ∧
      Compiler.isUnusable .outOfRange = true ∧
      after (applyRule "between" [some (.text "3")] none) leastSized = leastSized := by
  have hfail : outcome (applyRule "between" [some (.text "3")] none) leastSized =
      .error .outOfRange := by decide +kernel
  refine ⟨by decide +kernel, hfail, rfl, ((skipped_rule_untouched_iff hfail).2 rfl).mpr ?_⟩
  rintro ⟨bound, hbound, ⟨⟨m, hm⟩, -⟩ | ⟨-, -, n, hn, hchanged⟩⟩
  · cases hm
  · cases hbound
    have hthree : Argument.number? (some (.text "3")) = .ok (some (.whole 3)) := by decide +kernel
    cases hthree.symm.trans hn
    revert hchanged
    decide +kernel

/-- A count of digits that lacks its greatest value fails with a fault that is passed over, and
still checks the least count. -/
theorem least_digits_stay :
    ¬ ∀ (b : Builder) (rule : String) (arguments : List Argument) (message : Option String)
      (fault : Fault), outcome (applyRule rule arguments message) b = .error fault →
        Compiler.isUnusable fault = true → after (applyRule rule arguments message) b = b := by
  intro h
  have hsame := h (ofBase (.number none)) "digits_between" [some (.text "3")] none .outOfRange
    (by decide +kernel) rfl
  have hchain : (after (applyRule "digits_between" [some (.text "3")] none)
      (ofBase (.number none))).chain ≠ [] := by decide +kernel
  rw [hsame] at hchain
  exact hchain rfl

end Builder

end OneBound

end RuleSchema
