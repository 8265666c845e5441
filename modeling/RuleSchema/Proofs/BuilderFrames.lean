import RuleSchema.Handler.Compile
import RuleSchema.Proofs.ChainEdits

/-!
# What rules leave alone

Rules change the chain, the bounds and the messages of a builder. They never make a value nullable
or optional, never turn one sort of base into another, and never touch the items of an array or the
properties of an object. A rule that fails part-way keeps to this as well.
-/

namespace RuleSchema

/-- A base without what rules may change about it: its formats, messages and listed values. -/
def Base.sort : Base → Base
  | .text _ => .text none
  | .url .. => .url none none none
  | .password _ => .password none
  | .email _ => .email none
  | .number _ => .number none
  | .enumeration .. => .enumeration [] none none
  | base => base

/-- What rules leave alone about a builder. -/
structure Frame where
  sort : Base
  isNullable : Bool
  isOptional : Bool

/-- The frame of a builder. -/
def Builder.frame (b : Builder) : Frame := ⟨b.base.sort, b.isNullable, b.isOptional⟩

/-- A change that leaves the frame of every builder alone, also where it fails. -/
def Keeps {α : Type} (x : Building α) : Prop := ∀ b, (Chain.after x b).frame = b.frame

/-- A rule that leaves the frame alone, whatever its arguments and its message. -/
def Framed (method : RuleMethod) : Prop := ∀ arguments message, Keeps (method arguments message)

section Changes

variable {α β : Type}

theorem keeps_pure (a : α) : Keeps (pure a) := fun _ => rfl

theorem keeps_throw (fault : Fault) : Keeps (throw fault : Building α) := fun _ => rfl

theorem keeps_get : Keeps (get : Building Builder) := fun _ => rfl

theorem keeps_modify {f : Builder → Builder} (h : ∀ b, (f b).frame = b.frame) :
    Keeps (modify f : Building Unit) := h

theorem Keeps.bind {x : Building α} {f : α → Building β} (hx : Keeps x)
    (hf : ∀ a, Keeps (f a)) : Keeps (x >>= f) := by
  intro b
  have hfirst : (x.run.run b).2.frame = b.frame := hx b
  change ((ExceptT.run (x >>= f)).run b).2.frame = b.frame
  rw [ExceptT.run_bind, StateT.run_bind]
  cases hrun : x.run.run b with
  | mk result next =>
      rw [hrun] at hfirst
      cases result with
      | error fault => exact hfirst
      | ok a => exact (hf a next).trans hfirst

theorem Keeps.ite {p : Prop} [Decidable p] {x y : Building α} (hx : Keeps x) (hy : Keeps y) :
    Keeps (if p then x else y) := by
  split
  · exact hx
  · exact hy

theorem keeps_ofExcept (x : Except Fault α) : Keeps (Building.ofExcept x) := by
  cases x with
  | error fault => exact keeps_throw fault
  | ok a => exact keeps_pure a

theorem keeps_add (call : String) : Keeps (Building.add call) := keeps_modify fun _ => rfl

theorem keeps_replace (method call : String) : Keeps (Building.replace method call) :=
  keeps_modify fun _ => rfl

theorem keeps_remove_add (needle call : String) :
    Keeps (do modify (·.removeContaining needle); Building.add call) :=
  (keeps_modify fun _ => rfl).bind fun _ => keeps_add call

theorem keeps_firstNumber? (arguments : List Argument) :
    Keeps (Building.firstNumber? arguments) := by
  cases arguments with
  | nil => exact keeps_pure none
  | cons a rest => exact keeps_ofExcept _

theorem keeps_first (arguments : List Argument) : Keeps (Building.first arguments) := by
  cases arguments with
  | nil => exact keeps_throw _
  | cons a rest => exact keeps_pure a

/-- An action on a number that may be missing. -/
theorem Keeps.withNumber {x : Building (Option Number)} {act : Number → Building Unit}
    (hx : Keeps x) (h : ∀ n, Keeps (act n)) :
    Keeps (do match ← x with | none => return | some n => act n) := by
  apply hx.bind
  intro n
  cases n with
  | none => exact keeps_pure ()
  | some n => exact h n

theorem framed_nothing : Framed Building.nothing := fun _ _ => keeps_pure ()

theorem framed_required : Framed Building.required := by
  intro arguments message
  unfold Building.required
  split
  · exact keeps_modify fun _ => rfl
  · exact keeps_pure ()

end Changes

namespace Length

theorem keeps_raise (bound : Number) (message : Option String) : Keeps (raise bound message) := by
  intro b
  rw [Chain.after_raise]
  split <;> rfl

theorem keeps_lower (bound : Number) (message : Option String) : Keeps (lower bound message) := by
  intro b
  rw [Chain.after_lower]
  split <;> rfl

theorem framed_min : Framed min := fun arguments message =>
  (keeps_firstNumber? arguments).withNumber fun n => keeps_raise n message

theorem framed_max : Framed max := fun arguments message =>
  (keeps_firstNumber? arguments).withNumber fun n => keeps_lower n message

theorem framed_withBound {change : Int} {act : Number → Option String → Building Unit}
    (h : ∀ n message, Keeps (act n message)) : Framed (withBound change act) :=
  fun arguments message => (keeps_firstNumber? arguments).withNumber fun _ =>
    ((keeps_ofExcept _).bind fun _ => keeps_pure _).bind fun n => h n message

theorem framed_between : Framed between := by
  intro arguments message
  unfold between
  split
  · exact (framed_min _ message).bind fun _ => framed_max _ message
  · exact keeps_pure ()

theorem framed_size : Framed size := fun arguments _ =>
  (keeps_firstNumber? arguments).withNumber fun _ => keeps_replace _ _

theorem framed_trim : Framed trim := by
  intro arguments message b
  change (Chain.after (if b.hasCall "trim" then pure () else Building.add ".trim()") b).frame = _
  exact (keeps_pure ()).ite (keeps_add _) b

theorem framed_methods : ∀ p ∈ methods, Framed p.2 := by
  simp only [methods, List.forall_mem_cons]
  exact ⟨framed_min, framed_max, framed_withBound keeps_lower, framed_withBound keeps_lower,
    framed_withBound keeps_raise, framed_withBound keeps_raise, framed_between, framed_size,
    framed_trim, List.forall_mem_nil _⟩

end Length

namespace TextRule

theorem frame_setOverride (expression : String) (b : Builder) :
    (setOverride expression b).frame = b.frame := by
  unfold setOverride
  split <;> simp only [Builder.frame, Base.sort, *]

theorem framed_required : Framed required := by
  intro arguments message
  refine keeps_get.bind fun b => (keeps_remove_add _ _).ite (Keeps.bind ?_ fun _ => ?_)
  · exact keeps_modify fun _ => rfl
  · exact Length.keeps_raise _ _

theorem framed_regex : Framed regex := by
  intro arguments message
  unfold regex
  split
  · exact keeps_pure ()
  · exact keeps_remove_add _ _

theorem framed_notRegex : Framed notRegex := by
  intro arguments message
  unfold notRegex
  split
  · exact keeps_pure ()
  · exact keeps_add _

theorem framed_uuid : Framed uuid := fun _ _ => keeps_replace _ _

theorem framed_marked (name pattern : String) : Framed (marked name pattern) :=
  fun _ _ => keeps_remove_add _ _

theorem framed_cased (method fallback : String) : Framed (cased method fallback) :=
  fun _ _ => keeps_replace _ _

theorem framed_affixed (method affix fallback : String) :
    Framed (affixed method affix fallback) := by
  intro arguments message
  unfold affixed
  split
  · exact keeps_pure ()
  · exact keeps_replace _ _
  · exact keeps_replace _ _

theorem framed_notAffixed (method affix fallback : String) :
    Framed (notAffixed method affix fallback) := by
  intro arguments message
  unfold notAffixed
  split
  · exact keeps_pure ()
  · exact keeps_add _

theorem framed_listed (negation : String) : Framed (listed negation) := by
  intro arguments message
  unfold listed
  split
  · exact keeps_pure ()
  · exact keeps_add _

theorem framed_json : Framed json := fun _ _ => keeps_add _

theorem framed_ip : Framed ip := fun _ _ => keeps_modify (frame_setOverride _)

theorem framed_format (name : String) : Framed (format name) :=
  fun _ _ => keeps_modify (frame_setOverride _)

theorem framed_macAddress : Framed macAddress := fun _ _ => keeps_remove_add _ _

theorem framed_date : Framed date := fun _ _ => keeps_add _

theorem framed_dateFormat : Framed dateFormat := by
  intro arguments message
  refine (keeps_pure ()).ite (Keeps.bind ?_ fun _ => ?_)
  · exact keeps_modify fun _ => rfl
  · split
    · exact keeps_add _
    · exact keeps_add _

theorem framed_url : Framed url := by
  intro arguments message
  apply keeps_modify
  intro b
  split
  · simp only [Builder.frame, Base.sort, *]
  · rfl

theorem framed_passwordPattern (pattern fallback : String) :
    Framed (passwordPattern pattern fallback) := fun _ _ => keeps_add _

theorem framed_passwordMixed : Framed passwordMixed := fun _ _ => keeps_add _

theorem framed_methods : ∀ p ∈ methods, Framed p.2 := by
  simp only [methods, List.forall_mem_append, List.forall_mem_cons]
  exact ⟨⟨framed_required, framed_nothing, framed_regex, framed_notRegex, framed_uuid,
    framed_marked _ _, framed_marked _ _, framed_marked _ _, framed_marked _ _,
    framed_cased _ _, framed_cased _ _, framed_affixed _ _ _, framed_affixed _ _ _,
    framed_notAffixed _ _ _, framed_notAffixed _ _ _, framed_listed _, framed_listed _, framed_json,
    framed_ip, framed_format _, framed_format _, framed_format _, framed_macAddress, framed_date,
    framed_dateFormat, List.forall_mem_nil _⟩, Length.framed_methods⟩

end TextRule

section Compare

variable {number? : List Argument → Building (Option Number)}
variable (h : ∀ arguments, Keeps (number? arguments))

include h

theorem framed_compare (method : String) : Framed (Building.compare number? method) :=
  fun arguments _ => (h arguments).withNumber fun _ => keeps_replace _ _

theorem framed_within : Framed (Building.within number?) := fun _ message =>
  (framed_compare h "min" _ message).bind fun _ => framed_compare h "max" _ message

theorem framed_exactly : Framed (Building.exactly number?) := fun _ message =>
  (framed_compare h "min" _ message).bind fun _ => framed_compare h "max" _ message

end Compare

namespace NumberRule

theorem framed_integer : Framed integer := by
  intro arguments message
  cases message with
  | none => exact (keeps_pure ()).bind fun _ => keeps_replace _ _
  | some m =>
      refine Keeps.bind ?_ fun _ => keeps_replace _ _
      apply keeps_modify
      intro b
      split
      · simp only [Builder.frame, Base.sort, *]
      · rfl

theorem framed_bounded (method : String) : Framed (bounded method) :=
  framed_compare keeps_firstNumber? method

theorem framed_decimal : Framed decimal := by
  intro arguments message
  unfold decimal
  split
  · exact keeps_pure ()
  · exact (keeps_ofExcept _).bind fun _ => keeps_add _
  · exact (keeps_ofExcept _).bind fun _ => (keeps_ofExcept _).bind fun _ => keeps_add _

theorem framed_digits (operator : String) : Framed (digits operator) := fun arguments _ =>
  (keeps_first arguments).bind fun _ => (keeps_ofExcept _).bind fun _ => keeps_add _

theorem framed_digitsBetween : Framed digitsBetween := fun _ message =>
  (framed_digits ">=" _ message).bind fun _ => framed_digits "<=" _ message

theorem framed_listed (negation : String) : Framed (listed negation) := fun _ _ =>
  (keeps_pure ()).ite ((keeps_ofExcept _).bind fun _ => keeps_add _)

theorem framed_methods : ∀ p ∈ methods, Framed p.2 := by
  simp only [methods, List.forall_mem_cons]
  exact ⟨RuleSchema.framed_required, framed_nothing, framed_integer, framed_bounded _,
    framed_bounded _, framed_bounded _, framed_bounded _, framed_bounded _, framed_bounded _,
    framed_bounded _, framed_within keeps_firstNumber?, framed_exactly keeps_firstNumber?,
    framed_decimal, framed_digits _,
    framed_digits _, framed_digits _, framed_digitsBetween, framed_listed _, framed_listed _,
    List.forall_mem_nil _⟩

end NumberRule

namespace FileRule

theorem framed_image : Framed image := by
  intro arguments message b
  change (Chain.after (if b.hasCall "mime" then pure () else Building.add _) b).frame = _
  exact (keeps_pure ()).ite (keeps_add _) b

theorem framed_mediaTypes : Framed mediaTypes := fun _ _ => (keeps_pure ()).ite (keeps_replace _ _)

theorem framed_extensions : Framed extensions := fun _ message => framed_mediaTypes _ message

theorem keeps_bytes? (arguments : List Argument) : Keeps (bytes? arguments) := by
  apply (keeps_first arguments).bind
  intro argument
  cases argument with
  | none => exact keeps_throw _
  | some p => exact (keeps_ofExcept _).bind fun _ => keeps_pure _

theorem framed_bounded (method : String) : Framed (bounded method) :=
  framed_compare keeps_bytes? method

theorem framed_dimensions : Framed dimensions := by
  intro arguments message
  unfold dimensions
  split
  · exact keeps_pure ()
  · exact keeps_add _

theorem framed_methods : ∀ p ∈ methods, Framed p.2 := by
  simp only [methods, List.forall_mem_cons]
  exact ⟨RuleSchema.framed_required, framed_nothing, framed_image, framed_extensions,
    framed_extensions, framed_mediaTypes, framed_bounded _, framed_bounded _,
    framed_exactly keeps_bytes?, framed_within keeps_bytes?, framed_dimensions,
    List.forall_mem_nil _⟩

end FileRule

namespace Builder

theorem framed_mail : Framed mail := by
  intro arguments message
  apply keeps_modify
  intro b
  split
  · simp only [frame, Base.sort, *]
  · rfl

theorem framed_mailRequired : Framed mailRequired := by
  intro arguments message
  cases message with
  | none => exact (keeps_pure ()).bind fun _ => Length.keeps_raise _ _
  | some m =>
      refine Keeps.bind ?_ fun _ => Length.keeps_raise _ _
      exact keeps_modify fun _ => rfl

theorem framed_distinct : Framed distinct := fun _ _ => keeps_replace _ _

theorem framed_decided (value fallback : String) : Framed (decided value fallback) :=
  fun _ _ => keeps_replace _ _

theorem frame_changeEnumeration
    (f : List String → Option String → Option String → List String × Option String × Option String)
    (b : Builder) : (changeEnumeration f b).frame = b.frame := by
  unfold changeEnumeration
  split
  · simp only [frame, Base.sort, *]
  · rfl

theorem framed_enumerationRequired : Framed enumerationRequired := by
  intro arguments message
  unfold enumerationRequired
  split
  · exact keeps_modify (frame_changeEnumeration _)
  · exact keeps_pure ()

theorem framed_enumerationValues : Framed enumerationValues :=
  fun _ _ => keeps_modify (frame_changeEnumeration _)

theorem framed_enumerationName : Framed enumerationName :=
  fun _ _ => keeps_modify (frame_changeEnumeration _)

end Builder

/-- Every rule of every builder leaves the frame alone. -/
theorem Base.framed_methods (base : Base) : ∀ p ∈ base.methods, Framed p.2 := by
  cases base with
  | text => exact TextRule.framed_methods
  | url =>
      exact List.forall_mem_cons.mpr ⟨TextRule.framed_url, TextRule.framed_methods⟩
  | password =>
      simp only [methods, TextRule.passwordMethods, List.forall_mem_append, List.forall_mem_cons]
      exact ⟨⟨framed_nothing, TextRule.framed_passwordPattern _ _, TextRule.framed_passwordMixed,
        TextRule.framed_passwordPattern _ _, TextRule.framed_passwordPattern _ _, framed_nothing,
        List.forall_mem_nil _⟩, TextRule.framed_methods⟩
  | email =>
      simp only [methods, List.forall_mem_append, List.forall_mem_cons]
      exact ⟨⟨Builder.framed_mail, framed_nothing, Builder.framed_mailRequired,
        List.forall_mem_nil _⟩, Length.framed_methods⟩
  | number => exact NumberRule.framed_methods
  | boolean =>
      simp only [methods, List.forall_mem_cons]
      exact ⟨framed_required, framed_nothing, Builder.framed_decided _ _,
        Builder.framed_decided _ _, List.forall_mem_nil _⟩
  | file => exact FileRule.framed_methods
  | array =>
      simp only [methods, List.forall_mem_append, List.forall_mem_cons]
      exact ⟨⟨framed_required, framed_nothing, framed_nothing, Builder.framed_distinct,
        List.forall_mem_nil _⟩, Length.framed_methods⟩
  | object => exact List.forall_mem_singleton.mpr framed_required
  | reference => exact List.forall_mem_singleton.mpr framed_required
  | enumeration =>
      simp only [methods, List.forall_mem_cons]
      exact ⟨Builder.framed_enumerationRequired, Builder.framed_enumerationValues,
        Builder.framed_enumerationName, List.forall_mem_nil _⟩

namespace Builder

variable {b : Builder} {rule : String} {method : RuleMethod} {arguments : List Argument}
  {message : Option String}

theorem run_get_bind {α : Type} (f : Builder → Building α) (b : Builder) :
    (get >>= f : Building α).run b = (f b).run b := rfl

/-- A rule that a builder does not know changes nothing. -/
theorem run_applyRule_of_none (h : b.method? rule = none) :
    (applyRule rule arguments message).run b = (.ok false, b) := by
  rw [applyRule, run_get_bind, h]
  rfl

/-- A rule that a builder knows runs its method. -/
theorem run_applyRule_of_some (h : b.method? rule = some method) :
    (applyRule rule arguments message).run b =
      (method arguments message >>= fun _ => return true : Building Bool).run b := by
  rw [applyRule, run_get_bind, h]

end Builder

namespace Compiler

theorem keeps_applyRule (rule : String) (arguments : List Argument) (message : Option String) :
    Keeps (Builder.applyRule rule arguments message) := by
  intro b
  have hmethod : ∀ method, b.method? rule = some method → Framed method := fun _ hfound =>
    b.base.framed_methods _ (Table.mem_of_lookup_eq_some hfound)
  change ((Builder.applyRule rule arguments message).run b).2.frame = b.frame
  cases hfound : b.method? rule with
  | none => rw [Builder.run_applyRule_of_none hfound]
  | some method =>
      rw [Builder.run_applyRule_of_some hfound]
      exact ((hmethod method hfound arguments message).bind fun _ => keeps_pure _) b

/-- A check leaves the frame of a builder alone. -/
theorem frame_of_applyCheck {b next : Builder} {check : Check}
    (h : applyCheck b check = .ok next) : next.frame = b.frame := by
  have hrule := keeps_applyRule check.rule (check.parameters.map some) check.message b
  change ((Builder.applyRule check.rule (check.parameters.map some) check.message).run b).2.frame =
    b.frame at hrule
  unfold applyCheck at h
  split at h
  · cases h
    rfl
  · split at h
    · rename_i hrun
      rw [hrun] at hrule
      cases h
      exact hrule
    · rename_i hrun
      rw [hrun] at hrule
      split at h
      · cases h
        exact hrule
      · cases h

/-- The checks of a field leave the frame of a builder alone. -/
theorem frame_of_applyChecks {b next : Builder} {r : Resolved}
    (h : applyChecks b r = .ok next) : next.frame = b.frame := by
  unfold applyChecks at h
  generalize r.checks = checks at h
  induction checks generalizing b with
  | nil =>
      cases h
      rfl
  | cons check rest ih =>
      rw [List.foldlM_cons] at h
      cases hcheck : applyCheck b check with
      | error fault =>
          rw [hcheck] at h
          cases h
      | ok after =>
          rw [hcheck] at h
          exact (ih h).trans (frame_of_applyCheck hcheck)

end Compiler

end RuleSchema
