import RuleSchema.Message.Basic
import RuleSchema.Proofs.RuleNames

/-!
# Looking up messages

When the catalog and its fallback can be read, every look-up gives a result, so every rule with a
name on a field with a path has a message.
-/

namespace RuleSchema

/-- A computation that gives a result. -/
def Succeeds {α : Type} (x : Except Fault α) : Prop := ∃ result, x = .ok result

namespace Succeeds

variable {α β : Type}

theorem ok (result : α) : Succeeds (.ok result) := ⟨result, rfl⟩

theorem bind {x : Except Fault α} {f : α → Except Fault β} (hx : Succeeds x)
    (hf : ∀ result, Succeeds (f result)) : Succeeds (x >>= f) := by
  obtain ⟨result, rfl⟩ := hx
  exact hf result

theorem map {x : Except Fault α} (f : α → β) (hx : Succeeds x) : Succeeds (x.map f) := by
  obtain ⟨result, rfl⟩ := hx
  exact ⟨f result, rfl⟩

theorem mapM {f : α → Except Fault β} {l : List α} (h : ∀ a ∈ l, Succeeds (f a)) :
    Succeeds (l.mapM f) := by
  induction l with
  | nil => exact ⟨[], rfl⟩
  | cons a rest ih =>
      rw [List.mapM_cons]
      exact (h a List.mem_cons_self).bind fun b =>
        (ih fun x hx => h x (List.mem_cons_of_mem _ hx)).bind fun more => ok (b :: more)

theorem ite {p : Prop} [Decidable p] {x y : Except Fault α} (hx : Succeeds x) (hy : Succeeds y) :
    Succeeds (if p then x else y) := by
  split
  · exact hx
  · exact hy

end Succeeds

/-- The messages of a catalog and of its fallback can be read. -/
structure Catalog.IsReadable (c : Catalog) : Prop where
  primary : Succeeds c.primary.messages
  fallback : ∀ other, c.fallback = some other → Succeeds other.messages

theorem Catalog.IsReadable.get? {c : Catalog} (h : c.IsReadable) (key : String) :
    Succeeds (c.get? key) := by
  rw [Catalog.get?]
  apply h.primary.bind
  intro found
  split
  · exact .ok _
  · rename_i other _ hother
    exact (h.fallback other hother).bind fun map => .ok _
  · exact .ok _

namespace Messages

/-- Messages come from a catalog that can be read. -/
def Ready (m : Messages) : Prop := ∃ catalog, m.source = some catalog ∧ catalog.IsReadable

variable {m : Messages}

theorem Ready.sourceText? (h : m.Ready) (key : String) : Succeeds (m.sourceText? key) := by
  obtain ⟨catalog, hsource, hreadable⟩ := h
  rw [Messages.sourceText?, hsource]
  exact (hreadable.get? key).map _

theorem Ready.fieldName (h : m.Ready) (field : String) : Succeeds (m.fieldName field) := by
  rw [Messages.fieldName]
  split
  · exact .ok _
  · exact (h.sourceText? _).map _

theorem Ready.textName (h : m.Ready) (field value : String) :
    Succeeds (m.textName field value) :=
  (h.sourceText? _).map _

theorem Ready.placeholders (h : m.Ready) (field rule : String) (parameters : List String) :
    Succeeds (m.placeholders field rule parameters) := by
  have hnames : ∀ l : List String, Succeeds (l.mapM m.fieldName) := by
    intro l
    exact .mapM fun other _ => h.fieldName other
  have htexts : ∀ (other : String) (l : List String), Succeeds (l.mapM (m.textName other)) :=
    fun other l => .mapM fun value _ => h.textName other value
  unfold Messages.placeholders
  refine .ite (.ok _) (.ite (.ok _) (.ite (.ok _) (.ite (.ok _) (.ite (.ok _) (.ite (.ok _)
    (.ite (.ok _) (.ite (.ok _) (.ite ?_ (.ite ?_ (.ite ?_ (.ite (.ok _) (.ite ?_ (.ite ?_
      (.ite ?_ (.ok _)))))))))))))))
  · exact (hnames _).bind fun _ => .ok _
  · exact Succeeds.ite (.ok _) ((h.fieldName _).bind fun _ => .ok _)
  · exact (htexts _ _).bind fun _ => .ok _
  · exact (hnames _).bind fun _ => .ok _
  · exact (h.fieldName _).bind fun _ => (htexts _ _).bind fun _ => .ok _
  · exact (h.fieldName _).bind fun _ => .ok _

theorem Ready.fill (h : m.Ready) (message field rule : String) (parameters : List String) :
    Succeeds (m.fill message field rule parameters) :=
  (h.fieldName field).bind fun _ => (h.placeholders field rule parameters).bind fun _ => .ok _

theorem Ready.messageFor (h : m.Ready) {catalog : Catalog} (hreadable : catalog.IsReadable)
    (context : MessageContext) (field rule : String) :
    Succeeds (m.messageFor catalog context field rule) := by
  unfold Messages.messageFor
  split
  · exact h.fill _ _ _ _
  · have htemplate : Succeeds (templateFor catalog field rule) := by
      apply (hreadable.get? _).bind
      intro found
      cases found with
      | some template => exact .ok _
      | none => exact hreadable.get? rule
    exact htemplate.bind fun _ => (h.fill _ _ _ _).bind fun _ => (h.fieldName field).bind
      fun _ => .ok _

/-- A rule with a name on a field with a path has a message. -/
theorem Ready.resolveIn (h : m.Ready) {context : MessageContext} {field rule : String}
    (hfield : context.field = some field) (hrule : context.rule = some rule)
    (hfilled : Text.isEmpty field = false) (hnamed : Text.isEmpty rule = false) :
    Succeeds (m.resolveIn context) := by
  have hready := h
  obtain ⟨catalog, hsource, hreadable⟩ := h
  simp only [Messages.resolveIn, hfield, hrule, hsource, Option.filter, hfilled, hnamed,
    Bool.not_false, if_true]
  exact hready.messageFor hreadable context field rule

/-- A message is found for a rule with a name on a field with a path only, in some catalog. -/
theorem named_of_resolveIn {context : MessageContext} {message : String}
    (h : m.resolveIn context = .ok message) :
    (∃ field, context.field = some field ∧ Text.isEmpty field = false) ∧
    (∃ rule, context.rule = some rule ∧ Text.isEmpty rule = false) ∧ m.source ≠ none := by
  have hfilled : ∀ {text : Option String} {found : String},
      text.filter (! Text.isEmpty ·) = some found →
        ∃ t, text = some t ∧ Text.isEmpty t = false := by
    intro text found hfound
    obtain ⟨htext, hnot⟩ := Option.filter_eq_some_iff.mp hfound
    exact ⟨found, htext, (Bool.not_eq_true' _).mp hnot⟩
  simp only [Messages.resolveIn] at h
  split at h
  · cases h
  · cases h
  · cases h
  · rename_i hfield hrule hsource
    exact ⟨hfilled hfield, hfilled hrule, by rw [hsource]; exact Option.some_ne_none _⟩

end Messages

end RuleSchema
