import Mathlib.Data.List.Perm.Basic
import Mathlib.Tactic.Choose
import RuleSchema.Proofs.FailedContexts
import RuleSchema.Proofs.InheritedRules

/-!
# Orders of rules

A field is resolved rule by rule, with messages asked from one session. The type of the field and
the sort of a size depend on which rules there are, and a message on its rule and on these. So the
rules of a field may be given in any order, after any earlier use of the session: the checks come in
the order of their rules and are the same.

## Implementation notes

The resolution of a field looks messages up in contexts of its own. `MessageSession.resolve` sets
each of them in a session instead, and `answers_resolve` says that what the session held before
makes no difference.
-/

namespace RuleSchema

section Results

variable {α β : Type} {f : α → Except Fault β} {l l' : List α}

theorem mapM_eq_ok {value : α → β} (h : ∀ a ∈ l, f a = .ok (value a)) :
    l.mapM f = .ok (l.map value) := by
  induction l with
  | nil => rfl
  | cons a rest ih =>
      obtain ⟨hfirst, hrest⟩ := List.forall_mem_cons.mp h
      rw [List.mapM_cons, hfirst, ih hrest]
      rfl

theorem exists_error_of_mem {a : α} (ha : a ∈ l) (h : ¬ Succeeds (f a)) :
    ∃ fault, l.mapM f = .error fault := by
  cases hresult : l.mapM f with
  | error fault => exact ⟨fault, rfl⟩
  | ok results => exact absurd (succeeds_of_mem_mapM hresult ha) h

/-- An action on the elements of a list gives a result for each of them, whatever their order, or
fails in every order. -/
theorem mapM_perm [Nonempty β] (h : l.Perm l') :
    (∃ value : α → β, (∀ a ∈ l, f a = .ok (value a)) ∧ l.mapM f = .ok (l.map value) ∧
      l'.mapM f = .ok (l'.map value)) ∨
    (∃ fault, l.mapM f = .error fault) ∧ ∃ fault, l'.mapM f = .error fault := by
  by_cases hall : ∀ a ∈ l, Succeeds (f a)
  · have hvalue : ∀ a, ∃ b, a ∈ l → f a = .ok b := by
      intro a
      by_cases ha : a ∈ l
      · obtain ⟨b, hb⟩ := hall a ha
        exact ⟨b, fun _ => hb⟩
      · exact ⟨Classical.arbitrary β, fun h => absurd h ha⟩
    choose value hvalue using hvalue
    exact .inl ⟨value, hvalue, mapM_eq_ok hvalue,
      mapM_eq_ok fun a ha => hvalue a (h.mem_iff.mpr ha)⟩
  · obtain ⟨a, ha, hfails⟩ : ∃ a, a ∈ l ∧ ¬ Succeeds (f a) := by simpa using hall
    exact .inr ⟨exists_error_of_mem ha hfails, exists_error_of_mem (h.mem_iff.mp ha) hfails⟩

end Results

instance : Nonempty RuleEntry := ⟨⟨"", []⟩⟩

instance : Nonempty Check := ⟨⟨"", [], none, false, false⟩⟩

section Orders

variable {entries entries' : List RuleEntry} {names names' : List String}

theorem Inference.isNumeric_perm (h : entries.Perm entries') :
    Inference.isNumeric entries = Inference.isNumeric entries' := h.any_eq

/-- A choice is the only rule of which the first one counts. -/
theorem find?_perm {p : RuleEntry → Bool} (h : entries.Perm entries')
    (hone : entries.countP p ≤ 1) : entries.find? p = entries'.find? p := by
  have hfilter := h.filter p
  rw [List.countP_eq_length_filter] at hone
  rw [← List.head?_filter, ← List.head?_filter]
  match hentries : entries.filter p with
  | [] => rw [hentries] at hfilter; rw [List.nil_perm.mp hfilter]
  | [e] => rw [hentries] at hfilter; rw [List.singleton_perm.mp hfilter]
  | _ :: _ :: _ =>
      rw [hentries, List.length_cons, List.length_cons] at hone
      omega

/-- The type of a field does not depend on the order of its rules, of which at most one is a
choice. -/
theorem Inference.inferType_perm (h : entries.Perm entries')
    (hone : entries.countP (·.name == "in") ≤ 1) (field : Option String) :
    Inference.inferType entries field = Inference.inferType entries' field := by
  have hany : (fun category : List String × String => entries.any (category.1.contains ·.name)) =
      fun category => entries'.any (category.1.contains ·.name) := funext fun _ => h.any_eq
  unfold Inference.inferType
  rw [hany, find?_perm h hone]

namespace Messages

theorem sizeVariant_perm (h : names.Perm names') (isNumeric : Bool) :
    sizeVariant names isNumeric = sizeVariant names' isNumeric := by
  rw [sizeVariant, sizeVariant, h.any_eq, h.any_eq, h.any_eq]

/-- A message sees of the rules of a field only which there are. -/
theorem resolveIn_perm (m : Messages) (h : names.Perm names') (field rule : Option String)
    (parameters : List String) (isNumeric : Bool) :
    m.resolveIn ⟨field, rule, parameters, isNumeric, names⟩ =
      m.resolveIn ⟨field, rule, parameters, isNumeric, names'⟩ := by
  have htemplate : ofTemplate ⟨field, rule, parameters, isNumeric, names⟩ =
      ofTemplate ⟨field, rule, parameters, isNumeric, names'⟩ := by
    funext path name template
    unfold ofTemplate
    rw [sizeVariant_perm h]
  have hmessage : ∀ catalog path name,
      m.messageFor catalog ⟨field, rule, parameters, isNumeric, names⟩ path name =
        m.messageFor catalog ⟨field, rule, parameters, isNumeric, names'⟩ path name := by
    intro catalog path name
    unfold messageFor
    rw [htemplate]
  unfold resolveIn
  simp only [hmessage]

end Messages

namespace Declared

theorem check_perm (m : Messages) (field : String) (h : entries.Perm entries') :
    check m field entries = check m field entries' := by
  funext entry
  have hcontext : m.resolveIn (Messages.contextOf field entries entry) =
      m.resolveIn (Messages.contextOf field entries' entry) := by
    rw [Messages.contextOf, Messages.contextOf, Inference.isNumeric_perm h]
    exact m.resolveIn_perm (h.map RuleEntry.name) _ _ _ _
  rw [check, check, hcontext]

/-- Two orders of the same entries give their checks in these orders, and the same type. -/
theorem resolveRules_perm (m : Messages) (d : Declared) (h : entries.Perm entries')
    (hone : entries.countP (·.name == "in") ≤ 1) (fragment : Option Fragment) (ignored : Nat) :
    ((∃ fault, d.resolveRules m ⟨entries, fragment, ignored⟩ = .error fault) ∧
      ∃ fault, d.resolveRules m ⟨entries', fragment, ignored⟩ = .error fault) ∨
    ∃ (inferred : String) (value : RuleEntry → Check),
      (∀ e ∈ entries, (value e).rule = e.name ∧ (value e).parameters = e.parameters) ∧
      d.resolveRules m ⟨entries, fragment, ignored⟩ =
        .ok ⟨d.path, entries.map value, inferred, fragment⟩ ∧
      d.resolveRules m ⟨entries', fragment, ignored⟩ =
        .ok ⟨d.path, entries'.map value, inferred, fragment⟩ := by
  cases entries with
  | nil =>
      rw [List.nil_perm.mp h]
      exact .inr ⟨d.shapeType.getD "string", fun e => ⟨e.name, e.parameters, none, false, false⟩,
        List.forall_mem_nil _, rfl, rfl⟩
  | cons first rest =>
      have hsome : (first :: rest).isEmpty = false := rfl
      have hsome' : entries'.isEmpty = false := h.isEmpty_eq.symm.trans hsome
      unfold resolveRules
      rw [check_perm m d.path h.symm, Inference.inferType_perm h hone]
      simp only [hsome, hsome', Bool.false_eq_true, if_false]
      obtain ⟨value, hvalue, hchecks, hchecks'⟩ | ⟨⟨fault, hfault⟩, fault', hfault'⟩ :=
        mapM_perm (f := check m d.path (first :: rest)) h
      · rw [hchecks, hchecks']
        refine .inr ⟨_, value, fun e he => ?_, rfl, rfl⟩
        rw [eq_of_check (hvalue e he)]
        exact ⟨rfl, rfl⟩
      · rw [hfault, hfault']
        exact .inl ⟨⟨fault, rfl⟩, fault', rfl⟩

end Declared

end Orders

namespace MessageSession

/-- Sets the context of an entry of a field and gives its message. -/
def askOf (field : String) (entries : List RuleEntry) (entry : RuleEntry) : Asking String := do
  setContextOf (some field) (some entry.name) (entry.parameters.map Parameter.display)
    (Inference.isNumeric entries) (entries.map .read)
  message

/-- The check of an entry among the entries of a field, with its message asked in a session. -/
def check (field : String) (entries : List RuleEntry) (entry : RuleEntry) : Asking Check := do
  let hasMessage := !Family.presence.contains entry.name || Family.required.contains entry.name
  let message ← if hasMessage then some <$> askOf field entries entry else pure none
  return ⟨entry.name, entry.parameters, message, Family.required.contains entry.name,
    entry.name == "nullable"⟩

/-- The resolved form of a field, with its messages asked in a session one after the other. -/
def resolve (d : Declared) : Asking Resolved :=
  match NormalizedRules.normalize d.rules with
  | .error fault => throw fault
  | .ok n => do
    if n.entries.isEmpty then return ⟨d.path, [], d.shapeType.getD "string", n.fragment⟩
    let checks ← n.entries.mapM (check d.path n.entries)
    let inferred := Inference.inferType n.entries (if d.isItem then none else some d.path)
    return ⟨d.path, checks, d.shapeType.getD inferred, n.fragment⟩

/-- In a session with the messages, whatever its context, a step has this result and keeps the
messages. -/
def Answers {α : Type} (m : Messages) (x : Asking α) (result : Except Fault α) : Prop :=
  ∀ context, ∃ left, x.run.run ⟨m, context⟩ = (result, ⟨m, left⟩)

section Steps

variable {m : Messages} {α β : Type}

theorem Answers.pure (a : α) : Answers m (pure a) (pure a) := fun context => ⟨context, rfl⟩

theorem Answers.throw (fault : Fault) : Answers m (throw fault : Asking α) (.error fault) :=
  fun context => ⟨context, rfl⟩

theorem Answers.bind {x : Asking α} {f : α → Asking β} {result : Except Fault α}
    {g : α → Except Fault β} (hx : Answers m x result) (hf : ∀ a, Answers m (f a) (g a)) :
    Answers m (x >>= f) (result >>= g) := by
  intro context
  obtain ⟨left, hx⟩ := hx context
  rw [ExceptT.run_bind, StateT.run_bind, hx]
  cases result with
  | error fault => exact ⟨left, rfl⟩
  | ok a => exact hf a left

theorem Answers.mapM {f : α → Asking β} {g : α → Except Fault β}
    (h : ∀ a, Answers m (f a) (g a)) (l : List α) : Answers m (l.mapM f) (l.mapM g) := by
  induction l with
  | nil => exact .pure []
  | cons a rest ih =>
      rw [List.mapM_cons, List.mapM_cons]
      exact (h a).bind fun b => ih.bind fun results => .pure (b :: results)

theorem spelled_eq_canonical (name : String) : spelled name = RuleName.canonical name := by
  rw [spelled]
  split
  · rename_i hempty
    rw [Text.isEmpty, List.isEmpty_iff, String.toList_eq_nil_iff] at hempty
    rw [hempty]
    decide
  · rfl

theorem name_of_read (entries : List RuleEntry) :
    (entries.map GivenRule.read).mapM GivenRule.name = .ok (entries.map RuleEntry.name) := by
  induction entries with
  | nil => rfl
  | cons entry rest ih =>
      rw [List.map_cons, List.mapM_cons, ih]
      rfl

/-- Setting a context overwrites all of what was set before. -/
theorem answers_askOf (field : String) (entries : List RuleEntry) (entry : RuleEntry) :
    Answers m (askOf field entries entry)
      (m.resolveIn (Messages.contextOf field entries entry)) := by
  intro context
  have hset : (setContextOf (some field) (some entry.name)
      (entry.parameters.map Parameter.display) (Inference.isNumeric entries)
      (entries.map .read)).run.run ⟨m, context⟩ =
        (.ok (), ⟨m, Messages.contextOf field entries entry⟩) := by
    refine (run_setContextOf _).trans ?_
    rw [name_of_read]
    simp only [entered, Option.map_some, spelled_eq_canonical]
    rfl
  refine ⟨Messages.contextOf field entries entry, ?_⟩
  rw [askOf, ExceptT.run_bind, StateT.run_bind, hset]
  exact run_message _

theorem answers_check (field : String) (entries : List RuleEntry) (entry : RuleEntry) :
    Answers m (check field entries entry) (Declared.check m field entries entry) := by
  unfold check Declared.check
  dsimp only
  split
  · exact Answers.bind
      (Answers.bind (answers_askOf field entries entry) fun text => .pure (some text))
      fun _ => .pure _
  · exact .pure _

/-- A session resolves a field as the messages do, whatever was set in it before. -/
theorem answers_resolve (d : Declared) : Answers m (resolve d) (d.resolve m) := by
  unfold resolve Declared.resolve
  cases NormalizedRules.normalize d.rules with
  | error fault => exact .throw fault
  | ok n =>
      change Answers m _ (d.resolveRules m n)
      unfold Declared.resolveRules
      dsimp only
      by_cases hempty : n.entries.isEmpty = true
      · rw [if_pos hempty, if_pos hempty]
        exact .pure _
      · rw [if_neg hempty, if_neg hempty]
        exact Answers.bind (.mapM (answers_check d.path n.entries) n.entries) fun _ => .pure _

end Steps

/-- A field whose rules are a list of texts. -/
def listed (field : String) (isItem : Bool) (rules : List String) : Declared :=
  ⟨field, .list (rules.map .text), isItem, none⟩

/-- Whether a text is a rule with the allowed values of a field. -/
def isChoice (rule : String) : Bool := (RuleEntry.parse rule).toOption.any (·.name == "in")

section Listed

variable {rules rules' : List String}

theorem countP_choice {entry : String → RuleEntry}
    (h : ∀ rule ∈ rules, RuleEntry.parse rule = .ok (entry rule)) :
    (rules.map entry).countP (·.name == "in") = rules.countP isChoice := by
  rw [List.countP_map]
  refine List.countP_congr fun rule hrule => ?_
  rw [isChoice, h rule hrule]
  rfl

/-- A list of texts is read text by text, and then its entries are resolved. -/
theorem resolve_listed (m : Messages) (field : String) (isItem : Bool) (rules : List String) :
    (listed field isItem rules).resolve m =
      (rules.filter Segment.isRule).mapM RuleEntry.parse >>= fun entries =>
        (listed field isItem []).resolveRules m ⟨entries, none, 0⟩ := by
  have hnormal := NormalizedRules.normalize_texts rules
  rw [Declared.resolve, listed, hnormal]
  cases (rules.filter Segment.isRule).mapM RuleEntry.parse <;> rfl

/-- A session resolves a field as the messages do, whatever was set in it before. Two orders of the
same rules, with at most one choice among them, give the same type and, in these orders, the same
check for each rule that is not blank; or both give no result. -/
theorem resolve_any_order (m : Messages) (field : String) (isItem : Bool)
    (h : rules.Perm rules') (hone : rules.countP isChoice ≤ 1) :
    (∀ d, Answers m (resolve d) (d.resolve m)) ∧
    (((∃ fault, (listed field isItem rules).resolve m = .error fault) ∧
      ∃ fault, (listed field isItem rules').resolve m = .error fault) ∨
    ∃ (inferred : String) (value : String → Check),
      (∀ rule ∈ rules.filter Segment.isRule,
        RuleEntry.parse rule = .ok ⟨(value rule).rule, (value rule).parameters⟩) ∧
      (listed field isItem rules).resolve m =
        .ok ⟨field, (rules.filter Segment.isRule).map value, inferred, none⟩ ∧
      (listed field isItem rules').resolve m =
        .ok ⟨field, (rules'.filter Segment.isRule).map value, inferred, none⟩) := by
  refine ⟨answers_resolve, ?_⟩
  have hkept := h.filter Segment.isRule
  rw [resolve_listed, resolve_listed]
  obtain ⟨entry, hentry, hparse, hparse'⟩ | ⟨⟨fault, hfault⟩, fault', hfault'⟩ :=
    mapM_perm hkept (f := RuleEntry.parse)
  · have hchoice : ((rules.filter Segment.isRule).map entry).countP (·.name == "in") ≤ 1 := by
      rw [countP_choice hentry]
      exact List.filter_sublist.countP_le.trans hone
    rw [hparse, hparse']
    obtain hfails | ⟨inferred, value, hvalue, hok, hok'⟩ :=
      Declared.resolveRules_perm m (listed field isItem []) (hkept.map entry) hchoice none 0
    · exact .inl hfails
    · rw [List.map_map] at hok hok'
      refine .inr ⟨inferred, value ∘ entry, fun rule hrule => ?_, hok, hok'⟩
      obtain ⟨hname, hparameters⟩ := hvalue (entry rule) (List.mem_map_of_mem hrule)
      rw [Function.comp_apply, hname, hparameters]
      exact hentry rule hrule
  · rw [hfault, hfault']
    exact .inl ⟨⟨fault, rfl⟩, fault', rfl⟩

/-- The rules of a number between blanks. -/
def ageRules : List String := ["min:3", "", "integer", "in:3,4", " "]

/-- The least size comes first or last and speaks about a number. -/
theorem ageRules_any_order :
    ageRules.Perm ageRules.reverse ∧ ageRules.countP isChoice ≤ 1 ∧
    ∃ value : String → Check,
      (value "min:3").message = some "The age must be at least 3." ∧
      (listed "age" false ageRules).resolve sizedMessages =
        .ok ⟨"age", ["min:3", "integer", "in:3,4"].map value, "number", none⟩ ∧
      (listed "age" false ageRules.reverse).resolve sizedMessages =
        .ok ⟨"age", ["in:3,4", "integer", "min:3"].map value, "number", none⟩ := by
  have hperm : ageRules.Perm ageRules.reverse := ageRules.reverse_perm.symm
  have hone : ageRules.countP isChoice ≤ 1 := by decide +kernel
  have hkept : ageRules.filter Segment.isRule = ["min:3", "integer", "in:3,4"] := by
    decide +kernel
  have hshown : ((listed "age" false ageRules).resolve sizedMessages).toOption.map
      (fun r => (r.inferredType, (r.checks.map Check.message).head?)) =
        some ("number", some (some "The age must be at least 3.")) := by
    decide +kernel
  obtain ⟨⟨fault, hfault⟩, -⟩ | ⟨inferred, value, -, hok, hok'⟩ :=
    (resolve_any_order sizedMessages "age" false hperm hone).2
  · rw [hfault] at hshown
    cases hshown
  · rw [hok, hkept] at hshown
    rw [List.filter_reverse, hkept] at hok'
    rw [hkept] at hok
    obtain ⟨rfl, hmessage⟩ := Prod.mk.inj (Option.some.inj hshown)
    exact ⟨hperm, hone, value, Option.some.inj hmessage, hok, hok'⟩

end Listed

end MessageSession

end RuleSchema
