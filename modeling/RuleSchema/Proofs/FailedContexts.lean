import RuleSchema.Message.Session
import RuleSchema.Proofs.MessageLookup

/-!
# Contexts that could not be set

Setting a context fails on the first rule of the field that cannot be read. By then the field, the
rule, the parameters and the numeric flag are written, and the names of the earlier rules are still
there. So a failed call leaves the session as it was exactly when it names the context that is
already set; otherwise the next message speaks about the new field in the light of the old rules.
-/

namespace RuleSchema

section Faults

variable {α β : Type} {f : α → Except Fault β} {a : α} {l : List α} {fault : Fault}

theorem mapM_cons_eq_error_iff :
    (a :: l).mapM f = .error fault ↔
      f a = .error fault ∨ Succeeds (f a) ∧ l.mapM f = .error fault := by
  rw [List.mapM_cons]
  cases hfirst : f a with
  | error first =>
      have hnone : ¬ (Succeeds (Except.error first : Except Fault β) ∧
          l.mapM f = .error fault) := by
        rintro ⟨⟨result, h⟩, -⟩
        cases h
      rw [or_iff_left hnone]
      exact ⟨fun h => congrArg _ (Except.error.inj h), fun h => congrArg _ (Except.error.inj h)⟩
  | ok result =>
      rw [or_iff_right (fun h => by cases h), and_iff_right ⟨result, rfl⟩]
      cases l.mapM f with
      | error other => exact Iff.rfl
      | ok results =>
          constructor
          · intro h
            cases h
          · intro h
            cases h

/-- Evaluating a list in order fails with the fault of the first element that fails. -/
theorem mapM_eq_error_iff :
    l.mapM f = .error fault ↔
      ∃ before a rest, l = before ++ a :: rest ∧ (∀ b ∈ before, Succeeds (f b)) ∧
        f a = .error fault := by
  induction l with
  | nil =>
      constructor
      · intro h
        cases h
      · rintro ⟨before, a, rest, h, -⟩
        exact absurd h.symm (List.append_ne_nil_of_right_ne_nil _ (List.cons_ne_nil _ _))
  | cons a l ih =>
      rw [mapM_cons_eq_error_iff, ih]
      constructor
      · rintro (hfirst | ⟨hfirst, before, b, rest, rfl, hbefore, hb⟩)
        · exact ⟨[], a, l, rfl, List.forall_mem_nil _, hfirst⟩
        · exact ⟨a :: before, b, rest, rfl, List.forall_mem_cons.mpr ⟨hfirst, hbefore⟩, hb⟩
      · rintro ⟨before, b, rest, h, hbefore, hb⟩
        cases before with
        | nil =>
            obtain ⟨rfl, rfl⟩ := List.cons.inj h
            exact .inl hb
        | cons c before =>
            obtain ⟨rfl, rfl⟩ := List.cons.inj h
            obtain ⟨hfirst, hbefore⟩ := List.forall_mem_cons.mp hbefore
            exact .inr ⟨hfirst, before, b, rest, rfl, hbefore, hb⟩

end Faults

namespace MessageSession

variable {field rule : Option String} {parameters : List String} {isNumeric : Bool}
  {rules : List GivenRule} {s s' : MessageSession} {fault : Fault}

/-- A context with everything but the names of the rules written anew. -/
def entered (context : MessageContext) (field rule : Option String) (parameters : List String)
    (isNumeric : Bool) : MessageContext :=
  { context with field := field, rule := rule.map spelled, parameters := parameters
                 isNumeric := isNumeric }

theorem entered_eq_self_iff (context : MessageContext) :
    entered context field rule parameters isNumeric = context ↔
      context.field = field ∧ context.rule = rule.map spelled ∧
        context.parameters = parameters ∧ context.isNumeric = isNumeric := by
  obtain ⟨oldField, oldRule, oldParameters, oldNumeric, ruleNames⟩ := context
  simp only [entered, MessageContext.mk.injEq, and_true]
  constructor
  · rintro ⟨rfl, rfl, rfl, rfl⟩
    exact ⟨rfl, rfl, rfl, rfl⟩
  · rintro ⟨rfl, rfl, rfl, rfl⟩
    exact ⟨rfl, rfl, rfl, rfl⟩

/-- A call writes the context first and the names of the rules last, if all of them can be read. -/
theorem run_setContextOf (s : MessageSession) :
    (setContextOf field rule parameters isNumeric rules).run s =
      match rules.mapM GivenRule.name with
      | .ok names =>
        (.ok (), { s with context :=
          { entered s.context field rule parameters isNumeric with ruleNames := names } })
      | .error fault =>
        (.error fault,
          { s with context := entered s.context field rule parameters isNumeric }) := by
  unfold setContextOf
  cases rules.mapM GivenRule.name with
  | ok names => rfl
  | error fault => rfl

theorem run_message (s : MessageSession) :
    message.run s = (s.messages.resolveIn s.context, s) := by
  have hget (f : MessageSession → Asking String) : (get >>= f).run s = (f s).run s := rfl
  rw [message, hget]
  cases s.messages.resolveIn s.context with
  | ok text => rfl
  | error fault => rfl

/-- A call fails exactly when a rule cannot be read, with the fault of the first such rule. -/
theorem setContextOf_fails_iff :
    ((setContextOf field rule parameters isNumeric rules).run s).1 = .error fault ↔
      ∃ before r rest, rules = before ++ r :: rest ∧ (∀ q ∈ before, Succeeds q.name) ∧
        r.name = .error fault := by
  rw [← mapM_eq_error_iff, run_setContextOf]
  cases rules.mapM GivenRule.name with
  | ok names =>
      constructor
      · intro h
        cases h
      · intro h
        cases h
  | error other =>
      exact ⟨fun h => congrArg _ (Except.error.inj h), fun h => congrArg _ (Except.error.inj h)⟩

/-- What a failed call leaves behind: the new context with the names of the earlier rules. -/
theorem eq_entered_of_fails
    (h : (setContextOf field rule parameters isNumeric rules).run s = (.error fault, s')) :
    s' = { s with context := entered s.context field rule parameters isNumeric } := by
  rw [run_setContextOf] at h
  cases hnames : rules.mapM GivenRule.name with
  | ok names =>
      rw [hnames] at h
      cases h
  | error other =>
      rw [hnames] at h
      exact (Prod.mk.inj h).2.symm

/-- A call fails exactly when some rule cannot be read, and then with the fault of the first such
rule. A failed call leaves the session as it was exactly when it names the field, the rule, the
parameters and the flag that are already set. The messages and the names of the earlier rules
always stay, so the next message is that of the new context with those names. -/
theorem failed_context_unchanged_iff
    (h : (setContextOf field rule parameters isNumeric rules).run s = (.error fault, s')) :
    (∃ before r rest, rules = before ++ r :: rest ∧ (∀ q ∈ before, Succeeds q.name) ∧
      r.name = .error fault) ∧
    (s' = s ↔ s.context.field = field ∧ s.context.rule = rule.map spelled ∧
      s.context.parameters = parameters ∧ s.context.isNumeric = isNumeric) ∧
    s'.messages = s.messages ∧ s'.context.ruleNames = s.context.ruleNames ∧
    message.run s' = (s.messages.resolveIn
      ⟨field, rule.map spelled, parameters, isNumeric, s.context.ruleNames⟩, s') := by
  have hleft := eq_entered_of_fails h
  have hsame : s' = s ↔
      entered s.context field rule parameters isNumeric = s.context := by
    rw [hleft]
    obtain ⟨messages, context⟩ := s
    exact ⟨fun heq => congrArg MessageSession.context heq,
      fun heq => congrArg (MessageSession.mk messages) heq⟩
  refine ⟨setContextOf_fails_iff.mp (congrArg Prod.fst h), hsame.trans (entered_eq_self_iff _),
    ?_, ?_, ?_⟩
  · rw [hleft]
  · rw [hleft]
    rfl
  · rw [run_message, hleft]
    rfl

/-- Messages with a template for the least size of a number and of a text. -/
def sizedMessages : Messages :=
  ⟨some (.ofMap [(.text "min", .map
    [(.text "numeric", .text "The :attribute must be at least :min."),
      (.text "string", .text "The :attribute must have at least :min characters.")])]), [], []⟩

/-- A session whose context is the least size of a number. -/
def agedSession : MessageSession :=
  ⟨sizedMessages, ⟨some "age", some "min", ["18"], false, ["integer", "min"]⟩⟩

/-- A failed call that repeats the context leaves the session as it was, and so the message. -/
theorem failed_context_repeated :
    (setContextOf (some "age") (some "MIN") ["18"] false [.written ""]).run agedSession =
      (.error (.invalidRecord "RuleEntry"), agedSession) ∧
    agedSession.context.rule = (some "MIN").map spelled ∧
    message.run agedSession = (sizedMessages.resolveIn
      ⟨some "age", (some "MIN").map spelled, ["18"], false, ["integer", "min"]⟩, agedSession) := by
  have hfails : (setContextOf (some "age") (some "MIN") ["18"] false [.written ""]).run
      agedSession = (.error (.invalidRecord "RuleEntry"), agedSession) := rfl
  obtain ⟨-, hsame, -, -, hmessage⟩ := failed_context_unchanged_iff hfails
  exact ⟨hfails, (hsame.mp rfl).2.1, hmessage⟩

/-- The second rule of a text cannot be read. The next message speaks about the new field, and as
about a number. -/
theorem failed_context_mixed :
    (setContextOf (some "age") (some "min") ["18"] false
      [.written "integer", .written "min:18"]).run (start sizedMessages) =
        (.ok (), agedSession) ∧
    (message.run agedSession).1.toOption = some "The age must be at least 18." ∧
    ((setContextOf (some "name") (some "min") ["3"] false
      [.written "string", .written ""]).run agedSession).1 =
        .error (.invalidRecord "RuleEntry") ∧
    (message.run ((setContextOf (some "name") (some "min") ["3"] false
      [.written "string", .written ""]).run agedSession).2).1.toOption =
        some "The name must be at least 3." := by
  refine ⟨rfl, by decide +kernel, rfl, by decide +kernel⟩

end MessageSession

end RuleSchema
