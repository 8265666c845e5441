import RuleSchema.Proofs.ChainEdits
import RuleSchema.Proofs.StringLiterals

/-!
# Messages in the code of rules

Wherever a rule writes its message into a call, the message stands there as one complete literal.
The code around it does not depend on the message: for given arguments a rule has finitely many
slots, and each call that it puts into a chain is one of them with the message filled in. A message
that a rule keeps for the base expression is kept escaped.

## Implementation notes

The slots of a rule are chosen before the message. A call without a message is a slot that shows
none, and since there are only finitely many slots no message can come into the code except as the
literal of its slot. A rule may fail part-way, and the calls before the failure are slots as well.
-/

namespace RuleSchema

open Chain Script

/-- Which text a slot shows for a message. -/
inductive Spot where
  | never
  /-- The message, if there is one. -/
  | given
  /-- The message, if it is there and not empty. -/
  | filled
  /-- The message, or a default for a missing or empty one. -/
  | always (fallback : String)
deriving DecidableEq, Repr

/-- The text that is shown for a message. -/
def Spot.shown? : Spot → Option String → Option String
  | never, _ => none
  | given, message => message
  | filled, message => Text.nonEmpty? message
  | always fallback, message => some (messageOr message fallback)

/-- Code around the literal of a message, and the code where no message is shown. -/
structure Slot where
  spot : Spot
  lead : String
  trail : String
  otherwise : String
deriving DecidableEq, Repr

namespace Slot

/-- The code of a slot for a message. -/
def text (s : Slot) (message : Option String) : String :=
  match s.spot.shown? message with
  | some t => s.lead ++ literal t ++ s.trail
  | none => s.otherwise

/-- The code of a row of slots for a message. -/
def row (slots : List Slot) (message : Option String) : String :=
  String.join (slots.map (·.text message))

/-- Code without a message. -/
def code (text : String) : Slot := ⟨.never, "", "", text⟩

/-- A message as the last argument of a call. -/
def argument (lead trail : String) : Slot := ⟨.given, lead ++ ", ", trail, lead ++ trail⟩

/-- A message as the only argument of a call. -/
def only (lead trail : String) : Slot := ⟨.given, lead, trail, lead ++ trail⟩

/-- A message that is never left out. -/
def told (fallback lead trail : String) : Slot := ⟨.always fallback, lead, trail, ""⟩

/-- A message as the option of a check. -/
def check (fallback condition trail : String) : Slot :=
  told fallback (".refine((val) => " ++ condition ++ ", " ++ "\x7b message: ")
    (" \x7d" ++ ")" ++ trail)

section Texts

variable {s : Slot} {message : Option String} {t : String}

theorem text_of_shown? (h : s.spot.shown? message = some t) :
    s.text message = s.lead ++ literal t ++ s.trail := by
  rw [text, h]

theorem text_of_not_shown (h : s.spot.shown? message = none) : s.text message = s.otherwise := by
  rw [text, h]

/-- Behind its lead a slot is one complete literal that denotes the text, and its trail. -/
theorem read?_text (h : s.spot.shown? message = some t) :
    StringLiteral.read? ((s.text message).toList.drop s.lead.length) =
      some (units t.toList, s.trail.toList) := by
  have hdrop : (s.text message).toList.drop s.lead.length =
      (literal t).toList ++ s.trail.toList := by
    rw [text_of_shown? h, String.toList_append, String.toList_append, List.append_assoc,
      ← String.length_toList, List.drop_left]
  rw [hdrop, read?_literal]

theorem row_nil (message : Option String) : row [] message = "" := rfl

theorem row_cons (slot : Slot) (slots : List Slot) (message : Option String) :
    row (slot :: slots) message = slot.text message ++ row slots message := by
  rw [row, List.map_cons, String.join_cons, row]

theorem row_append (slots more : List Slot) (message : Option String) :
    row (slots ++ more) message = row slots message ++ row more message := by
  rw [row, List.map_append, String.join_append, row, row]

theorem row_singleton (slot : Slot) (message : Option String) :
    row [slot] message = slot.text message := by
  rw [row_cons, row_nil, String.append_empty]

theorem text_code (code : String) (message : Option String) :
    (Slot.code code).text message = code := rfl

theorem text_argument (lead trail : String) (message : Option String) :
    (argument lead trail).text message = lead ++ messageArgument message ++ trail := by
  cases message with
  | none => rw [messageArgument, String.append_empty]; rfl
  | some m =>
      rw [messageArgument_some, text_of_shown? rfl, argument]
      simp only [String.append_assoc]

theorem text_told (fallback lead trail : String) (message : Option String) :
    (told fallback lead trail).text message =
      lead ++ ("'" ++ escapedOr message fallback ++ "'") ++ trail := rfl

/-- A quoted text between braces. -/
theorem braces_quoted {quote before lead trail after : String}
    (hlead : "\x7b" ++ before = lead ++ quote) (htrail : after ++ "\x7d" = quote ++ trail)
    (escaped : String) :
    TextRule.braces (before ++ escaped ++ after) =
      lead ++ (quote ++ escaped ++ quote) ++ trail := by
  unfold TextRule.braces
  rw [← String.append_assoc, ← String.append_assoc, hlead, String.append_assoc, htrail]
  simp only [String.append_assoc]

theorem messageOption_eq (escaped : String) :
    TextRule.messageOption escaped = "\x7b message: " ++ ("'" ++ escaped ++ "'") ++ " \x7d" :=
  braces_quoted (by decide) (by decide) escaped

theorem text_check (fallback condition trail : String) (message : Option String) :
    (check fallback condition trail).text message =
      TextRule.refine condition (escapedOr message fallback) ++ trail := by
  unfold check TextRule.refine
  rw [messageOption_eq, text_told]
  simp only [String.append_assoc]

theorem text_check_nil (fallback condition : String) (message : Option String) :
    (check fallback condition "").text message =
      TextRule.refine condition (escapedOr message fallback) := by
  rw [text_check, String.append_empty]

/-- A message in a call that goes on behind it. -/
theorem text_argument_append (lead trail more : String) (message : Option String) :
    (argument lead (trail ++ more)).text message =
      lead ++ messageArgument message ++ trail ++ more := by
  rw [text_argument, String.append_assoc, String.append_assoc, String.append_assoc]

end Texts

end Slot

/-- The escaped message that belongs to a base itself. -/
def Base.ownMessage? : Base → Option String
  | .url _ message _ => message
  | .email message => message
  | .number message => message
  | _ => none

/-- The escaped messages that a builder keeps for its base expression. -/
def Builder.messages (b : Builder) : List String :=
  b.requiredMessage.toList ++ b.base.ownMessage?.toList

/-- A builder has come from another by calls that are slots of some messages, by a format that is
made of slots, and by keeping messages escaped. -/
structure Speaks (slots : List Slot) (spots : List Spot) (messages : List (Option String))
    (before after : Builder) : Prop where
  calls : ∀ call ∈ after.chain, call ∈ before.chain ∨
    ∃ s ∈ slots, ∃ message ∈ messages, call = s.text message
  kept : ∀ m ∈ after.messages, m ∈ before.messages ∨
    ∃ spot ∈ spots, ∃ message ∈ messages, ∃ t, spot.shown? message = some t ∧ m = escape t
  format : ∀ f ∈ TextRule.override? after, f ∈ TextRule.override? before ∨
    ∃ pieces ⊆ slots, ∃ message ∈ messages, f = Slot.row pieces message

/-- A change that puts a message into slots only. -/
def Tells {α : Type} (slots : List Slot) (spots : List Spot)
    (x : Option String → Building α) : Prop :=
  ∀ message b, Speaks slots spots [message] b (after (x message) b)

/-- A change whose slots do not depend on the message. -/
def Told {α : Type} (x : Option String → Building α) : Prop := ∃ slots spots, Tells slots spots x

section Changes

variable {α β : Type} {slots more : List Slot} {spots others : List Spot}
  {messages further : List (Option String)} {message : Option String} {b : Builder}

theorem Speaks.refl (b : Builder) : Speaks slots spots messages b b :=
  ⟨fun _ => .inl, fun _ => .inl, fun _ => .inl⟩

theorem Speaks.trans {c d : Builder} (h : Speaks slots spots messages b c)
    (h' : Speaks slots spots messages c d) : Speaks slots spots messages b d :=
  ⟨fun call hc => (h'.calls call hc).elim (h.calls call) .inr,
    fun m hm => (h'.kept m hm).elim (h.kept m) .inr,
    fun f hf => (h'.format f hf).elim (h.format f) .inr⟩

theorem Speaks.mono {c : Builder} (h : Speaks slots spots messages b c) (hslots : slots ⊆ more)
    (hspots : spots ⊆ others) (hmessages : messages ⊆ further) :
    Speaks more others further b c :=
  ⟨fun call hc => (h.calls call hc).imp_right fun ⟨s, hs, message, hm, heq⟩ =>
      ⟨s, hslots hs, message, hmessages hm, heq⟩,
    fun m hm => (h.kept m hm).imp_right fun ⟨spot, hspot, message, hmessage, ht⟩ =>
      ⟨spot, hspots hspot, message, hmessages hmessage, ht⟩,
    fun f hf => (h.format f hf).imp_right fun ⟨pieces, hp, message, hm, heq⟩ =>
      ⟨pieces, List.Subset.trans hp hslots, message, hmessages hm, heq⟩⟩

/-- The message of the required rule is kept escaped. -/
theorem speaks_required {spot : Spot} {t : String} (hspot : spot ∈ spots)
    (ht : spot.shown? message = some t) :
    Speaks slots spots [message] b { b with requiredMessage := some (escape t) } := by
  refine ⟨fun _ => .inl, fun m hm => ?_, fun _ => .inl⟩
  rcases List.mem_append.mp hm with hnew | hold
  · exact .inr ⟨spot, hspot, message, List.mem_singleton_self _, t, ht, List.mem_singleton.mp hnew⟩
  · exact .inl (List.mem_append_right _ hold)

/-- A base may change with its own message as it was or escaped. -/
theorem speaks_base {base : Base}
    (hformat : TextRule.override? { b with base := base } = TextRule.override? b)
    (h : base.ownMessage? = b.base.ownMessage? ∨
      ∃ spot ∈ spots, ∃ t, spot.shown? message = some t ∧ base.ownMessage? = some (escape t)) :
    Speaks slots spots [message] b { b with base := base } := by
  refine ⟨fun _ => .inl, fun m hm => ?_, fun f hf => .inl (hformat ▸ hf)⟩
  rcases List.mem_append.mp hm with hrequired | hown
  · exact .inl (List.mem_append_left _ hrequired)
  · change m ∈ base.ownMessage?.toList at hown
    rcases h with hsame | ⟨spot, hspot, t, ht, hnew⟩
    · rw [hsame] at hown
      exact .inl (List.mem_append_right _ hown)
    · rw [hnew] at hown
      exact .inr ⟨spot, hspot, message, List.mem_singleton_self _, t, ht,
        List.mem_singleton.mp hown⟩

/-- A format in place of the base expression. -/
theorem speaks_format {f : String} {pieces : List Slot} (hpieces : pieces ⊆ slots)
    (hf : f = Slot.row pieces message) :
    Speaks slots spots [message] b (TextRule.setOverride f b) := by
  have hchain : (TextRule.setOverride f b).chain = b.chain := by
    unfold TextRule.setOverride
    split <;> rfl
  have hmessages : (TextRule.setOverride f b).messages = b.messages := by
    unfold TextRule.setOverride
    split <;> simp only [Builder.messages, Base.ownMessage?, *]
  have hformat : ∀ g ∈ TextRule.override? (TextRule.setOverride f b), g = f ∨
      g ∈ TextRule.override? b := by
    unfold TextRule.setOverride
    split
    · exact fun g hg => .inl (Option.some.inj hg).symm
    · exact fun g hg => .inl (Option.some.inj hg).symm
    · exact fun g hg => .inl (Option.some.inj hg).symm
    · exact fun _ => .inr
  refine ⟨fun call hc => .inl (hchain ▸ hc), fun m hm => .inl (hmessages ▸ hm), fun g hg => ?_⟩
  rcases hformat g hg with rfl | hold
  · exact .inr ⟨pieces, hpieces, message, List.mem_singleton_self _, hf⟩
  · exact .inl hold

theorem tells_pure (a : Option String → α) : Tells slots spots fun message => pure (a message) :=
  fun _ b => .refl b

theorem tells_throw (fault : Fault) :
    Tells slots spots fun _ => (throw fault : Building α) := fun _ b => .refl b

/-- What happens after a change has failed or given a value. -/
theorem after_bind (x : Building α) (f : α → Building β) (b : Builder) :
    after (x >>= f) b = after x b ∨ ∃ a, after (x >>= f) b = after (f a) (after x b) := by
  unfold after
  rw [ExceptT.run_bind, StateT.run_bind]
  cases hrun : x.run.run b with
  | mk result next =>
      cases result with
      | error fault => exact .inl rfl
      | ok a => exact .inr ⟨a, rfl⟩

theorem Tells.bind {x : Option String → Building α} {f : Option String → α → Building β}
    (hx : Tells slots spots x) (hf : ∀ a, Tells slots spots fun message => f message a) :
    Tells slots spots fun message => x message >>= f message := by
  intro message b
  rcases after_bind (x message) (f message) b with heq | ⟨a, heq⟩
  · rw [heq]
    exact hx message b
  · rw [heq]
    exact (hx message b).trans (hf a message _)

theorem after_modify_bind (f : Builder → Builder) (x : Building β) (b : Builder) :
    after (modify f >>= fun _ => x) b = after x (f b) := rfl

theorem tells_modify {f : Option String → Builder → Builder}
    (h : ∀ message b, Speaks slots spots [message] b (f message b)) :
    Tells slots spots fun message => modify (f message) := h

/-- A call of a slot at the end of the chain, where other calls may be taken out. -/
theorem tells_add {s : Slot} (hs : s ∈ slots) {call : Option String → String}
    (hcall : ∀ message, call message = s.text message) :
    Tells slots spots fun message => Building.add (call message) := by
  intro message b
  refine ⟨fun c hc => ?_, fun _ => .inl, fun _ => .inl⟩
  rcases List.mem_append.mp hc with hold | hnew
  · exact .inl hold
  · exact .inr ⟨s, hs, message, List.mem_singleton_self _,
      (List.mem_singleton.mp hnew).trans (hcall message)⟩

theorem tells_remove (needle : String) :
    Tells slots spots fun _ => modify (·.removeContaining needle) :=
  tells_modify fun _ _ =>
    ⟨fun _ hc => .inl (List.mem_of_mem_filter hc), fun _ => .inl, fun _ => .inl⟩

theorem tells_replace {s : Slot} (hs : s ∈ slots) (method : String)
    {call : Option String → String} (hcall : ∀ message, call message = s.text message) :
    Tells slots spots fun message => Building.replace method (call message) := by
  intro message b
  exact (tells_remove (method ++ "(") message b).trans (tells_add hs hcall message _)

theorem told_nothing (a : Option String → α) :
    Told fun message => (pure (a message) : Building α) :=
  ⟨[], [], tells_pure a⟩

theorem told_throw (fault : Fault) : Told fun _ => (throw fault : Building α) :=
  ⟨[], [], tells_throw fault⟩

theorem told_add (s : Slot) {call : Option String → String}
    (hcall : ∀ message, call message = s.text message) :
    Told fun message => Building.add (call message) :=
  ⟨[s], [], tells_add (List.mem_singleton_self s) hcall⟩

theorem told_remove_add (needle : String) (s : Slot) {call : Option String → String}
    (hcall : ∀ message, call message = s.text message) :
    Told fun message => (do modify (·.removeContaining needle); Building.add (call message)) :=
  ⟨[s], [], (tells_remove needle).bind fun _ => tells_add (List.mem_singleton_self s) hcall⟩

theorem told_replace (method : String) (s : Slot) {call : Option String → String}
    (hcall : ∀ message, call message = s.text message) :
    Told fun message => Building.replace method (call message) :=
  ⟨[s], [], tells_replace (List.mem_singleton_self s) method hcall⟩

theorem Told.seq {x : Option String → Building Unit} {y : Option String → Building β}
    (hx : Told x) (hy : Told y) : Told fun message => (do x message; y message) := by
  obtain ⟨slots, spots, hx⟩ := hx
  obtain ⟨more, others, hy⟩ := hy
  refine ⟨slots ++ more, spots ++ others, Tells.bind ?_ fun _ => ?_⟩
  · exact fun message b => (hx message b).mono (List.subset_append_left _ _)
      (List.subset_append_left _ _) (List.Subset.refl _)
  · exact fun message b => (hy message b).mono (List.subset_append_right _ _)
      (List.subset_append_right _ _) (List.Subset.refl _)

theorem Told.ite {p : Prop} [Decidable p] {x y : Option String → Building α}
    (hx : Told x) (hy : Told y) : Told fun message => if p then x message else y message := by
  by_cases h : p
  · simpa only [if_pos h] using hx
  · simpa only [if_neg h] using hy

/-- An action on a value that may be a fault, which does not depend on the message. -/
theorem Told.ofExcept (value : Except Fault α) {act : Option String → α → Building β}
    (h : ∀ a, Told fun message => act message a) :
    Told fun message => Building.ofExcept value >>= act message := by
  cases value with
  | error fault => exact told_throw fault
  | ok a => exact h a

/-- An action on the number of the first argument, if there is one. -/
theorem Told.withNumber (arguments : List Argument)
    {act : Option String → Number → Building Unit} (h : ∀ n, Told fun message => act message n) :
    Told fun message => (do
      match ← Building.firstNumber? arguments with
      | none => return
      | some n => act message n) := by
  cases arguments with
  | nil => exact told_nothing _
  | cons a rest =>
      refine Told.ofExcept a.number? fun n => ?_
      cases n with
      | none => exact told_nothing _
      | some n => exact h n

end Changes

section Calls

/-- A check given by an expression. -/
theorem told_refine (fallback condition : String) :
    Told fun message => Building.add (TextRule.refine condition (escapedOr message fallback)) :=
  told_add (.check fallback condition "") fun message => (Slot.text_check_nil _ _ message).symm

/-- A check given by statements. -/
theorem told_refineBlock (fallback statements : String) :
    Told fun message =>
      Building.add (TextRule.refineBlock statements (escapedOr message fallback)) :=
  told_refine fallback (TextRule.braces (statements ++ " "))

/-- A check given by statements, in place of an earlier one with the same mark. -/
theorem told_marked_refineBlock (needle fallback statements name : String) :
    Told fun message => (do
      modify (·.removeContaining needle)
      Building.add (TextRule.refineBlock statements (escapedOr message fallback) ++
        TextRule.mark name)) :=
  told_remove_add needle
    (.check fallback (TextRule.braces (statements ++ " ")) (TextRule.mark name))
    fun message => (Slot.text_check _ _ _ message).symm

/-- A check by a pattern, in place of an earlier one. -/
theorem told_remove_matching (needle pattern more : String) :
    Told fun message => (do
      modify (·.removeContaining needle)
      Building.add (TextRule.matching pattern message ++ more)) :=
  told_remove_add needle (.argument (".regex(" ++ pattern) (")" ++ more)) fun message =>
    (Slot.text_argument_append _ _ _ message).symm

/-- A call with a message as its last argument, in place of earlier ones. -/
theorem tells_replace_argument {slots : List Slot} {spots : List Spot} {lead : String}
    (hslot : .argument lead ")" ∈ slots) (method : String) :
    Tells slots spots fun message =>
      Building.replace method (lead ++ Script.messageArgument message ++ ")") :=
  tells_replace hslot method fun message => (Slot.text_argument _ _ message).symm

theorem told_replace_argument (method lead : String) :
    Told fun message =>
      Building.replace method (lead ++ Script.messageArgument message ++ ")") :=
  ⟨[_], [], tells_replace_argument (List.mem_singleton_self _) method⟩

/-- A call with a message as its only argument. -/
theorem text_only (lead bare call : String) (hbare : bare = lead ++ ")")
    (hcall : call = lead ++ "'") (message : Option String) :
    (match message with
      | none => bare
      | some m => call ++ Script.escape m ++ "')") = (Slot.only lead ")").text message := by
  cases message with
  | none => exact hbare
  | some m =>
      have hclose : "')" = "'" ++ ")" := by decide
      rw [hcall, hclose, Slot.text_of_shown? rfl, Slot.only, literal]
      simp only [String.append_assoc]

theorem told_required (arguments : List Argument) : Told (Building.required arguments) := by
  refine ⟨[], [.filled], fun message b => ?_⟩
  unfold Building.required
  split
  · rename_i m hm
    exact speaks_required (List.mem_singleton_self _) hm
  · exact .refl b

end Calls

end RuleSchema
