import RuleSchema.Builder.Render
import RuleSchema.Proofs.MessageSlots

/-!
# Messages in base expressions

The message of the required rule and the message of a base itself are kept escaped. The base
expression has them in slots only, and the code around them does not depend on them.
-/

namespace RuleSchema

open Script

/-- Code that is a row of slots of a message. -/
def Written (code : Option String → String) : Prop :=
  ∃ slots, ∀ message, code message = Slot.row slots message

section Rows

variable {code more : Option String → String}

theorem written_of_const (h : ∀ message, code message = code none) : Written code :=
  ⟨[.code (code none)], fun message => by rw [Slot.row_singleton, Slot.text_code, h]⟩

theorem written_slot (s : Slot) (h : ∀ message, code message = s.text message) : Written code :=
  ⟨[s], fun message => (h message).trans (Slot.row_singleton _ message).symm⟩

theorem Written.append (h : Written code) (h' : Written more) :
    Written fun message => code message ++ more message := by
  obtain ⟨slots, heq⟩ := h
  obtain ⟨others, heq'⟩ := h'
  exact ⟨slots ++ others, fun message => by rw [Slot.row_append, ← heq, ← heq']⟩

/-- A slot whose message is kept escaped. -/
theorem written_escaped (s : Slot) (code : Option String → String)
    (hsome : ∀ t, code (some (escape t)) = s.lead ++ ("'" ++ escape t ++ "'") ++ s.trail)
    (hnone : code none = s.otherwise) :
    Written fun message => code ((s.spot.shown? message).map escape) := by
  refine written_slot s fun message => ?_
  cases hshown : s.spot.shown? message with
  | none => rw [Slot.text_of_not_shown hshown, Option.map_none, hnone]
  | some t => rw [Slot.text_of_shown? hshown, Option.map_some, hsome, literal]

/-- The message counts unless there is one before it; if there is none, one after it does. -/
theorem written_or (spot : Spot) {lead trail : String}
    (hsome : ∀ m, code (some m) = lead ++ ("'" ++ m ++ "'") ++ trail)
    (before fallback : Option String) :
    Written fun message => code ((before.or ((spot.shown? message).map escape)).or fallback) := by
  cases before with
  | some m => exact written_of_const fun _ => rfl
  | none =>
      exact written_escaped ⟨spot, lead, trail, code fallback⟩ (fun m => code (m.or fallback))
        (fun t => hsome (escape t)) rfl

end Rows

section Escaped

theorem isEmpty_escape (t : String) : Text.isEmpty (escape t) = Text.isEmpty t :=
  Text.isEmpty_flatMap (fun c => by unfold escapeChar; split_ifs <;> exact List.cons_ne_nil _ _) t

/-- A message that is kept escaped is empty where it was. -/
theorem nonEmpty?_map_escape (message : Option String) :
    Text.nonEmpty? (message.map escape) = (Text.nonEmpty? message).map escape := by
  cases message with
  | none => rfl
  | some t =>
      rw [Option.map_some, Text.nonEmpty?, Text.nonEmpty?, Option.filter_some, Option.filter_some,
        isEmpty_escape]
      split <;> rfl

end Escaped

/-- A base with another message of its own, where it keeps one. -/
def Base.withOwnMessage (message : Option String) : Base → Base
  | .url override _ protocol => .url override message protocol
  | .email _ => .email message
  | .number _ => .number message
  | base => base

/-- The base expression of a base with the message of the required rule. -/
def Base.expression (base : Base) (required : Option String) : String :=
  ({ Builder.ofBase base with requiredMessage := required }).baseExpression

namespace Builder

theorem baseExpression_eq (b : Builder) :
    b.baseExpression = b.base.expression b.requiredMessage := rfl

section Options

theorem braces_error (escaped : String) :
    TextRule.braces (" error: '" ++ escaped ++ "' ") =
      "\x7b error: " ++ ("'" ++ escaped ++ "'") ++ " \x7d" :=
  Slot.braces_quoted (by decide) (by decide) escaped

theorem braces_error_tight (escaped : String) :
    TextRule.braces (" error: '" ++ escaped ++ "'") =
      "\x7b error: " ++ ("'" ++ escaped ++ "'") ++ "\x7d" :=
  Slot.braces_quoted (by decide) (by decide) escaped

theorem braces_error_more (escaped more : String) :
    TextRule.braces (" " ++ ("error: '" ++ escaped ++ "'" ++ more) ++ " ") =
      "\x7b error: " ++ ("'" ++ escaped ++ "'") ++ (more ++ " \x7d") := by
  have hlead : "\x7b" ++ (" " ++ "error: '") = "\x7b error: " ++ "'" := by decide
  have htrail : "'" ++ more ++ " " ++ "\x7d" = "'" ++ (more ++ " \x7d") := by
    have hclose : " " ++ "\x7d" = " \x7d" := by decide
    rw [String.append_assoc, hclose, String.append_assoc]
  have hsplit : " " ++ ("error: '" ++ escaped ++ "'" ++ more) ++ " " =
      " " ++ "error: '" ++ escaped ++ ("'" ++ more ++ " ") := by
    simp only [-String.reduceAppend, String.append_assoc]
  rw [hsplit]
  exact Slot.braces_quoted hlead htrail escaped

end Options

section Required

/-- The check of a required value around its message. -/
def requiredSlot (condition : String) : Slot :=
  ⟨.given, ".refine((val) => " ++ condition ++ ", " ++ "\x7b error: ", " \x7d" ++ ")", ""⟩

theorem text_requiredSlot (condition : String) (message : Option String) :
    (requiredSlot condition).text message = requiredCheck condition (message.map escape) := by
  cases message with
  | none =>
      unfold requiredCheck Slot.text requiredSlot Spot.shown?
      rfl
  | some t =>
      unfold requiredCheck Slot.text requiredSlot Spot.shown?
      simp only [Option.map_some, braces_error]
      simp only [literal, String.append_assoc]

theorem written_requiredCheck (condition : String) :
    Written fun message => requiredCheck condition (message.map escape) :=
  written_slot (requiredSlot condition) fun message => (text_requiredSlot condition message).symm

/-- A check of a required value in the base expression of a password or a number. -/
theorem written_tightCheck (lead : String) : Written fun message => match message.map escape with
    | some m => lead ++ TextRule.braces (" error: '" ++ m ++ "'") ++ ")"
    | none => "" := by
  refine written_escaped ⟨.given, lead ++ "\x7b error: ", "\x7d" ++ ")", ""⟩ (fun message =>
    match message with
    | some m => lead ++ TextRule.braces (" error: '" ++ m ++ "'") ++ ")"
    | none => "") (fun t => ?_) rfl
  change lead ++ TextRule.braces (" error: '" ++ escape t ++ "'") ++ ")" = _
  rw [braces_error_tight]
  simp only [-String.reduceAppend, String.append_assoc]

end Required

section Texts

/-- A text with the message of the required rule. -/
def textSlot : Slot := ⟨.given, "z.string(" ++ "\x7b error: ", " \x7d" ++ ").trim()", "z.string()"⟩

theorem written_text : Written fun message => match message.map escape with
    | some m => "z.string(" ++ TextRule.braces (" error: '" ++ m ++ "' ") ++ ").trim()" ++
        requiredCheck textPresent (some m)
    | none => "z.string()" := by
  refine ⟨[textSlot, requiredSlot textPresent], fun message => ?_⟩
  rw [Slot.row_cons, Slot.row_singleton, text_requiredSlot]
  cases message with
  | none => exact String.append_empty.symm
  | some m =>
      have htext : "z.string(" ++ TextRule.braces (" error: '" ++ escape m ++ "' ") ++ ").trim()" =
          textSlot.text (some m) := by
        rw [Slot.text_of_shown? rfl, braces_error]
        simp only [-String.reduceAppend, textSlot, literal, String.append_assoc]
      rw [← htext]
      rfl

end Texts

section Addresses

/-- The protocols of an address as an option. -/
def protocolOptions : Option String → List String
  | some p => ["protocol: " ++ p]
  | none => []

/-- The protocols of an address behind another option. -/
def protocolTail : Option String → String
  | some p => ", " ++ ("protocol: " ++ p)
  | none => ""

theorem join_cons_protocolOptions (option : String) (protocol : Option String) :
    Text.join ", " (option :: protocolOptions protocol) = option ++ protocolTail protocol := by
  cases protocol with
  | none => exact String.append_empty.symm
  | some p => exact String.append_assoc

/-- An address with the message that counts. -/
def urlCode (protocol message : Option String) : String :=
  let options := (match message with
    | some m => ["error: '" ++ m ++ "'"]
    | none => []) ++ protocolOptions protocol
  if options.isEmpty then "z.url()"
  else "z.url(" ++ TextRule.braces (" " ++ Text.join ", " options ++ " ") ++ ")"

theorem urlCode_some (protocol : Option String) (escaped : String) :
    urlCode protocol (some escaped) = "z.url(" ++ "\x7b error: " ++ ("'" ++ escaped ++ "'") ++
      (protocolTail protocol ++ " \x7d" ++ ")") := by
  change "z.url(" ++ TextRule.braces (" " ++
    Text.join ", " (("error: '" ++ escaped ++ "'") :: protocolOptions protocol) ++ " ") ++ ")" = _
  rw [join_cons_protocolOptions, braces_error_more]
  simp only [-String.reduceAppend, String.append_assoc]

theorem expression_url (override own protocol required : Option String) :
    (Base.url override own protocol).expression required =
      urlCode protocol ((Text.nonEmpty? own).or required) ++
        requiredCheck textPresent required := by
  have hoptions : urlOptions own required protocol =
      (match (Text.nonEmpty? own).or required with
        | some m => ["error: '" ++ m ++ "'"]
        | none => []) ++ protocolOptions protocol := by
    unfold urlOptions
    cases Text.nonEmpty? own <;> cases required <;> cases protocol <;> rfl
  unfold urlCode
  rw [← hoptions]
  rfl

/-- A mail address with the message that counts. -/
def mailCode : Option String → String
  | some m => "z.email(" ++ TextRule.braces (" error: '" ++ m ++ "' ") ++ ")"
  | none => "z.email()"

theorem mailCode_some (escaped : String) : mailCode (some escaped) =
    "z.email(" ++ "\x7b error: " ++ ("'" ++ escaped ++ "'") ++ (" \x7d" ++ ")") := by
  rw [mailCode, braces_error]
  simp only [-String.reduceAppend, String.append_assoc]

theorem expression_email (own required : Option String) :
    (Base.email own).expression required =
      mailCode ((Text.nonEmpty? own).or (Text.nonEmpty? required)) ++ ".trim()" := by
  have hor : (Text.nonEmpty? own).or (Text.nonEmpty? required) =
      (Text.nonEmpty? own <|> Text.nonEmpty? required) := by
    cases Text.nonEmpty? own <;> rfl
  rw [hor]
  rfl

end Addresses

/-- A number with its own message. -/
theorem written_number (required : Option String) :
    Written fun message => (Base.number (message.map escape)).expression required := by
  let lead := "\x7berror: (val) => (val != undefined && val != null ? "
  refine written_escaped ⟨.given, "z.number(" ++ lead, " : undefined)\x7d" ++ ")",
    (Base.number none).expression required⟩
    (fun message => (Base.number message).expression required) (fun t => ?_) rfl
  have hbraces : TextRule.braces ("error: (val) => (val != undefined && val != null ? '" ++
      escape t ++ "' : undefined)") = lead ++ ("'" ++ escape t ++ "'") ++ " : undefined)\x7d" :=
    Slot.braces_quoted (by decide) (by decide) (escape t)
  change "z.number(" ++ TextRule.braces ("error: (val) => (val != undefined && val != null ? '" ++
    escape t ++ "' : undefined)") ++ ")" = _
  rw [hbraces]
  simp only [-String.reduceAppend, String.append_assoc]

/-- The base expression has the message of the required rule in slots only. -/
theorem written_required (base : Base) :
    Written fun message => base.expression (message.map escape) := by
  cases base with
  | text override =>
      cases override with
      | some f => exact written_of_const fun _ => rfl
      | none => exact written_text
  | url override own protocol =>
      have hcode := written_or .given (urlCode_some protocol) (Text.nonEmpty? own) none
      simp only [Option.or_none] at hcode
      simp only [expression_url]
      exact hcode.append (written_requiredCheck textPresent)
  | password override =>
      exact Written.append (written_of_const fun _ => rfl) (written_tightCheck _)
  | email own =>
      have hcode := written_or .filled mailCode_some (Text.nonEmpty? own) none
      simp only [Option.or_none] at hcode
      simp only [expression_email, nonEmpty?_map_escape]
      exact hcode.append (written_of_const fun _ => rfl)
  | number own =>
      cases own with
      | some m => exact written_of_const fun _ => rfl
      | none => exact Written.append (written_of_const fun _ => rfl) (written_tightCheck _)
  | _ => exact written_of_const fun _ => rfl

/-- The base expression has the message of the base itself in slots only. -/
theorem written_own (base : Base) (required : Option String) :
    Written fun message => (base.withOwnMessage (message.map escape)).expression required := by
  cases base with
  | url override own protocol =>
      have hcode := written_or .filled (urlCode_some protocol) none required
      simp only [Option.none_or] at hcode
      simp only [Base.withOwnMessage, expression_url, nonEmpty?_map_escape]
      exact hcode.append (written_of_const fun _ => rfl)
  | email own =>
      have hcode := written_or .filled mailCode_some none (Text.nonEmpty? required)
      simp only [Option.none_or] at hcode
      simp only [Base.withOwnMessage, expression_email, nonEmpty?_map_escape]
      exact hcode.append (written_of_const fun _ => rfl)
  | number own => exact written_number required
  | _ => exact written_of_const fun _ => rfl

end Builder

end RuleSchema
