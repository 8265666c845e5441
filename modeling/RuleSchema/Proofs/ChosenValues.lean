import RuleSchema.Proofs.JsonLiterals
import RuleSchema.Proofs.MessageLiterals
import RuleSchema.Proofs.NodeExpressions

/-!
# Chosen values in expressions

A field with a list of allowed values is a choice among them where its type is an enumeration or
that of a text. Its type joins the values with commas, which cannot be undone; but whichever of the
two handlers compiles the field, it takes the values from the rule and writes them as a JSON list,
which is read back as the values in order.
-/

namespace RuleSchema

open Text.Json (encodeList readList?)

/-- A resolved field with rules has their parameters, their type unless its shape decides it, and
their fragment. -/
theorem Declared.reads_of_resolve {m : Messages} {d : Declared} {n : NormalizedRules} {r : Resolved}
    (hn : NormalizedRules.normalize d.rules = .ok n) (hrules : n.entries ≠ [])
    (hr : d.resolve m = .ok r) :
    (∀ name, (r.check? name).map Check.parameters = (n.get? name).map RuleEntry.parameters) ∧
    r.inferredType = d.shapeType.getD
      (Inference.inferType n.entries (if d.isItem then none else some d.path)) ∧
    r.fragment = n.fragment := by
  obtain ⟨found, checks, inferred, hfound, hchecks, hinferred, rfl⟩ := exists_of_resolve hr
  obtain rfl : found = n := Except.ok.inj (hfound.symm.trans hn)
  obtain ⟨-, rfl⟩ := hinferred.resolve_left fun h => hrules h.1
  exact ⟨parameters_find?_of_checks hchecks, rfl, rfl⟩

/-- The message of an enumeration: the one of the required rule. -/
def Resolved.enumerationMessage? (r : Resolved) : Option String :=
  if r.isRequired then Text.nonEmpty? (r.message? "required") else none

/-- A message as an option behind the values of an enumeration. -/
def Builder.messageOption : Option String → String
  | some m => ", " ++ "\x7b message: " ++ Script.slashed m ++ " \x7d"
  | none => ""

/-- Code that chooses among values, with a message if there is one. -/
def Builder.choice (values : List String) (message : Option String) : String :=
  "z.enum(" ++ encodeList values ++ messageOption message ++ ")"

namespace Compiler

open Builder

variable {c : Compiler} {r : Resolved} {check : Check}

theorem expression_values (values : List String) :
    (Base.enumeration values none none).expression none = choice values none := by
  have hopen : "z.enum([" = "z.enum(" ++ "[" := by decide
  unfold Base.expression baseExpression ofBase choice encodeList messageOption
  dsimp only [Text.nonEmpty?, Option.filter]
  rw [hopen]
  simp only [-String.reduceAppend, String.append_assoc]

theorem enumerationCode_eq_choice (values : List String) (m : String) :
    enumerationCode values none m = choice values (some m) := by
  have hopen : "z.enum([" = "z.enum(" ++ "[" := by decide
  unfold enumerationCode enumerationLead choice encodeList messageOption
  dsimp only [Text.nonEmpty?, Option.filter]
  rw [hopen]
  simp only [-String.reduceAppend, String.append_assoc]

theorem ne_empty_of_enumerationMessage? {m : String} (h : r.enumerationMessage? = some m) :
    m ≠ "" := by
  rintro rfl
  unfold Resolved.enumerationMessage? at h
  split at h
  · have hfilled := (Option.filter_eq_some_iff.mp h).2
    cases hfilled
  · cases h

theorem withEnumerationMessage_ofValues (values : List String) (r : Resolved) :
    withEnumerationMessage (ofValues values) r =
      .ofBase (.enumeration values none (r.enumerationMessage?.map Script.addSlashes)) := by
  unfold withEnumerationMessage Resolved.enumerationMessage?
  dsimp only
  generalize (if r.isRequired then Text.nonEmpty? (r.message? "required") else none) = message
  cases message <;> rfl

/-- A builder of values has its list of them and the message of the required rule as content. -/
theorem content_withEnumerationMessage (values : List String) (r : Resolved) :
    (withEnumerationMessage (ofValues values) r).content = choice values r.enumerationMessage? := by
  have hcontent : ∀ message, (ofBase (.enumeration values none message)).content =
      (Base.enumeration values none message).expression none := fun _ => String.append_empty
  rw [withEnumerationMessage_ofValues, hcontent]
  cases hmessage : r.enumerationMessage? with
  | none => exact expression_values values
  | some m =>
      rw [← enumerationCode_eq_choice]
      exact expression_enumeration values none (ne_empty_of_enumerationMessage? hmessage)

/-- Where a rule lists values, one of the two handlers of them compiles a text or an enumeration. -/
theorem forField?_of_listed (hcheck : r.check? "in" = some check) (hlisted : check.parameters ≠ [])
    (htype : Inference.isEnumeration r.inferredType = true ∨ r.inferredType ∈ Handler.textTypes) :
    Registry.builtIn.forField? r = .ok .oneOf ∨ Registry.builtIn.forField? r = .ok .enumeration := by
  have hparameters : Handler.hasParameters (r.check? "in") = true := by
    rw [hcheck, Handler.hasParameters, Option.any_some, List.isEmpty_eq_false_iff.mpr hlisted]
    rfl
  simp only [Registry.forField?, builtIn_eq, List.find?_cons, Handler.handling_accepts]
  by_cases htext : r.inferredType ∈ Handler.textTypes
  · have haccepts : Handler.accepts .oneOf r = true := by
      rw [Handler.accepts, hparameters, Bool.and_true, List.contains_iff_mem.mpr htext]
    left
    rw [haccepts]
  · have hpassed : Handler.accepts .oneOf r = false := by
      rw [Handler.accepts, hparameters, Bool.and_true, ← Bool.not_eq_true, List.contains_iff_mem]
      exact htext
    have haccepts : Handler.accepts .enumeration r = true := htype.resolve_right htext
    right
    rw [hpassed, haccepts]

/-- The handler of enumerations takes the values of the rule, unless another rule has a name for
them. -/
theorem enumerationBuilder_of_listed (hcheck : r.check? "in" = some check)
    (hlisted : check.parameters ≠ []) (hnamed : r.check? "enum" = none) :
    enumerationBuilder r = ofValues (parameterTexts (r.check? "in")) := by
  have hnames : parameterTexts (r.check? "enum") = [] := by
    rw [hnamed]
    rfl
  rw [enumerationBuilder, hnames, hcheck]
  obtain ⟨first, more, hparameters⟩ := List.exists_cons_of_ne_nil hlisted
  have hvalues : parameterTexts (some check) = first.display :: more.map Parameter.display := by
    change check.parameters.map Parameter.display = _
    rw [hparameters, List.map_cons]
  rw [hvalues]

/-- A node with listed values is a choice among them, whichever handler compiles it. -/
theorem content_of_listed (hc : c.registry = .builtIn) (node : Node)
    (hcheck : node.head.check? "in" = some check) (hlisted : check.parameters ≠ [])
    (hnamed : node.head.check? "enum" = none)
    (htype : Inference.isEnumeration node.head.inferredType = true ∨
      node.head.inferredType ∈ Handler.textTypes) :
    c.content node =
        .ok (choice (check.parameters.map Parameter.display) node.head.enumerationMessage?) ∧
      c.isTruth node.head = false := by
  have hvalues : parameterTexts (node.head.check? "in") =
      check.parameters.map Parameter.display := by
    rw [hcheck]
    rfl
  rw [← hvalues, ← content_withEnumerationMessage, content, isTruth, hc]
  rcases forField?_of_listed hcheck hlisted htype with h | h
  · rw [h]
    exact ⟨rfl, rfl⟩
  · rw [h, ← enumerationBuilder_of_listed hcheck hlisted hnamed]
    exact ⟨rfl, rfl⟩

/-- A choice has the suffixes of its field behind it. -/
theorem compileWith_of_listed (hc : c.registry = .builtIn) (node : Node)
    (hcheck : node.head.check? "in" = some check) (hlisted : check.parameters ≠ [])
    (hnamed : node.head.check? "enum" = none) (hfragment : node.head.fragment = none)
    (htype : Inference.isEnumeration node.head.inferredType = true ∨
      node.head.inferredType ∈ Handler.textTypes) (isOptional : Bool) :
    c.compileWith isOptional none node =
      .ok (choice (check.parameters.map Parameter.display) node.head.enumerationMessage? ++
        node.head.presence isOptional) := by
  obtain ⟨hcontent, htruth⟩ := content_of_listed hc node hcheck hlisted hnamed htype
  rw [(compileWith_fragment c node hfragment isOptional).1, hcontent, htruth]
  rfl

/-- A choice has a message. -/
theorem presence_of_listed {n : NormalizedRules} {e : RuleEntry} (hin : n.get? "in" = some e) :
    Family.presence.contains e.name = false := by
  have hfound := List.find?_some hin
  have hname : e.name = "in" := beq_iff_eq.mp hfound
  rw [hname]
  decide

/-- The values that a field lists survive its resolution and its compilation. The field has rules of
which the first choice lists values, none that names an enumeration and no fragment, and the type of
an enumeration or of a text. When messages can be looked up, it is resolved exactly if it has a path
and its rules have visible names. A resolved field is compiled to a choice whose list is read back as
the texts of the listed parameters. -/
theorem listed_values_survive (m : Messages) (hc : c.registry = .builtIn) (field : String)
    (isItem : Bool) {rules : RuleValue} {n : NormalizedRules} {e : RuleEntry}
    (hn : NormalizedRules.normalize rules = .ok n) (hin : n.get? "in" = some e)
    (hlisted : e.parameters ≠ []) (hnamed : n.has "enum" = false) (hfragment : n.fragment = none)
    {inferred : String}
    (hinferred : Inference.inferType n.entries (if isItem then none else some field) = inferred)
    (htype : Inference.isEnumeration inferred = true ∨ inferred ∈ Handler.textTypes) :
    (m.Ready → (Succeeds (Declared.resolve m ⟨field, rules, isItem, none⟩) ↔
      Text.isEmpty field = false ∧ ∀ e ∈ n.entries, RuleName.IsVisible e.name.toList)) ∧
    ∀ r, Declared.resolve m ⟨field, rules, isItem, none⟩ = .ok r → ∀ isOptional, ∃ listed,
      c.compileWith isOptional none (.leaf r) = .ok ("z.enum(" ++ listed ++
        messageOption r.enumerationMessage? ++ ")" ++ r.presence isOptional) ∧
      ∀ rest, readList? (listed.toList ++ rest) =
        some (e.parameters.map Parameter.display, rest) := by
  have hmem : e ∈ n.entries := List.mem_of_find?_eq_some hin
  refine ⟨fun hm => Declared.succeeds_resolve_iff hm hn hmem (presence_of_listed hin),
    fun r hr isOptional => ?_⟩
  · have hrules : n.entries ≠ [] := List.ne_nil_of_mem hmem
    obtain ⟨hparameters, hshown, hkept⟩ := Declared.reads_of_resolve hn hrules hr
    obtain ⟨check, hcheck, hvalues⟩ :
        ∃ check, r.check? "in" = some check ∧ check.parameters = e.parameters := by
      rw [← Option.map_eq_some_iff, hparameters, hin, Option.map_some]
    have hunnamed : r.check? "enum" = none := by
      rw [← Option.map_eq_none_iff, hparameters, Option.map_eq_none_iff, NormalizedRules.get?,
        List.find?_eq_none]
      exact fun entry hentry => List.any_eq_false.mp hnamed entry hentry
    have hown : r.inferredType = inferred := hshown.trans hinferred
    refine ⟨encodeList (check.parameters.map Parameter.display), ?_, fun rest => ?_⟩
    · exact compileWith_of_listed hc (.leaf r) hcheck (hvalues ▸ hlisted) hunnamed
        (hkept.trans hfragment) (hown ▸ htype) isOptional
    · rw [hvalues, Text.Json.readList?_encodeList]

/-- Values that hold a comma, quotes, a backslash, letters that are not ASCII or nothing at all. -/
def titleEntry : RuleEntry :=
  ⟨"in", [.text "a, b", .text "say \"hi\"", .text "back\\slash", .text "é😀", .text "", .ofInt 3]⟩

/-- A required choice among such values. -/
def titleRules : RuleValue := .list [.text "required", .datum (.entry titleEntry)]

/-- Such values come through, although the type of the field does not tell them apart. -/
theorem listed_values_survive_title :
    let n : NormalizedRules := ⟨[⟨"required", []⟩, titleEntry], none, 0⟩
    let m : Messages := ⟨some (.ofMap []), [], []⟩
    let inferred := "enum:a, b,say \"hi\",back\\slash,é😀,,3"
    NormalizedRules.normalize titleRules = .ok n ∧ n.get? "in" = some titleEntry ∧
    titleEntry.parameters ≠ [] ∧ n.has "enum" = false ∧
    Inference.inferType n.entries (some "title") = inferred ∧
    Inference.isEnumeration inferred = true ∧
    ∃ r, Declared.resolve m ⟨"title", titleRules, false, none⟩ = .ok r ∧ ∃ listed,
      builtIn.compileWith true none (.leaf r) = .ok ("z.enum(" ++ listed ++
        messageOption r.enumerationMessage? ++ ")" ++ r.presence true) ∧
      ∀ rest, readList? (listed.toList ++ rest) =
        some (["a, b", "say \"hi\"", "back\\slash", "é😀", "", "3"], rest) := by
  intro n m inferred
  have hn : NormalizedRules.normalize titleRules = .ok n := by rfl
  have hin : n.get? "in" = some titleEntry := by rfl
  have hlisted : titleEntry.parameters ≠ [] := List.cons_ne_nil _ _
  have hnamed : n.has "enum" = false := by rfl
  have hinferred : Inference.inferType n.entries (some "title") = inferred := by decide +kernel
  have henum : Inference.isEnumeration inferred = true := by decide +kernel
  have hready : m.Ready := ⟨.ofMap [], rfl, ⟨[], rfl⟩, fun _ h => by cases h⟩
  have hvisible : ∀ e ∈ n.entries, RuleName.IsVisible e.name.toList := by
    intro e he
    rcases List.mem_cons.mp he with rfl | he
    · exact ⟨'r', by decide, by decide⟩
    · rw [List.mem_singleton.mp he]
      exact ⟨'i', by decide, by decide⟩
  have hc : builtIn.registry = .builtIn := rfl
  obtain ⟨hresolves, hcompiles⟩ :=
    listed_values_survive m hc "title" false hn hin hlisted hnamed rfl hinferred (.inl henum)
  obtain ⟨r, hr⟩ := (hresolves hready).mpr ⟨by decide, hvisible⟩
  exact ⟨hn, hin, hlisted, hnamed, hinferred, henum, r, hr, hcompiles r hr true⟩

/-- A required choice beside an entry without a name. -/
def unnamedRules : RuleValue :=
  .list [.text "required", .text "in:a,b", .datum (.entry ⟨"", []⟩)]

/-- A choice is not resolved beside an entry without a name, on a field without a path, or where
there is no catalog. -/
theorem unnamedRules_unresolved :
    let n : NormalizedRules := ⟨[⟨"required", []⟩, ⟨"in", [.text "a", .text "b"]⟩, ⟨"", []⟩], none, 0⟩
    let m : Messages := ⟨some (.ofMap []), [], []⟩
    NormalizedRules.normalize unnamedRules = .ok n ∧
    n.get? "in" = some ⟨"in", [.text "a", .text "b"]⟩ ∧ n.has "enum" = false ∧ n.fragment = none ∧
    Inference.isEnumeration (Inference.inferType n.entries (some "title")) = true ∧ m.Ready ∧
    ¬ Succeeds (Declared.resolve m ⟨"title", unnamedRules, false, none⟩) ∧
    ¬ Succeeds (Declared.resolve m ⟨"", .text "in:a,b", false, none⟩) ∧
    ¬ Succeeds (Declared.resolve ⟨none, [], []⟩ ⟨"title", .text "in:a,b", false, none⟩) := by
  intro n m
  have hn : NormalizedRules.normalize unnamedRules = .ok n := by rfl
  have hready : m.Ready := ⟨.ofMap [], rfl, ⟨[], rfl⟩, fun _ h => by cases h⟩
  have hunresolved : ∀ {m : Messages} {field : String} {rules : RuleValue},
      (Declared.resolve m ⟨field, rules, false, none⟩).toOption.isSome = false →
        ¬ Succeeds (Declared.resolve m ⟨field, rules, false, none⟩) := by
    rintro m field rules hnone ⟨r, hr⟩
    rw [hr] at hnone
    cases hnone
  exact ⟨hn, by rfl, by rfl, rfl, by decide +kernel, hready, hunresolved (by decide +kernel),
    hunresolved (by decide +kernel), hunresolved (by decide +kernel)⟩

end Compiler

end RuleSchema
