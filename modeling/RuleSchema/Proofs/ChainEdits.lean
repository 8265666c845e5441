import Mathlib.Data.List.Induction
import RuleSchema.Builder.Rules

/-!
# What a rule takes out of a chain

A rule on texts looks for certain texts in the chained calls, takes out the calls that contain one,
and puts calls of its own at the end. Which rule has put a call into the chain plays no part: a call
stays exactly when it contains none of the texts that are looked for.
-/

namespace RuleSchema.Chain

open TextRule

/-- The builder after a change, also after one that has failed part-way. -/
def after {α : Type} (x : Building α) (b : Builder) : Builder := (x.run.run b).2

/-- A call that contains none of the texts. -/
def Untouched (texts : List String) (call : String) : Prop :=
  ∀ text ∈ texts, Text.contains call text = false

/-- The calls of a chain that contain none of the texts. -/
def keep (texts chain : List String) : List String :=
  chain.filter fun call => texts.all (! Text.contains call ·)

/-- A builder for a text, whatever its format. -/
def IsText (b : Builder) : Prop := ∃ format, b.base = .text format

/-- A change takes out the calls that contain one of the texts and adds calls of its own, which do
not depend on the chain. A builder for a text stays one. -/
def Edits (x : Building Unit) (b : Builder) (texts : List String) : Prop :=
  ∃ added, ∀ chain, (after x { b with chain := chain }).chain = keep texts chain ++ added ∧
    (IsText b → IsText (after x { b with chain := chain }))

theorem mem_keep {texts chain : List String} {call : String} :
    call ∈ keep texts chain ↔ call ∈ chain ∧ Untouched texts call := by
  simp [keep, Untouched]

theorem keep_nil (chain : List String) : keep [] chain = chain := by
  simp [keep]

theorem keep_keep (first second chain : List String) :
    keep second (keep first chain) = keep (first ++ second) chain := by
  simp only [keep, List.filter_filter, List.all_append]
  apply List.filter_congr
  intro call _
  exact Bool.and_comm _ _

theorem keep_append (texts chain more : List String) :
    keep texts (chain ++ more) = keep texts chain ++ keep texts more :=
  List.filter_append ..

/-- Edits decide which calls of a chain stay. -/
theorem Edits.mem_iff {x : Building Unit} {b : Builder} {texts : List String}
    (h : Edits x b texts) {call : String} (hc : call ∈ b.chain) :
    call ∈ (after x b).chain ↔
      Untouched texts call ∨ call ∈ (after x { b with chain := [] }).chain := by
  obtain ⟨added, hadded⟩ := h
  have hb : (after x b).chain = keep texts b.chain ++ added := (hadded b.chain).1
  rw [hb, (hadded []).1, List.mem_append, List.mem_append, mem_keep, mem_keep]
  simp [hc]

theorem Edits.isText {x : Building Unit} {b : Builder} {texts : List String}
    (h : Edits x b texts) (hb : IsText b) : IsText (after x b) := by
  obtain ⟨added, hadded⟩ := h
  exact (hadded b.chain).2 hb

theorem edits_nothing (b : Builder) : Edits (pure ()) b [] :=
  ⟨[], fun chain => ⟨by rw [keep_nil, List.append_nil]; rfl, fun h => h⟩⟩

theorem edits_add (b : Builder) (call : String) : Edits (Building.add call) b [] :=
  ⟨[call], fun chain => ⟨by rw [keep_nil]; rfl, fun h => h⟩⟩

theorem keep_singleton (text : String) (chain : List String) :
    keep [text] chain = chain.filter (! Text.contains · text) := by
  simp [keep]

theorem edits_replace (b : Builder) (method call : String) :
    Edits (Building.replace method call) b [method ++ "("] :=
  ⟨[call], fun chain => ⟨by rw [keep_singleton]; rfl, fun h => h⟩⟩

/-- A check that takes out the calls with a text before it is added. -/
theorem edits_remove_add (b : Builder) (text call : String) :
    Edits (do modify (·.removeContaining text); Building.add call) b [text] :=
  ⟨[call], fun chain => ⟨by rw [keep_singleton]; rfl, fun h => h⟩⟩

/-- A change of anything but the chain. -/
theorem edits_modify (b : Builder) {f : Builder → Builder}
    (h : ∀ b, (f b).chain = b.chain) (ht : ∀ b, IsText b → IsText (f b)) :
    Edits (modify f) b [] := by
  refine ⟨[], fun chain => ⟨?_, fun hb => ht _ hb⟩⟩
  rw [keep_nil, List.append_nil]
  exact h _

/-- The texts that a greater least length looks for. -/
def raised (bound : Number) (b : Builder) : List String :=
  if (b.least.map bound.le).getD false then [] else ["min("]

/-- The texts that a smaller greatest length looks for. -/
def lowered (bound : Number) (b : Builder) : List String :=
  if (b.greatest.map (·.le bound)).getD false then [] else ["max("]

theorem after_raise (bound : Number) (message : Option String) (b : Builder) :
    after (Length.raise bound message) b =
      if (b.least.map bound.le).getD false then b
      else { b with least := some bound }.replaceCall "min"
        (".min(" ++ bound.text ++ Script.messageArgument message ++ ")") := by
  change after (if _ then pure () else set _) b = _
  split <;> rfl

theorem after_lower (bound : Number) (message : Option String) (b : Builder) :
    after (Length.lower bound message) b =
      if (b.greatest.map (·.le bound)).getD false then b
      else { b with greatest := some bound }.replaceCall "max"
        (".max(" ++ bound.text ++ Script.messageArgument message ++ ")") := by
  change after (if _ then pure () else set _) b = _
  split <;> rfl

theorem edits_raise (bound : Number) (message : Option String) (b : Builder) :
    Edits (Length.raise bound message) b (raised bound b) := by
  unfold raised
  by_cases h : (b.least.map bound.le).getD false = true
  · refine ⟨[], fun chain => ?_⟩
    rw [after_raise, if_pos h, if_pos h, keep_nil, List.append_nil]
    exact ⟨rfl, fun hb => hb⟩
  · refine ⟨[".min(" ++ bound.text ++ Script.messageArgument message ++ ")"], fun chain => ?_⟩
    rw [after_raise, if_neg h, if_neg h, keep_singleton]
    exact ⟨rfl, fun hb => hb⟩

theorem edits_lower (bound : Number) (message : Option String) (b : Builder) :
    Edits (Length.lower bound message) b (lowered bound b) := by
  unfold lowered
  by_cases h : (b.greatest.map (·.le bound)).getD false = true
  · refine ⟨[], fun chain => ?_⟩
    rw [after_lower, if_pos h, if_pos h, keep_nil, List.append_nil]
    exact ⟨rfl, fun hb => hb⟩
  · refine ⟨[".max(" ++ bound.text ++ Script.messageArgument message ++ ")"], fun chain => ?_⟩
    rw [after_lower, if_neg h, if_neg h, keep_singleton]
    exact ⟨rfl, fun hb => hb⟩

/-- The number that the first argument stands for, if it stands for one. -/
def firstNumber? (arguments : List Argument) : Option Number :=
  arguments.head?.bind fun a => a.number?.toOption.bind id

/-- The first argument changed by a whole number, as a bound. -/
def shiftedNumber? (change : Int) (arguments : List Argument) : Option Number :=
  (firstNumber? arguments).bind fun n =>
    let moved := if change = 0 then n else n.addInt change
    (Parameter.number moved).number?.toOption.map (·.getD moved)

/-- The texts that a rule looks for, from the builder and the arguments. -/
abbrev Search := Builder → List Argument → List String

/-- The texts that are looked for with a number, if there is one. -/
def withNumber (number? : List Argument → Option Number)
    (texts : Number → Builder → List String) : Search := fun b arguments =>
  match number? arguments with
  | none => []
  | some n => texts n b

/-- A method edits the chain, and the texts that it looks for are those of a search. -/
def Searches (method : RuleMethod) (search : Search) : Prop :=
  ∀ arguments message b, Edits (method arguments message) b (search b arguments)

theorem searches_withNumber {act : Number → Option String → Building Unit}
    {texts : Number → Builder → List String}
    (h : ∀ n message b, Edits (act n message) b (texts n b)) :
    Searches (fun arguments message => do
      match ← Building.firstNumber? arguments with
      | none => return
      | some n => act n message) (withNumber firstNumber? texts) := by
  intro arguments message b
  cases arguments with
  | nil => exact edits_nothing b
  | cons a rest =>
      simp only [withNumber, firstNumber?, List.head?_cons, Option.bind_some,
        Building.firstNumber?]
      cases a.number? with
      | error fault => exact edits_nothing b
      | ok n =>
          cases n with
          | none => exact edits_nothing b
          | some n => exact h n message b

theorem edits_asBound {act : Number → Building Unit} {texts : Number → Builder → List String}
    (h : ∀ n b, Edits (act n) b (texts n b)) (moved : Number) (b : Builder) :
    Edits (do act (← Length.asBound moved)) b
      (match (Parameter.number moved).number?.toOption.map (·.getD moved) with
      | none => []
      | some n => texts n b) := by
  unfold Length.asBound
  cases (Parameter.number moved).number? with
  | error fault => exact edits_nothing b
  | ok bound => exact h _ b

theorem searches_withBound {change : Int} {act : Number → Option String → Building Unit}
    {texts : Number → Builder → List String}
    (h : ∀ n message b, Edits (act n message) b (texts n b)) :
    Searches (Length.withBound change act) (withNumber (shiftedNumber? change) texts) := by
  intro arguments message b
  cases arguments with
  | nil => exact edits_nothing b
  | cons a rest =>
      simp only [Length.withBound, withNumber, shiftedNumber?, firstNumber?, List.head?_cons,
        Option.bind_some, Building.firstNumber?]
      cases a.number? with
      | error fault => exact edits_nothing b
      | ok n =>
          cases n with
          | none => exact edits_nothing b
          | some n => exact edits_asBound (fun n b => h n message b) _ b

/-- The texts that a pair of bounds looks for; the second one only counts behind a number or a text
that is none. -/
def betweenTexts : Search := fun b arguments =>
  match arguments with
  | low :: high :: _ =>
    withNumber firstNumber? raised b [low] ++
      (if low.number?.toOption.isSome then withNumber firstNumber? lowered b [high] else [])
  | _ => []

theorem searches_min : Searches Length.min (withNumber firstNumber? raised) :=
  searches_withNumber edits_raise

theorem searches_max : Searches Length.max (withNumber firstNumber? lowered) :=
  searches_withNumber edits_lower

/-- Raising never fails, so what follows it starts from its builder. -/
theorem after_raise_bind (bound : Number) (message : Option String) (y : Building Unit)
    (b : Builder) : after (do Length.raise bound message; y) b =
      after y (after (Length.raise bound message) b) := by
  rw [after_raise]
  change after (do (if _ then pure () else set _); y) b = _
  split <;> rfl

theorem edits_raise_bind (bound : Number) (message : Option String) {y : Building Unit}
    {b : Builder} {texts : List String} (hb : Edits y b texts)
    (hl : Edits y { b with least := some bound } texts) :
    Edits (do Length.raise bound message; y) b (raised bound b ++ texts) := by
  unfold raised
  by_cases h : (b.least.map bound.le).getD false = true
  · obtain ⟨added, hadded⟩ := hb
    refine ⟨added, fun chain => ?_⟩
    rw [after_raise_bind, after_raise, if_pos h, if_pos h, List.nil_append]
    exact hadded chain
  · obtain ⟨added, hadded⟩ := hl
    let call := ".min(" ++ bound.text ++ Script.messageArgument message ++ ")"
    refine ⟨keep texts [call] ++ added, fun chain => ?_⟩
    rw [after_raise_bind, after_raise, if_neg h, if_neg h]
    have hchain := hadded (keep ["min("] chain ++ [call])
    rw [keep_append, keep_keep, List.append_assoc, keep_singleton] at hchain
    exact hchain

theorem searches_between : Searches Length.between betweenTexts := by
  intro arguments message b
  match arguments with
  | [] => exact edits_nothing b
  | [_] => exact edits_nothing b
  | low :: high :: rest =>
      have hmax := fun b => searches_max [high] message b
      simp only [Length.between, Length.min, betweenTexts, withNumber, firstNumber?,
        List.head?_cons, Option.bind_some, Building.firstNumber?]
      cases low.number? with
      | error fault => exact edits_nothing b
      | ok n =>
          cases n with
          | none => exact hmax b
          | some n =>
              exact edits_raise_bind n message (hmax b) (hmax { b with least := some n })

theorem searches_size : Searches Length.size (withNumber firstNumber? fun _ _ => ["length("]) :=
  searches_withNumber fun _ _ b => edits_replace b "length" _

/-- The texts that the required rule looks for. -/
def requiredTexts : Search := fun b _ =>
  if (override? b).isSome then ["__required_refine__"] else raised (.whole 1) b

theorem searches_required : Searches TextRule.required requiredTexts := by
  intro arguments message b
  unfold requiredTexts
  by_cases h : (override? b).isSome = true
  · let check := refineBlock (whenMissing "false" ++
      " if (typeof val === \"string\") " ++ braces " return val.trim() !== \"\"; " ++
      " return true;") (escapedOr message defaultRequired) ++ mark "__required_refine__"
    obtain ⟨added, hadded⟩ := edits_remove_add b "__required_refine__" check
    rw [if_pos h]
    refine ⟨added, fun chain => ?_⟩
    change (after (if (override? b).isSome then _ else _) { b with chain := chain }).chain = _ ∧
      (_ → IsText (after (if (override? b).isSome then _ else _) { b with chain := chain }))
    rw [if_pos h]
    exact hadded chain
  · rw [if_neg h]
    let escaped := escapedOr message defaultRequired
    obtain ⟨added, hadded⟩ :=
      edits_raise (.whole 1) message { b with requiredMessage := some escaped }
    refine ⟨added, fun chain => ?_⟩
    change (after (if (override? b).isSome then _ else _) { b with chain := chain }).chain = _ ∧
      (_ → IsText (after (if (override? b).isSome then _ else _) { b with chain := chain }))
    rw [if_neg h]
    exact hadded chain

/-- A search for one text, whatever the arguments. -/
def always (text : String) : Search := fun _ _ => [text]

/-- A search for one text where there is an argument. -/
def withArguments (text : String) : Search := fun _ arguments =>
  if arguments.isEmpty then [] else [text]

/-- The text that a pattern rule looks for: its own pattern at the start of its call. -/
def patternTexts : Search := fun _ arguments =>
  match firstText? arguments with
  | none => []
  | some text => [".regex(" ++ Script.Pattern.convert text]

/-- The text that a format rule looks for where it has a format. -/
def formatTexts : Search := fun _ arguments =>
  if ((arguments.map Argument.display).filter (! Text.isEmpty ·)).isEmpty then []
  else ["__date_format__"]

/-- No search. -/
def never : Search := fun _ _ => []

theorem searches_nothing : Searches Building.nothing never := fun _ _ b => edits_nothing b

theorem searches_regex : Searches regex patternTexts := by
  intro arguments message b
  unfold regex patternTexts
  cases firstText? arguments with
  | none => exact edits_nothing b
  | some text => exact edits_remove_add b _ _

theorem searches_notRegex : Searches notRegex never := by
  intro arguments message b
  unfold notRegex
  cases firstText? arguments with
  | none => exact edits_nothing b
  | some text => exact edits_add b _

theorem searches_uuid : Searches uuid (always "uuid(") :=
  fun _ _ b => edits_replace b "uuid" _

theorem searches_marked (name pattern : String) : Searches (marked name pattern) (always name) :=
  fun _ _ b => edits_remove_add b name _

theorem searches_cased (method fallback : String) :
    Searches (cased method fallback) (always (method ++ "(")) :=
  fun _ _ b => edits_replace b method _

theorem searches_affixed (method affix fallback : String) :
    Searches (affixed method affix fallback) (withArguments (method ++ "(")) := by
  intro arguments message b
  match arguments with
  | [] => exact edits_nothing b
  | [_] => exact edits_replace b method _
  | _ :: _ :: _ => exact edits_replace b method _

theorem searches_notAffixed (method affix fallback : String) :
    Searches (notAffixed method affix fallback) never := by
  intro arguments message b
  cases arguments with
  | nil => exact edits_nothing b
  | cons a rest => exact edits_add b _

theorem searches_listed (negation : String) : Searches (listed negation) never := by
  intro arguments message b
  cases arguments with
  | nil => exact edits_nothing b
  | cons a rest => exact edits_add b _

theorem chain_setOverride (expression : String) (b : Builder) :
    (setOverride expression b).chain = b.chain := by
  unfold setOverride
  split <;> rfl

theorem isText_setOverride (expression : String) {b : Builder} (h : IsText b) :
    IsText (setOverride expression b) := by
  obtain ⟨format, hb⟩ := h
  exact ⟨some expression, by simp [setOverride, hb]⟩

theorem searches_format (name : String) : Searches (format name) never :=
  fun _ _ b => edits_modify b (chain_setOverride _) fun _ => isText_setOverride _

theorem searches_ip : Searches ip never :=
  fun _ _ b => edits_modify b (chain_setOverride _) fun _ => isText_setOverride _

theorem searches_macAddress : Searches macAddress (always "__mac_refine__") :=
  fun _ _ b => edits_remove_add b _ _

theorem searches_json : Searches json never := fun _ _ b => edits_add b _

theorem searches_date : Searches date never := fun _ _ b => edits_add b _

theorem searches_dateFormat : Searches dateFormat formatTexts := by
  intro arguments message b
  unfold dateFormat formatTexts
  dsimp only
  by_cases h : ((arguments.map Argument.display).filter (! Text.isEmpty ·)).isEmpty = true
  · rw [if_pos h, if_pos h]
    exact edits_nothing b
  · rw [if_neg h, if_neg h]
    generalize ((List.filter _ _).mapM Script.DateFormat.pattern?).getD ["/^.+$/"] = patterns
    match patterns with
    | [] => exact edits_remove_add b _ _
    | [_] => exact edits_remove_add b _ _
    | _ :: _ :: _ => exact edits_remove_add b _ _

/-- A search decides which calls stay in the chain of a text, calls that are put there again
aside. -/
def Decides (method : RuleMethod) (search : Search) : Prop :=
  ∀ arguments message b, IsText b → IsText (after (method arguments message) b) ∧
    ∀ call ∈ b.chain, call ∈ (after (method arguments message) b).chain ↔
      Untouched (search b arguments) call ∨
        call ∈ (after (method arguments message) { b with chain := [] }).chain

theorem Searches.decides {method : RuleMethod} {search : Search} (h : Searches method search) :
    Decides method search := fun arguments message b hb =>
  ⟨(h arguments message b).isText hb, fun _ hc => (h arguments message b).mem_iff hc⟩

theorem after_trim (arguments : List Argument) (message : Option String) (b : Builder) :
    after (Length.trim arguments message) b =
      if b.hasCall "trim" then b else b.addCall ".trim()" := by
  change after (if b.hasCall "trim" then pure () else Building.add ".trim()") b = _
  split <;> rfl

/-- The trimming rule adds its call only where there is none, so it is no edit in the sense above,
but it takes nothing out. -/
theorem decides_trim : Decides Length.trim never := by
  intro arguments message b hb
  rw [after_trim]
  split
  · exact ⟨hb, fun call hc => ⟨fun _ => Or.inl (by simp [never, Untouched]), fun _ => hc⟩⟩
  · exact ⟨hb, fun call hc => ⟨fun _ => Or.inl (by simp [never, Untouched]),
      fun _ => List.mem_append_left _ hc⟩⟩

/-- The texts that each rule looks for; a rule that is not listed looks for none. -/
def searches : List (String × Search) :=
  [("required", requiredTexts), ("regex", patternTexts), ("uuid", always "uuid("),
    ("alpha", always "__alpha__"), ("alpha_dash", always "__alpha_dash__"),
    ("alpha_num", always "__alpha_num__"), ("ascii", always "__ascii__"),
    ("lowercase", always "lowercase("), ("uppercase", always "uppercase("),
    ("starts_with", withArguments "startsWith("), ("ends_with", withArguments "endsWith("),
    ("mac_address", always "__mac_refine__"), ("date_format", formatTexts),
    ("min", withNumber firstNumber? raised), ("max", withNumber firstNumber? lowered),
    ("lt", withNumber (shiftedNumber? (-1)) lowered),
    ("lte", withNumber (shiftedNumber? 0) lowered),
    ("gt", withNumber (shiftedNumber? 1) raised), ("gte", withNumber (shiftedNumber? 0) raised),
    ("between", betweenTexts), ("size", withNumber firstNumber? fun _ _ => ["length("])]

/-- The search of a method under its name. -/
def searchOf (name : String) : Search := (searches.lookup name).getD never

/-- Every method of texts is decided by the search under its name. -/
theorem decides_methods : ∀ p ∈ methods, Decides p.2 (searchOf p.1) := by
  simp only [methods, Length.methods, List.cons_append, List.nil_append, List.forall_mem_cons]
  exact ⟨searches_required.decides, searches_nothing.decides, searches_regex.decides,
    searches_notRegex.decides, searches_uuid.decides, (searches_marked _ _).decides,
    (searches_marked _ _).decides, (searches_marked _ _).decides, (searches_marked _ _).decides,
    (searches_cased _ _).decides, (searches_cased _ _).decides, (searches_affixed _ _ _).decides,
    (searches_affixed _ _ _).decides, (searches_notAffixed _ _ _).decides,
    (searches_notAffixed _ _ _).decides, (searches_listed _).decides, (searches_listed _).decides,
    searches_json.decides, searches_ip.decides,
    (searches_format _).decides, (searches_format _).decides, (searches_format _).decides,
    searches_macAddress.decides, searches_date.decides,
    searches_dateFormat.decides, searches_min.decides, searches_max.decides,
    (searches_withBound edits_lower).decides, (searches_withBound edits_lower).decides,
    (searches_withBound edits_raise).decides, (searches_withBound edits_raise).decides,
    searches_between.decides, searches_size.decides, decides_trim, by simp⟩

/-- A rule applied to a builder with arguments and a message. -/
structure RuleCall where
  rule : String
  arguments : List Argument
  message : Option String

namespace RuleCall

/-- The builder after a rule has been applied. -/
def apply (b : Builder) (c : RuleCall) : Builder :=
  after (Builder.applyRule c.rule c.arguments c.message) b

/-- The texts that a rule looks for in the chain of a builder. -/
def searched (b : Builder) (c : RuleCall) : List String :=
  searchOf (Builder.methodName c.rule) b c.arguments

/-- The builder of a plain text after rules have been applied one after the other. -/
def run (calls : List RuleCall) : Builder := calls.foldl apply (Builder.ofBase (.text none))

theorem run_concat (calls : List RuleCall) (c : RuleCall) :
    run (calls ++ [c]) = apply (run calls) c := by
  simp [run]

/-- A rule that texts do not know changes nothing and looks for nothing. -/
theorem searchOf_eq_never {name : String} (h : methods.lookup name = none) :
    searchOf name = never := by
  have hsub : ∀ p ∈ searches, ∃ q ∈ methods, q.1 = p.1 := by
    simp [searches, methods, Length.methods]
  have hn : searches.lookup name = none := by
    rw [List.lookup_eq_none_iff] at h ⊢
    intro p hp
    obtain ⟨q, hq, he⟩ := hsub p hp
    rw [← he]
    exact h q hq
  simp [searchOf, hn]

/-- The answer that a rule was known does not change the builder. -/
theorem after_answer (x : Building Unit) (answer : Bool) (b : Builder) :
    after (do x; return answer) b = after x b := by
  simp only [after, ExceptT.run_bind, StateT.run_bind]
  cases x.run.run b with
  | mk result next => cases result <;> rfl

theorem apply_eq {b : Builder} (hb : IsText b) (c : RuleCall) :
    apply b c = match methods.lookup (Builder.methodName c.rule) with
      | none => b
      | some method => after (method c.arguments c.message) b := by
  obtain ⟨format, hbase⟩ := hb
  have hmethod : b.method? c.rule = methods.lookup (Builder.methodName c.rule) := by
    simp [Builder.method?, hbase, Base.methods]
  change after (match b.method? c.rule with
    | none => return false
    | some method => do method c.arguments c.message; return true) b = _
  rw [hmethod]
  cases methods.lookup (Builder.methodName c.rule) with
  | none => rfl
  | some method => exact after_answer _ _ _

/-- One rule decides by its search which calls stay, and a text stays a text. -/
theorem apply_decides {b : Builder} (hb : IsText b) (c : RuleCall) :
    IsText (apply b c) ∧ ∀ call ∈ b.chain, call ∈ (apply b c).chain ↔
      Untouched (c.searched b) call ∨ call ∈ (apply { b with chain := [] } c).chain := by
  have hempty : IsText { b with chain := [] } := hb
  rw [apply_eq hb, apply_eq hempty, searched]
  cases hl : methods.lookup (Builder.methodName c.rule) with
  | none =>
      rw [searchOf_eq_never hl]
      exact ⟨hb, fun call hc => ⟨fun _ => Or.inl (by simp [never, Untouched]), fun _ => hc⟩⟩
  | some method =>
      exact decides_methods _ (Table.mem_of_lookup_eq_some hl) c.arguments c.message b hb

theorem run_isText (calls : List RuleCall) : IsText (run calls) := by
  induction calls using List.reverseRecOn with
  | nil => exact ⟨none, rfl⟩
  | append_singleton calls c ih =>
      rw [run_concat]
      exact (apply_decides ih c).1

/-- A call that stands in the chain after any rules stays in it under a further rule exactly when it
contains none of the texts that this rule looks for, unless this rule puts the same call there
again. -/
theorem chain_call_stays_iff (calls : List RuleCall) (later : RuleCall) (call : String)
    (h : call ∈ (run calls).chain) :
    call ∈ (run (calls ++ [later])).chain ↔
      (∀ text ∈ later.searched (run calls), Text.contains call text = false) ∨
        call ∈ (apply { run calls with chain := [] } later).chain := by
  rw [run_concat]
  exact (apply_decides (run_isText calls) later).2 call h

/-- A pattern that happens to hold the text of another call does not stay under that call. -/
theorem chain_call_under_uuid :
    ".regex(/^uuid(a|b)$/)" ∈ (run [⟨"regex", [some (.text "/^uuid(a|b)$/")], none⟩]).chain ∧
      ".regex(/^uuid(a|b)$/)" ∉ (run ([⟨"regex", [some (.text "/^uuid(a|b)$/")], none⟩] ++
        [⟨"uuid", [], none⟩])).chain := by
  have h : ".regex(/^uuid(a|b)$/)" ∈
      (run [⟨"regex", [some (.text "/^uuid(a|b)$/")], none⟩]).chain := by decide +kernel
  refine ⟨h, fun hstays => ?_⟩
  rcases (chain_call_stays_iff _ ⟨"uuid", [], none⟩ _ h).mp hstays with huntouched | hagain
  · have hsearched : "uuid(" ∈ RuleCall.searched
        (run [⟨"regex", [some (.text "/^uuid(a|b)$/")], none⟩]) ⟨"uuid", [], none⟩ := by
      decide +kernel
    have hcontains : Text.contains ".regex(/^uuid(a|b)$/)" "uuid(" = true := by decide +kernel
    rw [huntouched _ hsearched] at hcontains
    cases hcontains
  · revert hagain
    decide +kernel

/-- The rules that share the bounds on the length of a text. -/
def boundRules : List String := ["min", "max", "gt", "gte", "lt", "lte", "between", "required"]

/-- A rule on how a text starts takes out the check that the text does not start otherwise, so a
later rule can take out the check of another one. -/
theorem later_rule_takes_out_other_check :
    ¬ ∀ (calls between : List RuleCall) (first later : RuleCall) (call : String),
      call ∉ (run calls).chain → call ∈ (run (calls ++ [first])).chain →
      call ∈ (run (calls ++ first :: between)).chain → first.rule ≠ later.rule →
      ¬ (first.rule ∈ boundRules ∧ later.rule ∈ boundRules) →
      call ∈ (run (calls ++ first :: between ++ [later])).chain := by
  intro h
  let first : RuleCall := ⟨"doesnt_start_with", [some (.text "admin")], none⟩
  let later : RuleCall := ⟨"starts_with", [some (.text "user")], none⟩
  let call := (run [first]).chain.headD ""
  have hstays := h [] [] first later call (by decide) (by decide +kernel) (by decide +kernel)
    (by decide) (by decide)
  have hgone : call ∉ (run [first, later]).chain := by decide +kernel
  exact hgone hstays

end RuleCall

end RuleSchema.Chain
