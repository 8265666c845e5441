import RuleSchema.Proofs.LengthBounds
import RuleSchema.Proofs.RuleMessages
import RuleSchema.Proofs.ShortestDigits

/-!
# Where parameters stand in calls

A call is a row of parts. Its code is the same for all parameters; the parameters stand inside
literals, in patterns, or in places for numbers. Here are the parts, the changes that put such calls
into a chain, and the rules that have no place for a number.

## Implementation notes

The code of a rule is chosen before its parameters, as a finite list of texts. So no parameter can
come into a call as code, and a text that stands in a place for a number is seen there as what it
is.
-/

namespace RuleSchema

open Chain

/-- What a rule writes in a place for a number. -/
inductive Inserted where
  | number (n : Number)
  /-- A text that stands for no number, as it is. -/
  | copied (t : String)
deriving DecidableEq, Repr

namespace Inserted

def text : Inserted → String
  | number n => n.text
  | copied t => t

/-- A finite number is written. -/
def IsFinite : Inserted → Prop
  | number n => n.IsFinite
  | copied _ => False

instance : DecidablePred IsFinite
  | number n => inferInstanceAs (Decidable n.IsFinite)
  | copied _ => .isFalse id

/-- A number is one of the format, and a text that is copied is no literal. -/
def IsFair : Inserted → Prop
  | number n => n.InRange
  | copied t => ¬ Script.IsFiniteLiteral t

/-- What is written is a literal of a finite number exactly where it is one. -/
theorem isFiniteLiteral_text_iff {w : Inserted} (h : w.IsFair) :
    Script.IsFiniteLiteral w.text ↔ w.IsFinite := by
  cases w with
  | number n => exact Number.isFiniteLiteral_text_iff h
  | copied t => exact iff_of_false h id

end Inserted

/-- A part of a call. -/
inductive Part where
  /-- Code that is the same for all parameters. -/
  | code (text : String)
  /-- A text inside a literal. -/
  | literal (text : String)
  /-- A text that becomes a pattern. -/
  | pattern (text : String)
  /-- A date format that becomes a pattern. -/
  | format (text : String)
  /-- A place for a number. -/
  | place (w : Inserted)
deriving DecidableEq, Repr

namespace Part

def text : Part → String
  | code t => t
  | literal t => Script.literal t
  | pattern t => Script.Pattern.convert t
  | format t => (Script.DateFormat.pattern? t).getD "/^.+$/"
  | place w => w.text

/-- What stands in a part that is a place for a number. -/
def written? : Part → Option Inserted
  | place w => some w
  | _ => none

/-- Code is one of some texts. -/
def Fits (codes : List String) : Part → Prop
  | code t => t ∈ codes
  | _ => True

/-- The text of a row of parts. -/
def row (parts : List Part) : String := String.join (parts.map text)

theorem row_append (parts more : List Part) : row (parts ++ more) = row parts ++ row more := by
  rw [row, List.map_append, String.join_append, row, row]

theorem row_singleton (part : Part) : row [part] = part.text := by
  rw [row, List.map_singleton, String.join_cons, String.join_nil, String.append_empty]

end Part

/-- A text is a row of parts whose code is one of some texts, and in its places for numbers stands
what is written, in this order. -/
def Made (codes : List String) (written : List Inserted) (text : String) : Prop :=
  ∃ parts : List Part, (∀ part ∈ parts, part.Fits codes) ∧
    parts.filterMap Part.written? = written ∧ text = Part.row parts

section Texts

variable {codes more : List String} {written others : List Inserted} {s t : String}

theorem Made.mono (h : Made codes written s) (hcodes : codes ⊆ more) : Made more written s := by
  obtain ⟨parts, hfit, hwritten, heq⟩ := h
  refine ⟨parts, fun part hpart => ?_, hwritten, heq⟩
  have hpart := hfit part hpart
  cases part with
  | code t => exact hcodes hpart
  | literal | pattern | format | place => trivial

theorem Made.append (h : Made codes written s) (h' : Made codes others t) :
    Made codes (written ++ others) (s ++ t) := by
  obtain ⟨parts, hfit, rfl, rfl⟩ := h
  obtain ⟨rest, hrest, rfl, rfl⟩ := h'
  exact ⟨parts ++ rest, List.forall_mem_append.mpr ⟨hfit, hrest⟩, List.filterMap_append,
    (Part.row_append parts rest).symm⟩

theorem made_part (part : Part) (h : part.Fits codes) :
    Made codes part.written?.toList part.text := by
  refine ⟨[part], List.forall_mem_singleton.mpr h, ?_, (Part.row_singleton part).symm⟩
  cases hpart : part.written? with
  | none => rw [List.filterMap_cons_none hpart]; rfl
  | some w => rw [List.filterMap_cons_some hpart]; rfl

theorem made_code (h : s ∈ codes) : Made codes [] s := made_part (.code s) h

theorem made_join {κ : Type} {sep : String} (hsep : sep ∈ codes) {inner : κ → List Inserted}
    {piece : κ → String} (h : ∀ k, Made codes (inner k) (piece k)) (items : List κ) :
    Made codes (items.flatMap inner) (Text.join sep (items.map piece)) := by
  induction items with
  | nil => exact ⟨[], List.forall_mem_nil _, rfl, rfl⟩
  | cons k rest ih =>
      cases rest with
      | nil =>
          rw [List.flatMap_singleton]
          exact h k
      | cons next rest =>
          rw [List.flatMap_cons, ← List.append_nil (inner k)]
          exact ((h k).append (made_code hsep)).append ih

end Texts

/-- Texts are made of code that does not depend on the index. -/
def Uniform {ι : Type} (written : ι → List Inserted) (text : ι → String) : Prop :=
  ∃ codes, ∀ i, Made codes (written i) (text i)

section Uniform

variable {ι : Type} {written others : ι → List Inserted} {f g : ι → String}

theorem uniform_code (code : String) : Uniform (fun _ : ι => []) fun _ => code :=
  ⟨[code], fun _ => made_code (List.mem_singleton_self code)⟩

theorem uniform_literal (t : ι → String) : Uniform (fun _ => []) fun i => Script.literal (t i) :=
  ⟨[], fun i => made_part (.literal (t i)) trivial⟩

theorem uniform_pattern (t : ι → String) :
    Uniform (fun _ => []) fun i => Script.Pattern.convert (t i) :=
  ⟨[], fun i => made_part (.pattern (t i)) trivial⟩

theorem uniform_format (t : ι → String) :
    Uniform (fun _ => []) fun i => (Script.DateFormat.pattern? (t i)).getD "/^.+$/" :=
  ⟨[], fun i => made_part (.format (t i)) trivial⟩

theorem uniform_place (w : ι → Inserted) : Uniform (fun i => [w i]) fun i => (w i).text :=
  ⟨[], fun i => made_part (.place (w i)) trivial⟩

theorem Uniform.append (h : Uniform written f) (h' : Uniform others g) :
    Uniform (fun i => written i ++ others i) fun i => f i ++ g i := by
  obtain ⟨codes, hf⟩ := h
  obtain ⟨more, hg⟩ := h'
  exact ⟨codes ++ more, fun i => ((hf i).mono (List.subset_append_left _ _)).append
    ((hg i).mono (List.subset_append_right _ _))⟩

/-- Code before a text. -/
theorem Uniform.after (h : Uniform written f) (code : String) :
    Uniform written fun i => code ++ f i := (uniform_code code).append h

/-- Code behind a text. -/
theorem Uniform.before (h : Uniform written f) (code : String) :
    Uniform written fun i => f i ++ code := by
  simpa only [List.append_nil] using h.append (uniform_code code)

theorem Uniform.join {κ : Type} {inner : κ → List Inserted} {piece : κ → String}
    (h : Uniform inner piece) (sep : String) (items : ι → List κ) :
    Uniform (fun i => (items i).flatMap inner) fun i => Text.join sep ((items i).map piece) := by
  obtain ⟨codes, hpiece⟩ := h
  exact ⟨sep :: codes, fun i => made_join List.mem_cons_self
    (fun k => (hpiece k).mono (List.subset_cons_self _ _)) (items i)⟩

/-- A list of texts without places for numbers. -/
theorem Uniform.join_nowhere {κ : Type} {piece : κ → String} (h : Uniform (fun _ => []) piece)
    (sep : String) (items : ι → List κ) :
    Uniform (fun _ => []) fun i => Text.join sep ((items i).map piece) := by
  have hnone : (fun i => (items i).flatMap fun _ : κ => ([] : List Inserted)) = fun _ => [] :=
    funext fun _ => List.flatMap_eq_nil_iff.mpr fun _ _ => rfl
  exact hnone ▸ h.join sep items

theorem uniform_literalList (values : ι → List String) :
    Uniform (fun _ => []) fun i => Script.literalList (values i) :=
  (((uniform_literal id).join_nowhere ", " values).after "[").before "]"

theorem Uniform.refine (h : Uniform written f) (escaped : String) :
    Uniform written fun i => TextRule.refine (f i) escaped :=
  (((h.after ".refine((val) => ").before ", ").before _).before ")"

theorem Uniform.refineBlock (h : Uniform written f) (escaped : String) :
    Uniform written fun i => TextRule.refineBlock (f i) escaped :=
  (((h.before " ").after "\x7b").before "\x7d").refine escaped

end Uniform

/-- A change puts only calls into a chain that are made of such code, with some of what is written
in their places for numbers. -/
def Inserts {α : Type} (codes : List String) (written : List Inserted) (x : Building α) : Prop :=
  ∀ b, ∀ call ∈ (after x b).chain, call ∈ b.chain ∨ ∃ shown ⊆ written, Made codes shown call

section Changes

variable {α β : Type} {codes more : List String} {written others : List Inserted} {call : String}

theorem Inserts.mono {x : Building α} (h : Inserts codes written x) (hcodes : codes ⊆ more)
    (hwritten : written ⊆ others) : Inserts more others x :=
  fun b call hc => (h b call hc).imp_right fun ⟨shown, hshown, hmade⟩ =>
    ⟨shown, List.Subset.trans hshown hwritten, hmade.mono hcodes⟩

theorem inserts_pure (a : α) : Inserts codes written (pure a) := fun _ _ => .inl

theorem inserts_throw (fault : Fault) : Inserts codes written (throw fault : Building α) :=
  fun _ _ => .inl

theorem Inserts.bind {x : Building α} {f : α → Building β} (hx : Inserts codes written x)
    (hf : ∀ a, Inserts codes written (f a)) : Inserts codes written (x >>= f) := by
  intro b call hc
  rcases after_bind x f b with heq | ⟨a, heq⟩
  · rw [heq] at hc
    exact hx b call hc
  · rw [heq] at hc
    rcases hf a _ call hc with hold | hnew
    · exact hx b call hold
    · exact .inr hnew

/-- A change of anything but the chain. -/
theorem inserts_modify {f : Builder → Builder} (h : ∀ b, (f b).chain = b.chain) :
    Inserts codes written (modify f) := fun b _ hc => .inl (h b ▸ hc)

theorem inserts_remove (needle : String) :
    Inserts codes written (modify (·.removeContaining needle)) :=
  fun _ _ hc => .inl (List.mem_of_mem_filter hc)

theorem inserts_add (h : Made codes written call) : Inserts codes written (Building.add call) := by
  intro b c hc
  rcases List.mem_append.mp hc with hold | hnew
  · exact .inl hold
  · exact .inr ⟨written, List.Subset.refl _, List.mem_singleton.mp hnew ▸ h⟩

theorem inserts_remove_add (needle : String) (h : Made codes written call) :
    Inserts codes written (do modify (·.removeContaining needle); Building.add call) :=
  (inserts_remove needle).bind fun _ => inserts_add h

theorem inserts_replace (method : String) (h : Made codes written call) :
    Inserts codes written (Building.replace method call) := inserts_remove_add (method ++ "(") h

theorem inserts_raise {bound : Number} {message : Option String}
    (h : Made codes written (".min(" ++ bound.text ++ Script.messageArgument message ++ ")")) :
    Inserts codes written (Length.raise bound message) := by
  intro b call hc
  rw [after_raise] at hc
  split at hc
  · exact .inl hc
  · exact inserts_replace "min" h { b with least := some bound } call hc

theorem inserts_lower {bound : Number} {message : Option String}
    (h : Made codes written (".max(" ++ bound.text ++ Script.messageArgument message ++ ")")) :
    Inserts codes written (Length.lower bound message) := by
  intro b call hc
  rw [after_lower] at hc
  split at hc
  · exact .inl hc
  · exact inserts_replace "max" h { b with greatest := some bound } call hc

end Changes

/-- Parameters as the arguments of a rule. -/
def arguments (parameters : List String) : List Argument := parameters.map fun p => some (.text p)

theorem display_arguments (parameters : List String) :
    (arguments parameters).map Argument.display = parameters := by
  rw [arguments, List.map_map]
  exact List.map_id _

/-- What a rule writes in places for numbers, by its parameters. -/
abbrev Places := List String → List Inserted

/-- A rule that has no place for a number. -/
def nowhere : Places := fun _ => []

/-- What happens with parameters and a message puts the parameters inside literals, into patterns
and into places for numbers, and the code around them does not depend on them. Without a message, on
the builders that are meant, each of these places is there. -/
def ConfinesOn (P : Builder → Prop) (x : List String → Option String → Building Unit)
    (places : Places) : Prop :=
  ∀ message, ∃ codes, (∀ parameters, Inserts codes (places parameters) (x parameters message)) ∧
    (message = none → ∀ parameters b, P b → ∀ w ∈ places parameters,
      ∃ call ∈ (after (x parameters none) b).chain,
        ∃ shown ⊆ places parameters, w ∈ shown ∧ Made codes shown call)

/-- A rule does so on builders that no rule has been applied to. -/
def Confines (method : RuleMethod) (places : Places) : Prop :=
  ConfinesOn Builder.IsBare (fun parameters => method (arguments parameters)) places

section Nowhere

variable {method : RuleMethod}

theorem confines_nowhere (h : ∀ message, ∃ codes, ∀ parameters,
    Inserts codes [] (method (arguments parameters) message)) : Confines method nowhere := by
  intro message
  obtain ⟨codes, hinserts⟩ := h message
  exact ⟨codes, hinserts, fun _ _ _ _ _ hw => by cases hw⟩

theorem confines_nothing : Confines Building.nothing nowhere :=
  confines_nowhere fun _ => ⟨[], fun _ => inserts_pure ()⟩

/-- A rule that only changes something else than the chain. -/
theorem confines_modify {f : List Argument → Option String → Builder → Builder}
    (hmethod : ∀ arguments message, method arguments message = modify (f arguments message))
    (h : ∀ arguments message b, (f arguments message b).chain = b.chain) :
    Confines method nowhere :=
  confines_nowhere fun message => ⟨[], fun parameters => by
    rw [hmethod]
    exact inserts_modify (h _ message)⟩

theorem confines_required : Confines Building.required nowhere := by
  refine confines_nowhere fun message => ⟨[], fun _ => ?_⟩
  unfold Building.required
  split
  · exact inserts_modify fun _ => rfl
  · exact inserts_pure ()

/-- A call that is the same for all parameters. -/
theorem confines_add {call : Option String → String}
    (h : ∀ arguments message, method arguments message = Building.add (call message)) :
    Confines method nowhere :=
  confines_nowhere fun message => ⟨[call message], fun parameters => by
    rw [h]
    exact inserts_add (made_code (List.mem_singleton_self _))⟩

/-- A call that is the same for all parameters, in place of earlier ones. -/
theorem confines_remove_add {needle : String} {call : Option String → String}
    (h : ∀ arguments message, method arguments message =
      (do modify (·.removeContaining needle); Building.add (call message))) :
    Confines method nowhere :=
  confines_nowhere fun message => ⟨[call message], fun parameters => by
    rw [h]
    exact inserts_remove_add needle (made_code (List.mem_singleton_self _))⟩

end Nowhere

namespace TextRule

theorem confines_required : Confines required nowhere := by
  refine confines_nowhere fun message => ?_
  let check := refineBlock (whenMissing "false" ++
    " if (typeof val === \"string\") " ++ braces " return val.trim() !== \"\"; " ++
    " return true;") (escapedOr message defaultRequired) ++ mark "__required_refine__"
  let call := ".min(" ++ (Number.whole 1).text ++ Script.messageArgument message ++ ")"
  refine ⟨[check, call], fun parameters b => ?_⟩
  change ∀ c ∈ (after (if (override? b).isSome then _ else _) b).chain, _
  split
  · exact inserts_remove_add "__required_refine__" (made_code List.mem_cons_self) b
  · exact inserts_raise (made_code (s := call) (by simp)) { b with requiredMessage := _ }

theorem confines_regex : Confines regex nowhere := by
  refine confines_nowhere fun message => ?_
  obtain ⟨codes, hmade⟩ : Uniform (fun _ => []) fun text : String =>
      matching (Script.Pattern.convert text) message :=
    (((uniform_pattern id).after ".regex(").before _).before ")"
  refine ⟨codes, fun parameters => ?_⟩
  unfold regex
  split
  · exact inserts_pure ()
  · exact inserts_remove_add _ (hmade _)

theorem confines_notRegex : Confines notRegex nowhere := by
  refine confines_nowhere fun message => ?_
  obtain ⟨codes, hmade⟩ : Uniform (fun _ => []) fun text : String =>
      refineBlock (whenMissing "true" ++ " return !" ++ Script.Pattern.convert text ++
        ".test(val);") (escapedOr message "The value format is invalid.") :=
    (((uniform_pattern id).after _).before ".test(val);").refineBlock _
  refine ⟨codes, fun parameters => ?_⟩
  unfold notRegex
  split
  · exact inserts_pure ()
  · exact inserts_add (hmade _)

/-- A check with a list of literals of all parameters. -/
theorem uniform_literals (lead : String) : Uniform (fun _ => []) fun parameters : List String =>
    lead ++ literals (arguments parameters) := by
  simp only [literals, display_arguments]
  exact (uniform_literalList id).after lead

theorem confines_affixed (method affix fallback : String) :
    Confines (affixed method affix fallback) nowhere := by
  refine confines_nowhere fun message => ?_
  obtain ⟨codes, hone⟩ : Uniform (fun _ => []) fun only : String => "." ++ method ++ "('" ++
      Script.escape only ++ "'" ++ Script.messageArgument message ++ ")" := by
    have hcall := (((uniform_literal id).after ("." ++ method ++ "(")).before
      (Script.messageArgument message)).before ")"
    have hopen : "('" = "(" ++ "'" := by decide
    simpa only [hopen, Script.literal, String.append_assoc, id_eq] using hcall
  obtain ⟨more, hseveral⟩ : Uniform (fun _ => []) fun parameters : List String =>
      refineBlock (whenMissing "true" ++ whenNoText "false" ++ " return " ++
        literals (arguments parameters) ++ ".some((" ++ affix ++ ") => val." ++ method ++ "(" ++
        affix ++ "));") (escapedOr message fallback) :=
    ((((((((uniform_literals _).before _).before _).before _).before _).before _).before _).before
      _).refineBlock _
  refine ⟨codes ++ more, fun parameters => ?_⟩
  cases parameters with
  | nil => exact inserts_pure ()
  | cons first more =>
      cases more with
      | nil => exact inserts_replace method ((hone first).mono (List.subset_append_left _ _))
      | cons second rest =>
          exact inserts_replace method
            ((hseveral (first :: second :: rest)).mono (List.subset_append_right _ _))

theorem confines_notAffixed (method affix fallback : String) :
    Confines (notAffixed method affix fallback) nowhere := by
  refine confines_nowhere fun message => ?_
  obtain ⟨codes, hmade⟩ : Uniform (fun _ => []) fun parameters : List String =>
      refineBlock (whenMissing "true" ++ whenNoText "true" ++ " return !" ++
        literals (arguments parameters) ++ ".some((" ++ affix ++ ") => val." ++ method ++ "(" ++
        affix ++ "));") (escapedOr message fallback) :=
    ((((((((uniform_literals _).before _).before _).before _).before _).before _).before _).before
      _).refineBlock _
  refine ⟨codes, fun parameters => ?_⟩
  cases parameters with
  | nil => exact inserts_pure ()
  | cons p rest => exact inserts_add (hmade (p :: rest))

theorem confines_listed (negation : String) : Confines (listed negation) nowhere := by
  refine confines_nowhere fun message => ?_
  obtain ⟨codes, hmade⟩ : Uniform (fun _ => []) fun parameters : List String =>
      refine (negation ++ literals (arguments parameters) ++ ".includes(val)")
        (escapedOr message "The selected value is invalid.") :=
    ((uniform_literals negation).before _).refine _
  refine ⟨codes, fun parameters => ?_⟩
  cases parameters with
  | nil => exact inserts_pure ()
  | cons p rest => exact inserts_add (hmade (p :: rest))

/-- Formats that all have a pattern have the patterns of their own. -/
theorem mapM_pattern?_eq {formats patterns : List String}
    (h : formats.mapM Script.DateFormat.pattern? = some patterns) :
    patterns = formats.map fun f => (Script.DateFormat.pattern? f).getD "/^.+$/" := by
  induction formats generalizing patterns with
  | nil =>
      rw [List.mapM_nil] at h
      exact (Option.some.inj h).symm
  | cons f rest ih =>
      rw [List.mapM_cons] at h
      obtain ⟨pattern, hpattern, h⟩ := Option.bind_eq_some_iff.mp h
      obtain ⟨others, hothers, h⟩ := Option.bind_eq_some_iff.mp h
      rw [← Option.some.inj h, ih hothers, List.map_cons, hpattern, Option.getD_some]

theorem confines_dateFormat : Confines dateFormat nowhere := by
  refine confines_nowhere fun message => ?_
  let call (pattern : String) := matching pattern message ++ mark "__date_format__"
  let check (tests : String) := refineBlock (whenMissing "true" ++ " return " ++ tests ++ ";")
    (escapedOr message "The value does not match the expected date format.") ++
      mark "__date_format__"
  obtain ⟨codes, hone⟩ : Uniform (fun _ => []) fun f : String =>
      call ((Script.DateFormat.pattern? f).getD "/^.+$/") :=
    ((((uniform_format id).after ".regex(").before _).before ")").before _
  obtain ⟨more, hseveral⟩ : Uniform (fun _ => []) fun formats : List String =>
      check (Text.join " || " (formats.map fun f =>
        (Script.DateFormat.pattern? f).getD "/^.+$/" ++ ".test(val)")) :=
    ((((((uniform_format id).before ".test(val)").join_nowhere " || " id).after _).before
      ";").refineBlock _).before _
  refine ⟨call "/^.+$/" :: (codes ++ more), fun parameters => ?_⟩
  unfold dateFormat
  rw [display_arguments]
  generalize parameters.filter (! Text.isEmpty ·) = formats
  by_cases hempty : formats.isEmpty = true
  · rw [if_pos hempty]
    exact inserts_pure ()
  · rw [if_neg hempty]
    cases hpatterns : formats.mapM Script.DateFormat.pattern? with
    | none => exact inserts_remove_add _ (made_code List.mem_cons_self)
    | some patterns =>
        rw [Option.getD_some, mapM_pattern?_eq hpatterns]
        match formats with
        | [] => exact absurd rfl hempty
        | [only] => exact inserts_remove_add _ ((hone only).mono (by simp))
        | first :: second :: rest =>
            have hsub : more ⊆ call "/^.+$/" :: (codes ++ more) := by simp
            have hmade := (hseveral (first :: second :: rest)).mono hsub
            simp only [List.map_cons, List.map_map] at hmade ⊢
            exact inserts_remove_add _ hmade

theorem confines_marked (name pattern : String) : Confines (marked name pattern) nowhere :=
  confines_remove_add fun _ _ => rfl

theorem confines_cased (method fallback : String) : Confines (cased method fallback) nowhere :=
  confines_remove_add fun _ _ => rfl

theorem confines_uuid : Confines uuid nowhere := confines_remove_add fun _ _ => rfl

theorem confines_json : Confines json nowhere := confines_add fun _ _ => rfl

theorem confines_date : Confines date nowhere := confines_add fun _ _ => rfl

theorem confines_macAddress : Confines macAddress nowhere := confines_remove_add fun _ _ => rfl

theorem confines_format (name : String) : Confines (format name) nowhere :=
  confines_modify (fun _ _ => rfl) fun _ _ => chain_setOverride _

theorem confines_ip : Confines ip nowhere :=
  confines_modify (fun _ _ => rfl) fun _ _ => chain_setOverride _

theorem confines_url : Confines url nowhere := by
  refine confines_modify (fun _ _ => rfl) fun _ _ b => ?_
  split <;> rfl

theorem confines_passwordPattern (pattern fallback : String) :
    Confines (passwordPattern pattern fallback) nowhere := confines_add fun _ _ => rfl

theorem confines_passwordMixed : Confines passwordMixed nowhere := confines_add fun _ _ => rfl

end TextRule

end RuleSchema
