import RuleSchema.Proofs.ChainEdits

/-!
# What a rule adds to a chain

The rules on texts that are neither on the length nor for a format change nothing but the chain. The
calls that they add are told apart by how they begin: none of them is for a least length, and the
required rule alone adds a check that a value is there.
-/

namespace RuleSchema.Chain

open TextRule

/-- How the call begins that checks that a value is there. -/
def presenceStart : String := ".refine((val) => " ++ ("\x7b" ++ whenMissing "false")

/-- How a call begins that lets a missing value pass. -/
def passStart : String := ".refine((val) => " ++ ("\x7b" ++ whenMissing "true")

/-- The check that a value is there and is no blank text. -/
def presenceCheck (message : Option String) : String :=
  refineBlock (whenMissing "false" ++
    " if (typeof val === \"string\") " ++ braces " return val.trim() !== \"\"; " ++
    " return true;") (escapedOr message defaultRequired) ++ mark "__required_refine__"

/-- The call for a least length of one. -/
def leastCall (message : Option String) : String :=
  ".min(" ++ (Number.whole 1).text ++ Script.messageArgument message ++ ")"

/-- A call begins with a text. -/
def Opens (start call : String) : Prop := start.toList <+: call.toList

/-- Neither of two texts begins with the other. -/
def Apart (s t : String) : Prop := ¬ Opens s t ∧ ¬ Opens t s

instance (start call : String) : Decidable (Opens start call) :=
  inferInstanceAs (Decidable (start.toList <+: call.toList))

instance (s t : String) : Decidable (Apart s t) :=
  inferInstanceAs (Decidable (¬ Opens s t ∧ ¬ Opens t s))

/-- A call is neither for a least length nor for the presence of a value. -/
def IsSide (call : String) : Prop := ¬ Opens ".min(" call ∧ ¬ Opens presenceStart call

section Starts

variable {start call more s t : String}

theorem opens_refl (s : String) : Opens s s := List.prefix_rfl

theorem Opens.append (h : Opens start call) (more : String) : Opens start (call ++ more) := by
  rw [Opens, String.toList_append]
  exact h.trans (List.prefix_append _ _)

theorem Opens.append_left (h : Opens start call) (first : String) :
    Opens (first ++ start) (first ++ call) := by
  rw [Opens, String.toList_append, String.toList_append]
  exact (List.prefix_append_right_inj _).mpr h

theorem Apart.not_opens (h : Apart s t) (ht : Opens t call) : ¬ Opens s call := fun hs =>
  (List.prefix_or_prefix_of_prefix hs ht).elim h.1 h.2

theorem isSide_of_opens (h : Opens start call) (hleast : Apart ".min(" start)
    (hpresence : Apart presenceStart start) : IsSide call :=
  ⟨hleast.not_opens h, hpresence.not_opens h⟩

theorem opens_refineBlock {first statements : String} (h : Opens first statements)
    (escaped : String) : Opens (".refine((val) => " ++ ("\x7b" ++ first))
      (refineBlock statements escaped) :=
  ((((((h.append " ").append_left "\x7b").append "\x7d").append_left ".refine((val) => ").append
    ", ").append (messageOption escaped)).append ")"

theorem opens_presenceCheck (message : Option String) :
    Opens presenceStart (presenceCheck message) :=
  (opens_refineBlock ((((opens_refl _).append _).append _).append _) _).append _

theorem opens_leastCall (message : Option String) : Opens ".min(1" (leastCall message) :=
  ((opens_refl (".min(" ++ (Number.whole 1).text)).append _).append ")"

/-- A call that lets a missing value pass. -/
theorem isSide_of_passes (h : Opens passStart call) : IsSide call :=
  isSide_of_opens h (by decide +kernel) (by decide +kernel)

theorem opens_passing (statements escaped : String) :
    Opens passStart (refineBlock (whenMissing "true" ++ statements) escaped) :=
  opens_refineBlock ((opens_refl _).append statements) escaped

end Starts

/-- A method takes the calls with the texts that it looks for out of the chain and adds calls that
are neither for a least length nor for presence. It changes nothing else. -/
def Amends (method : RuleMethod) (search : Search) : Prop :=
  ∀ arguments message b, ∃ added,
    after (method arguments message) b =
      { b with chain := keep (search b arguments) b.chain ++ added } ∧
    ∀ call ∈ added, IsSide call

section Methods

variable {call name : String}

theorem amends_of_none {x : Building Unit} {b : Builder} (h : after x b = b) :
    ∃ added, after x b = { b with chain := keep [] b.chain ++ added } ∧
      ∀ call ∈ added, IsSide call := by
  refine ⟨[], ?_, nofun⟩
  rw [h, keep_nil, List.append_nil]

theorem amends_of_add (b : Builder) (h : IsSide call) :
    ∃ added, after (Building.add call) b = { b with chain := keep [] b.chain ++ added } ∧
      ∀ call ∈ added, IsSide call := by
  refine ⟨[call], ?_, List.forall_mem_singleton.mpr h⟩
  rw [keep_nil]
  rfl

theorem amends_of_remove_add (b : Builder) (text : String) (h : IsSide call) :
    ∃ added, after (do modify (·.removeContaining text); Building.add call) b =
        { b with chain := keep [text] b.chain ++ added } ∧ ∀ call ∈ added, IsSide call := by
  refine ⟨[call], ?_, List.forall_mem_singleton.mpr h⟩
  rw [keep_singleton]
  rfl

theorem amends_nothing : Amends Building.nothing never := fun _ _ _ => amends_of_none rfl

/-- A check by a pattern, whatever is put behind it. -/
theorem isSide_matching (pattern : String) (message : Option String) (more : String) :
    IsSide (matching pattern message ++ more) :=
  isSide_of_opens (((((opens_refl ".regex(").append pattern).append _).append ")").append more)
    (by decide) (by decide +kernel)

theorem amends_regex : Amends regex patternTexts := by
  intro arguments message b
  unfold regex patternTexts
  cases firstText? arguments with
  | none => exact amends_of_none rfl
  | some text =>
      have hside := isSide_matching (Script.Pattern.convert text) message ""
      rw [String.append_empty] at hside
      exact amends_of_remove_add b _ hside

theorem amends_notRegex : Amends notRegex never := by
  intro arguments message b
  unfold notRegex
  cases firstText? arguments with
  | none => exact amends_of_none rfl
  | some text =>
      refine amends_of_add b (isSide_of_passes ?_)
      simp only [String.append_assoc]
      exact opens_passing _ _

theorem amends_uuid : Amends uuid (always "uuid(") := by
  intro arguments message b
  refine amends_of_remove_add b "uuid(" ?_
  cases message with
  | none => exact ⟨by decide, by decide +kernel⟩
  | some m =>
      exact isSide_of_opens (((opens_refl ".uuid('").append _).append _) (by decide)
        (by decide +kernel)

theorem amends_marked (name pattern : String) : Amends (marked name pattern) (always name) :=
  fun _ _ b => amends_of_remove_add b name (isSide_matching pattern _ _)

theorem amends_cased (fallback : String) (hleast : Apart ".min(" ("." ++ name))
    (hpresence : Apart presenceStart ("." ++ name)) :
    Amends (cased name fallback) (always (name ++ "(")) :=
  fun _ _ b => amends_of_remove_add b (name ++ "(")
    (isSide_of_opens ((((opens_refl ("." ++ name)).append _).append _).append _) hleast hpresence)

theorem amends_affixed (affix fallback : String) (hleast : Apart ".min(" ("." ++ name))
    (hpresence : Apart presenceStart ("." ++ name)) :
    Amends (affixed name affix fallback) (withArguments (name ++ "(")) := by
  intro arguments message b
  match arguments with
  | [] => exact amends_of_none rfl
  | [_] =>
      exact amends_of_remove_add b (name ++ "(") (isSide_of_opens
        ((((((opens_refl ("." ++ name)).append _).append _).append _).append _).append _)
        hleast hpresence)
  | first :: second :: rest =>
      refine amends_of_remove_add b (name ++ "(") (isSide_of_passes ?_)
      simp only [String.append_assoc]
      exact opens_passing _ _

theorem amends_notAffixed (name affix fallback : String) :
    Amends (notAffixed name affix fallback) never := by
  intro arguments message b
  cases arguments with
  | nil => exact amends_of_none rfl
  | cons a rest =>
      refine amends_of_add b (isSide_of_passes ?_)
      simp only [String.append_assoc]
      exact opens_passing _ _

theorem amends_listed {negation : String}
    (hleast : Apart ".min(" (".refine((val) => " ++ (negation ++ "[")))
    (hpresence : Apart presenceStart (".refine((val) => " ++ (negation ++ "["))) :
    Amends (listed negation) never := by
  intro arguments message b
  cases arguments with
  | nil => exact amends_of_none rfl
  | cons a rest =>
      refine amends_of_add b (isSide_of_opens ?_ hleast hpresence)
      have hvalues : Opens "[" (literals (a :: rest)) := ((opens_refl "[").append _).append _
      exact (((((hvalues.append_left negation).append _).append_left ".refine((val) => ").append
        _).append _).append _

theorem amends_json : Amends json never := by
  intro arguments message b
  refine amends_of_add b (isSide_of_passes ?_)
  simp only [String.append_assoc]
  exact opens_passing _ _

theorem amends_macAddress : Amends macAddress (always "__mac_refine__") := by
  intro arguments message b
  refine amends_of_remove_add b "__mac_refine__" (isSide_of_passes (Opens.append ?_ _))
  simp only [String.append_assoc]
  exact opens_passing _ _

theorem amends_date : Amends date never := by
  intro arguments message b
  refine amends_of_add b (isSide_of_passes ?_)
  simp only [String.append_assoc]
  exact opens_passing _ _

theorem amends_dateFormat : Amends dateFormat formatTexts := by
  intro arguments message b
  unfold dateFormat formatTexts
  dsimp only
  by_cases h : ((arguments.map Argument.display).filter (! Text.isEmpty ·)).isEmpty = true
  · rw [if_pos h, if_pos h]
    exact amends_of_none rfl
  · rw [if_neg h, if_neg h]
    generalize ((List.filter _ _).mapM Script.DateFormat.pattern?).getD ["/^.+$/"] = patterns
    have hseveral : ∀ tests escaped : String, IsSide (refineBlock
        (whenMissing "true" ++ " return " ++ tests ++ ";") escaped ++ mark "__date_format__") := by
      intro tests escaped
      refine isSide_of_passes (Opens.append ?_ _)
      simp only [String.append_assoc]
      exact opens_passing _ _
    match patterns with
    | [] => exact amends_of_remove_add b _ (hseveral _ _)
    | [_] => exact amends_of_remove_add b _ (isSide_matching _ _ _)
    | _ :: _ :: _ => exact amends_of_remove_add b _ (hseveral _ _)

theorem amends_trim : Amends Length.trim never := by
  intro arguments message b
  rw [after_trim]
  split
  · exact ⟨[], by rw [never, keep_nil, List.append_nil], nofun⟩
  · refine ⟨[".trim()"], ?_, List.forall_mem_singleton.mpr ⟨by decide, by decide +kernel⟩⟩
    rw [never, keep_nil]
    rfl

end Methods

/-- The rules that put a format in place of the base expression. -/
def formatRules : List String := ["ip", "ipv4", "ipv6", "ulid"]

/-- The rules on the length of a text. -/
def sizeRules : List String := ["min", "max", "lt", "lte", "gt", "gte", "between", "size"]

theorem amends_methods : ∀ p ∈ methods, p.1 ≠ "required" → p.1 ∉ formatRules →
    p.1 ∉ sizeRules → Amends p.2 (searchOf p.1) := by
  have hformat : ∀ {name : String} {method : RuleMethod}, name ∈ formatRules →
      name ≠ "required" → name ∉ formatRules → name ∉ sizeRules →
        Amends method (searchOf name) := fun h _ hf _ => absurd h hf
  have hsize : ∀ {name : String} {method : RuleMethod}, name ∈ sizeRules →
      name ≠ "required" → name ∉ formatRules → name ∉ sizeRules →
        Amends method (searchOf name) := fun h _ _ hs => absurd h hs
  simp only [methods, Length.methods, List.cons_append, List.nil_append, List.forall_mem_cons]
  exact ⟨fun h => absurd rfl h, fun _ _ _ => amends_nothing, fun _ _ _ => amends_regex,
    fun _ _ _ => amends_notRegex, fun _ _ _ => amends_uuid, fun _ _ _ => amends_marked _ _,
    fun _ _ _ => amends_marked _ _, fun _ _ _ => amends_marked _ _,
    fun _ _ _ => amends_marked _ _,
    fun _ _ _ => amends_cased _ (by decide) (by decide +kernel),
    fun _ _ _ => amends_cased _ (by decide) (by decide +kernel),
    fun _ _ _ => amends_affixed _ _ (by decide) (by decide +kernel),
    fun _ _ _ => amends_affixed _ _ (by decide) (by decide +kernel),
    fun _ _ _ => amends_notAffixed _ _ _, fun _ _ _ => amends_notAffixed _ _ _,
    fun _ _ _ => amends_listed (by decide +kernel) (by decide +kernel),
    fun _ _ _ => amends_listed (by decide +kernel) (by decide +kernel),
    fun _ _ _ => amends_json, hformat (by decide), hformat (by decide), hformat (by decide),
    hformat (by decide), fun _ _ _ => amends_macAddress, fun _ _ _ => amends_date,
    fun _ _ _ => amends_dateFormat, hsize (by decide), hsize (by decide), hsize (by decide),
    hsize (by decide), hsize (by decide), hsize (by decide), hsize (by decide), hsize (by decide),
    fun _ _ _ => amends_trim, by simp⟩

end RuleSchema.Chain
