import RuleSchema.Builder.Render
import RuleSchema.Proofs.AddedCalls

/-!
# Required texts of a format

A required text gets a check of its own if a format takes the place of its base expression, and a
least length otherwise. Which of the two depends on the rules before it. Both stay in the chain
until a later rule looks for one of their texts.
-/

namespace RuleSchema.Chain

open TextRule

namespace RuleCall

/-- The name under which a text knows the rule of a call. -/
def name (c : RuleCall) : String := Builder.methodName c.rule

def IsRequired (c : RuleCall) : Prop := c.name = "required"

def IsFormat (c : RuleCall) : Prop := c.name ∈ formatRules

def IsSize (c : RuleCall) : Prop := c.name ∈ sizeRules

instance : DecidablePred IsRequired := fun c => inferInstanceAs (Decidable (c.name = "required"))

instance : DecidablePred IsFormat := fun c => inferInstanceAs (Decidable (c.name ∈ formatRules))

instance : DecidablePred IsSize := fun c => inferInstanceAs (Decidable (c.name ∈ sizeRules))

/-- The expression of the format that a rule puts in place of the base expression. -/
def formatExpression (c : RuleCall) : String :=
  if c.name = "ip" then
    "z.union([" ++ formatCall "ipv4" c.message ++ ", " ++ formatCall "ipv6" c.message ++ "])"
  else formatCall c.name c.message

/-- What a rule that is not on the length makes of a text whose least length is one if it has any.
-/
inductive Effect (c : RuleCall) (b : Builder) : Builder → Prop
  /-- A required text of a format gets a check in place of an earlier one. -/
  | checked (hc : c.IsRequired) (ho : (override? b).isSome = true) :
      Effect c b { b with
        chain := keep ["__required_refine__"] b.chain ++ [presenceCheck c.message] }
  /-- A required text without a format gets a least length. -/
  | bounded (hc : c.IsRequired) (ho : override? b = none) (hl : b.least = none) :
      Effect c b { b with
        requiredMessage := some (escapedOr c.message defaultRequired)
        least := some (.whole 1)
        chain := keep ["min("] b.chain ++ [leastCall c.message] }
  /-- A least length is kept with its message. -/
  | repeated (hc : c.IsRequired) (ho : override? b = none) (hl : b.least = some (.whole 1)) :
      Effect c b { b with requiredMessage := some (escapedOr c.message defaultRequired) }
  | formatted (hc : c.IsFormat) : Effect c b { b with base := .text (some c.formatExpression) }
  | amended (hr : ¬ c.IsRequired) (hf : ¬ c.IsFormat) (added : List String)
      (hadded : ∀ call ∈ added, IsSide call) :
      Effect c b { b with chain := keep (c.searched b) b.chain ++ added }

section Effects

variable {b : Builder} {c : RuleCall}

theorem IsFormat.name_eq (hc : c.IsFormat) :
    c.name = "ip" ∨ c.name = "ipv4" ∨ c.name = "ipv6" ∨ c.name = "ulid" := by
  simpa [IsFormat, formatRules] using hc

theorem effect_required (hb : IsText b) (hc : c.IsRequired)
    (hleast : b.least = none ∨ b.least = some (.whole 1)) : Effect c b (apply b c) := by
  have happly : apply b c = after (required c.arguments c.message) b := by
    rw [apply_eq hb, show Builder.methodName c.rule = "required" from hc]
    rfl
  have hafter : after (required c.arguments c.message) b =
      if (override? b).isSome then
        (b.removeContaining "__required_refine__").addCall (presenceCheck c.message)
      else after (Length.raise (.whole 1) c.message)
        { b with requiredMessage := some (escapedOr c.message defaultRequired) } := by
    change after (if (override? b).isSome then _ else _) b = _
    split <;> rfl
  rw [happly, hafter]
  by_cases ho : (override? b).isSome = true
  · rw [if_pos ho]
    have heffect := Effect.checked hc ho
    rw [keep_singleton] at heffect
    exact heffect
  · have hnone : override? b = none := by simpa using ho
    rw [if_neg ho, after_raise]
    rcases hleast with hl | hl
    · have heffect := Effect.bounded hc hnone hl
      rw [keep_singleton] at heffect
      rw [if_neg (by rw [hl]; decide)]
      exact heffect
    · rw [if_pos (by rw [hl]; decide)]
      exact Effect.repeated hc hnone hl

theorem effect_format (hb : IsText b) (hc : c.IsFormat) : Effect c b (apply b c) := by
  have happly : apply b c = setOverride c.formatExpression b := by
    rw [apply_eq hb, formatExpression]
    rcases hc.name_eq with h | h | h | h <;>
      rw [h, show Builder.methodName c.rule = _ from h] <;> rfl
  obtain ⟨format, hbase⟩ := hb
  rw [happly, setOverride, hbase]
  exact Effect.formatted hc

theorem effect_side (hb : IsText b) (hr : ¬ c.IsRequired) (hf : ¬ c.IsFormat) (hs : ¬ c.IsSize) :
    Effect c b (apply b c) := by
  rw [apply_eq hb]
  cases hl : methods.lookup (Builder.methodName c.rule) with
  | none =>
      have heffect := Effect.amended (b := b) hr hf [] nofun
      rw [searched, searchOf_eq_never hl, never, keep_nil, List.append_nil] at heffect
      exact heffect
  | some method =>
      have hm : (Builder.methodName c.rule, method) ∈ methods := Table.mem_of_lookup_eq_some hl
      obtain ⟨added, happly, hadded⟩ := amends_methods _ hm hr hf hs c.arguments c.message b
      dsimp only at happly ⊢
      rw [happly]
      exact Effect.amended hr hf added hadded

theorem effect_apply (hb : IsText b) (hs : ¬ c.IsSize)
    (hleast : b.least = none ∨ b.least = some (.whole 1)) : Effect c b (apply b c) := by
  by_cases hr : c.IsRequired
  · exact effect_required hb hr hleast
  · by_cases hf : c.IsFormat
    · exact effect_format hb hf
    · exact effect_side hb hr hf hs

/-- The calls that a rule may add: side calls, the check for presence behind a format, and the
least length in front of one where there is none yet. -/
def Puts (c : RuleCall) (b : Builder) (call : String) : Prop :=
  IsSide call ∨
    c.IsRequired ∧ (override? b).isSome = true ∧ call = presenceCheck c.message ∨
    c.IsRequired ∧ override? b = none ∧ b.least = none ∧ call = leastCall c.message

/-- What a rule looks for is taken out of the chain, and what is added is put behind it. -/
theorem Effect.chain_eq {next : Builder} (h : Effect c b next) :
    ∃ added, next.chain = keep (c.searched b) b.chain ++ added ∧ ∀ call ∈ added, c.Puts b call := by
  have hrequired : c.IsRequired → c.searched b = requiredTexts b c.arguments := fun hc => by
    rw [searched, show Builder.methodName c.rule = "required" from hc]
    rfl
  cases h with
  | checked hc ho =>
      rw [hrequired hc, requiredTexts, if_pos ho]
      exact ⟨_, rfl, List.forall_mem_singleton.mpr (Or.inr (Or.inl ⟨hc, ho, rfl⟩))⟩
  | bounded hc ho hl =>
      rw [hrequired hc, requiredTexts, if_neg (by simp [ho]), raised, if_neg (by simp [hl])]
      exact ⟨_, rfl, List.forall_mem_singleton.mpr (Or.inr (Or.inr ⟨hc, ho, hl, rfl⟩))⟩
  | repeated hc ho hl =>
      rw [hrequired hc, requiredTexts, if_neg (by simp [ho]), raised,
        if_pos (by rw [hl]; decide), keep_nil]
      exact ⟨[], (List.append_nil _).symm, List.forall_mem_nil _⟩
  | formatted hc =>
      have hsearched : c.searched b = [] := by
        rcases hc.name_eq with h | h | h | h <;>
          rw [searched, show Builder.methodName c.rule = _ from h] <;> rfl
      rw [hsearched, keep_nil]
      exact ⟨[], (List.append_nil _).symm, List.forall_mem_nil _⟩
  | amended hr hf added hadded =>
      exact ⟨added, rfl, fun call hcall => Or.inl (hadded call hcall)⟩

end Effects

/-- A required rule is the first one, and no format precedes it. -/
def IsBare (before : List RuleCall) (c : RuleCall) : Prop :=
  c.IsRequired ∧ ∀ d ∈ before, ¬ d.IsRequired ∧ ¬ d.IsFormat

/-- Some required rule is the first one, and no format precedes it. -/
def HasBare (calls : List RuleCall) : Prop :=
  ∃ before c behind, calls = before ++ c :: behind ∧ IsBare before c

/-- The last rule that puts a format in place of the base expression. -/
def lastFormat? (calls : List RuleCall) : Option RuleCall := calls.reverse.find? (·.IsFormat)

/-- The last required rule. -/
def lastRequired? (calls : List RuleCall) : Option RuleCall := calls.reverse.find? (·.IsRequired)

section Runs

variable {calls earlier later : List RuleCall} {b : Builder} {c r f : RuleCall} {call : String}

theorem not_isFormat_of_isRequired (h : c.IsRequired) : ¬ c.IsFormat := by
  rw [IsFormat, show c.name = "required" from h]
  decide

/-- An element of a list with a last one is this one or stands before it. -/
theorem concat_eq_append_cons_iff {α : Type} {l before behind : List α} {a b : α} :
    l ++ [a] = before ++ b :: behind ↔
      (l = before ∧ a = b ∧ behind = []) ∨
        ∃ middle, l = before ++ b :: middle ∧ behind = middle ++ [a] := by
  constructor
  · intro h
    rcases List.eq_nil_or_concat behind with rfl | ⟨middle, last, rfl⟩
    · obtain ⟨hl, ha⟩ := List.append_inj' h rfl
      exact Or.inl ⟨hl, List.singleton_inj.mp ha, rfl⟩
    · have hlast : l ++ [a] = (before ++ b :: middle) ++ [last] := by simpa using h
      obtain ⟨hl, ha⟩ := List.append_inj' hlast rfl
      exact Or.inr ⟨middle, hl, by rw [List.singleton_inj.mp ha, List.concat_eq_append]⟩
  · rintro (⟨rfl, rfl, rfl⟩ | ⟨middle, rfl, rfl⟩)
    · rfl
    · rw [List.append_assoc, List.cons_append]

theorem hasBare_concat : HasBare (calls ++ [c]) ↔ HasBare calls ∨ IsBare calls c := by
  simp only [HasBare, concat_eq_append_cons_iff]
  constructor
  · rintro ⟨before, d, behind, ⟨rfl, rfl, rfl⟩ | ⟨middle, rfl, rfl⟩, hbare⟩
    · exact Or.inr hbare
    · exact Or.inl ⟨before, d, middle, rfl, hbare⟩
  · rintro (⟨before, d, middle, rfl, hbare⟩ | hbare)
    · exact ⟨before, d, middle ++ [c], Or.inr ⟨middle, rfl, rfl⟩, hbare⟩
    · exact ⟨calls, c, [], Or.inl ⟨rfl, rfl, rfl⟩, hbare⟩

/-- Without formats the first required rule is bare. -/
theorem hasBare_of_mem (hc : c ∈ calls) (hr : c.IsRequired) (hf : ∀ d ∈ calls, ¬ d.IsFormat) :
    HasBare calls := by
  have hsome : (calls.find? (·.IsRequired)).isSome = true :=
    List.find?_isSome.mpr ⟨c, hc, decide_eq_true hr⟩
  obtain ⟨first, hfirst⟩ := Option.isSome_iff_exists.mp hsome
  obtain ⟨hrequired, before, behind, rfl, hbefore⟩ := List.find?_eq_some_iff_append.mp hfirst
  refine ⟨before, first, behind, rfl, of_decide_eq_true hrequired, fun d hd => ⟨?_, ?_⟩⟩
  · simpa using hbefore d hd
  · exact hf d (List.mem_append_left _ hd)

/-- A rule that is not required does not make the least length one. -/
theorem hasBare_concat_of_not_isRequired (hc : ¬ c.IsRequired) :
    HasBare (calls ++ [c]) ↔ HasBare calls := by
  rw [hasBare_concat]
  exact or_iff_left fun hbare => hc hbare.1

/-- What a text has become after rules. -/
structure Follows (calls : List RuleCall) (b : Builder) : Prop where
  base_eq : b.base = .text ((lastFormat? calls).map formatExpression)
  least_eq : (HasBare calls ∧ b.least = some (.whole 1)) ∨ (¬ HasBare calls ∧ b.least = none)
  fragment_eq : b.fragment = none
  required : b.isNullable = false
  present : b.isOptional = false

theorem Follows.override?_eq (h : Follows calls b) :
    override? b = (lastFormat? calls).map formatExpression := by
  rw [override?, h.base_eq]

theorem lastFormat?_eq_none_iff : lastFormat? calls = none ↔ ∀ d ∈ calls, ¬ d.IsFormat := by
  simp [lastFormat?]

theorem Follows.isSome_override?_iff (h : Follows calls b) :
    (override? b).isSome = true ↔ ∃ d ∈ calls, d.IsFormat := by
  rw [h.override?_eq, Option.isSome_map, ← not_iff_not, Bool.not_eq_true,
    Option.isSome_eq_false_iff, Option.isNone_iff_eq_none, lastFormat?_eq_none_iff]
  simp

theorem Follows.override?_eq_none_iff (h : Follows calls b) :
    override? b = none ↔ ∀ d ∈ calls, ¬ d.IsFormat := by
  rw [h.override?_eq, Option.map_eq_none_iff, lastFormat?_eq_none_iff]

theorem Follows.least_eq_none_iff (h : Follows calls b) : b.least = none ↔ ¬ HasBare calls := by
  rcases h.least_eq with ⟨hbare, hl⟩ | ⟨hbare, hl⟩ <;> simp [hbare, hl]

theorem Follows.least_or (h : Follows calls b) : b.least = none ∨ b.least = some (.whole 1) :=
  h.least_eq.symm.imp And.right And.right

/-- A required rule is bare exactly if it finds neither a format nor a least length. -/
theorem Follows.isBare_iff (h : Follows calls b) :
    IsBare calls c ↔ c.IsRequired ∧ override? b = none ∧ b.least = none := by
  rw [h.override?_eq_none_iff, h.least_eq_none_iff, IsBare]
  refine and_congr_right fun _ => ⟨fun hnone => ⟨fun d hd => (hnone d hd).2, ?_⟩, ?_⟩
  · rintro ⟨before, d, behind, rfl, hbare⟩
    exact (hnone d (by simp)).1 hbare.1
  · rintro ⟨hformat, hbare⟩ d hd
    exact ⟨fun hd' => hbare (hasBare_of_mem hd hd' hformat), hformat d hd⟩

theorem lastFormat?_concat : lastFormat? (calls ++ [c]) =
    if c.IsFormat then some c else lastFormat? calls := by
  by_cases hc : c.IsFormat <;> simp [lastFormat?, hc]

theorem lastFormat?_concat_of_not_isFormat (hc : ¬ c.IsFormat) :
    lastFormat? (calls ++ [c]) = lastFormat? calls := by
  rw [lastFormat?_concat, if_neg hc]

theorem follows_nil : Follows [] (Builder.ofBase (.text none)) :=
  ⟨rfl, Or.inr ⟨by simp [HasBare], rfl⟩, rfl, rfl, rfl⟩

theorem Follows.step (h : Follows calls b) {next : Builder} (heffect : Effect c b next) :
    Follows (calls ++ [c]) next := by
  have hbare := h.isBare_iff (c := c)
  obtain ⟨hbase, hleast, hfragment, hnullable, hoptional⟩ := h
  cases heffect with
  | checked hc ho =>
      refine ⟨?_, ?_, hfragment, hnullable, hoptional⟩
      · rw [lastFormat?_concat_of_not_isFormat (not_isFormat_of_isRequired hc), ← hbase]
      · have hnot : ¬ IsBare calls c := fun hb => by simp [(hbare.mp hb).2.1] at ho
        rw [hasBare_concat, or_iff_left hnot]
        exact hleast
  | bounded hc ho hl =>
      refine ⟨?_, Or.inl ⟨?_, rfl⟩, hfragment, hnullable, hoptional⟩
      · rw [lastFormat?_concat_of_not_isFormat (not_isFormat_of_isRequired hc), ← hbase]
      · exact hasBare_concat.mpr (Or.inr (hbare.mpr ⟨hc, ho, hl⟩))
  | repeated hc ho hl =>
      refine ⟨?_, Or.inl ⟨?_, hl⟩, hfragment, hnullable, hoptional⟩
      · rw [lastFormat?_concat_of_not_isFormat (not_isFormat_of_isRequired hc), ← hbase]
      · rcases hleast with ⟨hhas, -⟩ | ⟨-, hnone⟩
        · exact hasBare_concat.mpr (Or.inl hhas)
        · cases hl.symm.trans hnone
  | formatted hc =>
      refine ⟨?_, ?_, hfragment, hnullable, hoptional⟩
      · rw [lastFormat?_concat, if_pos hc]
        rfl
      · rw [hasBare_concat_of_not_isRequired fun hr => not_isFormat_of_isRequired hr hc]
        exact hleast
  | amended hr hf added hadded =>
      refine ⟨?_, ?_, hfragment, hnullable, hoptional⟩
      · rw [lastFormat?_concat_of_not_isFormat hf, ← hbase]
      · rw [hasBare_concat_of_not_isRequired hr]
        exact hleast

/-- The state of a text after rules of which none is on the length. -/
theorem follows_run (calls : List RuleCall) (hs : ∀ c ∈ calls, ¬ c.IsSize) :
    Follows calls (run calls) := by
  induction calls using List.reverseRecOn with
  | nil => exact follows_nil
  | append_singleton calls c ih =>
      obtain ⟨hcalls, hlast⟩ := List.forall_mem_append.mp hs
      have hfollows := ih hcalls
      rw [run_concat]
      exact hfollows.step (effect_apply (run_isText calls)
        (hlast c (List.mem_singleton_self c)) hfollows.least_or)

/-- What one rule does to the chain of a text after rules of which none is on the length. -/
theorem chain_concat (hs : ∀ d ∈ calls ++ [c], ¬ d.IsSize) :
    ∃ added, (run (calls ++ [c])).chain = keep (c.searched (run calls)) (run calls).chain ++ added ∧
      ∀ call ∈ added, c.Puts (run calls) call := by
  obtain ⟨hcalls, hlast⟩ := List.forall_mem_append.mp hs
  rw [run_concat]
  exact (effect_apply (run_isText calls) (hlast c (List.mem_singleton_self c))
    (follows_run calls hcalls).least_or).chain_eq

/-- Some rule has put each call into the chain. -/
theorem exists_puts (hs : ∀ c ∈ calls, ¬ c.IsSize) (hcall : call ∈ (run calls).chain) :
    ∃ before c behind, calls = before ++ c :: behind ∧ c.Puts (run before) call := by
  induction calls using List.reverseRecOn with
  | nil => cases hcall
  | append_singleton calls c ih =>
      obtain ⟨added, hchain, hadded⟩ := chain_concat hs
      rw [hchain] at hcall
      rcases List.mem_append.mp hcall with hkept | hnew
      · obtain ⟨before, d, behind, rfl, hputs⟩ :=
          ih (List.forall_mem_append.mp hs).1 (mem_keep.mp hkept).1
        exact ⟨before, d, behind ++ [c], by simp, hputs⟩
      · exact ⟨calls, c, [], rfl, hadded call hnew⟩

/-- One of the later rules looks for a text that a call contains. -/
def IsTakenOut (earlier later : List RuleCall) (call : String) : Prop :=
  ∃ before c behind, later = before ++ c :: behind ∧
    ∃ text ∈ c.searched (run (earlier ++ before)), Text.contains call text = true

theorem isTakenOut_concat : IsTakenOut earlier (later ++ [c]) call ↔
    IsTakenOut earlier later call ∨ ¬ Untouched (c.searched (run (earlier ++ later))) call := by
  have huntouched : ¬ Untouched (c.searched (run (earlier ++ later))) call ↔
      ∃ text ∈ c.searched (run (earlier ++ later)), Text.contains call text = true := by
    simp [Untouched]
  rw [huntouched]
  simp only [IsTakenOut, concat_eq_append_cons_iff]
  constructor
  · rintro ⟨before, d, behind, ⟨rfl, rfl, rfl⟩ | ⟨middle, rfl, rfl⟩, hfound⟩
    · exact Or.inr hfound
    · exact Or.inl ⟨before, d, middle, rfl, hfound⟩
  · rintro (⟨before, d, middle, rfl, hfound⟩ | hfound)
    · exact ⟨before, d, middle ++ [c], Or.inr ⟨middle, rfl, rfl⟩, hfound⟩
    · exact ⟨later, c, [], Or.inl ⟨rfl, rfl, rfl⟩, hfound⟩

/-- A call that no later rule puts there stays exactly until one of them looks for a text in it. -/
theorem mem_run_append_iff (hs : ∀ c ∈ earlier ++ later, ¬ c.IsSize)
    (hnone : ∀ before c behind, later = before ++ c :: behind →
      ¬ c.Puts (run (earlier ++ before)) call) :
    call ∈ (run (earlier ++ later)).chain ↔
      call ∈ (run earlier).chain ∧ ¬ IsTakenOut earlier later call := by
  induction later using List.reverseRecOn with
  | nil => simp [IsTakenOut]
  | append_singleton later c ih =>
      rw [← List.append_assoc] at hs ⊢
      obtain ⟨added, hchain, hadded⟩ := chain_concat hs
      have hnew : call ∉ added := fun h => hnone later c [] rfl (hadded call h)
      have hrest := ih (List.forall_mem_append.mp hs).1 fun before d behind heq =>
        hnone before d (behind ++ [c]) (by rw [heq]; simp)
      rw [hchain, List.mem_append, or_iff_left hnew, mem_keep, hrest, isTakenOut_concat, not_or,
        not_not, and_assoc]

theorem Effect.mem_of_override {next : Builder} (h : Effect c b next) (hc : c.IsRequired)
    (ho : (override? b).isSome = true) : presenceCheck c.message ∈ next.chain := by
  cases h with
  | checked => exact List.mem_append_right _ (List.mem_singleton_self _)
  | bounded _ hnone => simp [hnone] at ho
  | repeated _ hnone => simp [hnone] at ho
  | formatted hf => exact absurd hf (not_isFormat_of_isRequired hc)
  | amended hr => exact absurd hc hr

theorem Effect.mem_of_least {next : Builder} (h : Effect c b next) (hc : c.IsRequired)
    (ho : override? b = none) (hl : b.least = none) : leastCall c.message ∈ next.chain := by
  cases h with
  | checked _ hsome => simp [ho] at hsome
  | bounded => exact List.mem_append_right _ (List.mem_singleton_self _)
  | repeated _ _ hsome => cases hl.symm.trans hsome
  | formatted hf => exact absurd hf (not_isFormat_of_isRequired hc)
  | amended hr => exact absurd hc hr

theorem opens_least (h : Opens ".min(1" call) : Opens ".min(" call :=
  List.IsPrefix.trans (by decide) h

/-- A call for a least length of one is put by a bare required rule and no other one. -/
theorem Follows.isBare_of_puts (h : Follows calls b) (hputs : c.Puts b call)
    (hcall : Opens ".min(1" call) : IsBare calls c ∧ call = leastCall c.message := by
  rcases hputs with hside | ⟨-, -, rfl⟩ | ⟨hc, ho, hl, rfl⟩
  · exact absurd (opens_least hcall) hside.1
  · exact absurd hcall (Apart.not_opens (by decide +kernel) (opens_presenceCheck _))
  · exact ⟨h.isBare_iff.mpr ⟨hc, ho, hl⟩, rfl⟩

/-- A check for presence is put by a required rule behind a format and no other one. -/
theorem Follows.exists_isFormat_of_puts (h : Follows calls b) (hputs : c.Puts b call)
    (hcall : Opens presenceStart call) : c.IsRequired ∧ ∃ d ∈ calls, d.IsFormat := by
  rcases hputs with hside | ⟨hc, ho, -⟩ | ⟨-, -, -, rfl⟩
  · exact absurd hcall hside.2
  · exact ⟨hc, h.isSome_override?_iff.mp ho⟩
  · exact absurd hcall (Apart.not_opens (by decide +kernel) (opens_leastCall _))

variable {before behind : List RuleCall}

theorem follows_left (hs : ∀ d ∈ earlier ++ later, ¬ d.IsSize) : Follows earlier (run earlier) :=
  follows_run earlier fun d hd => hs d (List.mem_append_left later hd)

/-- The effect of a rule among rules of which none is on the length. -/
theorem effect_run (hs : ∀ d ∈ before ++ c :: behind, ¬ d.IsSize) :
    Follows before (run before) ∧ Effect c (run before) (run (before ++ [c])) := by
  have hfollows := follows_left hs
  refine ⟨hfollows, ?_⟩
  rw [run_concat]
  exact effect_apply (run_isText before) (hs c (by simp)) hfollows.least_or

/-- The least length of a bare required rule stays exactly until a later rule takes it out. -/
theorem leastCall_mem_iff (hs : ∀ d ∈ before ++ c :: behind, ¬ d.IsSize) (hbare : IsBare before c) :
    leastCall c.message ∈ (run (before ++ c :: behind)).chain ↔
      ¬ IsTakenOut (before ++ [c]) behind (leastCall c.message) := by
  obtain ⟨hfollows, heffect⟩ := effect_run hs
  obtain ⟨hc, ho, hl⟩ := hfollows.isBare_iff.mp hbare
  rw [List.append_cons] at hs ⊢
  rw [mem_run_append_iff hs, and_iff_right (heffect.mem_of_least hc ho hl)]
  rintro middle d rest rfl hputs
  rw [← List.append_assoc] at hs
  -- the bare rule in front has settled the least length, so there is no second bare one
  obtain ⟨⟨-, hnone⟩, -⟩ := (follows_left hs).isBare_of_puts hputs (opens_leastCall _)
  exact (hnone c (by simp)).1 hc

theorem exists_opens_iff (hs : ∀ c ∈ calls, ¬ c.IsSize) :
    (∃ call ∈ (run calls).chain, Opens ".min(1" call) ↔
      ∃ before c behind, calls = before ++ c :: behind ∧ IsBare before c ∧
        ¬ IsTakenOut (before ++ [c]) behind (leastCall c.message) := by
  constructor
  · rintro ⟨call, hcall, hopens⟩
    obtain ⟨before, c, behind, rfl, hputs⟩ := exists_puts hs hcall
    obtain ⟨hbare, rfl⟩ := (effect_run hs).1.isBare_of_puts hputs hopens
    exact ⟨before, c, behind, rfl, hbare, (leastCall_mem_iff hs hbare).mp hcall⟩
  · rintro ⟨before, c, behind, rfl, hbare, hstays⟩
    exact ⟨_, (leastCall_mem_iff hs hbare).mpr hstays, opens_leastCall _⟩

/-- The check for presence of the last required rule is there exactly if a format precedes this rule
and no later rule takes the check out. -/
theorem presenceCheck_mem_iff (hs : ∀ d ∈ before ++ c :: behind, ¬ d.IsSize) (hc : c.IsRequired)
    (hlast : ∀ d ∈ behind, ¬ d.IsRequired) :
    presenceCheck c.message ∈ (run (before ++ c :: behind)).chain ↔
      (∃ d ∈ before, d.IsFormat) ∧
        ¬ IsTakenOut (before ++ [c]) behind (presenceCheck c.message) := by
  obtain ⟨hfollows, heffect⟩ := effect_run hs
  rw [List.append_cons] at hs ⊢
  have hfirsts : ∀ d ∈ before ++ [c], ¬ d.IsSize := (List.forall_mem_append.mp hs).1
  rw [mem_run_append_iff hs]
  · refine and_congr_left' ⟨fun hcall => ?_, fun hformat => ?_⟩
    · obtain ⟨first, d, rest, heq, hputs⟩ := exists_puts hfirsts hcall
      obtain ⟨-, e, he, hformat⟩ := (follows_left (heq ▸ hfirsts)).exists_isFormat_of_puts hputs
        (opens_presenceCheck _)
      rcases concat_eq_append_cons_iff.mp heq with ⟨rfl, -, -⟩ | ⟨middle, rfl, -⟩
      · exact ⟨e, he, hformat⟩
      · exact ⟨e, List.mem_append_left _ he, hformat⟩
    · exact heffect.mem_of_override hc (hfollows.isSome_override?_iff.mpr hformat)
  · rintro middle d rest rfl hputs
    rw [← List.append_assoc] at hs
    exact hlast d (by simp)
      ((follows_left hs).exists_isFormat_of_puts hputs (opens_presenceCheck _)).1

/-- The expression of a text has a format as its base. Among the calls behind it are the check for
presence with the message of a required rule and none for a least length of one. -/
structure KeepsRequired (calls : List RuleCall) (format required : RuleCall) : Prop where
  render_eq : (run calls).render = format.formatExpression ++ String.join (run calls).chain
  checked : presenceCheck required.message ∈ (run calls).chain
  unbounded : ∀ call ∈ (run calls).chain, ¬ Opens ".min(1" call

/-- The last format is the base of the expression, in whatever order the rules are. -/
theorem render_run (hs : ∀ c ∈ calls, ¬ c.IsSize) (hf : lastFormat? calls = some f) :
    (run calls).render = f.formatExpression ++ String.join (run calls).chain := by
  obtain ⟨hbase, -, hfragment, hnullable, hoptional⟩ := follows_run calls hs
  rw [hf, Option.map_some] at hbase
  simp [Builder.render, Builder.render.wrap, Builder.expression, Builder.settle,
    Builder.trimsOnRender, Builder.baseExpression, Builder.rendersChain, Builder.suffixes, hbase,
    hfragment, hnullable, hoptional]

theorem exists_split_of_lastRequired? (h : lastRequired? calls = some r) : r.IsRequired ∧
    ∃ before behind, calls = before ++ r :: behind ∧ ∀ d ∈ behind, ¬ d.IsRequired := by
  obtain ⟨hr, behind, before, heq, hbehind⟩ := List.find?_eq_some_iff_append.mp h
  refine ⟨of_decide_eq_true hr, before.reverse, behind.reverse, ?_, fun d hd => ?_⟩
  · simpa using congrArg List.reverse heq
  · simpa using hbehind d (List.mem_reverse.mp hd)

/-- With rules of which none is on the length, a text of a format keeps the check of its last
required rule exactly if a format precedes this rule and no later rule takes the check out, and if
the least length of a bare required rule has been taken out where there is one. -/
theorem keepsRequired_iff (hs : ∀ c ∈ calls, ¬ c.IsSize) (hf : lastFormat? calls = some f)
    (hr : lastRequired? calls = some r) :
    KeepsRequired calls f r ↔
      (∀ before c behind, calls = before ++ c :: behind → IsBare before c →
        IsTakenOut (before ++ [c]) behind (leastCall c.message)) ∧
      ∃ before behind, calls = before ++ r :: behind ∧ (∀ d ∈ behind, ¬ d.IsRequired) ∧
        (∃ d ∈ before, d.IsFormat) ∧
        ¬ IsTakenOut (before ++ [r]) behind (presenceCheck r.message) := by
  obtain ⟨hrequired, before, behind, heq, hlast⟩ := exists_split_of_lastRequired? hr
  have hunbounded : (∀ call ∈ (run calls).chain, ¬ Opens ".min(1" call) ↔
      ∀ before c behind, calls = before ++ c :: behind → IsBare before c →
        IsTakenOut (before ++ [c]) behind (leastCall c.message) := by
    have hopens := not_congr (exists_opens_iff hs)
    simp only [not_exists, not_and, not_not] at hopens
    exact hopens
  rw [← hunbounded]
  constructor
  · rintro ⟨-, hchecked, hleast⟩
    refine ⟨hleast, before, behind, heq, hlast, ?_⟩
    rw [heq] at hs hchecked
    exact (presenceCheck_mem_iff hs hrequired hlast).mp hchecked
  · rintro ⟨hleast, first, rest, hsplit, hrest, hkept⟩
    refine ⟨render_run hs hf, ?_, hleast⟩
    rw [hsplit] at hs ⊢
    exact (presenceCheck_mem_iff hs hrequired hrest).mpr hkept

/-- A required rule behind a format is kept as a check, also under a further format. -/
theorem required_between_formats_kept :
    KeepsRequired
      [⟨"ip", [], none⟩, ⟨"required", [], some "Address needed."⟩, ⟨"ulid", [], none⟩]
      ⟨"ulid", [], none⟩ ⟨"required", [], some "Address needed."⟩ := by
  have hformat : IsFormat ⟨"ip", [], none⟩ := by decide +kernel
  refine (keepsRequired_iff (by decide +kernel) rfl rfl).mpr
    ⟨fun before c behind heq hbare => ?_, [⟨"ip", [], none⟩], [⟨"ulid", [], none⟩], rfl, ?_, ?_, ?_⟩
  · match before with
    | [] =>
        obtain rfl : ⟨"ip", [], none⟩ = c := (List.cons.inj heq).1
        exact absurd hformat (not_isFormat_of_isRequired hbare.1)
    | first :: _ =>
        obtain rfl : ⟨"ip", [], none⟩ = first := (List.cons.inj heq).1
        exact absurd hformat (hbare.2 _ List.mem_cons_self).2
  · exact List.forall_mem_singleton.mpr (by decide +kernel)
  · exact ⟨_, List.mem_singleton_self _, hformat⟩
  · rintro ⟨before, c, behind, heq, text, htext, -⟩
    match before with
    | [] =>
        obtain rfl : ⟨"ulid", [], none⟩ = c := (List.cons.inj heq).1
        cases htext
    | _ :: more => cases more <;> cases (List.cons.inj heq).2

/-- A required rule in front of a format leaves the least length of a text without a format. -/
theorem required_before_ip_lost :
    ¬ ∀ (calls : List RuleCall) (format required : RuleCall), (∀ c ∈ calls, ¬ c.IsSize) →
      lastFormat? calls = some format → lastRequired? calls = some required →
      KeepsRequired calls format required := by
  intro h
  have hkeeps := h [⟨"required", [], some "Address needed."⟩, ⟨"ip", [], none⟩] ⟨"ip", [], none⟩
    ⟨"required", [], some "Address needed."⟩ (by decide +kernel) rfl rfl
  exact hkeeps.unbounded ".min(1, 'Address needed.')" (by decide +kernel) (by decide)

end Runs

end RuleCall

end RuleSchema.Chain
