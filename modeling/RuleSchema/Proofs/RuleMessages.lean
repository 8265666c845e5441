import RuleSchema.Proofs.BuilderFrames
import RuleSchema.Proofs.MessageSlots

/-!
# The messages of rules

Every rule of every builder puts its message into slots only, which depend on the arguments of the
rule and not on the message. A run of rules does so with the message of each rule.
-/

namespace RuleSchema

open Chain Script

namespace Length

theorem tells_raise {slots : List Slot} {spots : List Spot} (bound : Number)
    (hslot : .argument (".min(" ++ bound.text) ")" ∈ slots) : Tells slots spots (raise bound) := by
  intro message b
  rw [after_raise]
  split
  · exact .refl b
  · have h : Speaks slots spots [message] _ _ :=
      tells_replace_argument hslot "min" message { b with least := some bound }
    exact ⟨h.calls, h.kept, h.format⟩

theorem tells_lower {slots : List Slot} {spots : List Spot} (bound : Number)
    (hslot : .argument (".max(" ++ bound.text) ")" ∈ slots) : Tells slots spots (lower bound) := by
  intro message b
  rw [after_lower]
  split
  · exact .refl b
  · have h : Speaks slots spots [message] _ _ :=
      tells_replace_argument hslot "max" message { b with greatest := some bound }
    exact ⟨h.calls, h.kept, h.format⟩

theorem told_raise (bound : Number) : Told (raise bound) :=
  ⟨[_], [], tells_raise bound (List.mem_singleton_self _)⟩

theorem told_lower (bound : Number) : Told (lower bound) :=
  ⟨[_], [], tells_lower bound (List.mem_singleton_self _)⟩

theorem told_min (arguments : List Argument) : Told (min arguments) :=
  Told.withNumber arguments told_raise

theorem told_max (arguments : List Argument) : Told (max arguments) :=
  Told.withNumber arguments told_lower

theorem told_withBound {change : Int} {act : Number → Option String → Building Unit}
    (h : ∀ n, Told (act n)) (arguments : List Argument) :
    Told (withBound change act arguments) := by
  refine Told.withNumber arguments fun n => ?_
  generalize (if change = 0 then n else n.addInt change) = bound
  unfold asBound
  cases (Parameter.number bound).number? with
  | error fault => exact told_throw fault
  | ok r => exact h (r.getD bound)

theorem told_between (arguments : List Argument) : Told (between arguments) := by
  unfold between
  split
  · exact (told_min _).seq (told_max _)
  · exact told_nothing _

theorem told_size (arguments : List Argument) : Told (size arguments) :=
  Told.withNumber arguments fun n => told_replace_argument "length" (".length(" ++ n.text)

theorem told_trim (arguments : List Argument) : Told (trim arguments) := by
  refine ⟨[.code ".trim()"], [], fun message b => ?_⟩
  change Speaks _ _ [message] b
    (after (if b.hasCall "trim" then pure () else Building.add ".trim()") b)
  split
  · exact .refl b
  · exact tells_add (List.mem_singleton_self _) (fun _ => rfl) message b

theorem told_methods : ∀ p ∈ methods, ∀ arguments, Told (p.2 arguments) := by
  simp only [methods, List.forall_mem_cons]
  exact ⟨told_min, told_max, told_withBound told_lower, told_withBound told_lower,
    told_withBound told_raise, told_withBound told_raise, told_between, told_size, told_trim,
    List.forall_mem_nil _⟩

end Length

namespace TextRule

theorem told_required : ∀ arguments, Told (required arguments) := by
  intro arguments
  let check : Slot := .check defaultRequired (braces ((whenMissing "false" ++
    " if (typeof val === \"string\") " ++ braces " return val.trim() !== \"\"; " ++
    " return true;") ++ " ")) (mark "__required_refine__")
  let call : Slot := .argument (".min(" ++ (Number.whole 1).text) ")"
  refine ⟨[check, call], [.always defaultRequired], fun message b => ?_⟩
  change Speaks _ _ [message] b (after (if (override? b).isSome then _ else _) b)
  split
  · exact (tells_remove "__required_refine__").bind (fun _ => tells_add (List.mem_cons_self)
      fun message => (Slot.text_check _ _ _ message).symm) message b
  · exact (speaks_required (List.mem_singleton_self _) rfl).trans
      (Length.tells_raise (.whole 1) (by simp [call]) message _)

theorem told_regex (arguments : List Argument) : Told (regex arguments) := by
  unfold regex
  split
  · exact told_nothing _
  · exact told_remove_add _ (.argument (".regex(" ++ _) ")") fun message =>
      (Slot.text_argument _ _ message).symm

theorem told_notRegex (arguments : List Argument) : Told (notRegex arguments) := by
  unfold notRegex
  split
  · exact told_nothing _
  · exact told_refineBlock _ _

theorem told_uuid (arguments : List Argument) : Told (uuid arguments) :=
  told_replace "uuid" (.only ".uuid(" ")")
    (text_only ".uuid(" ".uuid()" ".uuid('" (by decide) (by decide))

theorem told_marked (name pattern : String) (arguments : List Argument) :
    Told (marked name pattern arguments) :=
  told_remove_matching name pattern (mark name)

theorem told_cased (method fallback : String) (arguments : List Argument) :
    Told (cased method fallback arguments) := by
  refine told_replace method (.told fallback ("." ++ method ++ "(") ")") fun message => ?_
  have hopen : "('" = "(" ++ "'" := by decide
  have hclose : "')" = "'" ++ ")" := by decide
  rw [Slot.text_told, hopen, hclose]
  simp only [String.append_assoc]

theorem told_affixed (method affix fallback : String) (arguments : List Argument) :
    Told (affixed method affix fallback arguments) := by
  unfold affixed
  split
  · exact told_nothing _
  · exact told_replace_argument method _
  · exact told_replace method (.check fallback _ "") fun message =>
      (Slot.text_check_nil _ _ message).symm

theorem told_notAffixed (method affix fallback : String) (arguments : List Argument) :
    Told (notAffixed method affix fallback arguments) := by
  unfold notAffixed
  split
  · exact told_nothing _
  · exact told_refineBlock _ _

theorem told_listed (negation : String) (arguments : List Argument) :
    Told (listed negation arguments) := by
  unfold listed
  split
  · exact told_nothing _
  · exact told_refine _ _

theorem told_json (arguments : List Argument) : Told (json arguments) := told_refineBlock _ _

theorem told_macAddress (arguments : List Argument) : Told (macAddress arguments) :=
  told_marked_refineBlock _ _ _ _

theorem told_date (arguments : List Argument) : Told (date arguments) := told_refineBlock _ _

theorem told_dateFormat (arguments : List Argument) : Told (dateFormat arguments) := by
  refine Told.ite (told_nothing _) ?_
  generalize (List.mapM Script.DateFormat.pattern? _).getD ["/^.+$/"] = patterns
  split
  · exact told_remove_matching _ _ _
  · exact told_marked_refineBlock _ _ _ _

theorem told_passwordPattern (pattern fallback : String) (arguments : List Argument) :
    Told (passwordPattern pattern fallback arguments) := by
  refine told_add (.told fallback (".regex(" ++ pattern ++ ", ") ")") fun message => ?_
  have hopen : ", '" = ", " ++ "'" := by decide
  have hclose : "')" = "'" ++ ")" := by decide
  rw [Slot.text_told, hopen, hclose]
  simp only [String.append_assoc]

theorem told_passwordMixed (arguments : List Argument) : Told (passwordMixed arguments) :=
  told_refine _ _

/-- The slot of a format with its message as an option. -/
def formatSlot (name : String) : Slot :=
  ⟨.given, "z." ++ name ++ "(" ++ "\x7b message: ", " \x7d" ++ ")", "z." ++ name ++ "()"⟩

theorem text_formatSlot (name : String) (message : Option String) :
    (formatSlot name).text message = formatCall name message := by
  cases message with
  | none => rfl
  | some m =>
      rw [formatCall, Slot.messageOption_eq, Slot.text_of_shown? rfl]
      simp only [formatSlot, literal, String.append_assoc]

theorem told_format (name : String) (arguments : List Argument) :
    Told (format name arguments) := by
  refine ⟨[formatSlot name], [], fun message b => ?_⟩
  apply speaks_format (List.Subset.refl _)
  rw [Slot.row_singleton, text_formatSlot]

theorem told_ip (arguments : List Argument) : Told (ip arguments) := by
  refine ⟨[.code "z.union([", formatSlot "ipv4", .code ", ", formatSlot "ipv6", .code "])"], [],
    fun message b => speaks_format (List.Subset.refl _) ?_⟩
  simp only [Slot.row_cons, Slot.row_nil, text_formatSlot, Slot.text_code, String.append_empty,
    String.append_assoc]

theorem told_url (arguments : List Argument) : Told (url arguments) := by
  refine ⟨[], [.given], tells_modify fun message b => ?_⟩
  split
  · rename_i o m p hbase
    refine speaks_base (by simp only [override?, hbase]) ?_
    cases message with
    | none => exact .inl (by simp only [Base.ownMessage?, hbase, Option.map_none, Option.none_or])
    | some t => exact .inr ⟨.given, List.mem_singleton_self _, t, rfl, rfl⟩
  · exact .refl b

theorem told_methods : ∀ p ∈ methods, ∀ arguments, Told (p.2 arguments) := by
  simp only [methods, List.forall_mem_append, List.forall_mem_cons]
  exact ⟨⟨told_required, fun _ => told_nothing _, told_regex, told_notRegex, told_uuid,
    told_marked _ _, told_marked _ _, told_marked _ _, told_marked _ _,
    told_cased _ _, told_cased _ _, told_affixed _ _ _, told_affixed _ _ _,
    told_notAffixed _ _ _, told_notAffixed _ _ _, told_listed _, told_listed _, told_json,
    told_ip, told_format _, told_format _, told_format _, told_macAddress, told_date,
    told_dateFormat, List.forall_mem_nil _⟩, Length.told_methods⟩

end TextRule

section Compare

variable {number? : List Argument → Building (Option Number)}
variable (h : ∀ arguments, ∃ value, number? arguments = Building.ofExcept value)

include h

theorem told_compare (method : String) (arguments : List Argument) :
    Told (Building.compare number? method arguments) := by
  obtain ⟨value, hvalue⟩ := h arguments
  unfold Building.compare
  rw [hvalue]
  refine Told.ofExcept value fun n? => ?_
  cases n? with
  | none => exact told_nothing _
  | some n => exact told_replace_argument method _

theorem told_within (arguments : List Argument) : Told (Building.within number? arguments) :=
  (told_compare h "min" _).seq (told_compare h "max" _)

theorem told_exactly (arguments : List Argument) : Told (Building.exactly number? arguments) :=
  (told_compare h "min" _).seq (told_compare h "max" _)

end Compare

namespace NumberRule

theorem told_integer (arguments : List Argument) : Told (integer arguments) := by
  refine ⟨[.only ".int(" ")"], [.given], fun message b => ?_⟩
  have hint {call : String} (hcall : call = (Slot.only ".int(" ")").text message) (b : Builder) :
      Speaks [.only ".int(" ")"] [.given] [message] b (after (Building.replace "int" call) b) :=
    hcall ▸ tells_replace (List.mem_singleton_self _) "int" (fun _ => rfl) message b
  have hcall := text_only ".int(" ".int()" ".int('" (by decide) (by decide) message
  unfold integer
  cases message with
  | none => exact hint hcall b
  | some m =>
      dsimp only
      rw [after_modify_bind]
      refine Speaks.trans ?_ (hint hcall _)
      split
      · rename_i own hbase
        exact speaks_base (by simp only [TextRule.override?, hbase])
          (.inr ⟨.given, List.mem_singleton_self _, m, rfl, rfl⟩)
      · exact .refl b

/-- Whether there is a number depends on the arguments alone. -/
theorem exists_firstNumber?_eq (arguments : List Argument) :
    ∃ value, Building.firstNumber? arguments = Building.ofExcept value := by
  cases arguments with
  | nil => exact ⟨.ok none, rfl⟩
  | cons a rest => exact ⟨a.number?, rfl⟩

theorem told_bounded (method : String) (arguments : List Argument) :
    Told (bounded method arguments) :=
  told_compare exists_firstNumber?_eq method arguments

theorem told_decimal (arguments : List Argument) : Told (decimal arguments) := by
  unfold decimal
  split
  · exact told_nothing _
  · exact Told.ofExcept _ fun _ => told_refine _ _
  · exact Told.ofExcept _ fun _ => Told.ofExcept _ fun _ => told_refine _ _

theorem told_digits (operator : String) (arguments : List Argument) :
    Told (digits operator arguments) := by
  cases arguments with
  | nil => exact told_throw _
  | cons a rest => exact Told.ofExcept a.numeral fun _ => told_refine _ _

theorem told_digitsBetween (arguments : List Argument) : Told (digitsBetween arguments) :=
  (told_digits ">=" _).seq (told_digits "<=" _)

theorem told_listed (negation : String) (arguments : List Argument) :
    Told (listed negation arguments) :=
  Told.ite (told_nothing _) (Told.ofExcept _ fun _ => told_refine _ _)

theorem told_methods : ∀ p ∈ methods, ∀ arguments, Told (p.2 arguments) := by
  simp only [methods, List.forall_mem_cons]
  exact ⟨RuleSchema.told_required, fun _ => told_nothing _, told_integer, told_bounded _,
    told_bounded _, told_bounded _, told_bounded _, told_bounded _, told_bounded _,
    told_bounded _, told_within exists_firstNumber?_eq, told_exactly exists_firstNumber?_eq,
    told_decimal, told_digits _,
    told_digits _, told_digits _, told_digitsBetween, told_listed _, told_listed _,
    List.forall_mem_nil _⟩

end NumberRule

namespace FileRule

theorem told_image (arguments : List Argument) : Told (image arguments) := by
  let types := if (arguments.map Argument.display).contains "allow_svg"
    then imageTypes ++ ["image/svg+xml"] else imageTypes
  let call : Slot := .argument (".mime(" ++ literalList types) ")"
  refine ⟨[call], [], fun message b => ?_⟩
  change Speaks _ _ [message] b
    (after (if b.hasCall "mime" then pure () else Building.add (mimeCall types message)) b)
  split
  · exact .refl b
  · exact tells_add (List.mem_singleton_self call)
      (fun message => (Slot.text_argument _ _ message).symm) message b

theorem told_mediaTypes (arguments : List Argument) : Told (mediaTypes arguments) :=
  Told.ite (told_nothing _) (told_replace_argument "mime" _)

theorem told_extensions (arguments : List Argument) : Told (extensions arguments) :=
  told_mediaTypes _

/-- Whether there is a number of bytes depends on the arguments alone. -/
theorem exists_bytes?_eq (arguments : List Argument) :
    ∃ value, bytes? arguments = Building.ofExcept value := by
  rcases arguments with _ | ⟨_ | p, rest⟩
  · exact ⟨.error .outOfRange, rfl⟩
  · exact ⟨.error (.wrongSort none), rfl⟩
  · refine ⟨p.number?.map fun n? => n?.map (·.mulNat 1024), ?_⟩
    change (Building.ofExcept p.number? >>= fun n? => pure (n?.map (·.mulNat 1024))) = _
    cases p.number? <;> rfl

theorem told_bounded (method : String) (arguments : List Argument) :
    Told (bounded method arguments) :=
  told_compare exists_bytes?_eq method arguments

/-- The code of an image check around its message. -/
theorem exists_imageCheck_eq (condition : String) :
    ∃ lead, ∀ escaped,
      imageCheck condition escaped = lead ++ ("'" ++ escaped ++ "'") ++ "\x7d)" := by
  apply Exists.intro
  intro escaped
  have hopen : "\x7d, \x7b error: '" = "\x7d, \x7b error: " ++ "'" := by decide
  have hclose : "'\x7d)" = "'" ++ "\x7d)" := by decide
  unfold imageCheck
  rw [hopen, hclose, ← String.append_assoc, ← String.append_assoc, ← String.append_assoc,
    ← String.append_assoc]

theorem told_dimensions (arguments : List Argument) : Told (dimensions arguments) := by
  unfold dimensions
  generalize arguments.filterMap dimension? = checks
  cases checks with
  | nil => exact told_nothing _
  | cons check more =>
      obtain ⟨lead, hlead⟩ := exists_imageCheck_eq (Text.join " && " (check :: more))
      exact told_add (.told "The image has invalid dimensions." lead "\x7d)") fun message => by
        rw [hlead, Slot.text_told]

theorem told_methods : ∀ p ∈ methods, ∀ arguments, Told (p.2 arguments) := by
  simp only [methods, List.forall_mem_cons]
  exact ⟨RuleSchema.told_required, fun _ => told_nothing _, told_image, told_extensions,
    told_extensions, told_mediaTypes, told_bounded _, told_bounded _,
    told_exactly exists_bytes?_eq, told_within exists_bytes?_eq, told_dimensions,
    List.forall_mem_nil _⟩

end FileRule

namespace Builder

theorem told_mail (arguments : List Argument) : Told (mail arguments) := by
  refine ⟨[], [.given], tells_modify fun message b => ?_⟩
  split
  · rename_i own m hbase
    exact speaks_base (by simp only [TextRule.override?, hbase])
      (.inr ⟨.given, List.mem_singleton_self _, m, rfl, rfl⟩)
  · exact .refl b

theorem told_mailRequired (arguments : List Argument) : Told (mailRequired arguments) := by
  refine ⟨[.argument (".min(" ++ (Number.whole 1).text) ")"], [.given], fun message b => ?_⟩
  have hmin : Tells _ [.given] (Length.raise (.whole 1)) :=
    Length.tells_raise _ (List.mem_singleton_self _)
  cases message with
  | none => exact hmin none b
  | some m => exact (speaks_required (List.mem_singleton_self _) rfl).trans (hmin (some m) _)

theorem told_distinct (arguments : List Argument) : Told (distinct arguments) :=
  told_replace "refine" (.check _ _ "") fun message => (Slot.text_check_nil _ _ message).symm

theorem told_decided (value fallback : String) (arguments : List Argument) :
    Told (decided value fallback arguments) :=
  told_replace "refine" (.check _ _ "") fun message => (Slot.text_check_nil _ _ message).symm

theorem speaks_changeEnumeration {slots : List Slot} {spots : List Spot} {message : Option String}
    (f : List String → Option String → Option String → List String × Option String × Option String)
    (b : Builder) : Speaks slots spots [message] b (changeEnumeration f b) := by
  unfold changeEnumeration
  split
  · rename_i values reference m hbase
    exact speaks_base (by simp only [TextRule.override?, hbase])
      (.inl (by simp only [Base.ownMessage?, hbase]))
  · exact .refl b

theorem told_enumerationRequired (arguments : List Argument) :
    Told (enumerationRequired arguments) := by
  refine ⟨[], [], fun message b => ?_⟩
  unfold enumerationRequired
  cases Text.nonEmpty? message with
  | none => exact .refl b
  | some m => exact speaks_changeEnumeration (fun v r _ => (v, r, some (addSlashes m))) b

theorem told_enumerationValues (arguments : List Argument) : Told (enumerationValues arguments) :=
  ⟨[], [], fun _ b => speaks_changeEnumeration _ b⟩

theorem told_enumerationName (arguments : List Argument) : Told (enumerationName arguments) :=
  ⟨[], [], fun _ b => speaks_changeEnumeration _ b⟩

end Builder

/-- Every rule of every builder puts its message into slots only. -/
theorem Base.told_methods (base : Base) :
    ∀ p ∈ base.methods, ∀ arguments, Told (p.2 arguments) := by
  cases base with
  | text => exact TextRule.told_methods
  | url =>
      exact List.forall_mem_cons.mpr ⟨TextRule.told_url, TextRule.told_methods⟩
  | password =>
      simp only [methods, TextRule.passwordMethods, List.forall_mem_append, List.forall_mem_cons]
      exact ⟨⟨fun _ => told_nothing _, TextRule.told_passwordPattern _ _,
        TextRule.told_passwordMixed, TextRule.told_passwordPattern _ _,
        TextRule.told_passwordPattern _ _, fun _ => told_nothing _, List.forall_mem_nil _⟩,
        TextRule.told_methods⟩
  | email =>
      simp only [methods, List.forall_mem_append, List.forall_mem_cons]
      exact ⟨⟨Builder.told_mail, fun _ => told_nothing _, Builder.told_mailRequired,
        List.forall_mem_nil _⟩, Length.told_methods⟩
  | number => exact NumberRule.told_methods
  | boolean =>
      simp only [methods, List.forall_mem_cons]
      exact ⟨told_required, fun _ => told_nothing _, Builder.told_decided _ _,
        Builder.told_decided _ _, List.forall_mem_nil _⟩
  | file => exact FileRule.told_methods
  | array =>
      simp only [methods, List.forall_mem_append, List.forall_mem_cons]
      exact ⟨⟨told_required, fun _ => told_nothing _, fun _ => told_nothing _,
        Builder.told_distinct, List.forall_mem_nil _⟩, Length.told_methods⟩
  | object => exact List.forall_mem_singleton.mpr told_required
  | reference => exact List.forall_mem_singleton.mpr told_required
  | enumeration =>
      simp only [methods, List.forall_mem_cons]
      exact ⟨Builder.told_enumerationRequired, Builder.told_enumerationValues,
        Builder.told_enumerationName, List.forall_mem_nil _⟩

theorem Base.methods_sort (base : Base) : base.sort.methods = base.methods := by
  cases base <;> rfl

/-- Builders of one sort know the same rules. -/
theorem Builder.method?_of_sort {b : Builder} {base : Base} (h : b.base.sort = base.sort)
    (rule : String) : b.method? rule = base.methods.lookup (methodName rule) := by
  rw [method?, ← Base.methods_sort, h, Base.methods_sort]

namespace Compiler

/-- A check that is not passed over runs its rule, which may fail on its parameters. -/
theorem eq_after_of_applyCheck {check : Check} {b next : Builder}
    (hpassed : ¬ isPassedOver check.rule = true) (h : applyCheck b check = .ok next) :
    next = after (Builder.applyRule check.rule (check.parameters.map some) check.message) b := by
  rw [applyCheck, if_neg hpassed] at h
  split at h
  · rename_i hrun
    exact (Except.ok.inj h).symm.trans (congrArg Prod.snd hrun).symm
  · rename_i hrun
    split at h
    · exact (Except.ok.inj h).symm.trans (congrArg Prod.snd hrun).symm
    · cases h

/-- A check leaves the builder as it is or runs its rule. -/
theorem eq_or_eq_after_of_applyCheck {check : Check} {b next : Builder}
    (h : applyCheck b check = .ok next) : next = b ∨
      next = after (Builder.applyRule check.rule (check.parameters.map some) check.message) b := by
  by_cases hpassed : isPassedOver check.rule = true
  · rw [applyCheck, if_pos hpassed] at h
    exact .inl (Except.ok.inj h).symm
  · exact .inr (eq_after_of_applyCheck hpassed h)

/-- A check puts its message into slots that depend on its rule, its parameters and the sort of the
base. -/
theorem exists_speaks_applyCheck (base : Base) (rule : String) (parameters : List Parameter) :
    ∃ slots spots, ∀ check b next, check.rule = rule → check.parameters = parameters →
      b.base.sort = base.sort → applyCheck b check = .ok next →
      Speaks slots spots [check.message] b next := by
  cases hfound : base.methods.lookup (Builder.methodName rule) with
  | none =>
      refine ⟨[], [], fun check b next hrule hparameters hsort h => ?_⟩
      subst hrule hparameters
      have hmethod := (Builder.method?_of_sort hsort check.rule).trans hfound
      rcases eq_or_eq_after_of_applyCheck h with rfl | rfl
      · exact .refl _
      · have hrun : after
            (Builder.applyRule check.rule (check.parameters.map some) check.message) b = b :=
          congrArg Prod.snd (Builder.run_applyRule_of_none hmethod)
        rw [hrun]
        exact .refl _
  | some method =>
      obtain ⟨slots, spots, htells⟩ :=
        base.told_methods _ (Table.mem_of_lookup_eq_some hfound) (parameters.map some)
      refine ⟨slots, spots, fun check b next hrule hparameters hsort h => ?_⟩
      subst hrule hparameters
      have hmethod := (Builder.method?_of_sort hsort check.rule).trans hfound
      rcases eq_or_eq_after_of_applyCheck h with rfl | rfl
      · exact .refl _
      · have hrun : after
            (Builder.applyRule check.rule (check.parameters.map some) check.message) b =
            after (method (check.parameters.map some) check.message >>= fun _ => return true :
              Building Bool) b :=
          congrArg Prod.snd (Builder.run_applyRule_of_some hmethod)
        rw [hrun]
        exact htells.bind (fun _ => tells_pure fun _ => true) check.message b

/-- What the checks of a run are, their messages aside. -/
def forms (checks : List Check) : List (String × List Parameter) :=
  checks.map fun check => (check.rule, check.parameters)

/-- A run of checks puts the message of each check into slots that do not depend on any message. -/
theorem exists_speaks_applyChecks (base : Base) (rules : List (String × List Parameter)) :
    ∃ slots spots, ∀ checks b next, forms checks = rules → b.base.sort = base.sort →
      checks.foldlM applyCheck b = .ok next →
      Speaks slots spots (checks.map Check.message) b next := by
  induction rules with
  | nil =>
      refine ⟨[], [], fun checks b next hforms hsort h => ?_⟩
      obtain rfl := List.map_eq_nil_iff.mp hforms
      cases h
      exact .refl b
  | cons rule rest ih =>
      obtain ⟨slots, spots, hstep⟩ := exists_speaks_applyCheck base rule.1 rule.2
      obtain ⟨more, others, hrun⟩ := ih
      refine ⟨slots ++ more, spots ++ others, fun checks b next hforms hsort h => ?_⟩
      obtain ⟨check, tail, rfl, hcheck, hforms⟩ := List.map_eq_cons_iff.mp hforms
      obtain ⟨hrule, hparameters⟩ := Prod.mk.inj hcheck
      rw [List.foldlM_cons] at h
      cases hmid : applyCheck b check with
      | error fault =>
          rw [hmid] at h
          cases h
      | ok mid =>
          rw [hmid] at h
          have hsame : mid.base.sort = base.sort :=
            (congrArg Frame.sort (frame_of_applyCheck hmid)).trans hsort
          have hfirst := hstep check b mid hrule hparameters hsort hmid
          have hlast := hrun tail mid next hforms hsame h
          exact (hfirst.mono (List.subset_append_left _ _) (List.subset_append_left _ _)
            (by simp)).trans (hlast.mono (List.subset_append_right _ _)
              (List.subset_append_right _ _) (List.subset_cons_self _ _))

end Compiler

end RuleSchema
