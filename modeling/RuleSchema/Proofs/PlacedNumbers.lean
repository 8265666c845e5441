import RuleSchema.Proofs.MeasuredPlaces

/-!
# Which numbers stand in a chain

Each rule of each builder has its places for numbers, listed here by name. After any run of checks
on texts, the parameters stand in the calls of the chain in these places, in literals and in
patterns only. What stands in a place is a finite number, or it is no literal of one: a word for
what is not finite, digits beyond every finite number, or a text that the rule has copied.
-/

namespace RuleSchema

open Chain

/-- The places of rules by name; a rule that is not listed has none. -/
abbrev PlaceTable := List (String × Places)

/-- The places of a rule under its name. -/
def PlaceTable.of (table : PlaceTable) (name : String) : Places := (table.lookup name).getD nowhere

/-- Every rule among some has the places under its name. -/
def PlaceTable.Describes (table : PlaceTable) (methods : List (String × RuleMethod)) : Prop :=
  ∀ p ∈ methods, Confines p.2 (table.of p.1)

section Tables

def Length.places : PlaceTable :=
  let bound := leading Parameter.numberOfText? 1
  [("min", bound), ("max", bound), ("lt", leading (shifted? (-1)) 1),
    ("lte", leading (shifted? 0) 1), ("gt", leading (shifted? 1) 1),
    ("gte", leading (shifted? 0) 1), ("between", fun parameters =>
      if 2 ≤ parameters.length then leading Parameter.numberOfText? 2 parameters else []),
    ("size", bound)]

def NumberRule.places : PlaceTable :=
  let bound := leading Parameter.numberOfText? 1
  [("min", bound), ("max", bound), ("gt", bound), ("gte", bound), ("lt", bound), ("lte", bound),
    ("multiple_of", bound), ("between", leading Parameter.numberOfText? 2),
    ("size", fun parameters => bound parameters ++ bound parameters), ("decimal", counts 2),
    ("digits", counts 1), ("max_digits", counts 1), ("min_digits", counts 1),
    ("digits_between", counts 2), ("in", numbers), ("not_in", numbers)]

def FileRule.places : PlaceTable :=
  let bound := leading bytesOf? 1
  [("min", bound), ("max", bound),
    ("size", fun parameters => bound parameters ++ bound parameters),
    ("between", leading bytesOf? 2), ("dimensions", dimensionPlaces)]

/-- The places of the rules of a builder. -/
def Base.places : Base → PlaceTable
  | .text _ | .url .. | .password _ | .email _ | .array _ => Length.places
  | .number _ => NumberRule.places
  | .file => FileRule.places
  | .boolean | .object _ | .reference _ | .enumeration .. => []

end Tables

namespace Builder

theorem confines_mail : Confines mail nowhere := by
  refine confines_modify (fun _ _ => rfl) fun _ message b => ?_
  split <;> rfl

theorem confines_mailRequired : Confines mailRequired nowhere := by
  refine confines_nowhere fun message => ?_
  let call := ".min(" ++ (Number.whole 1).text ++ Script.messageArgument message ++ ")"
  have hraise : Inserts [call] [] (Length.requireNonEmpty message) :=
    inserts_raise (made_code (List.mem_singleton_self call))
  refine ⟨[call], fun parameters => ?_⟩
  cases message with
  | none => exact (inserts_pure ()).bind fun _ => hraise
  | some m =>
      refine Inserts.bind (inserts_modify fun b => ?_) fun _ => hraise
      rfl

theorem confines_distinct : Confines distinct nowhere := by
  refine confines_nowhere fun message => ?_
  let call (form : String) := TextRule.refine
    ("new Set(val.map((item) => " ++ form ++ ")).size === val.length")
    (escapedOr message "The items must be distinct.")
  let lowered := "(typeof item === \"string\" ? item.toLowerCase() : JSON.stringify(item))"
  refine ⟨[call lowered, call "JSON.stringify(item)"], fun parameters => ?_⟩
  change Inserts _ _ (Building.replace "refine" (call
    (if ((arguments parameters).map Argument.display).contains "ignore_case" then lowered
      else "JSON.stringify(item)")))
  split
  · exact inserts_replace "refine" (made_code List.mem_cons_self)
  · exact inserts_replace "refine" (made_code (List.mem_cons_of_mem _ List.mem_cons_self))

theorem confines_decided (value fallback : String) : Confines (decided value fallback) nowhere :=
  confines_nowhere fun _ => ⟨[_], fun _ =>
    inserts_replace "refine" (made_code (List.mem_singleton_self _))⟩

theorem chain_changeEnumeration
    (f : List String → Option String → Option String → List String × Option String × Option String)
    (b : Builder) : (changeEnumeration f b).chain = b.chain := by
  unfold changeEnumeration
  split <;> rfl

theorem confines_enumerationRequired : Confines enumerationRequired nowhere := by
  refine confines_nowhere fun message => ⟨[], fun parameters => ?_⟩
  unfold enumerationRequired
  cases Text.nonEmpty? message with
  | none => exact inserts_pure ()
  | some m => exact inserts_modify (chain_changeEnumeration _)

theorem confines_enumerationValues : Confines enumerationValues nowhere :=
  confines_modify (fun _ _ => rfl) fun _ _ => chain_changeEnumeration _

theorem confines_enumerationName : Confines enumerationName nowhere :=
  confines_modify (fun _ _ => rfl) fun _ _ => chain_changeEnumeration _

end Builder

section Describes

theorem Length.describes_methods : Length.places.Describes Length.methods := by
  simp only [PlaceTable.Describes, methods, List.forall_mem_cons]
  exact ⟨confines_min, confines_max, confines_lowered (-1), confines_lowered 0, confines_raised 1,
    confines_raised 0, confines_between, confines_size, confines_trim, List.forall_mem_nil _⟩

theorem TextRule.describes_methods : Length.places.Describes TextRule.methods := by
  simp only [PlaceTable.Describes, methods, List.forall_mem_append, List.forall_mem_cons]
  exact ⟨⟨confines_required, confines_nothing, confines_regex, confines_notRegex, confines_uuid,
    confines_marked _ _, confines_marked _ _, confines_marked _ _, confines_marked _ _,
    confines_cased _ _, confines_cased _ _, confines_affixed _ _ _, confines_affixed _ _ _,
    confines_notAffixed _ _ _, confines_notAffixed _ _ _, confines_listed _, confines_listed _,
    confines_json, confines_ip, confines_format _, confines_format _, confines_format _,
    confines_macAddress, confines_date, confines_dateFormat, List.forall_mem_nil _⟩,
    Length.describes_methods⟩

theorem NumberRule.describes_methods : NumberRule.places.Describes NumberRule.methods := by
  simp only [PlaceTable.Describes, methods, List.forall_mem_cons]
  exact ⟨RuleSchema.confines_required, confines_nothing, confines_integer, confines_bounded _,
    confines_bounded _, confines_bounded _, confines_bounded _, confines_bounded _,
    confines_bounded _, confines_bounded _, confines_between, confines_size, confines_decimal,
    confines_digits _, confines_digits _, confines_digits _, confines_digitsBetween,
    confines_listed _, confines_listed _, List.forall_mem_nil _⟩

theorem FileRule.describes_methods : FileRule.places.Describes FileRule.methods := by
  simp only [PlaceTable.Describes, methods, List.forall_mem_cons]
  exact ⟨RuleSchema.confines_required, confines_nothing, confines_image, confines_extensions,
    confines_extensions, confines_mediaTypes, confines_bounded _, confines_bounded _,
    confines_size, confines_between, confines_dimensions, List.forall_mem_nil _⟩

/-- The rules of every builder have the places under their names. -/
theorem Base.describes_methods (base : Base) : base.places.Describes base.methods := by
  cases base with
  | text => exact TextRule.describes_methods
  | url => exact List.forall_mem_cons.mpr ⟨TextRule.confines_url, TextRule.describes_methods⟩
  | password =>
      simp only [PlaceTable.Describes, methods, TextRule.passwordMethods, List.forall_mem_append,
        List.forall_mem_cons]
      exact ⟨⟨confines_nothing, TextRule.confines_passwordPattern _ _,
        TextRule.confines_passwordMixed, TextRule.confines_passwordPattern _ _,
        TextRule.confines_passwordPattern _ _, confines_nothing, List.forall_mem_nil _⟩,
        TextRule.describes_methods⟩
  | email =>
      simp only [PlaceTable.Describes, methods, List.forall_mem_append, List.forall_mem_cons]
      exact ⟨⟨Builder.confines_mail, confines_nothing, Builder.confines_mailRequired,
        List.forall_mem_nil _⟩, Length.describes_methods⟩
  | number => exact NumberRule.describes_methods
  | boolean =>
      simp only [PlaceTable.Describes, methods, List.forall_mem_cons]
      exact ⟨confines_required, confines_nothing, Builder.confines_decided _ _,
        Builder.confines_decided _ _, List.forall_mem_nil _⟩
  | file => exact FileRule.describes_methods
  | array =>
      simp only [PlaceTable.Describes, methods, List.forall_mem_append, List.forall_mem_cons]
      exact ⟨⟨confines_required, confines_nothing, confines_nothing, Builder.confines_distinct,
        List.forall_mem_nil _⟩, Length.describes_methods⟩
  | object => exact List.forall_mem_singleton.mpr confines_required
  | reference => exact List.forall_mem_singleton.mpr confines_required
  | enumeration =>
      simp only [PlaceTable.Describes, methods, List.forall_mem_cons]
      exact ⟨Builder.confines_enumerationRequired, Builder.confines_enumerationValues,
        Builder.confines_enumerationName, List.forall_mem_nil _⟩

/-- A rule that a builder does not know has no places. -/
theorem Base.places_of_eq_nowhere {base : Base} {name : String}
    (h : base.methods.lookup name = none) : base.places.of name = nowhere := by
  have hknown : ∀ p ∈ base.places, p.1 ∈ base.methods.map Prod.fst := by
    cases base with
    | text => exact (by decide : ∀ p ∈ Length.places, p.1 ∈ TextRule.methods.map Prod.fst)
    | url => exact (by decide : ∀ p ∈ Length.places, p.1 ∈ TextRule.urlMethods.map Prod.fst)
    | password =>
        exact (by decide : ∀ p ∈ Length.places, p.1 ∈ TextRule.passwordMethods.map Prod.fst)
    | email => exact (by decide : ∀ p ∈ Length.places, p.1 ∈ (email none).methods.map Prod.fst)
    | number => exact (by decide : ∀ p ∈ NumberRule.places, p.1 ∈ NumberRule.methods.map Prod.fst)
    | file => exact (by decide : ∀ p ∈ FileRule.places, p.1 ∈ FileRule.methods.map Prod.fst)
    | array => exact (by decide : ∀ p ∈ Length.places, p.1 ∈ (array "").methods.map Prod.fst)
    | boolean | object | reference | enumeration => exact List.forall_mem_nil _
  have hnone : base.places.lookup name = none := by
    rw [List.lookup_eq_none_iff] at h ⊢
    intro p hp
    obtain ⟨q, hq, hname⟩ := List.mem_map.mp (hknown p hp)
    exact hname ▸ h q hq
  rw [PlaceTable.of, hnone, Option.getD_none]

end Describes

section Fair

/-- Whatever a table puts into places is a number of the format or no literal. -/
def Places.IsFair (places : Places) : Prop := ∀ parameters, ∀ w ∈ places parameters, w.IsFair

variable {places others : Places}

theorem isFair_nowhere : Places.IsFair nowhere := fun _ _ hw => by cases hw

theorem Places.IsFair.append (h : IsFair places) (h' : IsFair others) :
    IsFair fun parameters => places parameters ++ others parameters :=
  fun parameters w hw => (List.mem_append.mp hw).elim (h parameters w) (h' parameters w)

theorem isFair_readings {read : String → Option Number}
    (h : ∀ p n, read p = some n → n.InRange) : Places.IsFair (readings read) := by
  intro parameters w hw
  obtain ⟨n, hn, rfl⟩ := List.mem_map.mp hw
  obtain ⟨p, -, hp⟩ := List.mem_filterMap.mp hn
  exact h p n hp

theorem isFair_leading {read : String → Option Number}
    (h : ∀ p n, read p = some n → n.InRange) (k : Nat) : Places.IsFair (leading read k) :=
  fun _ => isFair_readings h _

theorem isFair_count (p : String) : (count p).IsFair := by
  rw [count]
  cases h : Parameter.numberOfText? p with
  | none => exact Script.not_isFiniteLiteral_of_numberOfText? h
  | some n => exact Number.inRange_of_numberOfText? h

theorem isFair_counts (k : Nat) : Places.IsFair (counts k) := by
  intro parameters w hw
  obtain ⟨p, -, rfl⟩ := List.mem_map.mp hw
  exact isFair_count p

/-- A bound that is read again is the number itself. -/
theorem Parameter.inRange_of_number? {n m : Number} (hn : n.InRange)
    (h : (Parameter.number n).number? = .ok (some m)) : m.InRange := by
  cases n with
  | whole i =>
      rw [Parameter.number?] at h
      split at h
      · cases h
      · cases h
        trivial
  | real x =>
      cases h
      exact Number.inRange_ofBinary hn

theorem inRange_of_shifted? {change : Int} {p : String} {n : Number}
    (h : shifted? change p = some n) : n.InRange := by
  obtain ⟨read, hread, h⟩ := Option.bind_eq_some_iff.mp h
  have hmoved : (if change = 0 then read else read.addInt change).InRange := by
    split
    · exact Number.inRange_of_numberOfText? hread
    · exact Number.inRange_addInt (Number.inRange_of_numberOfText? hread) change
  obtain ⟨bound?, hbound, rfl⟩ := Option.map_eq_some_iff.mp h
  cases bound? with
  | none => exact hmoved
  | some m =>
      refine Parameter.inRange_of_number? hmoved ?_
      generalize (Parameter.number _).number? = result at hbound ⊢
      cases result with
      | error fault => cases hbound
      | ok found => exact congrArg Except.ok (Option.some.inj hbound)

theorem mem_of_cutFirst_eq_some {sep : Char} {cs head tail : List Char}
    (h : Text.cutFirst sep cs = (head, some tail)) : sep ∈ cs := by
  induction cs generalizing head with
  | nil => cases h
  | cons c rest ih =>
      rw [Text.cutFirst] at h
      split at h
      · rename_i heq
        exact eq_of_beq heq ▸ List.mem_cons_self
      · obtain ⟨-, htail⟩ := Prod.mk.inj h
        exact List.mem_cons_of_mem c (ih (Prod.ext rfl htail))

theorem FileRule.isFair_quotient (value : List Char) : (quotient value).IsFair := by
  unfold quotient
  cases hcut : Text.cutFirst '/' value with
  | mk above below? =>
      cases below? with
      | none => exact isFair_count _
      | some below =>
          -- A text with a stroke is no literal.
          have hcopied : (Inserted.copied (String.ofList value)).IsFair := by
            refine Script.not_isFiniteLiteral_of_mem (c := '/') ?_ ?_
            · rw [String.toList_ofList]
              exact mem_of_cutFirst_eq_some hcut
            · unfold Script.IsLiteralChar
              decide
          dsimp only
          cases Binary64.ofChars? above with
          | none => exact hcopied
          | some x =>
              cases Binary64.ofChars? below with
              | none => exact hcopied
              | some y =>
                  dsimp only
                  split
                  · exact hcopied
                  · rename_i hzero
                    exact Binary64.inRange_div x (Bool.eq_false_of_not_eq_true hzero)

theorem FileRule.isFair_dimensionPlaces : Places.IsFair dimensionPlaces := by
  intro parameters w hw
  obtain ⟨c, hc, rfl⟩ := List.mem_map.mp hw
  obtain ⟨p, -, hp⟩ := List.mem_filterMap.mp hc
  unfold constraint? at hp
  split at hp
  · dsimp only at hp
    split at hp
    · cases hp
      exact isFair_quotient _
    · obtain ⟨lead, -, rfl⟩ := Option.map_eq_some_iff.mp hp
      exact isFair_count _
  · cases hp

theorem PlaceTable.isFair_of {table : PlaceTable} (h : ∀ p ∈ table, p.2.IsFair) (name : String) :
    (table.of name).IsFair := by
  rw [PlaceTable.of]
  cases hfound : table.lookup name with
  | none => exact isFair_nowhere
  | some places => exact h _ (Table.mem_of_lookup_eq_some hfound)

theorem Base.isFair_places (base : Base) : ∀ p ∈ base.places, p.2.IsFair := by
  have hread (k : Nat) : Places.IsFair (leading Parameter.numberOfText? k) :=
    isFair_leading (fun _ _ => Number.inRange_of_numberOfText?) k
  have hshifted (change : Int) : Places.IsFair (leading (shifted? change) 1) :=
    isFair_leading (fun _ _ => inRange_of_shifted?) 1
  have hbytes (k : Nat) : Places.IsFair (leading FileRule.bytesOf? k) :=
    isFair_leading (fun _ _ => FileRule.inRange_of_bytesOf?) k
  have hlength : ∀ p ∈ Length.places, p.2.IsFair := by
    have hbetween : Places.IsFair fun parameters =>
        if 2 ≤ parameters.length then leading Parameter.numberOfText? 2 parameters else [] := by
      intro parameters w hw
      dsimp only at hw
      split at hw
      · exact hread 2 parameters w hw
      · cases hw
    simp only [Length.places, List.forall_mem_cons]
    exact ⟨hread 1, hread 1, hshifted _, hshifted _, hshifted _, hshifted _, hbetween, hread 1,
      List.forall_mem_nil _⟩
  have hnumber : ∀ p ∈ NumberRule.places, p.2.IsFair := by
    have hlisted : Places.IsFair numbers :=
      isFair_readings fun _ _ => Number.inRange_of_numberOfText?
    simp only [NumberRule.places, List.forall_mem_cons]
    exact ⟨hread 1, hread 1, hread 1, hread 1, hread 1, hread 1, hread 1, hread 2,
      (hread 1).append (hread 1), isFair_counts 2, isFair_counts 1, isFair_counts 1,
      isFair_counts 1, isFair_counts 2, hlisted, hlisted, List.forall_mem_nil _⟩
  have hfile : ∀ p ∈ FileRule.places, p.2.IsFair := by
    simp only [FileRule.places, List.forall_mem_cons]
    exact ⟨hbytes 1, hbytes 1, (hbytes 1).append (hbytes 1), hbytes 2,
      FileRule.isFair_dimensionPlaces, List.forall_mem_nil _⟩
  cases base with
  | text | url | password | email | array => exact hlength
  | number => exact hnumber
  | file => exact hfile
  | boolean | object | reference | enumeration => exact List.forall_mem_nil _

end Fair

namespace Compiler

/-- What a check puts into places for numbers of a builder. -/
def inserted (base : Base) (check : Check) : List Inserted :=
  if isPassedOver check.rule then []
  else base.places.of (Builder.methodName check.rule) (check.parameters.map Parameter.display)

/-- The parameters of a check are texts. -/
def IsTextual (check : Check) : Prop := ∃ texts : List String, check.parameters = texts.map .text

/-- A rule with a message. -/
def head (check : Check) : String × Option String := (check.rule, check.message)

theorem isFair_inserted (base : Base) (check : Check) : ∀ w ∈ inserted base check, w.IsFair := by
  unfold inserted
  split
  · exact List.forall_mem_nil _
  · exact PlaceTable.isFair_of base.isFair_places _ _

theorem arguments_of_parameters {check : Check} {texts : List String}
    (h : check.parameters = texts.map .text) :
    check.parameters.map some = arguments texts ∧
      check.parameters.map Parameter.display = texts := by
  rw [h, List.map_map, List.map_map]
  exact ⟨rfl, List.map_id _⟩

/-- One check: every new call has its parameters in places only. On a builder without rules and
without a message, each place is there. -/
theorem exists_made_applyCheck (base : Base) (rule : String) (message : Option String) :
    ∃ codes, ∀ check b next, check.rule = rule → check.message = message → IsTextual check →
      b.base.sort = base.sort → applyCheck b check = .ok next →
      (∀ call ∈ next.chain, call ∈ b.chain ∨ ∃ shown ⊆ inserted base check, Made codes shown call) ∧
      (message = none → b.IsBare → ∀ w ∈ inserted base check,
        ∃ call ∈ next.chain, ∃ shown ⊆ inserted base check, w ∈ shown ∧ Made codes shown call) := by
  by_cases hpassed : isPassedOver rule = true
  · refine ⟨[], fun check b next hrule hmessage htexts hsort h => ?_⟩
    subst hrule
    rw [applyCheck, if_pos hpassed] at h
    cases h
    rw [inserted, if_pos hpassed]
    exact ⟨fun call hc => .inl hc, fun _ _ => List.forall_mem_nil _⟩
  · cases hfound : base.methods.lookup (Builder.methodName rule) with
    | none =>
        refine ⟨[], fun check b next hrule hmessage htexts hsort h => ?_⟩
        subst hrule
        have hmethod := (Builder.method?_of_sort hsort check.rule).trans hfound
        have hnext : next = b := (eq_after_of_applyCheck hpassed h).trans
          (congrArg Prod.snd (Builder.run_applyRule_of_none hmethod))
        rw [inserted, if_neg hpassed, Base.places_of_eq_nowhere hfound, hnext]
        exact ⟨fun call hc => .inl hc, fun _ _ => List.forall_mem_nil _⟩
    | some method =>
        obtain ⟨codes, hinserts, hshown⟩ :=
          base.describes_methods _ (Table.mem_of_lookup_eq_some hfound) message
        refine ⟨codes, fun check b next hrule hmessage htexts hsort h => ?_⟩
        subst hrule hmessage
        obtain ⟨texts, htexts⟩ := htexts
        obtain ⟨harguments, hdisplay⟩ := arguments_of_parameters htexts
        have hmethod := (Builder.method?_of_sort hsort check.rule).trans hfound
        have hnext : next =
            after (method (arguments texts) check.message >>= fun _ => pure true) b := by
          rw [eq_after_of_applyCheck hpassed h, harguments]
          exact congrArg Prod.snd (Builder.run_applyRule_of_some hmethod)
        have hinserted : inserted base check =
            base.places.of (Builder.methodName check.rule) texts := by
          rw [inserted, if_neg hpassed, hdisplay]
        rw [hinserted, hnext]
        refine ⟨((hinserts texts).bind fun _ => inserts_pure true) b, fun hnone hb w hw => ?_⟩
        obtain ⟨call, hcall, hrest⟩ := hshown hnone texts b hb w hw
        refine ⟨call, ?_, hrest⟩
        rw [hnone]
        rcases after_bind (method (arguments texts) none) (fun _ => pure true) b with heq | ⟨_, heq⟩
        · rwa [heq]
        · rwa [heq]

/-- A run of checks puts the parameters into calls in places, literals and patterns only. -/
theorem exists_made_applyChecks (base : Base) (heads : List (String × Option String)) :
    ∃ codes, ∀ (checks : List Check) (b next : Builder), checks.map head = heads →
      (∀ check ∈ checks, IsTextual check) →
      b.base.sort = base.sort → checks.foldlM applyCheck b = .ok next →
      ∀ call ∈ next.chain, call ∈ b.chain ∨
        ∃ shown ⊆ checks.flatMap (inserted base), Made codes shown call := by
  induction heads with
  | nil =>
      refine ⟨[], fun checks b next hheads _ _ h call hc => .inl ?_⟩
      obtain rfl := List.map_eq_nil_iff.mp hheads
      cases h
      exact hc
  | cons first rest ih =>
      obtain ⟨codes, hstep⟩ := exists_made_applyCheck base first.1 first.2
      obtain ⟨more, hrun⟩ := ih
      refine ⟨codes ++ more, fun checks b next hheads htexts hsort h call hc => ?_⟩
      obtain ⟨check, tail, rfl, hcheck, hheads⟩ := List.map_eq_cons_iff.mp hheads
      obtain ⟨hrule, hmessage⟩ := Prod.mk.inj hcheck
      obtain ⟨htext, htexts⟩ := List.forall_mem_cons.mp htexts
      rw [List.foldlM_cons] at h
      rw [List.flatMap_cons]
      cases hmid : applyCheck b check with
      | error fault =>
          rw [hmid] at h
          cases h
      | ok mid =>
          rw [hmid] at h
          have hsame : mid.base.sort = base.sort :=
            (congrArg Frame.sort (frame_of_applyCheck hmid)).trans hsort
          rcases hrun tail mid next hheads htexts hsame h call hc with hold | ⟨shown, hsub, hmade⟩
          · rcases (hstep check b mid hrule hmessage htext hsort hmid).1 call hold with
              hfirst | ⟨shown, hsub, hmade⟩
            · exact .inl hfirst
            · exact .inr ⟨shown, List.subset_append_of_subset_left _ hsub,
                hmade.mono (List.subset_append_left _ _)⟩
          · exact .inr ⟨shown, List.subset_append_of_subset_right _ hsub,
              hmade.mono (List.subset_append_right _ _)⟩

/-- The parameters of checks stand in places for numbers, in literals and in patterns, and the code
around them depends on the rules and their messages alone. In a place stands a literal of a finite
number exactly where the rule puts a finite number there. Each place of a single rule is in the
chain. -/
theorem inserted_finite_iff (base : Base) (heads : List (String × Option String)) :
    ∃ codes, ∀ (checks : List Check) (next : Builder), checks.map head = heads →
      (∀ check ∈ checks, IsTextual check) →
      checks.foldlM applyCheck (Builder.ofBase base) = .ok next →
      (∀ call ∈ next.chain, ∃ shown ⊆ checks.flatMap (inserted base), Made codes shown call) ∧
      (∀ w ∈ checks.flatMap (inserted base), Script.IsFiniteLiteral w.text ↔ w.IsFinite) ∧
      ∀ rule, heads = [(rule, none)] → ∀ w ∈ checks.flatMap (inserted base), ∃ call ∈ next.chain,
        ∃ shown ⊆ checks.flatMap (inserted base), w ∈ shown ∧ Made codes shown call := by
  obtain ⟨codes, hrun⟩ := exists_made_applyChecks base heads
  obtain ⟨more, hstep⟩ := exists_made_applyCheck base ((heads.head?.map Prod.fst).getD "") none
  refine ⟨codes ++ more, fun checks next hheads htexts h => ⟨fun call hc => ?_, fun w hw => ?_,
    fun rule hsingle w hw => ?_⟩⟩
  · rcases hrun checks _ next hheads htexts rfl h call hc with hold | ⟨shown, hsub, hmade⟩
    · cases hold
    · exact ⟨shown, hsub, hmade.mono (List.subset_append_left _ _)⟩
  · obtain ⟨check, -, hw⟩ := List.mem_flatMap.mp hw
    exact Inserted.isFiniteLiteral_text_iff (isFair_inserted base check w hw)
  · rw [hsingle] at hheads hstep
    obtain ⟨check, rfl, hhead⟩ := List.map_eq_singleton_iff.mp hheads
    obtain ⟨hrule, hmessage⟩ := Prod.mk.inj hhead
    rw [List.flatMap_singleton] at hw ⊢
    have happly : applyCheck (Builder.ofBase base) check = .ok next := by
      rw [List.foldlM_cons] at h
      exact (bind_pure _).symm.trans h
    obtain ⟨call, hc, shown, hsub, hmem, hmade⟩ :=
      (hstep check _ next hrule hmessage (List.forall_mem_singleton.mp htexts) rfl happly).2 rfl
        ⟨rfl, rfl, rfl⟩ w hw
    exact ⟨call, hc, shown, hsub, hmem, hmade.mono (List.subset_append_right _ _)⟩

/-- A count that is a number stands in its place as a literal. -/
theorem inserted_finite_digits :
    let check : Check := ⟨"digits", [.text "5"], none, false, false⟩
    let next := (Builder.ofBase (.number none)).addCall
      (NumberRule.digitsCheck "===" none (.number (.whole 5)))
    [check].foldlM applyCheck (Builder.ofBase (.number none)) = .ok next ∧
      Script.IsFiniteLiteral (Inserted.number (.whole 5)).text ∧
      ∃ codes, ∃ call ∈ next.chain, ∃ shown, .number (.whole 5) ∈ shown ∧
        Made codes shown call := by
  intro check next
  have hrun : [check].foldlM applyCheck (Builder.ofBase (.number none)) = .ok next := by
    decide +kernel
  have hmem : .number (.whole 5) ∈ [check].flatMap (inserted (.number none)) := by decide +kernel
  obtain ⟨codes, h⟩ := inserted_finite_iff (.number none) [("digits", none)]
  obtain ⟨-, hfinite, hshown⟩ :=
    h [check] next rfl (List.forall_mem_singleton.mpr ⟨["5"], rfl⟩) hrun
  obtain ⟨call, hcall, shown, -, hw, hmade⟩ := hshown "digits" rfl _ hmem
  exact ⟨hrun, (hfinite _ hmem).mpr (by decide +kernel), codes, call, hcall, shown, hw, hmade⟩

/-- A count that is no number comes into the code as it is. -/
theorem inserted_copied_digits :
    ([⟨"digits", [.text "abc"], none, false, false⟩].foldlM applyCheck
        (Builder.ofBase (.number none))).map Builder.chain =
      .ok [".refine((val) => \x7bconst str = String(Math.abs(Math.floor(val))); " ++
        "return str.length === abc; \x7d, " ++
        "\x7b message: 'The value has an invalid number of digits.' \x7d)"] ∧
      inserted (.number none) ⟨"digits", [.text "abc"], none, false, false⟩ = [.copied "abc"] ∧
      ¬ Script.IsFiniteLiteral "abc" :=
  ⟨by decide +kernel, by decide +kernel,
    Script.not_isFiniteLiteral_of_numberOfText? (by decide +kernel)⟩

end Compiler

end RuleSchema
