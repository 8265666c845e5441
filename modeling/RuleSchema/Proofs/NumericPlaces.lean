import RuleSchema.Proofs.ParameterPlaces

/-!
# Places for numbers

Every rule with a bound, a count, a size, a dimension or a list of numbers has places for numbers.
In some of them only numbers come, and other texts are skipped or quoted; in others the text comes
as it is where it is no number.
-/

namespace RuleSchema

open Chain

section Tables

/-- What parameters are read as; a text that is not read is skipped or quoted. -/
def readings (read : String → Option Number) : Places := fun parameters =>
  (parameters.filterMap read).map .number

/-- What the first parameters are read as. -/
def leading (read : String → Option Number) (k : Nat) : Places := fun parameters =>
  readings read (parameters.take k)

/-- The numbers among parameters. -/
def numbers : Places := readings Parameter.numberOfText?

/-- A parameter as a number, or as it is where it is none. -/
def count (parameter : String) : Inserted :=
  match Parameter.numberOfText? parameter with
  | some n => .number n
  | none => .copied parameter

/-- The first parameters as counts. -/
def counts (k : Nat) : Places := fun parameters => (parameters.take k).map count

/-- The number of a parameter, changed by an integer, as a bound. -/
def shifted? (change : Int) (parameter : String) : Option Number :=
  (Parameter.numberOfText? parameter).bind fun n =>
    let moved := if change = 0 then n else n.addInt change
    (Parameter.number moved).number?.toOption.map (·.getD moved)

end Tables

section Steps

variable {α β : Type} {P Q : Builder → Prop} {x y : List String → Option String → Building Unit}
  {places others : Places}

theorem ConfinesOn.weaken (h : ConfinesOn P x places) (hPQ : ∀ b, Q b → P b) :
    ConfinesOn Q x places := by
  intro message
  obtain ⟨codes, hinserts, hshown⟩ := h message
  exact ⟨codes, hinserts, fun hnone parameters b hb => hshown hnone parameters b (hPQ b hb)⟩

/-- Other parameters may be given on. -/
theorem ConfinesOn.comp (h : ConfinesOn P x places) (f : List String → List String) :
    ConfinesOn P (fun parameters => x (f parameters)) fun parameters => places (f parameters) := by
  intro message
  obtain ⟨codes, hinserts, hshown⟩ := h message
  exact ⟨codes, fun parameters => hinserts (f parameters), fun hnone parameters =>
    hshown hnone (f parameters)⟩

theorem ConfinesOn.ite (h : ConfinesOn P x places) (c : List String → Prop) [DecidablePred c] :
    ConfinesOn P (fun parameters message => if c parameters then x parameters message else pure ())
      fun parameters => if c parameters then places parameters else [] := by
  intro message
  obtain ⟨codes, hinserts, hshown⟩ := h message
  refine ⟨codes, fun parameters => ?_, fun hnone parameters b hb => ?_⟩
  · by_cases hc : c parameters
    · simpa only [if_pos hc] using hinserts parameters
    · simpa only [if_neg hc] using inserts_pure ()
  · dsimp only
    by_cases hc : c parameters
    · simpa only [if_pos hc] using hshown hnone parameters b hb
    · rw [if_neg hc]
      exact fun w hw => by cases hw

/-- Two steps: the first one leaves a builder for the second one, unless this has nothing to show,
and what is in the chain after the first one stays there. -/
theorem ConfinesOn.seq (hx : ConfinesOn P x places) (hy : ConfinesOn Q y others)
    (hnext : ∀ parameters b, P b → others parameters ≠ [] → ∃ c, Q c ∧
      after (do x parameters none; y parameters none) b = after (y parameters none) c)
    (hstays : ∀ parameters b, P b → ∀ call ∈ (after (x parameters none) b).chain,
      call ∈ (after (do x parameters none; y parameters none) b).chain) :
    ConfinesOn P (fun parameters message => do x parameters message; y parameters message)
      fun parameters => places parameters ++ others parameters := by
  intro message
  obtain ⟨codes, hinserts, hshown⟩ := hx message
  obtain ⟨more, hmore, hothers⟩ := hy message
  refine ⟨codes ++ more, fun parameters => ?_, fun hnone parameters b hb w hw => ?_⟩
  · exact ((hinserts parameters).mono (List.subset_append_left _ _)
      (List.subset_append_left _ _)).bind fun _ => (hmore parameters).mono
        (List.subset_append_right _ _) (List.subset_append_right _ _)
  · rcases List.mem_append.mp hw with hw | hw
    · obtain ⟨call, hcall, shown, hsub, hmem, hmade⟩ := hshown hnone parameters b hb w hw
      exact ⟨call, hstays parameters b hb call hcall, shown,
        List.subset_append_of_subset_left _ hsub, hmem, hmade.mono (List.subset_append_left _ _)⟩
    · obtain ⟨c, hc, heq⟩ := hnext parameters b hb (List.ne_nil_of_mem hw)
      obtain ⟨call, hcall, shown, hsub, hmem, hmade⟩ := hothers hnone parameters c hc w hw
      exact ⟨call, heq ▸ hcall, shown, List.subset_append_of_subset_right _ hsub, hmem,
        hmade.mono (List.subset_append_right _ _)⟩

/-- A step that adds one call with all its places, or has no place and adds none. -/
theorem confinesOn_add (h : ∀ message, ∃ codes, ∀ parameters,
    (places parameters = [] ∧ Inserts codes [] (x parameters message)) ∨
      ∃ call, x parameters message = Building.add call ∧ Made codes (places parameters) call) :
    ConfinesOn P x places := by
  intro message
  obtain ⟨codes, h⟩ := h message
  refine ⟨codes, fun parameters => ?_, fun hmessage parameters b _ w hw => ?_⟩
  · rcases h parameters with ⟨hnone, hx⟩ | ⟨call, hx, hmade⟩
    · rw [hnone]
      exact hx
    · rw [hx]
      exact inserts_add hmade
  · subst hmessage
    rcases h parameters with ⟨hnone, -⟩ | ⟨call, hx, hmade⟩
    · rw [hnone] at hw
      cases hw
    · rw [hx]
      exact ⟨call, List.mem_append_right _ (List.mem_singleton_self call), _, List.Subset.refl _,
        hw, hmade⟩

/-- What follows a step that does not fail starts from its builder. -/
theorem after_bind_of_ok {x : Building α} {f : α → Building β} {b : Builder} {a : α}
    (h : (x.run.run b).1 = .ok a) : after (x >>= f) b = after (f a) (after x b) := by
  unfold after
  rw [ExceptT.run_bind, StateT.run_bind]
  cases hrun : x.run.run b with
  | mk result next =>
      rw [hrun] at h
      obtain rfl := h
      rfl

end Steps

section Numbers

/-- A call with a number and a message. -/
def numberCall (lead : String) (message : Option String) (n : Number) : String :=
  lead ++ n.text ++ Script.messageArgument message ++ ")"

theorem uniform_numberCall (lead : String) (message : Option String) :
    Uniform (fun n => [.number n]) (numberCall lead message) :=
  (((uniform_place .number).after lead).before _).before ")"

theorem arguments_take (k : Nat) (parameters : List String) :
    arguments (parameters.take k) = (arguments parameters).take k := List.map_take

theorem arguments_drop (k : Nat) (parameters : List String) :
    arguments (parameters.drop k) = (arguments parameters).drop k := List.map_drop

/-- The number of the first parameter. -/
def first? (parameters : List String) : Option Number :=
  parameters.head?.bind Parameter.numberOfText?

theorem firstNumber?_arguments (parameters : List String) :
    Building.firstNumber? (arguments parameters) = pure (first? parameters) := by
  cases parameters <;> rfl

/-- What the first parameter is read as. -/
theorem leading_one (read : String → Option Number) (parameters : List String) :
    leading read 1 parameters = (parameters.head?.bind read).toList.map .number := by
  cases parameters with
  | nil => rfl
  | cons p rest =>
      rw [leading, readings, List.take_succ_cons, List.take_zero, List.head?_cons,
        Option.bind_some]
      cases h : read p with
      | none => rw [List.filterMap_cons_none h]; rfl
      | some n => rw [List.filterMap_cons_some h]; rfl

/-- The first two parameters are the first one and the second one. -/
theorem leading_two (read : String → Option Number) (parameters : List String) :
    leading read 2 parameters =
      leading read 1 (parameters.take 1) ++ leading read 1 ((parameters.drop 1).take 1) := by
  rw [leading, leading, leading, readings, readings, readings, ← List.map_append,
    ← List.filterMap_append]
  match parameters with
  | [] => rfl
  | [p] => rfl
  | p :: q :: rest => rfl

theorem leading_one_take (read : String → Option Number) (parameters : List String) :
    leading read 1 (parameters.take 1) = leading read 1 parameters := by
  rw [leading, leading, List.take_take, Nat.min_self]

/-- A step on what the first parameter is read as: its call has one place, where the number
stands. -/
theorem confinesOn_number {P : Builder → Prop} {x : List String → Option String → Building Unit}
    {read : String → Option Number} (lead : String) (act : Option String → Number → Building Unit)
    (hnone : ∀ parameters message, parameters.head?.bind read = none →
      ∀ codes, Inserts codes [] (x parameters message))
    (hsome : ∀ parameters message n, parameters.head?.bind read = some n →
      x parameters message = act message n)
    (hinserts : ∀ message codes n, Made codes [.number n] (numberCall lead message n) →
      Inserts codes [.number n] (act message n))
    (hmem : ∀ n b, P b → numberCall lead none n ∈ (after (act none n) b).chain) :
    ConfinesOn P x (leading read 1) := by
  intro message
  obtain ⟨codes, hmade⟩ := uniform_numberCall lead message
  refine ⟨codes, fun parameters => ?_, fun hmessage parameters b hb => ?_⟩
  · rw [leading_one]
    cases hnumber : parameters.head?.bind read with
    | none => exact hnone parameters message hnumber codes
    | some n =>
        rw [hsome parameters message n hnumber]
        exact hinserts message codes n (hmade n)
  · subst hmessage
    rw [leading_one]
    cases hnumber : parameters.head?.bind read with
    | none => exact fun w hw => by cases hw
    | some n =>
        rw [hsome parameters none n hnumber]
        exact fun w hw => ⟨_, hmem n b hb, _, List.Subset.refl _, hw, hmade n⟩

/-- A call takes the place of those of its method. -/
theorem mem_after_replace (method call : String) (b : Builder) :
    call ∈ (after (Building.replace method call) b).chain :=
  List.mem_append_right _ (List.mem_singleton_self call)

/-- A call on the least bound does not look like one on the greatest bound. -/
theorem contains_numberCall_min {n : Number} (h : n.InRange) :
    Text.contains (numberCall ".min(" none n) "max(" = false := by
  refine DottedPath.contains_eq_false (c := 'x') (by decide) fun hmem => ?_
  rw [numberCall, Script.messageArgument, String.append_empty, String.toList_append,
    String.toList_append] at hmem
  rcases List.mem_append.mp hmem with hmem | hmem
  · rcases List.mem_append.mp hmem with hmem | hmem
    · exact absurd hmem (by decide)
    · rcases Number.isLiteralChar_of_mem_text h hmem with hchar | hletter
      · revert hchar
        unfold Script.IsLiteralChar
        decide
      · exact absurd hletter (by decide)
  · exact absurd hmem (by decide)

theorem inRange_of_first? {parameters : List String} {n : Number} (h : first? parameters = some n) :
    n.InRange := by
  obtain ⟨p, -, hp⟩ := Option.bind_eq_some_iff.mp h
  exact Number.inRange_of_numberOfText? hp

/-- A step does nothing or puts a bound on the least value in place of other ones. -/
def SetsLeast (x : Building Unit) : Prop :=
  ∀ b, after x b = b ∨ ∃ (n : Number) (least : Option Number), n.InRange ∧
    after x b = { b with least := least }.replaceCall "min" (numberCall ".min(" none n)

/-- A step does nothing or puts a bound on the greatest value in place of other ones. -/
def SetsGreatest (x : Building Unit) : Prop :=
  ∀ b, after x b = b ∨ ∃ (call : String) (greatest : Option Number),
    after x b = { b with greatest := greatest }.replaceCall "max" call

theorem setsLeast_replace {n : Number} (h : n.InRange) :
    SetsLeast (Building.replace "min" (numberCall ".min(" none n)) :=
  fun b => .inr ⟨n, b.least, h, rfl⟩

theorem setsGreatest_replace (call : String) : SetsGreatest (Building.replace "max" call) :=
  fun b => .inr ⟨call, b.greatest, rfl⟩

theorem setsLeast_raise {n : Number} (h : n.InRange) : SetsLeast (Length.raise n none) := by
  intro b
  rw [after_raise]
  split
  · exact .inl rfl
  · exact .inr ⟨n, some n, h, rfl⟩

theorem setsGreatest_lower (n : Number) : SetsGreatest (Length.lower n none) := by
  intro b
  rw [after_lower]
  split
  · exact .inl rfl
  · exact .inr ⟨numberCall ".max(" none n, some n, rfl⟩

/-- A bound on the least value and one on the greatest value. -/
theorem confinesOn_pair {low high : List String → Option String → Building Unit}
    {places others : Places} (hlow : ConfinesOn Builder.IsBare low places)
    (hhigh : ConfinesOn (fun b => b.greatest = none) high others)
    (hok : ∀ parameters b, others parameters ≠ [] → ((low parameters none).run.run b).1 = .ok ())
    (hleast : ∀ parameters, SetsLeast (low parameters none))
    (hgreatest : ∀ parameters, SetsGreatest (high parameters none)) :
    ConfinesOn Builder.IsBare
      (fun parameters message => do low parameters message; high parameters message)
      fun parameters => places parameters ++ others parameters := by
  refine hlow.seq hhigh (fun parameters b hb hne => ?_) fun parameters b hb call hcall => ?_
  · refine ⟨_, ?_, after_bind_of_ok (hok parameters b hne)⟩
    rcases hleast parameters b with heq | ⟨n, least, -, heq⟩
    · rw [heq]
      exact hb.greatest_eq
    · rw [heq]
      exact hb.greatest_eq
  · rcases after_bind (low parameters none) (fun _ => high parameters none) b with heq | ⟨_, heq⟩
    · rwa [heq]
    · rw [heq]
      rcases hgreatest parameters (after (low parameters none) b) with
        hsame | ⟨other, greatest, hnew⟩
      · rwa [hsame]
      · rw [hnew]
        refine List.mem_append_left _ (List.mem_filter.mpr ⟨hcall, ?_⟩)
        rcases hleast parameters b with hnone | ⟨n, least, hn, hone⟩
        · rw [hnone, hb.chain_eq] at hcall
          cases hcall
        · have hchain : (after (low parameters none) b).chain = [numberCall ".min(" none n] := by
            rw [hone, Builder.replaceCall, Builder.addCall, Builder.removeContaining, hb.chain_eq]
            rfl
          rw [hchain] at hcall
          rw [List.mem_singleton.mp hcall]
          exact congrArg not (contains_numberCall_min hn)

end Numbers

section Compared

/-- A reader of arguments reads the number of the first parameter. Without parameters there is none,
or reading fails. -/
structure ReadsFirst (number? : List Argument → Building (Option Number))
    (read : String → Option Number) : Prop where
  cons : ∀ p rest, number? (arguments (p :: rest)) = pure (read p)
  nil : number? [] = pure none ∨ ∃ fault, number? [] = throw fault
  inRange : ∀ {p n}, read p = some n → n.InRange

variable {number? : List Argument → Building (Option Number)} {read : String → Option Number}

theorem ReadsFirst.compare_cons (h : ReadsFirst number? read) (method p : String)
    (rest : List String) (message : Option String) :
    Building.compare number? method (arguments (p :: rest)) message = match read p with
      | none => pure ()
      | some n => Building.replace method (numberCall ("." ++ method ++ "(") message n) := by
  rw [Building.compare, h.cons]
  rfl

/-- Without a parameter there is nothing to compare with. -/
theorem ReadsFirst.inserts_compare_nil (h : ReadsFirst number? read) (method : String)
    (message : Option String) (codes : List String) :
    Inserts codes [] (Building.compare number? method [] message) := by
  rw [Building.compare]
  rcases h.nil with hnone | ⟨fault, hfault⟩
  · rw [hnone]
    exact inserts_pure ()
  · rw [hfault]
    exact inserts_throw fault

theorem ReadsFirst.confinesOn_compare (h : ReadsFirst number? read) (method : String) :
    ConfinesOn (fun _ => True)
      (fun parameters => Building.compare number? method (arguments parameters))
      (leading read 1) := by
  refine confinesOn_number ("." ++ method ++ "(")
    (fun message n => Building.replace method (numberCall ("." ++ method ++ "(") message n))
    (fun parameters message hread codes => ?_) (fun parameters message n hread => ?_)
    (fun message codes n hmade => inserts_replace method hmade)
    fun n b _ => mem_after_replace method _ b
  · cases parameters with
    | nil => exact h.inserts_compare_nil method message codes
    | cons p rest =>
        rw [List.head?_cons, Option.bind_some] at hread
        rw [h.compare_cons, hread]
        exact inserts_pure ()
  · cases parameters with
    | nil => cases hread
    | cons p rest =>
        rw [List.head?_cons, Option.bind_some] at hread
        rw [h.compare_cons, hread]

theorem ReadsFirst.confines_compare (h : ReadsFirst number? read) (method : String) :
    Confines (Building.compare number? method) (leading read 1) :=
  (h.confinesOn_compare method).weaken fun _ _ => trivial

/-- A comparison fails only where its parameter is missing. -/
theorem ReadsFirst.compare_ok (h : ReadsFirst number? read) (method : String)
    {parameters : List String} (hne : parameters ≠ []) (message : Option String) (b : Builder) :
    ((Building.compare number? method (arguments parameters) message).run.run b).1 = .ok () := by
  obtain ⟨p, rest, rfl⟩ := List.exists_cons_of_ne_nil hne
  rw [h.compare_cons]
  cases read p <;> rfl

/-- Without a parameter a comparison leaves the builder as it is. -/
theorem ReadsFirst.after_compare_nil (h : ReadsFirst number? read) (method : String)
    (message : Option String) (b : Builder) :
    after (Building.compare number? method [] message) b = b := by
  rw [Building.compare]
  rcases h.nil with hnone | ⟨fault, hfault⟩
  · rw [hnone]
    rfl
  · rw [hfault]
    rfl

theorem ReadsFirst.setsLeast_compare (h : ReadsFirst number? read) (parameters : List String) :
    SetsLeast (Building.compare number? "min" (arguments parameters) none) := by
  have hlead : "." ++ "min" ++ "(" = ".min(" := by decide
  cases parameters with
  | nil => exact fun b => .inl (h.after_compare_nil "min" none b)
  | cons p rest =>
      rw [h.compare_cons, hlead]
      cases hread : read p with
      | none => exact fun b => .inl rfl
      | some n => exact setsLeast_replace (h.inRange hread)

theorem ReadsFirst.setsGreatest_compare (h : ReadsFirst number? read)
    (parameters : List String) :
    SetsGreatest (Building.compare number? "max" (arguments parameters) none) := by
  cases parameters with
  | nil => exact fun b => .inl (h.after_compare_nil "max" none b)
  | cons p rest =>
      rw [h.compare_cons]
      cases read p with
      | none => exact fun b => .inl rfl
      | some n => exact setsGreatest_replace _

/-- Two comparisons, the first of which has a parameter if the second one has: together they may
have the same one. -/
theorem ReadsFirst.confinesOn_compares (h : ReadsFirst number? read)
    (f g : List String → List String) (hfirst : ∀ parameters, g parameters ≠ [] → f parameters ≠ []) :
    ConfinesOn Builder.IsBare (fun parameters message => do
      Building.compare number? "min" (arguments (f parameters)) message
      Building.compare number? "max" (arguments (g parameters)) message)
      fun parameters => leading read 1 (f parameters) ++ leading read 1 (g parameters) := by
  refine confinesOn_pair (((h.confinesOn_compare "min").weaken fun _ _ => trivial).comp f)
    (((h.confinesOn_compare "max").weaken fun _ _ => trivial).comp g)
    (fun parameters b hne => h.compare_ok "min" (hfirst parameters fun hg => hne ?_) none b)
    (fun _ => h.setsLeast_compare _) fun _ => h.setsGreatest_compare _
  rw [hg]
  rfl

theorem ReadsFirst.confines_within (h : ReadsFirst number? read) :
    Confines (Building.within number?) (leading read 2) := by
  have hbounds := h.confinesOn_compares (·.take 1) (fun parameters => (parameters.drop 1).take 1)
    fun parameters hne => by
      cases parameters with
      | nil => exact absurd rfl hne
      | cons p rest => exact List.cons_ne_nil p _
  simp only [← leading_two, arguments_take, arguments_drop] at hbounds
  exact hbounds

theorem ReadsFirst.confines_exactly (h : ReadsFirst number? read) :
    Confines (Building.exactly number?) fun parameters =>
      leading read 1 parameters ++ leading read 1 parameters := by
  have hbounds := h.confinesOn_compares (·.take 1) (·.take 1) fun _ => id
  simp only [leading_one_take, arguments_take] at hbounds
  exact hbounds

end Compared

namespace NumberRule

theorem readsFirst_firstNumber? :
    ReadsFirst Building.firstNumber? Parameter.numberOfText? where
  cons _ _ := rfl
  nil := .inl rfl
  inRange := Number.inRange_of_numberOfText?

theorem confines_bounded (method : String) :
    Confines (bounded method) (leading Parameter.numberOfText? 1) :=
  readsFirst_firstNumber?.confines_compare method

theorem confines_between : Confines between (leading Parameter.numberOfText? 2) :=
  readsFirst_firstNumber?.confines_within

theorem confines_size : Confines size fun parameters =>
    leading Parameter.numberOfText? 1 parameters ++
      leading Parameter.numberOfText? 1 parameters :=
  readsFirst_firstNumber?.confines_exactly

/-- A parameter as a count: a number, or the text as it is. -/
theorem numeral_text (p : String) : Argument.numeral (some (.text p)) = .ok (count p).text := by
  change (Except.ok (Parameter.numberOfText? p)).map _ = _
  rw [count]
  cases Parameter.numberOfText? p <;> rfl

/-- A check of a count of digits. -/
def digitsCheck (operator : String) (message : Option String) (w : Inserted) : String :=
  TextRule.refine (TextRule.braces (
    "const str = String(Math.abs(Math.floor(val))); return str.length " ++ operator ++ " " ++
    w.text ++ "; ")) (escapedOr message "The value has an invalid number of digits.")

theorem digits_nil (operator : String) (message : Option String) :
    digits operator (arguments []) message = throw .outOfRange := rfl

theorem digits_cons (operator p : String) (rest : List String) (message : Option String) :
    digits operator (arguments (p :: rest)) message =
      Building.add (digitsCheck operator message (count p)) := by
  change (Building.ofExcept (Argument.numeral (some (.text p))) >>= fun numeral => _) = _
  rw [numeral_text]
  rfl

theorem uniform_digitsCheck (operator : String) (message : Option String) :
    Uniform (fun w => [w]) (digitsCheck operator message) :=
  ((((((uniform_place id).after _).before "; ").after "\x7b").before "\x7d").refine _)

/-- Counts of digits have one place for the first parameter. -/
theorem confinesOn_digits (operator : String) :
    ConfinesOn (fun _ => True) (fun parameters => digits operator (arguments parameters))
      (counts 1) := by
  refine confinesOn_add fun message => ?_
  obtain ⟨codes, hmade⟩ := uniform_digitsCheck operator message
  refine ⟨codes, fun parameters => ?_⟩
  cases parameters with
  | nil => exact .inl ⟨rfl, inserts_throw _⟩
  | cons p rest => exact .inr ⟨_, digits_cons operator p rest message, hmade (count p)⟩

theorem confines_digits (operator : String) :
    Confines (digits operator) (counts 1) :=
  (confinesOn_digits operator).weaken fun _ _ => trivial

theorem counts_two (parameters : List String) : counts 2 parameters =
    counts 1 (parameters.take 1) ++ counts 1 ((parameters.drop 1).take 1) := by
  match parameters with
  | [] => rfl
  | [p] => rfl
  | p :: q :: rest => rfl

/-- Between two counts of digits the second one is only looked at where there is a first one. -/
theorem confines_digitsBetween :
    Confines digitsBetween (counts 2) := by
  have h := ((confinesOn_digits ">=").comp (·.take 1)).seq
    ((confinesOn_digits "<=").comp fun parameters => (parameters.drop 1).take 1)
    (fun parameters b _ hne => ?_) fun parameters b _ call hcall => ?_
  · simp only [← counts_two, arguments_take, arguments_drop] at h
    exact ConfinesOn.weaken h fun _ _ => trivial
  · refine ⟨_, trivial, after_bind_of_ok (a := ()) ?_⟩
    cases parameters with
    | nil => exact absurd rfl hne
    | cons p rest =>
        rw [List.take_succ_cons, digits_cons]
        rfl
  · rcases after_bind (digits ">=" (arguments (parameters.take 1)) none)
      (fun _ => digits "<=" (arguments ((parameters.drop 1).take 1)) none) b with heq | ⟨_, heq⟩
    · rwa [heq]
    · rw [heq]
      cases (parameters.drop 1).take 1 with
      | nil =>
          rw [digits_nil]
          exact hcall
      | cons q rest =>
          rw [digits_cons]
          exact List.mem_append_left _ hcall

/-- A check of a count of decimal places. -/
def decimalCheck (message : Option String) (w : Inserted) : String :=
  TextRule.refine (TextRule.braces (splitAtPoint ++
    "return parts.length === 1 || (parts.length === 2 && parts[1].length === " ++ w.text ++
    "); ")) (escapedOr message "The value has an invalid number of decimal places.")

/-- A check of a count of decimal places between two counts. -/
def decimalsCheck (message : Option String) (w : Inserted × Inserted) : String :=
  TextRule.refine (TextRule.braces (splitAtPoint ++
    "if (parts.length === 1) return true; const decimals = parts[1].length; " ++
    "return decimals >= " ++ w.1.text ++ " && decimals <= " ++ w.2.text ++ "; "))
    (escapedOr message "The value has an invalid number of decimal places.")

theorem decimal_one (p : String) (message : Option String) :
    decimal (arguments [p]) message = Building.add (decimalCheck message (count p)) := by
  change (Building.ofExcept (Argument.numeral (some (.text p))) >>= fun numeral => _) = _
  rw [numeral_text]
  rfl

theorem decimal_two (p q : String) (rest : List String) (message : Option String) :
    decimal (arguments (p :: q :: rest)) message =
      Building.add (decimalsCheck message (count p, count q)) := by
  change (Building.ofExcept (Argument.numeral (some (.text p))) >>= fun low =>
    Building.ofExcept (Argument.numeral (some (.text q))) >>= fun high => _) = _
  rw [numeral_text, numeral_text]
  rfl

theorem confines_decimal : Confines decimal (counts 2) := by
  refine confinesOn_add fun message => ?_
  obtain ⟨codes, hone⟩ : Uniform (fun w => [w]) (decimalCheck message) :=
    (((((uniform_place id).after _).before "); ").after "\x7b").before "\x7d").refine _
  obtain ⟨more, htwo⟩ : Uniform (fun w : Inserted × Inserted => [w.1, w.2])
      (decimalsCheck message) :=
    (((((((uniform_place Prod.fst).after _).before " && decimals <= ").append
      (uniform_place Prod.snd)).before "; ").after "\x7b").before "\x7d").refine _
  refine ⟨codes ++ more, fun parameters => ?_⟩
  match parameters with
  | [] => exact .inl ⟨rfl, inserts_pure ()⟩
  | [p] =>
      exact .inr ⟨_, decimal_one p message, (hone (count p)).mono (List.subset_append_left _ _)⟩
  | p :: q :: rest =>
      exact .inr ⟨_, decimal_two p q rest message,
        (htwo (count p, count q)).mono (List.subset_append_right _ _)⟩

/-- A parameter as a member: a number, or a literal of any other text. -/
def memberText (p : String) : String :=
  match Parameter.numberOfText? p with
  | some n => n.text
  | none => Script.literal p

theorem uniform_memberText :
    Uniform (fun p => (Parameter.numberOfText? p).toList.map .number) memberText := by
  refine ⟨[], fun p => ?_⟩
  dsimp only
  rw [memberText]
  cases Parameter.numberOfText? p with
  | none => exact made_part (.literal p) trivial
  | some n => exact made_part (.place (.number n)) trivial

theorem mapM_member_arguments (parameters : List String) :
    (arguments parameters).mapM member = .ok (parameters.map memberText) := by
  have hmember (p : String) : member (some (.text p)) = .ok (memberText p) := by
    change (Except.ok (Parameter.numberOfText? p)).map _ = _
    rw [memberText]
    cases Parameter.numberOfText? p <;> rfl
  induction parameters with
  | nil => rfl
  | cons p rest ih =>
      change (some (Parameter.text p) :: arguments rest).mapM member = _
      rw [List.mapM_cons, hmember, ih]
      rfl

theorem numbers_eq_flatMap (parameters : List String) : numbers parameters =
    parameters.flatMap fun p => (Parameter.numberOfText? p).toList.map .number := by
  rw [numbers, readings, List.filterMap_eq_flatMap_toList, List.map_flatMap]

/-- Every number of a list has a place of its own; other members are literals. -/
theorem confines_listed (negation : String) : Confines (listed negation) numbers := by
  refine confinesOn_add fun message => ?_
  let check (parameters : List String) := TextRule.refine (negation ++ "[" ++
    Text.join ", " (parameters.map memberText) ++ "].includes(val)")
    (escapedOr message "The selected value is invalid.")
  obtain ⟨codes, hmade⟩ : Uniform numbers check := by
    have hjoin := uniform_memberText.join ", " id
    simp only [id_eq, ← numbers_eq_flatMap] at hjoin
    exact ((hjoin.after (negation ++ "[")).before "].includes(val)").refine _
  have hlisted (p : String) (rest : List String) :
      listed negation (arguments (p :: rest)) message = Building.add (check (p :: rest)) := by
    change (Building.ofExcept ((arguments (p :: rest)).mapM member) >>= fun members => _) = _
    rw [mapM_member_arguments]
    rfl
  refine ⟨codes, fun parameters => ?_⟩
  cases parameters with
  | nil => exact .inl ⟨rfl, inserts_pure ()⟩
  | cons p rest => exact .inr ⟨_, hlisted p rest, hmade (p :: rest)⟩

theorem confines_integer : Confines integer nowhere := by
  refine confines_nowhere fun message => ?_
  let call := message.elim ".int()" fun m => ".int('" ++ Script.escape m ++ "')"
  refine ⟨[call], fun parameters => ?_⟩
  have hcall : Made [call] [] call := made_code (List.mem_singleton_self call)
  cases message with
  | none => exact (inserts_pure ()).bind fun _ => inserts_replace "int" hcall
  | some m =>
      refine Inserts.bind (inserts_modify fun b => ?_) fun _ => inserts_replace "int" hcall
      cases b.base <;> rfl

end NumberRule

end RuleSchema
