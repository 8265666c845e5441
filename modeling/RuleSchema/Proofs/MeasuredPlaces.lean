import RuleSchema.Proofs.NumericPlaces

/-!
# Places for lengths, sizes and dimensions

Bounds on lengths are changed by a whole number before they are written, and sizes are written in
bytes. A dimension or a ratio comes as it is where it is no number.
-/

namespace RuleSchema

open Chain

namespace Length

/-- A step without a bound behind it is a call in place of those of its method. -/
theorem mem_after_raise {b : Builder} (h : b.least = none) (n : Number) :
    numberCall ".min(" none n ∈ (after (raise n none) b).chain := by
  rw [after_raise, h, Option.map_none, Option.getD_none, if_neg Bool.false_ne_true]
  exact List.mem_append_right _ (List.mem_singleton_self _)

theorem mem_after_lower {b : Builder} (h : b.greatest = none) (n : Number) :
    numberCall ".max(" none n ∈ (after (lower n none) b).chain := by
  rw [after_lower, h, Option.map_none, Option.getD_none, if_neg Bool.false_ne_true]
  exact List.mem_append_right _ (List.mem_singleton_self _)

theorem min_arguments (parameters : List String) (message : Option String) :
    min (arguments parameters) message = match first? parameters with
      | none => pure ()
      | some n => raise n message := by
  rw [min, firstNumber?_arguments]
  rfl

theorem max_arguments (parameters : List String) (message : Option String) :
    max (arguments parameters) message = match first? parameters with
      | none => pure ()
      | some n => lower n message := by
  rw [max, firstNumber?_arguments]
  rfl

theorem confinesOn_min : ConfinesOn (fun b => b.least = none)
    (fun parameters => min (arguments parameters)) (leading Parameter.numberOfText? 1) := by
  refine confinesOn_number ".min(" (fun message n => raise n message)
    (fun parameters message h codes => ?_) (fun parameters message n h => ?_)
    (fun message codes n h => inserts_raise h) fun n b hb => mem_after_raise hb n
  · rw [min_arguments, first?, h]
    exact inserts_pure ()
  · rw [min_arguments, first?, h]

theorem confinesOn_max : ConfinesOn (fun b => b.greatest = none)
    (fun parameters => max (arguments parameters)) (leading Parameter.numberOfText? 1) := by
  refine confinesOn_number ".max(" (fun message n => lower n message)
    (fun parameters message h codes => ?_) (fun parameters message n h => ?_)
    (fun message codes n h => inserts_lower h) fun n b hb => mem_after_lower hb n
  · rw [max_arguments, first?, h]
    exact inserts_pure ()
  · rw [max_arguments, first?, h]

theorem confines_min : Confines min (leading Parameter.numberOfText? 1) :=
  confinesOn_min.weaken fun _ hb => hb.least_eq

theorem confines_max : Confines max (leading Parameter.numberOfText? 1) :=
  confinesOn_max.weaken fun _ hb => hb.greatest_eq

theorem min_ok (parameters : List String) (message : Option String) (b : Builder) :
    ((min (arguments parameters) message).run.run b).1 = .ok () := by
  rw [min_arguments]
  cases first? parameters with
  | none => rfl
  | some n => exact congrArg Prod.fst ((sure_raise n message).run b)

theorem setsLeast_min (parameters : List String) :
    SetsLeast (min (arguments parameters) none) := by
  rw [min_arguments]
  cases hfirst : first? parameters with
  | none => exact fun b => .inl rfl
  | some n => exact setsLeast_raise (inRange_of_first? hfirst)

theorem setsGreatest_max (parameters : List String) :
    SetsGreatest (max (arguments parameters) none) := by
  rw [max_arguments]
  cases first? parameters with
  | none => exact fun b => .inl rfl
  | some n => exact setsGreatest_lower n

/-- Between two lengths there are both bounds, or none where a parameter is missing. -/
theorem confines_between : Confines between fun parameters =>
    if 2 ≤ parameters.length then leading Parameter.numberOfText? 2 parameters else [] := by
  have hpair := confinesOn_pair
    ((confinesOn_min.weaken fun _ hb => hb.least_eq).comp (·.take 1))
    (confinesOn_max.comp fun parameters => (parameters.drop 1).take 1)
    (fun _ b _ => min_ok _ none b) (fun _ => setsLeast_min _) fun _ => setsGreatest_max _
  simp only [← leading_two] at hpair
  have hbetween : (fun parameters => between (arguments parameters)) = fun parameters message =>
      if 2 ≤ parameters.length then (do
        min (arguments (parameters.take 1)) message
        max (arguments ((parameters.drop 1).take 1)) message) else pure () := by
    funext parameters message
    match parameters with
    | [] => rfl
    | [p] => rfl
    | p :: q :: rest => exact (if_pos (Nat.le_add_left 2 rest.length)).symm
  rw [Confines, hbetween]
  exact hpair.ite fun parameters => 2 ≤ parameters.length

theorem confines_size : Confines size (leading Parameter.numberOfText? 1) := by
  have hsize (parameters : List String) (message : Option String) :
      size (arguments parameters) message = match first? parameters with
        | none => pure ()
        | some n => Building.replace "length" (numberCall ".length(" message n) := by
    rw [size, firstNumber?_arguments]
    rfl
  refine confinesOn_number ".length("
    (fun message n => Building.replace "length" (numberCall ".length(" message n))
    (fun parameters message h codes => ?_) (fun parameters message n h => ?_)
    (fun message codes n h => inserts_replace "length" h)
    fun n b _ => mem_after_replace "length" _ b
  · rw [hsize, first?, h]
    exact inserts_pure ()
  · rw [hsize, first?, h]

theorem withBound_arguments (change : Int) (act : Number → Option String → Building Unit)
    (parameters : List String) (message : Option String) :
    (∃ fault, withBound change act (arguments parameters) message = throw fault ∧
        parameters.head?.bind (shifted? change) = none) ∨
      withBound change act (arguments parameters) message =
        match parameters.head?.bind (shifted? change) with
        | none => pure ()
        | some n => act n message := by
  cases parameters with
  | nil => exact .inr rfl
  | cons p rest =>
      rw [List.head?_cons, Option.bind_some, shifted?, withBound,
        firstNumber?_arguments, first?, List.head?_cons, Option.bind_some]
      cases Parameter.numberOfText? p with
      | none => exact .inr rfl
      | some n =>
          rw [Option.bind_some]
          generalize hmoved : (if change = 0 then n else n.addInt change) = moved
          simp only [pure_bind, hmoved, asBound]
          cases (Parameter.number moved).number? with
          | error fault => exact .inl ⟨fault, rfl, rfl⟩
          | ok bound? => exact .inr rfl

theorem confines_withBound (change : Int) {act : Number → Option String → Building Unit}
    {lead : String} (hinserts : ∀ message codes n,
      Made codes [.number n] (numberCall lead message n) →
        Inserts codes [.number n] (act n message))
    (hmem : ∀ n b, b.IsBare → numberCall lead none n ∈ (after (act n none) b).chain) :
    Confines (withBound change act) (leading (shifted? change) 1) := by
  refine confinesOn_number lead (fun message n => act n message)
    (fun parameters message h codes => ?_) (fun parameters message n h => ?_) hinserts hmem
  · rcases withBound_arguments change act parameters message with ⟨fault, hthrow, -⟩ | heq
    · rw [hthrow]
      exact inserts_throw fault
    · rw [heq, h]
      exact inserts_pure ()
  · rcases withBound_arguments change act parameters message with ⟨-, -, hnone⟩ | heq
    · rw [h] at hnone
      cases hnone
    · rw [heq, h]

theorem confines_raised (change : Int) :
    Confines (withBound change raise) (leading (shifted? change) 1) :=
  confines_withBound change (fun _ _ _ h => inserts_raise h) fun n _ hb =>
    mem_after_raise hb.least_eq n

theorem confines_lowered (change : Int) :
    Confines (withBound change lower) (leading (shifted? change) 1) :=
  confines_withBound change (fun _ _ _ h => inserts_lower h) fun n _ hb =>
    mem_after_lower hb.greatest_eq n

theorem confines_trim : Confines trim nowhere := by
  refine confines_nowhere fun message => ⟨[".trim()"], fun parameters b => ?_⟩
  change ∀ c ∈ (after (if b.hasCall "trim" then pure () else Building.add ".trim()") b).chain, _
  split
  · exact inserts_pure () b
  · exact inserts_add (made_code (List.mem_singleton_self _)) b

end Length

namespace FileRule

/-- The bytes of a parameter that is a number of kilobytes. -/
def bytesOf? (parameter : String) : Option Number :=
  (Parameter.numberOfText? parameter).map (·.mulNat 1024)

theorem inRange_of_bytesOf? {p : String} {n : Number} (h : bytesOf? p = some n) : n.InRange := by
  obtain ⟨m, -, rfl⟩ := Option.map_eq_some_iff.mp h
  exact Number.inRange_mulNat m 1024

theorem readsFirst_bytes? : ReadsFirst bytes? bytesOf? where
  cons _ _ := rfl
  nil := .inr ⟨_, rfl⟩
  inRange := inRange_of_bytesOf?

theorem confines_bounded (method : String) : Confines (bounded method) (leading bytesOf? 1) :=
  readsFirst_bytes?.confines_compare method

theorem confines_between : Confines between (leading bytesOf? 2) :=
  readsFirst_bytes?.confines_within

theorem confines_size : Confines size fun parameters =>
    leading bytesOf? 1 parameters ++ leading bytesOf? 1 parameters :=
  readsFirst_bytes?.confines_exactly

theorem confines_mediaTypes : Confines mediaTypes nowhere := by
  refine confines_nowhere fun message => ?_
  obtain ⟨codes, hmade⟩ : Uniform (fun _ => []) fun types : List String => mimeCall types message :=
    (((uniform_literalList id).after ".mime(").before _).before ")"
  refine ⟨codes, fun parameters => ?_⟩
  cases parameters with
  | nil => exact inserts_pure ()
  | cons p rest => exact inserts_replace "mime" (hmade _)

theorem confines_extensions : Confines extensions nowhere := by
  intro message
  obtain ⟨codes, hinserts, -⟩ := confines_mediaTypes message
  exact ⟨codes, fun parameters => hinserts _, fun _ _ _ _ _ hw => by cases hw⟩

theorem confines_image : Confines image nowhere := by
  refine confines_nowhere fun message => ?_
  let calls := [mimeCall imageTypes message, mimeCall (imageTypes ++ ["image/svg+xml"]) message]
  refine ⟨calls, fun parameters b => ?_⟩
  change ∀ c ∈ (after (if b.hasCall "mime" then pure () else Building.add (mimeCall
    (if ((arguments parameters).map Argument.display).contains "allow_svg"
      then imageTypes ++ ["image/svg+xml"] else imageTypes) message)) b).chain, _
  split
  · exact inserts_pure () b
  · split
    · exact inserts_add (made_code (List.mem_cons_of_mem _ List.mem_cons_self)) b
    · exact inserts_add (made_code List.mem_cons_self) b

/-- The code before and behind what a constraint is compared with. -/
def affixes : List (String × String) :=
  ("Math.abs((img.width / img.height) - ", ") < 0.01") :: comparisons.map fun c => (c.2, "")

/-- A quotient where both sides of it are numbers, or a number; otherwise the text as it is. -/
def quotient (value : List Char) : Inserted :=
  match Text.cutFirst '/' value with
  | (above, some below) =>
    match Binary64.ofChars? above, Binary64.ofChars? below with
    | some x, some y =>
      if y.isZero then .copied (String.ofList value) else .number (.real (x.div y))
    | _, _ => .copied (String.ofList value)
  | (_, none) => count (String.ofList value)

/-- A known constraint on dimensions. -/
structure Constraint where
  affix : String × String
  affix_mem : affix ∈ affixes
  inserted : Inserted

def Constraint.text (c : Constraint) : String := c.affix.1 ++ c.inserted.text ++ c.affix.2

theorem affix_mem_of_lookup {name lead : String} (h : comparisons.lookup name = some lead) :
    (lead, "") ∈ affixes := by
  obtain ⟨before, behind, heq, -⟩ := List.lookup_eq_some_iff.mp h
  have hmem : (name, lead) ∈ comparisons := heq ▸ List.mem_append_right _ List.mem_cons_self
  exact List.mem_cons_of_mem _ (List.mem_map_of_mem hmem)

/-- The constraint of a parameter, if it is a known one. -/
def constraint? (parameter : String) : Option Constraint :=
  match Text.cutFirst '=' parameter.toList with
  | (name, some value) =>
    let name := String.ofList (Text.trimChars name)
    let value := Text.trimChars value
    if name = "ratio" then some ⟨_, List.mem_cons_self, quotient value⟩
    else (comparisons.lookup name).attach.map fun lead =>
      ⟨(lead.1, ""), affix_mem_of_lookup lead.2, count (String.ofList value)⟩
  | (_, none) => none

theorem numeral_eq (value : List Char) :
    ratio.numeral value = (count (String.ofList value)).text := by
  rw [ratio.numeral, count]
  cases Parameter.numberOfText? (String.ofList value) <;> rfl

theorem ratio_eq (value : List Char) : ratio value = (quotient value).text := by
  unfold ratio quotient
  cases Text.cutFirst '/' value with
  | mk above below? =>
      cases below? with
      | none => exact numeral_eq value
      | some below =>
          dsimp only
          cases Binary64.ofChars? above with
          | none => rfl
          | some x =>
              cases Binary64.ofChars? below with
              | none => rfl
              | some y => dsimp only; split <;> rfl

theorem dimension?_text (p : String) :
    dimension? (some (.text p)) = (constraint? p).map Constraint.text := by
  change (match Text.cutFirst '=' p.toList with
    | (name, some value) =>
      if String.ofList (Text.trimChars name) = "ratio" then
        some ("Math.abs((img.width / img.height) - " ++ ratio (Text.trimChars value) ++ ") < 0.01")
      else (comparisons.lookup (String.ofList (Text.trimChars name))).map
        (· ++ ratio.numeral (Text.trimChars value))
    | (_, none) => none) = _
  unfold constraint?
  match Text.cutFirst '=' p.toList with
  | (_, none) => rfl
  | (name, some value) =>
      dsimp only
      rw [ratio_eq]
      split
      · rfl
      · rw [Option.map_map, ← Option.attach_map_val (comparisons.lookup _)]
        refine Option.map_congr fun lead _ => ?_
        rw [numeral_eq]
        exact String.append_empty.symm

theorem uniform_constraint : Uniform (fun c => [c.inserted]) Constraint.text := by
  refine ⟨affixes.flatMap fun a => [a.1, a.2], fun c => ?_⟩
  have hlead : c.affix.1 ∈ affixes.flatMap fun a => [a.1, a.2] :=
    List.mem_flatMap.mpr ⟨c.affix, c.affix_mem, List.mem_cons_self⟩
  have htrail : c.affix.2 ∈ affixes.flatMap fun a => [a.1, a.2] :=
    List.mem_flatMap.mpr ⟨c.affix, c.affix_mem, List.mem_cons_of_mem _ (List.mem_singleton_self _)⟩
  exact ((made_code hlead).append (made_part (.place c.inserted) trivial)).append
    (made_code htrail)

theorem uniform_imageCheck {ι : Type} {written : ι → List Inserted} {f : ι → String}
    (h : Uniform written f) (escaped : String) :
    Uniform written fun i => imageCheck (f i) escaped :=
  ((((((((((((h.after _).before _).before _).before _).before _).before _).before _).before
    _).before _).before _).before escaped).before _)

/-- What the known constraints among parameters are compared with. -/
def dimensionPlaces : Places := fun parameters =>
  (parameters.filterMap constraint?).map (·.inserted)

theorem filterMap_dimension?_arguments (parameters : List String) :
    (arguments parameters).filterMap dimension? =
      (parameters.filterMap constraint?).map Constraint.text := by
  rw [arguments, List.filterMap_map, List.map_filterMap]
  exact congrArg (List.filterMap · parameters) (funext dimension?_text)

theorem confines_dimensions : Confines dimensions dimensionPlaces := by
  refine confinesOn_add fun message => ?_
  let check (constraints : List Constraint) := imageCheck
    (Text.join " && " (constraints.map Constraint.text))
    (escapedOr message "The image has invalid dimensions.")
  obtain ⟨codes, hmade⟩ : Uniform (fun constraints => constraints.map (·.inserted)) check := by
    have hjoin := uniform_constraint.join " && " id
    simp only [id_eq, ← List.map_eq_flatMap] at hjoin
    exact uniform_imageCheck hjoin _
  have hdimensions (parameters : List String) : dimensions (arguments parameters) message =
      match parameters.filterMap constraint? with
      | [] => pure ()
      | c :: rest => Building.add (check (c :: rest)) := by
    rw [dimensions, filterMap_dimension?_arguments]
    cases parameters.filterMap constraint? <;> rfl
  refine ⟨codes, fun parameters => ?_⟩
  rw [hdimensions, dimensionPlaces]
  cases parameters.filterMap constraint? with
  | nil => exact .inl ⟨rfl, inserts_pure ()⟩
  | cons c rest => exact .inr ⟨_, rfl, hmade (c :: rest)⟩

end FileRule

end RuleSchema
