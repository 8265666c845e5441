import RuleSchema.Rule.Object

/-!
# Attached literals

A described rule remembers the code that was attached to it last as a template, beside its fragment
and its failure message. Setting the failure message with `failWith` fills the remembered code again,
also when other code has been attached as it stands in the meantime. Setting it with
`withFailureMessage` fills nothing. So the fragment is the one of the last attaching step with the
final message exactly where neither shows.

## Implementation notes

Each of the three parts of the state is the last of what the steps say about it, `lastOf`. The
steps after the last attaching one change the fragment only by filling the remembered code.
-/

namespace RuleSchema.RuleObject

/-- The fragment that attached code gives for a failure message. -/
def rendered (className : String) (attached : LiteralSource × FragmentMode)
    (message : Option String) : Except Fault Fragment :=
  (fill className attached.1 message).map fun code =>
    match attached.2 with
    | .append => Fragment.append code
    | .replace => Fragment.replace (Text.collapse code)

namespace Step

/-- The code that a step attaches to be filled with the failure message. -/
def source? : Step → Option (LiteralSource × FragmentMode)
  | append source _ => some (source, .append)
  | replace source _ => some (source, .replace)
  | _ => none

/-- The fragment that a step attaches as it stands. -/
def fixed? : Step → Option Fragment
  | literal code => some (.literal code)
  | withFragment fragment => some fragment
  | _ => none

/-- The failure message that a step sets. -/
def message? : Step → Option String
  | append _ message | replace _ message => message
  | failWith message | withFailureMessage message => some message
  | _ => none

/-- The failure message with which a step fills the remembered code again. -/
def refill? : Step → Option String
  | failWith message => some message
  | _ => none

/-- The fragment that a step attaches, for a failure message. -/
def gives? (className : String) (message : Option String) (s : Step) :
    Option (Except Fault Fragment) :=
  (s.fixed?.map .ok).or (s.source?.map fun attached => rendered className attached message)

end Step

/-- The last of what the steps of a sequence say. -/
def lastOf {α : Type} (said : Step → Option α) (steps : List Step) : Option α :=
  (steps.filterMap said).getLast?

section LastOf

variable {α : Type} {said : Step → Option α}

@[simp] theorem lastOf_nil : lastOf said [] = none := rfl

theorem lastOf_append (steps more : List Step) :
    lastOf said (steps ++ more) = (lastOf said more).or (lastOf said steps) := by
  rw [lastOf, List.filterMap_append, List.getLast?_append]
  rfl

theorem lastOf_cons (s : Step) (rest : List Step) :
    lastOf said (s :: rest) = (lastOf said rest).or (said s) := by
  rw [← List.singleton_append, lastOf_append]
  congr 1
  rw [lastOf, List.filterMap_cons]
  cases said s <;> rfl

end LastOf

/-- Attaching code sets the message if one is given, and the fragment for the message in force. -/
theorem attach_eq (r : RuleObject) (source : LiteralSource) (mode : FragmentMode)
    (message : Option String) :
    r.attach source mode message =
      (rendered r.className (source, mode) (message.or r.failureMessage)).map fun fragment =>
        { r with fragment := some fragment, failureMessage := message.or r.failureMessage } := by
  have hor : (message <|> r.failureMessage) = message.or r.failureMessage := by
    cases message <;> rfl
  simp only [attach, rendered, hor]
  cases fill r.className source (message.or r.failureMessage) <;> cases mode <;> rfl

/-- The fragment that the remembered code gives when a message is set that fills it again. -/
def refilled? (className : String) (attached : Option (LiteralSource × FragmentMode))
    (told : Option String) : Option (Except Fault Fragment) :=
  told.bind fun message => attached.map fun attached => rendered className attached (some message)

/-- The fragment becomes what is given, if anything is, and stays otherwise. -/
def Writes (given : Option (Except Fault Fragment)) (before after : Option Fragment) : Prop :=
  match given with
  | some given => ∃ fragment, given = .ok fragment ∧ after = some fragment
  | none => after = before

theorem Writes.trans {first later : Option (Except Fault Fragment)} {x y z : Option Fragment}
    (h : Writes first x y) (h' : Writes later y z) : Writes (later.or first) x z := by
  cases later with
  | some given => exact h'
  | none =>
      obtain rfl : z = y := h'
      exact h

/-- The remembered code, or else the code for a message, is the code for the later message. -/
theorem refilled?_or_rendered (className : String) (attached : LiteralSource × FragmentMode)
    (told message : Option String) :
    (refilled? className (some attached) told).or (some (rendered className attached message)) =
      some (rendered className attached (told.or message)) := by
  cases told <;> rfl

/-- The remembered code, or else a fragment, is this fragment if and only if the remembered code
gives it too. -/
theorem refilled?_or_eq_iff {className : String}
    {attached : Option (LiteralSource × FragmentMode)} {told : Option String}
    {fragment shown : Fragment}
    (h : (refilled? className attached told).or (some (.ok fragment)) = some (.ok shown)) :
    fragment = shown ↔
      ∀ code ∈ attached, ∀ message ∈ told, rendered className code (some message) = .ok fragment := by
  rcases attached with _ | attached <;> rcases told with _ | message
  · simpa [refilled?] using h
  · simpa [refilled?] using h
  · simpa [refilled?] using h
  · have hrendered : rendered className attached (some message) = .ok shown := Option.some.inj h
    simp [hrendered, eq_comm]

theorem refilled?_or (className : String) (attached : Option (LiteralSource × FragmentMode))
    (later first : Option String) :
    refilled? className attached (later.or first) =
      (refilled? className attached later).or (refilled? className attached first) := by
  cases later with
  | none => rfl
  | some message => cases attached <;> cases first <;> rfl

section Steps

variable {r r' : RuleObject} {s : Step}

/-- Code was attached with a message, and the rule is as before but for its fragment and message. -/
theorem of_attach {source : LiteralSource} {mode : FragmentMode} {message : Option String}
    (h : r.attach source mode message = .ok r') :
    ∃ fragment, rendered r.className (source, mode) (message.or r.failureMessage) = .ok fragment ∧
      r' = { r with fragment := some fragment, failureMessage := message.or r.failureMessage } := by
  rw [attach_eq] at h
  cases hrendered : rendered r.className (source, mode) (message.or r.failureMessage) with
  | error fault =>
      rw [hrendered] at h
      cases h
  | ok fragment =>
      rw [hrendered] at h
      exact ⟨fragment, rfl, (Except.ok.inj h).symm⟩

/-- What a step makes of the state of a described rule. -/
structure Follows (r : RuleObject) (s : Step) (r' : RuleObject) : Prop where
  className : r'.className = r.className
  isDescribed : r'.isDescribed = r.isDescribed
  attached : r'.attached = s.source?.or r.attached
  message : r'.failureMessage = s.message?.or r.failureMessage
  fragment : Writes ((s.gives? r.className r'.failureMessage).or
    (refilled? r.className r.attached s.refill?)) r.fragment r'.fragment

theorem follows_attachStep {source : LiteralSource} {mode : FragmentMode}
    {message : Option String} (hd : r.isDescribed = true)
    (h : r.attachStep source mode message = .ok r') (hs : s.source? = some (source, mode))
    (hf : s.fixed? = none) (hm : s.message? = message) : r.Follows s r' := by
  rw [attachStep, if_pos hd] at h
  obtain ⟨fragment, hrendered, rfl⟩ := of_attach h
  refine ⟨rfl, rfl, by rw [hs]; rfl, by rw [hm], ?_⟩
  rw [Step.gives?, hf, hs]
  exact ⟨fragment, hrendered, rfl⟩

theorem follows_step (hd : r.isDescribed = true) (h : r.step s = .ok r') : r.Follows s r' := by
  cases s with
  | append source message => exact follows_attachStep hd h rfl rfl rfl
  | replace source message => exact follows_attachStep hd h rfl rfl rfl
  | literal code =>
      cases h
      exact ⟨rfl, rfl, rfl, rfl, .literal code, rfl, rfl⟩
  | withFragment fragment =>
      cases h
      exact ⟨rfl, rfl, rfl, rfl, fragment, rfl, rfl⟩
  | failWith message =>
      rw [step, if_pos hd] at h
      cases hattached : r.attached with
      | none =>
          simp only [hattached, Except.ok.injEq] at h
          subst h
          refine ⟨rfl, rfl, hattached.symm, rfl, ?_⟩
          rw [hattached]
          rfl
      | some attached =>
          simp only [hattached] at h
          obtain ⟨fragment, hrendered, rfl⟩ := of_attach h
          refine ⟨rfl, rfl, hattached.symm, rfl, ?_⟩
          rw [hattached]
          exact ⟨fragment, hrendered, rfl⟩
  | withFailureMessage message =>
      cases h
      exact ⟨rfl, rfl, rfl, rfl, rfl⟩

end Steps

section Sequences

variable {r r' : RuleObject} {s : Step} {steps : List Step}

theorem run_cons (h : r.run (s :: steps) = .ok r') :
    ∃ next, r.step s = .ok next ∧ next.run steps = .ok r' := by
  rw [run, List.foldlM_cons] at h
  cases hstep : r.step s with
  | error fault =>
      rw [hstep] at h
      cases h
  | ok next =>
      rw [hstep] at h
      exact ⟨next, rfl, h⟩

theorem run_append {more : List Step} (h : r.run (steps ++ more) = .ok r') :
    ∃ next, r.run steps = .ok next ∧ next.run more = .ok r' := by
  induction steps generalizing r with
  | nil => exact ⟨r, rfl, h⟩
  | cons s rest ih =>
      obtain ⟨first, hstep, hrest⟩ := run_cons h
      obtain ⟨next, hrun, hmore⟩ := ih hrest
      refine ⟨next, ?_, hmore⟩
      rw [run, List.foldlM_cons, hstep]
      exact hrun

/-- After a sequence of steps a described rule remembers the code attached last and the message set
last. -/
theorem state_run (hd : r.isDescribed = true) (h : r.run steps = .ok r') :
    r'.className = r.className ∧ r'.isDescribed = true ∧
      r'.attached = (lastOf Step.source? steps).or r.attached ∧
      r'.failureMessage = (lastOf Step.message? steps).or r.failureMessage := by
  induction steps generalizing r with
  | nil =>
      cases h
      exact ⟨rfl, hd, rfl, rfl⟩
  | cons s rest ih =>
      obtain ⟨next, hstep, hrest⟩ := run_cons h
      have hfollows := follows_step hd hstep
      obtain ⟨hname, hdescribed, hattached, hmessage⟩ := ih (hfollows.isDescribed.trans hd) hrest
      refine ⟨hname.trans hfollows.className, hdescribed, ?_, ?_⟩
      · rw [hattached, hfollows.attached, lastOf_cons, Option.or_assoc]
      · rw [hmessage, hfollows.message, lastOf_cons, Option.or_assoc]

/-- Steps that attach nothing change the fragment only by filling the remembered code again. -/
theorem fragment_run (hd : r.isDescribed = true) (h : r.run steps = .ok r')
    (hother : ∀ s ∈ steps, s.source? = none ∧ s.fixed? = none) :
    Writes (refilled? r.className r.attached (lastOf Step.refill? steps)) r.fragment
      r'.fragment := by
  induction steps generalizing r with
  | nil =>
      cases h
      rfl
  | cons s rest ih =>
      obtain ⟨next, hstep, hrest⟩ := run_cons h
      obtain ⟨⟨hsource, hfixed⟩, hother⟩ := List.forall_mem_cons.mp hother
      have hfollows := follows_step hd hstep
      have hnow := hfollows.fragment
      rw [Step.gives?, hsource, hfixed] at hnow
      have hlater := ih (hfollows.isDescribed.trans hd) hrest hother
      rw [hfollows.attached, hsource, hfollows.className] at hlater
      rw [lastOf_cons, refilled?_or]
      exact hnow.trans hlater

end Sequences

namespace Step

/-- A step that attaches code, to be filled or as it stands. -/
def Attaches (s : Step) : Prop := s.source? ≠ none ∨ s.fixed? ≠ none

/-- A fragment that stands as it is comes with no code to fill. -/
theorem source?_eq_none {s : Step} (h : s.fixed? ≠ none) : s.source? = none := by
  cases s with
  | append | replace | failWith | withFailureMessage => exact absurd rfl h
  | literal | withFragment => rfl

theorem Attaches.gives?_ne_none {s : Step} (h : s.Attaches) (className : String)
    (message : Option String) : s.gives? className message ≠ none := by
  cases s with
  | failWith | withFailureMessage => exact absurd h (by simp [Attaches, source?, fixed?])
  | append | replace | literal | withFragment => exact Option.some_ne_none _

theorem not_attaches_iff {s : Step} : ¬ s.Attaches ↔ s.source? = none ∧ s.fixed? = none := by
  rw [Attaches, not_or, Classical.not_not, Classical.not_not]

end Step

section LastAttached

variable {className : String} {declared : Option String} {before after : List Step} {a : Step}
  {r : RuleObject}

/-- After the last attaching step the fragment is the one that this step gives, or the one that the
remembered code gives for the message that filled it last. -/
theorem fragment_last_attached
    (hrun : (ofKind className (.described declared)).run (before ++ a :: after) = .ok r)
    (ha : a.Attaches) (hafter : ∀ s ∈ after, ¬ s.Attaches) :
    r.failureMessage = lastOf Step.message? (before ++ a :: after) ∧ ∃ shown,
      (refilled? className (a.source?.or (lastOf Step.source? before))
          (lastOf Step.refill? after)).or
        (a.gives? className (lastOf Step.message? (before ++ [a]))) = some (.ok shown) ∧
      r.fragment = some shown := by
  obtain ⟨r₁, hbefore, hrest⟩ := run_append hrun
  obtain ⟨r₂, hstep, hlater⟩ := run_cons hrest
  obtain ⟨hname, hdescribed, hattached, hmessage⟩ := state_run rfl hbefore
  have hfollows := follows_step hdescribed hstep
  obtain ⟨-, -, -, hfinal⟩ := state_run rfl hrun
  refine ⟨hfinal.trans Option.or_none, ?_⟩
  have hwrites := fragment_run (hfollows.isDescribed.trans hdescribed) hlater
    fun s hs => Step.not_attaches_iff.mp (hafter s hs)
  have hname : r₁.className = className := hname
  have hattached : r₁.attached = lastOf Step.source? before := hattached.trans Option.or_none
  have hset : r₂.failureMessage = lastOf Step.message? (before ++ [a]) := by
    rw [hfollows.message, hmessage, lastOf_append, lastOf_cons, lastOf_nil, Option.none_or]
    exact congrArg _ Option.or_none
  rw [hfollows.className, hname, hfollows.attached, hattached] at hwrites
  have hgiven := hfollows.fragment
  rw [hname, hset] at hgiven
  obtain ⟨given, hgives⟩ := Option.ne_none_iff_exists'.mp (ha.gives?_ne_none className
    (lastOf Step.message? (before ++ [a])))
  rw [hgives, Option.some_or] at hgiven
  have hshown := Writes.trans hgiven hwrites
  obtain ⟨last, hlast⟩ : ∃ last, (refilled? className (a.source?.or (lastOf Step.source? before))
      (lastOf Step.refill? after)).or (some given) = some last := by
    cases refilled? _ _ _ <;> exact ⟨_, rfl⟩
  rw [hlast] at hshown
  rw [hgives, hlast]
  obtain ⟨shown, rfl, hshown⟩ := hshown
  exact ⟨shown, rfl, hshown⟩

/-- The last attaching step decides the fragment, with the last message. A fragment attached as it
stands is not replaced: no later step fills code that was attached before it, or filling that code
gives the same fragment. Code attached to be filled reads the same with the message that filled it
last as with the message set last. -/
def IsLasting (className : String) (before : List Step) (a : Step) (after : List Step) : Prop :=
  match a.fixed? with
  | some fragment => ∀ attached ∈ lastOf Step.source? before, ∀ message ∈ lastOf Step.refill? after,
      rendered className attached (some message) = .ok fragment
  | none => ∀ attached ∈ a.source?,
      rendered className attached
          ((lastOf Step.refill? after).or (lastOf Step.message? (before ++ [a]))) =
        rendered className attached (lastOf Step.message? (before ++ a :: after))

/-- After any sequence of steps that does not fail, a described rule has the fragment of the last
attaching step, filled with the final failure message, if and only if that step is lasting. -/
theorem shows_last_attached_iff
    (hrun : (ofKind className (.described declared)).run (before ++ a :: after) = .ok r)
    (ha : a.Attaches) (hafter : ∀ s ∈ after, ¬ s.Attaches) :
    (∃ fragment, a.gives? className r.failureMessage = some (.ok fragment) ∧
      r.fragment = some fragment) ↔ IsLasting className before a after := by
  obtain ⟨hfinal, shown, hshown, hfragment⟩ := fragment_last_attached hrun ha hafter
  have hiff : (∃ fragment, a.gives? className r.failureMessage = some (.ok fragment) ∧
      r.fragment = some fragment) ↔
        a.gives? className (lastOf Step.message? (before ++ a :: after)) = some (.ok shown) := by
    simp [hfinal, hfragment]
  rw [hiff, IsLasting]
  cases hfixed : a.fixed? with
  | some fragment =>
      rw [Step.source?_eq_none (by simp [hfixed]), Option.none_or, Step.gives?, hfixed,
        Option.map_some, Option.some_or] at hshown
      rw [Step.gives?, hfixed, Option.map_some, Option.some_or, Option.some.injEq,
        Except.ok.injEq]
      exact refilled?_or_eq_iff hshown
  | none =>
      obtain ⟨attached, hsource⟩ := Option.ne_none_iff_exists'.mp (ha.resolve_right (· hfixed))
      rw [hsource, Option.some_or, Step.gives?, hfixed, hsource, Option.map_none, Option.none_or,
        Option.map_some, refilled?_or_rendered] at hshown
      rw [Step.gives?, hfixed, hsource, Option.map_none, Option.none_or, Option.map_some, ← hshown]
      simp [eq_comm]

/-- A check with the failure message of the rule. -/
def codeCheck : LiteralSource := .template ".refine(isCode, \x7bencoded\x7d)" false

/-- A template that was attached after other code is filled with the message of the last
`failWith`. -/
theorem shows_code_check : ∃ r,
    (ofKind "SchemaRule" (.described none)).run ([.literal "z.any()"] ++
      .append codeCheck (some "Bad.") ::
        [.withFailureMessage "Worse.", .failWith "Codes start with X."]) = .ok r ∧
    (∃ fragment, Step.gives? "SchemaRule" r.failureMessage (.append codeCheck (some "Bad.")) =
      some (.ok fragment) ∧ r.fragment = some fragment) ∧
    r.fragment = some ⟨".refine(isCode, \"Codes start with X.\")", .append⟩ := by
  have hrun : (ofKind "SchemaRule" (.described none)).run ([.literal "z.any()"] ++
      .append codeCheck (some "Bad.") ::
        [.withFailureMessage "Worse.", .failWith "Codes start with X."]) =
      .ok ⟨"SchemaRule", .described none, some ⟨".refine(isCode, \"Codes start with X.\")", .append⟩,
        some "Codes start with X.", some (codeCheck, .append)⟩ := by
    rfl
  refine ⟨_, hrun, (shows_last_attached_iff hrun ?_ ?_).mpr ?_, rfl⟩
  · exact .inl (Option.some_ne_none _)
  · simp [Step.Attaches, Step.source?, Step.fixed?]
  · exact fun _ _ => rfl

/-- Code that was attached as it stands gives way to the code attached before it when the failure
message is set, and a message that is set otherwise does not show in the code. -/
theorem earlier_literal_comes_back :
    (∃ r, (ofKind "SchemaRule" (.described none)).run
        [.append (.code ".min(1)") none, .literal "z.any()", .failWith "Bad."] = .ok r ∧
      Step.gives? "SchemaRule" r.failureMessage (.literal "z.any()") =
        some (.ok ⟨"z.any()", .replace⟩) ∧
      r.fragment = some ⟨".min(1)", .append⟩) ∧
    ∃ r, (ofKind "SchemaRule" (.described none)).run
        [.append codeCheck none, .withFailureMessage "Bad."] = .ok r ∧
      Step.gives? "SchemaRule" r.failureMessage (.append codeCheck none) =
        some (.ok ⟨".refine(isCode, \"Bad.\")", .append⟩) ∧
      r.fragment = some ⟨".refine(isCode, null)", .append⟩ :=
  ⟨⟨⟨"SchemaRule", .described none, some ⟨".min(1)", .append⟩, some "Bad.",
      some (.code ".min(1)", .append)⟩, rfl, rfl, rfl⟩,
    ⟨⟨"SchemaRule", .described none, some ⟨".refine(isCode, null)", .append⟩, some "Bad.",
      some (codeCheck, .append)⟩, rfl, rfl, rfl⟩⟩

end LastAttached

end RuleSchema.RuleObject
