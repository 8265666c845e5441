import RuleSchema.Proofs.DottedPaths
import RuleSchema.Proofs.MessageSlots
import RuleSchema.Refinement.Branch

/-!
# Messages in refinements

A branch between fields adds issues, each with its message in a line of its own. No message breaks
that line, so the line is moved in with the block around it and its literal stays one literal. The
other lines of a branch do not depend on the message.
-/

namespace RuleSchema

open Script

namespace Refinement

section Blocks

variable {left right : List String} {level : Nat}

theorem join_cons_of_ne_nil (sep piece : String) {rest : List String} (hne : rest ≠ []) :
    Text.join sep (piece :: rest) = piece ++ sep ++ Text.join sep rest := by
  obtain ⟨next, more, rfl⟩ := List.exists_cons_of_ne_nil hne
  rfl

theorem join_append (sep : String) (hleft : left ≠ []) (hright : right ≠ []) :
    Text.join sep (left ++ right) = Text.join sep left ++ sep ++ Text.join sep right := by
  induction left with
  | nil => exact absurd rfl hleft
  | cons piece rest ih =>
      by_cases hrest : rest = []
      · subst hrest
        exact join_cons_of_ne_nil sep piece hright
      · rw [List.cons_append, join_cons_of_ne_nil sep piece hrest,
          join_cons_of_ne_nil sep piece (List.append_ne_nil_of_left_ne_nil hrest _), ih hrest]
        simp only [String.append_assoc]

/-- The blanks before a line some levels deep. -/
def pad (level : Nat) : String := String.join (List.replicate level indent)

theorem indentBlock_eq (level : Nat) (text : String) :
    indentBlock level text = Text.join "\n" ((Text.splitOn '\n' text).map fun line =>
      if Text.isEmpty line then line else pad level ++ line) := rfl

/-- A line that is not empty is moved in as a whole. -/
theorem indentBlock_line {line : String} (hfeed : '\n' ∉ line.toList) (hne : line.toList ≠ []) :
    indentBlock level line = pad level ++ line := by
  have hfilled : Text.isEmpty line = false := List.isEmpty_eq_false_iff.mpr hne
  rw [indentBlock_eq, Text.splitOn, DottedPath.splitBy_of_not_mem hfeed]
  simp only [List.map_cons, List.map_nil, String.ofList_toList, hfilled, Bool.false_eq_true,
    if_false, Text.join]

theorem splitOn_append_feed (one two : String) :
    Text.splitOn '\n' (one ++ "\n" ++ two) = Text.splitOn '\n' one ++ Text.splitOn '\n' two := by
  have hfeed : "\n".toList = ['\n'] := by decide
  rw [Text.splitOn, String.toList_append, String.toList_append, hfeed, List.append_assoc,
    List.singleton_append, DottedPath.splitBy_append_sep, List.map_append]
  rfl

theorem splitOn_ne_nil (sep : Char) (text : String) : Text.splitOn sep text ≠ [] :=
  fun h => Text.splitBy_ne_nil _ _ (List.map_eq_nil_iff.mp h)

/-- A block is moved in line by line. -/
theorem indentBlock_append_feed (one two : String) :
    indentBlock level (one ++ "\n" ++ two) =
      indentBlock level one ++ "\n" ++ indentBlock level two := by
  rw [indentBlock_eq, splitOn_append_feed, List.map_append, join_append]
  · rfl
  · exact fun h => splitOn_ne_nil _ _ (List.map_eq_nil_iff.mp h)
  · exact fun h => splitOn_ne_nil _ _ (List.map_eq_nil_iff.mp h)

theorem indentBlock_join {lines : List String} (hne : lines ≠ []) :
    indentBlock level (Text.join "\n" lines) = Text.join "\n" (lines.map (indentBlock level)) := by
  induction lines with
  | nil => exact absurd rfl hne
  | cons line rest ih =>
      by_cases hrest : rest = []
      · subst hrest
        rfl
      · rw [join_cons_of_ne_nil _ _ hrest, indentBlock_append_feed, ih hrest, List.map_cons,
          join_cons_of_ne_nil _ _ fun h => hrest (List.map_eq_nil_iff.mp h)]

end Blocks

end Refinement

namespace Slot

/-- A slot moved in by some levels. -/
def indented (level : Nat) (s : Slot) : Slot :=
  ⟨s.spot, Refinement.pad level ++ s.lead, s.trail, Refinement.indentBlock level s.otherwise⟩

/-- Whether what stands around a message is part of one line. -/
def IsLine (s : Slot) : Prop := '\n' ∉ s.lead.toList ∧ '\n' ∉ s.trail.toList

theorem literal_no_feed (t : String) : '\n' ∉ (literal t).toList := by
  intro h
  rw [literal, String.toList_append, String.toList_append, List.mem_append, List.mem_append] at h
  rcases h with (hopen | hbody) | hclose
  · exact absurd hopen (by decide)
  · exact (escape_no_break t _ hbody).1 rfl
  · exact absurd hclose (by decide)

/-- No message breaks its line, so a slot is moved in with its message. -/
theorem text_indented {s : Slot} (h : s.IsLine) (level : Nat) (message : Option String) :
    (s.indented level).text message = Refinement.indentBlock level (s.text message) := by
  cases hshown : s.spot.shown? message with
  | none =>
      have hshown' : (s.indented level).spot.shown? message = none := hshown
      rw [text_of_not_shown hshown, text_of_not_shown hshown']
      rfl
  | some t =>
      have hshown' : (s.indented level).spot.shown? message = some t := hshown
      rw [text_of_shown? hshown, text_of_shown? hshown', Refinement.indentBlock_line]
      · simp only [indented, String.append_assoc]
      · rw [String.toList_append, String.toList_append, List.mem_append, List.mem_append]
        rintro ((hlead | hliteral) | htrail)
        · exact h.1 hlead
        · exact literal_no_feed t hliteral
        · exact h.2 htrail
      · rw [String.toList_append, String.toList_append, literal, String.toList_append,
          String.toList_append]
        exact List.append_ne_nil_of_left_ne_nil (List.append_ne_nil_of_right_ne_nil _
          (List.append_ne_nil_of_right_ne_nil _ (by decide))) _

end Slot

namespace Refinement

/-- Lines that are slots of a message, one of which always shows it. -/
def LinesTold (lines : Option String → List String) : Prop :=
  ∃ rows : List Slot, (∀ s ∈ rows, s.IsLine) ∧ (∃ s ∈ rows, ∃ fallback, s.spot = .always fallback) ∧
    ∀ message, lines message = rows.map (·.text message)

/-- Code whose lines are slots of a message, one of which always shows it. -/
def CodeTold (code : Option String → String) : Prop :=
  ∃ rows : List Slot, (∃ s ∈ rows, ∃ fallback, s.spot = .always fallback) ∧
    ∀ message, code message = Text.join "\n" (rows.map (·.text message))

section Lines

variable {lines others : Option String → List String}

theorem isLine_code (code : String) : (Slot.code code).IsLine :=
  ⟨List.not_mem_nil, List.not_mem_nil⟩

theorem isLine_map_code (code : List String) : ∀ s ∈ code.map Slot.code, s.IsLine := by
  intro s hs
  obtain ⟨line, -, rfl⟩ := List.mem_map.mp hs
  exact isLine_code line

theorem map_text_code (code : List String) (message : Option String) :
    (code.map Slot.code).map (·.text message) = code := by
  rw [List.map_map]
  exact List.map_id' code

theorem LinesTold.prepend (h : LinesTold lines) (code : List String) :
    LinesTold fun message => code ++ lines message := by
  obtain ⟨rows, hline, ⟨s, hs, hshown⟩, heq⟩ := h
  refine ⟨code.map Slot.code ++ rows, ?_, ⟨s, List.mem_append_right _ hs, hshown⟩,
    fun message => ?_⟩
  · exact List.forall_mem_append.mpr ⟨isLine_map_code code, hline⟩
  · rw [List.map_append, map_text_code, ← heq]

theorem LinesTold.append_code (h : LinesTold lines) (code : List String) :
    LinesTold fun message => lines message ++ code := by
  obtain ⟨rows, hline, ⟨s, hs, hshown⟩, heq⟩ := h
  refine ⟨rows ++ code.map Slot.code, ?_, ⟨s, List.mem_append_left _ hs, hshown⟩, fun message => ?_⟩
  · exact List.forall_mem_append.mpr ⟨hline, isLine_map_code code⟩
  · rw [List.map_append, map_text_code, ← heq]

theorem LinesTold.append (h : LinesTold lines) (h' : LinesTold others) :
    LinesTold fun message => lines message ++ others message := by
  obtain ⟨rows, hline, ⟨s, hs, hshown⟩, heq⟩ := h
  obtain ⟨more, hline', -, heq'⟩ := h'
  refine ⟨rows ++ more, ?_, ⟨s, List.mem_append_left _ hs, hshown⟩, fun message => ?_⟩
  · exact List.forall_mem_append.mpr ⟨hline, hline'⟩
  · rw [List.map_append, ← heq, ← heq']

theorem feed_not_mem_pad (level : Nat) : '\n' ∉ (pad level).toList := by
  unfold pad
  induction level with
  | zero => decide
  | succ n ih =>
      rw [List.replicate_succ, String.join_cons, String.toList_append, List.mem_append, not_or]
      exact ⟨by decide, ih⟩

/-- An issue shows its message in a line of its own. -/
theorem linesTold_addIssue (fallback path : String) (depth : Nat) :
    LinesTold fun message => addIssue (messageOr message fallback) path depth := by
  let line : Slot := .told fallback (pad depth ++ indent ++ "message: ") ","
  refine ⟨[.code (pad depth ++ "ctx.addIssue(\x7b"),
    .code (pad depth ++ indent ++ "code: 'custom',"), line,
    .code (pad depth ++ indent ++ "path: " ++ path ++ ","), .code (pad depth ++ "\x7d);")], ?_,
    ⟨line, by simp only [List.mem_cons, true_or, or_true], fallback, rfl⟩, fun message => rfl⟩
  simp only [List.forall_mem_cons]
  have hlead : '\n' ∉ (pad depth ++ indent ++ "message: ").toList := by
    rw [String.toList_append, String.toList_append, List.mem_append, List.mem_append, not_or,
      not_or]
    exact ⟨⟨feed_not_mem_pad depth, by decide⟩, by decide⟩
  have htrail : '\n' ∉ ",".toList := by decide
  exact ⟨isLine_code _, isLine_code _, ⟨hlead, htrail⟩, isLine_code _, isLine_code _,
    List.forall_mem_nil _⟩

/-- A block of lines, moved in by some levels. -/
theorem LinesTold.block (h : LinesTold lines) (level : Nat) (opening closing : String) :
    CodeTold fun message => indentBlock level (block opening (lines message) closing) := by
  obtain ⟨rows, hline, ⟨s, hs, hshown⟩, heq⟩ :=
    (h.append_code [closing]).prepend [opening]
  refine ⟨rows.map (Slot.indented level), ⟨s.indented level, List.mem_map_of_mem hs, hshown⟩,
    fun message => ?_⟩
  have hne : rows.map (·.text message) ≠ [] := List.ne_nil_of_mem (List.mem_map_of_mem hs)
  have hrows : (rows.map (·.text message)).map (indentBlock level) =
      (rows.map (Slot.indented level)).map (·.text message) := by
    rw [List.map_map, List.map_map]
    exact List.map_congr_left fun row hrow =>
      (Slot.text_indented (hline row hrow) level message).symm
  calc indentBlock level (Refinement.block opening (lines message) closing)
      = indentBlock level (Text.join "\n" (rows.map (·.text message))) := by
        rw [← heq]
        rfl
    _ = Text.join "\n" ((rows.map (Slot.indented level)).map (·.text message)) := by
        rw [indentBlock_join hne, hrows]

end Lines

/-- A kind of branch shows the message of its check in lines of their own, wherever there is a
branch. The lines around the message do not depend on it. -/
def BranchTold (kind : Check → Option String) : Prop :=
  ∀ (check : Check) (level : Nat), (∀ message, kind { check with message := message } = none) ∨
    ∃ branch : Option String → String,
      (∀ message, kind { check with message := message } = some (branch message)) ∧
      CodeTold fun message => indentBlock level (branch message)

section Kinds

variable (scope field : String) (r : Resolved)

/-- The branches that relate a field to others, by kind. -/
def kinds : List (Check → Option String) :=
  [requiredIf? scope field r, decidedIf? scope field r true, decidedIf? scope field r false,
    fun check => some (confirmed field check), equality? scope field r true,
    equality? scope field r false] ++
  dateOperators.map fun p => dateComparison? scope field r p.2

/-- A kind whose branch depends on what is found in the parameters of a check, and on its message.
-/
theorem branchTold_map {α : Type} {kind : Check → Option String} (found : Check → Option α)
    {branch : Check → α → Option String → String}
    (hkind : ∀ check message,
      kind { check with message := message } = (found check).map (branch check · message))
    (htold : ∀ check a level, CodeTold fun message => indentBlock level (branch check a message)) :
    BranchTold kind := by
  intro check level
  cases hcheck : found check with
  | none => exact .inl fun message => by rw [hkind, hcheck, Option.map_none]
  | some a => exact .inr ⟨branch check a, fun message => by rw [hkind, hcheck, Option.map_some],
      htold check a level⟩

theorem branchTold_requiredIf? : BranchTold (requiredIf? scope field r) :=
  branchTold_map (comparison? scope r.path) (fun _ _ => rfl) fun _ _ level =>
    (linesTold_addIssue _ (issuePath field) 1).block level _ "\x7d"

theorem branchTold_decidedIf? (accepted : Bool) :
    BranchTold (decidedIf? scope field r accepted) :=
  branchTold_map (comparison? scope r.path) (fun _ _ => rfl) fun _ _ level =>
    (linesTold_addIssue _ (issuePath field) 1).block level _ "\x7d"

theorem branchTold_confirmed : BranchTold fun check => some (confirmed field check) := by
  have hissue := linesTold_addIssue "The confirmation does not match." (issuePath field) 2
  exact branchTold_map (fun _ => some ()) (fun _ _ => rfl) fun _ _ level =>
    ((((hissue.prepend _).append_code _).append hissue).append_code _).block level "\x7b" "\x7d"

theorem ite_none_map {α β : Type} {p : Prop} [Decidable p] (found : Option α) (f : α → β) :
    (if p then none else found.map f) = (if p then none else found).map f := by
  split <;> rfl

theorem branchTold_equality? (mustMatch : Bool) :
    BranchTold (equality? scope field r mustMatch) :=
  branchTold_map (fun check => if Text.isEmpty (firstText check) then none
    else reference? scope r.path (firstText check)) (fun _ _ => ite_none_map _ _) fun _ _ level =>
    (((linesTold_addIssue _ (issuePath field) 2).prepend _).append_code _).block level
      "\x7b" "\x7d"

theorem branchTold_dateComparison? (operator : String) :
    BranchTold (dateComparison? scope field r operator) := by
  have hissue := linesTold_addIssue "Invalid date comparison." (issuePath field) 2
  exact branchTold_map (fun check => if Text.isEmpty (Text.trim (firstText check)) then none
    else dateReference? scope r.path (Text.trim (firstText check)))
    (fun _ _ => ite_none_map _ _) fun _ _ level =>
    (((((((hissue.prepend _).append_code _).append_code _).append_code _).append_code _).append
      hissue).append_code _).block level "(() => \x7b" "\x7d)();"

theorem branchTold_kinds : ∀ kind ∈ kinds scope field r, BranchTold kind := by
  unfold kinds
  simp only [List.forall_mem_append, List.forall_mem_cons, List.forall_mem_map]
  exact ⟨⟨branchTold_requiredIf? _ _ _, branchTold_decidedIf? _ _ _ _,
    branchTold_decidedIf? _ _ _ _, branchTold_confirmed _, branchTold_equality? _ _ _ _,
    branchTold_equality? _ _ _ _, List.forall_mem_nil _⟩,
    fun p _ => branchTold_dateComparison? _ _ _ p.2⟩

theorem mem_kinds_date {p : String × String} (h : p ∈ dateOperators) :
    dateComparison? scope field r p.2 ∈ kinds scope field r := by
  unfold kinds
  exact List.mem_append_right _ (List.mem_map.mpr ⟨p, h, rfl⟩)

/-- Every branch of a field belongs to a check of the field, by one of the kinds. -/
theorem exists_kind_of_mem_branches {code : String} (h : code ∈ branches scope field r) :
    ∃ check ∈ r.checks, ∃ kind ∈ kinds scope field r, kind check = some code := by
  have hof {rule : String} {kind : Check → Option String}
      (hcode : code ∈ (r.checksOf rule).filterMap kind) :
      ∃ check ∈ r.checks, kind check = some code :=
    let ⟨check, hcheck, heq⟩ := List.mem_filterMap.mp hcode
    ⟨check, List.mem_of_mem_filter hcheck, heq⟩
  have hfirst {kind : Check → Option String} (hkind : kind ∈ kinds scope field r)
      (hcode : ∃ check ∈ r.checks, kind check = some code) :
      ∃ check ∈ r.checks, ∃ kind ∈ kinds scope field r, kind check = some code :=
    let ⟨check, hcheck, heq⟩ := hcode
    ⟨check, hcheck, kind, hkind, heq⟩
  simp only [branches, List.mem_append] at h
  rcases h with (((((hif | haccepted) | hdeclined) | hconfirmed) | hsame) | hdifferent) | hdate
  · exact hfirst (by simp [kinds]) (hof hif)
  · exact hfirst (by simp [kinds]) (hof haccepted)
  · exact hfirst (by simp [kinds]) (hof hdeclined)
  · obtain ⟨check, hcheck, rfl⟩ := List.mem_map.mp hconfirmed
    exact ⟨check, List.mem_of_find?_eq_some (Option.mem_toList.mp hcheck),
      fun check => some (confirmed field check), by simp [kinds], rfl⟩
  · exact hfirst (by simp [kinds]) (hof hsame)
  · exact hfirst (by simp [kinds]) (hof hdifferent)
  · obtain ⟨p, hp, hcode⟩ := List.mem_flatMap.mp hdate
    exact hfirst (mem_kinds_date scope field r hp) (hof hcode)

end Kinds

end Refinement

end RuleSchema
