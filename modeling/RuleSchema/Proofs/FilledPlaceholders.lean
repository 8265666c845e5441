import Mathlib.Data.List.Induction
import Mathlib.Data.List.MinMax
import Mathlib.Data.List.Nodup
import RuleSchema.Message.Basic
import RuleSchema.Proofs.JoinedReplacements

/-!
# Filling placeholders one after the other and at once

At once means that a message is read from left to right, the longest placeholder at each place is
taken, and its value is copied as it stands. Filling the placeholders one after the other keeps to
that as long as each placeholder occurs, in the text filled so far, only where the message itself
has it. A value that contains a later placeholder, or that completes one together with the text
around it, is rewritten.

## Implementation notes

A message is read once, with all placeholders, and the texts in between are that one reading with
some of the placeholders filled. So the steps of the filling are compared with one list of pieces
and not with readings of their own.
-/

namespace RuleSchema

namespace Placeholder

/-- How a placeholder is spelled in a message. -/
def spelling (p : String × String) : List Char := ':' :: p.1.toList

/-- A character of a message or one of its placeholders. -/
inductive Piece where
  | plain (c : Char)
  | slot (placeholder : String × String)
deriving DecidableEq, Repr

/-- The longest placeholder at the head of characters. -/
def longest? (table : List (String × String)) (cs : List Char) : Option (String × String) :=
  (table.filter fun p => (spelling p).isPrefixOf cs).argmax fun p => p.1.length

/-- A message read from left to right; `skip` characters belong to the last placeholder. -/
def pieces (table : List (String × String)) : Nat → List Char → List Piece
  | _, [] => []
  | skip + 1, _ :: rest => pieces table skip rest
  | 0, c :: rest =>
    match longest? table (c :: rest) with
    | some p => .slot p :: pieces table p.1.toList.length rest
    | none => .plain c :: pieces table 0 rest

/-- The text of a piece with its placeholder filled. -/
def Piece.filled : Piece → List Char
  | plain c => [c]
  | slot p => p.2.toList

/-- A message with all placeholders filled at once. -/
def atOnce (message : String) (table : List (String × String)) : String :=
  String.ofList ((pieces table 0 message.toList).flatMap Piece.filled)

/-- The text of a piece where only some placeholders are filled. -/
def Piece.shown (done : List (String × String)) : Piece → List Char
  | plain c => [c]
  | slot p => if p ∈ done then p.2.toList else spelling p

/-- The text of pieces where only some placeholders are filled. -/
def partly (done : List (String × String)) (message : List Piece) : List Char :=
  message.flatMap (Piece.shown done)

/-- The texts between the places of one placeholder, where some others are filled. -/
def gaps (done : List (String × String)) (p : String × String) : List Piece → List (List Char)
  | [] => [[]]
  | piece :: rest =>
    if piece = .slot p then [] :: gaps done p rest
    else match gaps done p rest with
      | [] => [piece.shown done]
      | gap :: more => (piece.shown done ++ gap) :: more

/-- Outside its own places a placeholder does not occur in the text filled so far. -/
def OnlyOwn (done : List (String × String)) (p : String × String) (message : List Piece) : Prop :=
  ∀ gap ∈ gaps done p message, Text.occursIn (spelling p) gap = false

section Reading

variable {table done : List (String × String)} {p : String × String}

theorem mem_of_longest? {cs : List Char} (h : longest? table cs = some p) :
    p ∈ table ∧ spelling p <+: cs := by
  have hmem := List.mem_filter.mp (List.argmax_mem h)
  exact ⟨hmem.1, List.isPrefixOf_iff_prefix.mp hmem.2⟩

theorem mem_of_slot_mem {skip : Nat} {cs : List Char} (h : .slot p ∈ pieces table skip cs) :
    p ∈ table := by
  induction cs generalizing skip with
  | nil => cases skip <;> cases h
  | cons c rest ih =>
      cases skip with
      | succ skip => exact ih h
      | zero =>
          rw [pieces] at h
          split at h
          · rename_i q hq
            rcases List.mem_cons.mp h with heq | hrest
            · obtain rfl := Piece.slot.inj heq
              exact (mem_of_longest? hq).1
            · exact ih hrest
          · exact ih ((List.mem_cons.mp h).resolve_left Piece.noConfusion)

/-- The pieces of a message spell the message. -/
theorem partly_nil (table : List (String × String)) (skip : Nat) (cs : List Char) :
    partly [] (pieces table skip cs) = cs.drop skip := by
  induction cs generalizing skip with
  | nil => cases skip <;> rfl
  | cons c rest ih =>
      cases skip with
      | succ skip => exact ih skip
      | zero =>
          rw [pieces]
          split
          · rename_i p hp
            obtain ⟨more, hmore⟩ := (mem_of_longest? hp).2
            obtain ⟨rfl, rfl⟩ := List.cons.inj hmore
            have hslot : Piece.shown [] (.slot p) = spelling p := by
              rw [Piece.shown, if_neg List.not_mem_nil]
            rw [partly, List.flatMap_cons, hslot, ← partly, ih]
            exact congrArg (spelling p ++ ·) List.drop_left
          · rw [partly, List.flatMap_cons, ← partly, ih]
            rfl

/-- With all placeholders filled the pieces give the message filled at once. -/
theorem partly_all {message : List Piece} (h : ∀ p, .slot p ∈ message → p ∈ done) :
    partly done message = message.flatMap Piece.filled := by
  refine List.flatMap_congr fun piece hpiece => ?_
  cases piece with
  | plain c => rfl
  | slot p => exact if_pos (h p hpiece)

end Reading

section Gaps

variable {done : List (String × String)} {p : String × String}

theorem gaps_ne_nil (message : List Piece) : gaps done p message ≠ [] := by
  cases message with
  | nil => exact List.cons_ne_nil _ _
  | cons piece rest =>
      rw [gaps]
      split
      · exact List.cons_ne_nil _ _
      · split
        · exact List.cons_ne_nil _ _
        · exact List.cons_ne_nil _ _

/-- A text is its gaps, joined by what stands for the placeholder. -/
theorem joinChars_gaps {others : List (String × String)} {sep : List Char}
    (hsep : Piece.shown others (.slot p) = sep)
    (hothers : ∀ piece, piece ≠ .slot p → Piece.shown others piece = Piece.shown done piece)
    (message : List Piece) : Text.joinChars sep (gaps done p message) = partly others message := by
  induction message with
  | nil => rfl
  | cons piece rest ih =>
      have hne : gaps done p rest ≠ [] := gaps_ne_nil rest
      obtain ⟨gap, more, hgaps⟩ := List.exists_cons_of_ne_nil hne
      rw [hgaps] at ih
      rw [partly, List.flatMap_cons, ← partly, ← ih, gaps, hgaps]
      split
      · rename_i hown
        rw [hown, hsep]
        rfl
      · rename_i hother
        rw [hothers piece hother]
        cases more with
        | nil => rfl
        | cons next more => simp only [Text.joinChars, List.append_assoc]

theorem joinChars_spelling (hp : p ∉ done) (message : List Piece) :
    Text.joinChars (spelling p) (gaps done p message) = partly done message :=
  joinChars_gaps (if_neg hp) (fun _ _ => rfl) message

theorem joinChars_value (message : List Piece) :
    Text.joinChars p.2.toList (gaps done p message) = partly (done ++ [p]) message := by
  refine joinChars_gaps (if_pos (List.mem_append_right _ (List.mem_singleton_self p)))
    (fun piece hpiece => ?_) message
  cases piece with
  | plain c => rfl
  | slot q =>
      have hne : q ≠ p := fun heq => hpiece (congrArg Piece.slot heq)
      simp only [Piece.shown, List.mem_append, List.mem_singleton, hne, or_false]

/-- One step of the filling keeps to the reading of the message exactly when the placeholder occurs
only in its own places, unless it is filled with itself. -/
theorem fill_step_iff (hcolon : ':' ∉ p.1.toList) (hp : p ∉ done) (message : List Piece) :
    fill (String.ofList (partly done message)) p = String.ofList (partly (done ++ [p]) message) ↔
      OnlyOwn done p message ∨ p.2.toList = spelling p := by
  have hspelling : (":" ++ p.1).toList = spelling p := by
    rw [String.toList_append]
    rfl
  rw [fill, Text.replace, hspelling, String.toList_ofList, String.ofList_inj,
    ← joinChars_spelling hp, ← joinChars_value]
  exact Text.replaceChars_joinChars_iff hcolon (gaps_ne_nil message)

end Gaps

/-- Each placeholder in turn occurs only in its own places, or is filled with itself. -/
def KeepsInserted (message : List Piece) :
    List (String × String) → List (String × String) → Prop
  | _, [] => True
  | done, p :: rest =>
    (OnlyOwn done p message ∨ p.2.toList = spelling p) ∧ KeepsInserted message (done ++ [p]) rest

instance (done : List (String × String)) (p : String × String) (message : List Piece) :
    Decidable (OnlyOwn done p message) :=
  inferInstanceAs (Decidable (∀ gap ∈ gaps done p message, _ = false))

instance decidableKeepsInserted (message : List Piece) :
    (done rest : List (String × String)) → Decidable (KeepsInserted message done rest)
  | _, [] => .isTrue trivial
  | done, p :: rest =>
    letI := decidableKeepsInserted message (done ++ [p]) rest
    inferInstanceAs (Decidable
      ((OnlyOwn done p message ∨ p.2.toList = spelling p) ∧
        KeepsInserted message (done ++ [p]) rest))

section Run

/-- All steps of the filling keep to the reading of the message exactly when each placeholder in
turn occurs only in its own places. -/
theorem foldl_fill_iff (message : List Piece) {done rest : List (String × String)}
    (hcolon : ∀ p ∈ rest, ':' ∉ p.1.toList) (hnodup : (done ++ rest).Nodup) :
    (∀ k, (rest.take k).foldl fill (String.ofList (partly done message)) =
      String.ofList (partly (done ++ rest.take k) message)) ↔ KeepsInserted message done rest := by
  induction rest generalizing done with
  | nil =>
      refine iff_of_true (fun k => ?_) trivial
      rw [List.take_nil, List.append_nil]
      rfl
  | cons p rest ih =>
      have hp : p ∉ done := fun hmem =>
        List.disjoint_of_nodup_append hnodup hmem List.mem_cons_self
      have hstep := fill_step_iff (hcolon p List.mem_cons_self) hp message
      have hnodup' : (done ++ [p] ++ rest).Nodup := by
        rwa [List.append_assoc, List.singleton_append]
      have hrest := ih (fun q hq => hcolon q (List.mem_cons_of_mem p hq)) hnodup'
      rw [KeepsInserted, ← hstep, ← hrest]
      constructor
      · intro h
        have hfirst : fill (String.ofList (partly done message)) p =
            String.ofList (partly (done ++ [p]) message) := h 1
        refine ⟨hfirst, fun k => ?_⟩
        have hnext := h (k + 1)
        rw [List.take_succ_cons, List.foldl_cons, hfirst] at hnext
        rw [hnext, List.append_assoc, List.singleton_append]
      · rintro ⟨hfirst, hlater⟩ k
        cases k with
        | zero =>
            rw [List.take_zero, List.append_nil]
            rfl
        | succ k =>
            rw [List.take_succ_cons, List.foldl_cons, hfirst, hlater k, List.append_assoc,
              List.singleton_append]

variable {values : List (String × String)} {name : String}

theorem mem_ordered_iff {p : String × String} : p ∈ ordered values ↔ p ∈ values :=
  (List.mergeSort_perm values _).mem_iff

/-- The names of all placeholders in the order in which they are filled in. -/
theorem map_fst_stages_perm (values : List (String × String)) (name : String) :
    ((ordered values ++ ofField name).map Prod.fst).Perm
      (values.map Prod.fst ++ ["attribute", "Attribute", "ATTRIBUTE"]) := by
  rw [List.map_append]
  exact ((List.mergeSort_perm values _).map Prod.fst).append_right _

/-- Names that a rule may give its placeholders: different ones without a colon. -/
def AreNames (names : List String) : Prop :=
  (names ++ ["attribute", "Attribute", "ATTRIBUTE"]).Nodup ∧
    ∀ n ∈ names ++ ["attribute", "Attribute", "ATTRIBUTE"], ':' ∉ n.toList

theorem AreNames.stages (h : AreNames (values.map Prod.fst)) (name : String) :
    (ordered values ++ ofField name).Nodup ∧
      ∀ p ∈ ordered values ++ ofField name, ':' ∉ p.1.toList := by
  have hperm := map_fst_stages_perm values name
  refine ⟨List.Nodup.of_map Prod.fst (hperm.nodup_iff.mpr h.1), fun p hp => ?_⟩
  exact h.2 p.1 (hperm.mem_iff.mp (List.mem_map_of_mem hp))

/-- Filling one after the other is filling at once where no inserted text is rewritten. -/
theorem substitute_eq_atOnce (message : String) (hnames : AreNames (values.map Prod.fst))
    (h : KeepsInserted (pieces (values ++ ofField name) 0 message.toList) []
      (ordered values ++ ofField name)) :
    substitute message values name = atOnce message (values ++ ofField name) := by
  have hstages := hnames.stages name
  have hrun := (foldl_fill_iff _ hstages.2 hstages.1).mpr h (ordered values ++ ofField name).length
  rw [List.take_length, List.nil_append, partly_nil, List.drop_zero, String.ofList_toList] at hrun
  rw [substitute, hrun, atOnce, partly_all fun p hp => ?_]
  rcases List.mem_append.mp (mem_of_slot_mem hp) with hvalue | hfield
  · exact List.mem_append_left _ (mem_ordered_iff.mpr hvalue)
  · exact List.mem_append_right _ hfield

end Run

end Placeholder

namespace Messages

open Placeholder

/-- The lists of names that the placeholders of rules have. -/
def placeholderNames : List (List String) :=
  [["min", "max"], ["min"], ["max"], ["size"], ["digits"], ["decimal"], ["format"], ["value"],
    ["other"], ["date"], ["values"], ["other", "value", "values"], []]

theorem areNames_of_mem : ∀ names ∈ placeholderNames, AreNames names := by
  unfold AreNames
  decide

/-- The names of placeholders, if there are any, are those of some rule. -/
def NamesPlaceholders (x : Except Fault (List (String × String))) : Prop :=
  ∀ values, x = .ok values → values.map Prod.fst ∈ placeholderNames

namespace NamesPlaceholders

variable {α : Type}

theorem ok {values : List (String × String)} (h : values.map Prod.fst ∈ placeholderNames) :
    NamesPlaceholders (.ok values) := by
  intro found heq
  obtain rfl := Except.ok.inj heq
  exact h

theorem bind (x : Except Fault α) {f : α → Except Fault (List (String × String))}
    (h : ∀ a, NamesPlaceholders (f a)) : NamesPlaceholders (x >>= f) := by
  cases x with
  | error fault => exact fun values heq => by cases heq
  | ok a => exact h a

theorem ite {p : Prop} [Decidable p] {x y : Except Fault (List (String × String))}
    (hx : NamesPlaceholders x) (hy : NamesPlaceholders y) :
    NamesPlaceholders (if p then x else y) := by
  split
  · exact hx
  · exact hy

end NamesPlaceholders

theorem namesPlaceholders (m : Messages) (field rule : String) (parameters : List String) :
    NamesPlaceholders (m.placeholders field rule parameters) := by
  have single (name value : String) (h : [name] ∈ placeholderNames) :
      NamesPlaceholders (.ok [(name, value)]) := .ok h
  unfold placeholders
  refine .ite (.ok (by simp [placeholderNames])) (.ite (single _ _ (by decide))
    (.ite (single _ _ (by decide))
    (.ite (single _ _ (by decide)) (.ite (single _ _ (by decide)) (.ite (single _ _ (by decide))
      (.ite (single _ _ (by decide)) (.ite (single _ _ (by decide)) (.ite ?_ (.ite ?_ (.ite ?_
        (.ite (single _ _ (by decide)) (.ite ?_ (.ite ?_ (.ite ?_
          (.ok (by decide))))))))))))))))
  · exact .bind _ fun _ => single _ _ (by decide)
  · exact .ite (.bind _ fun _ => single _ _ (by decide)) (.bind _ fun _ => single _ _ (by decide))
  · exact .bind _ fun _ => single _ _ (by decide)
  · exact .bind _ fun _ => single _ _ (by decide)
  · exact .bind _ fun _ => .bind _ fun _ => .ok (by simp [placeholderNames])
  · exact .bind _ fun _ => single _ _ (by decide)

/-- The placeholders of a rule have different names without a colon. -/
theorem areNames_placeholders {m : Messages} {field rule : String} {parameters : List String}
    {values : List (String × String)} (h : m.placeholders field rule parameters = .ok values) :
    AreNames (values.map Prod.fst) :=
  areNames_of_mem _ (m.namesPlaceholders field rule parameters values h)

section Filling

variable {m : Messages} {field rule : String} {parameters : List String}
  {values : List (String × String)} {name : String}

theorem fill_eq_substitute (message : String) (hname : m.fieldName field = .ok name)
    (hvalues : m.placeholders field rule parameters = .ok values) :
    m.fill message field rule parameters = .ok (substitute message values name) := by
  rw [Messages.fill, hname, hvalues]
  rfl

/-- A message is filled one placeholder after the other, the longer names first and the field last.
All steps keep to the reading of the message from left to right exactly when each placeholder in
turn occurs, in the text filled so far, only where the message has it, or is filled with itself; and
then the filled message is the one that is filled at once, with every value as it stands. -/
theorem fill_keeps_inserted_iff (message : String) (hname : m.fieldName field = .ok name)
    (hvalues : m.placeholders field rule parameters = .ok values) :
    let table := values ++ ofField name
    let stages := ordered values ++ ofField name
    let read := pieces table 0 message.toList
    m.fill message field rule parameters = .ok (stages.foldl Placeholder.fill message) ∧
    ((∀ k, (stages.take k).foldl Placeholder.fill message =
      String.ofList (partly (stages.take k) read)) ↔ KeepsInserted read [] stages) ∧
    (KeepsInserted read [] stages →
      m.fill message field rule parameters = .ok (atOnce message table)) := by
  intro table stages read
  have hnames := areNames_placeholders hvalues
  have hfill := fill_eq_substitute message hname hvalues
  refine ⟨hfill, ?_, fun h => ?_⟩
  · obtain ⟨hnodup, hcolon⟩ := hnames.stages name
    have hstart : ([] ++ (ordered values ++ ofField name)).Nodup := hnodup
    have hrun := foldl_fill_iff read hcolon hstart
    simpa only [read, partly_nil, List.drop_zero, String.ofList_toList, List.nil_append] using hrun
  · rw [hfill, substitute_eq_atOnce message hnames h]

/-- A value that looks like a placeholder of another rule, and a name that looks like one of this
rule, stay as they are. -/
theorem fill_keeps_inserted_kind :
    let m : Messages := ⟨none, [], [("kind", "the :min kind"), ("price", "Net :other")]⟩
    let values := [("other", "the :min kind"), ("value", ":max"), ("values", ":max, :min")]
    m.fieldName "price" = .ok "Net :other" ∧
    m.placeholders "price" "required_if" ["kind", ":max", ":min"] = .ok values ∧
    m.fill ":Attribute is needed if :other is :value (::values)." "price" "required_if"
      ["kind", ":max", ":min"] =
      .ok "Net :other is needed if the :min kind is :max (::max, :min)." := by
  intro m values
  have hname : m.fieldName "price" = .ok "Net :other" := rfl
  have hvalues : m.placeholders "price" "required_if" ["kind", ":max", ":min"] = .ok values := rfl
  have horder : ordered values =
      [("values", ":max, :min"), ("other", "the :min kind"), ("value", ":max")] := by
    have hother : "other".length = 5 := rfl
    have hvalue : "value".length = 5 := rfl
    have hlonger : "values".length = 6 := rfl
    simp [ordered, values, List.mergeSort, hother, hvalue, hlonger]
  obtain ⟨-, -, hfill⟩ := fill_keeps_inserted_iff
    ":Attribute is needed if :other is :value (::values)." hname hvalues
  rw [horder] at hfill
  refine ⟨hname, hvalues, (hfill (by decide +kernel)).trans ?_⟩
  exact congrArg Except.ok (by decide +kernel)

/-- A parameter that is spelled like the placeholder of the field is rewritten. -/
theorem fill_rewrites_parameter :
    let m : Messages := ⟨none, [], []⟩
    m.fieldName "f" = .ok "f" ∧
    m.placeholders "f" "min" [":attribute"] = .ok [("min", ":attribute")] ∧
    m.fill "The :attribute needs :min." "f" "min" [":attribute"] = .ok "The f needs f." ∧
    atOnce "The :attribute needs :min." ([("min", ":attribute")] ++ ofField "f") =
      "The f needs :attribute." := by
  intro m
  have hname : m.fieldName "f" = .ok "f" := rfl
  have hvalues : m.placeholders "f" "min" [":attribute"] = .ok [("min", ":attribute")] := rfl
  refine ⟨hname, hvalues, ?_, by decide +kernel⟩
  rw [fill_eq_substitute _ hname hvalues]
  exact congrArg Except.ok (by decide +kernel)

end Filling

end Messages

end RuleSchema
