import Mathlib.Data.List.Induction
import RuleSchema.Field.Group

/-!
# Dotted paths

A path is a list of names without dots, written with a dot between them. Writing and reading are
inverse to each other, so two paths are the same text exactly when they have the same names. A path
without a marker among its names is no marker entry of any sort.
-/

namespace RuleSchema.DottedPath

open Text

/-- The names of a path. -/
def names (path : String) : List String := splitOn '.' path

/-- The path of names. -/
def ofNames (path : List String) : String := join "." path

/-- A name has no dot in it. -/
def IsName (name : String) : Prop := '.' ∉ name.toList

section Split

variable {sep : Char}

theorem splitBy_of_not_mem {cs : List Char} (h : sep ∉ cs) : splitBy (· == sep) cs = [cs] := by
  induction cs with
  | nil => rfl
  | cons c rest ih =>
      rw [List.mem_cons, not_or] at h
      rw [splitBy, ih h.2]
      simp only [beq_false_of_ne (Ne.symm h.1), Bool.false_eq_true, if_false]

/-- A split at a separator splits what stands before it and what stands after it. -/
theorem splitBy_append_sep (sep : Char) (before after : List Char) :
    splitBy (· == sep) (before ++ sep :: after) =
      splitBy (· == sep) before ++ splitBy (· == sep) after := by
  induction before with
  | nil => simp only [List.nil_append, splitBy, beq_self_eq_true, if_true, List.cons_append]
  | cons c rest ih =>
      rw [List.cons_append, splitBy, splitBy, ih]
      by_cases hc : (c == sep) = true
      · simp only [hc, if_true, List.cons_append]
      · obtain ⟨piece, pieces, hp⟩ := List.exists_cons_of_ne_nil (splitBy_ne_nil (· == sep) rest)
        simp only [hc, Bool.false_eq_true, if_false, hp, List.cons_append]

/-- Pieces without the separator are what their joined text splits into. -/
theorem splitBy_joinChars {pieces : List (List Char)} (hne : pieces ≠ [])
    (h : ∀ piece ∈ pieces, sep ∉ piece) :
    splitBy (· == sep) (joinChars [sep] pieces) = pieces := by
  have hpiece : ∀ piece ∈ pieces, splitBy (· == sep) piece = [piece] := by
    intro piece hm
    exact splitBy_of_not_mem (h piece hm)
  induction pieces with
  | nil => exact absurd rfl hne
  | cons piece rest ih =>
      cases rest with
      | nil => exact hpiece piece List.mem_cons_self
      | cons next more =>
          have hrest := ih (List.cons_ne_nil _ _) (fun x hx => h x (List.mem_cons_of_mem _ hx))
            fun x hx => hpiece x (List.mem_cons_of_mem _ hx)
          rw [joinChars, List.append_assoc, List.singleton_append,
            splitBy_append_sep, hrest,
            hpiece piece List.mem_cons_self, List.singleton_append]
          exact List.cons_ne_nil _ _

theorem head?_splitBy_eq_cutFirst (cs : List Char) :
    (splitBy (· == sep) cs).head? = some (cutFirst sep cs).1 := by
  induction cs with
  | nil => rfl
  | cons c rest ih =>
      rw [splitBy, cutFirst]
      by_cases hc : (c == sep) = true
      · simp only [hc, if_true, List.head?_cons]
      · obtain ⟨piece, pieces, hp⟩ := List.exists_cons_of_ne_nil (splitBy_ne_nil (· == sep) rest)
        rw [hp, List.head?_cons, Option.some.injEq] at ih
        simp only [hc, Bool.false_eq_true, if_false, hp, List.head?_cons, ih]

theorem cutLast?_eq_some {cs before after : List Char}
    (h : cutLast? sep cs = some (before, after)) : cs = before ++ sep :: after := by
  induction cs generalizing before after with
  | nil => cases h
  | cons c rest ih =>
      rw [cutLast?] at h
      cases hr : cutLast? sep rest with
      | some cut =>
          rw [hr] at h
          cases h
          rw [ih hr, List.cons_append]
      | none =>
          simp only [hr] at h
          by_cases hc : (c == sep) = true
          · simp only [hc, if_true, Option.some.injEq, Prod.mk.injEq] at h
            obtain ⟨rfl, rfl⟩ := h
            rw [beq_iff_eq.mp hc, List.nil_append]
          · simp only [hc, Bool.false_eq_true, if_false] at h
            cases h

theorem cutLast?_of_not_mem {cs : List Char} (h : sep ∉ cs) : cutLast? sep cs = none := by
  induction cs with
  | nil => rfl
  | cons c rest ih =>
      rw [List.mem_cons, not_or] at h
      rw [cutLast?, ih h.2]
      simp only [beq_false_of_ne (Ne.symm h.1), Bool.false_eq_true, if_false]

/-- The last separator is the one behind which there is no other. -/
theorem cutLast?_append_sep (before : List Char) {after : List Char} (h : sep ∉ after) :
    cutLast? sep (before ++ sep :: after) = some (before, after) := by
  induction before with
  | nil =>
      rw [List.nil_append, cutLast?, cutLast?_of_not_mem h]
      simp only [beq_self_eq_true, if_true]
  | cons c rest ih => rw [List.cons_append, cutLast?, ih]

theorem exists_append_of_occursIn {needle cs : List Char} (h : occursIn needle cs = true) :
    ∃ before after, cs = before ++ needle ++ after := by
  induction cs with
  | nil =>
      rw [occursIn, Bool.or_false, List.isPrefixOf_iff_prefix] at h
      exact ⟨[], [], by rw [List.prefix_nil.mp h]; rfl⟩
  | cons c rest ih =>
      rw [occursIn, Bool.or_eq_true, List.isPrefixOf_iff_prefix] at h
      rcases h with ⟨after, h⟩ | h
      · exact ⟨[], after, h.symm⟩
      · obtain ⟨before, after, h⟩ := ih h
        exact ⟨c :: before, after, by rw [h]; rfl⟩

/-- A text without a character does not contain a text that has it. -/
theorem contains_eq_false {s needle : String} {c : Char} (hneedle : c ∈ needle.toList)
    (h : c ∉ s.toList) : contains s needle = false := by
  rw [Bool.eq_false_iff]
  intro hcontains
  obtain ⟨before, after, hsplit⟩ := exists_append_of_occursIn hcontains
  apply h
  rw [hsplit]
  exact List.mem_append_left _ (List.mem_append_right _ hneedle)

theorem occursIn_append (before needle after : List Char) :
    occursIn needle (before ++ needle ++ after) = true := by
  induction before with
  | nil =>
      rw [occursIn.eq_def, List.nil_append,
        List.isPrefixOf_iff_prefix.mpr (List.prefix_append needle after), Bool.true_or]
  | cons c rest ih => rw [List.cons_append, List.cons_append, occursIn, ih, Bool.or_true]

theorem occursIn_singleton {c : Char} {cs : List Char} (h : c ∈ cs) :
    occursIn [c] cs = true := by
  obtain ⟨before, after, rfl⟩ := List.append_of_mem h
  rw [List.append_cons]
  exact occursIn_append before [c] after

end Split

section Join

variable {sep : Char} {between : String} (hsep : between.toList = [sep])

include hsep

/-- Pieces without the separator are what their joined text is split into. -/
theorem splitOn_join {pieces : List String} (hne : pieces ≠ [])
    (h : ∀ piece ∈ pieces, sep ∉ piece.toList) : splitOn sep (join between pieces) = pieces := by
  have hchars : ∀ piece ∈ pieces.map String.toList, sep ∉ piece := List.forall_mem_map.mpr h
  have hne' : pieces.map String.toList ≠ [] := fun h0 => hne (List.map_eq_nil_iff.mp h0)
  calc splitOn sep (join between pieces)
      = (splitBy (· == sep) (joinChars [sep] (pieces.map String.toList))).map String.ofList := by
        rw [splitOn, toList_join, hsep]
    _ = (pieces.map String.toList).map String.ofList := by rw [splitBy_joinChars hne' hchars]
    _ = pieces := by simp only [List.map_map, Function.comp_def, String.ofList_toList, List.map_id']

/-- Joining the pieces of a text gives the text. -/
theorem join_splitOn (s : String) : join between (splitOn sep s) = s := by
  apply String.toList_injective
  rw [toList_join, splitOn, List.map_map, hsep]
  simp only [Function.comp_def, String.toList_ofList, List.map_id']
  exact joinChars_splitBy sep s.toList

end Join

/-- Reading a written path gives its names. -/
theorem names_ofNames {path : List String} (hne : path ≠ []) (h : ∀ n ∈ path, IsName n) :
    names (ofNames path) = path :=
  splitOn_join rfl hne h

theorem names_ne_nil (path : String) : names path ≠ [] :=
  fun h => splitBy_ne_nil _ _ (List.map_eq_nil_iff.mp h)

theorem isName_of_mem_names {path name : String} (h : name ∈ names path) : IsName name := by
  obtain ⟨piece, hp, rfl⟩ := List.mem_map.mp h
  intro hdot
  rw [String.toList_ofList] at hdot
  have hsep := not_sep_of_mem_splitBy hp hdot
  rw [beq_self_eq_true] at hsep
  cases hsep

/-- Writing the names of a path gives the path. -/
theorem ofNames_names (path : String) : ofNames (names path) = path := join_splitOn rfl path

theorem names_injective : Function.Injective names := fun a b h => by
  rw [← ofNames_names a, ← ofNames_names b, h]

theorem ofNames_concat {path : List String} (hne : path ≠ []) (name : String) :
    ofNames (path ++ [name]) = ofNames path ++ "." ++ name := by
  induction path with
  | nil => exact absurd rfl hne
  | cons first rest ih =>
      cases rest with
      | nil => rfl
      | cons next more =>
          have hrest := ih (List.cons_ne_nil _ _)
          simp only [ofNames, List.cons_append, join] at hrest ⊢
          rw [hrest]
          simp only [String.append_assoc]

theorem ofNames_cons (name : String) {rest : List String} (hne : rest ≠ []) :
    ofNames (name :: rest) = name ++ ("." ++ ofNames rest) := by
  obtain ⟨first, more, rfl⟩ := List.exists_cons_of_ne_nil hne
  exact String.append_assoc

/-- The first two names of a path can be written as one. -/
theorem ofNames_cons_cons (first name : String) (rest : List String) :
    ofNames (first :: name :: rest) = ofNames ((first ++ "." ++ name) :: rest) := by
  cases rest with
  | nil => rfl
  | cons next more =>
      rw [ofNames_cons _ (List.cons_ne_nil _ _), ofNames_cons _ (List.cons_ne_nil _ _),
        ofNames_cons _ (List.cons_ne_nil _ _)]
      simp only [String.append_assoc]

/-- A character of a path is a dot or stands in one of its names. -/
theorem mem_toList_ofNames {path : List String} {c : Char} (h : c ∈ (ofNames path).toList) :
    c = '.' ∨ ∃ name ∈ path, c ∈ name.toList := by
  induction path using List.reverseRecOn with
  | nil => cases h
  | append_singleton init name ih =>
      by_cases hne : init = []
      · rw [hne] at h ⊢
        exact .inr ⟨name, List.mem_singleton.mpr rfl, h⟩
      · rw [ofNames_concat hne, String.toList_append, String.toList_append, List.mem_append,
          List.mem_append] at h
        rcases h with (h | h) | h
        · rcases ih h with hdot | ⟨other, hother, hc⟩
          · exact .inl hdot
          · exact .inr ⟨other, List.mem_append_left _ hother, hc⟩
        · exact .inl (List.mem_singleton.mp h)
        · exact .inr ⟨name, List.mem_append_right _ (List.mem_singleton.mpr rfl), h⟩

/-- The top-level field of a path is its first name. -/
theorem head?_names (path : String) : (names path).head? = some (Grouping.topField path) := by
  rw [names, splitOn, List.head?_map, head?_splitBy_eq_cutFirst]
  rfl

/-- A list of names, which a path can spell. -/
def IsAddress (path : List String) : Prop := ∀ name ∈ path, IsName name

theorem isAddress_nil : IsAddress [] := fun _ h => (List.not_mem_nil h).elim

theorem isAddress_singleton {name : String} (h : IsName name) : IsAddress [name] :=
  fun _ hn => List.mem_singleton.mp hn ▸ h

theorem IsAddress.append {a b : List String} (ha : IsAddress a) (hb : IsAddress b) :
    IsAddress (a ++ b) :=
  fun n hn => (List.mem_append.mp hn).elim (ha n) (hb n)

theorem isName_wildcard : IsName RuleGroup.wildcard := by
  unfold IsName
  decide

theorem ofNames_injOn {a b : List String} (ha : IsAddress a) (hb : IsAddress b) (hane : a ≠ [])
    (hbne : b ≠ []) (h : ofNames a = ofNames b) : a = b := by
  rw [← names_ofNames hane ha, ← names_ofNames hbne hb, h]

/-- A name that ends a path after a dot is one of its names. -/
theorem mem_names_of_cutLastDot {path base name : String} (hname : IsName name)
    (h : Marker.cutLastDot path = (base, name)) : name ∈ names path := by
  rw [Marker.cutLastDot] at h
  cases hcut : cutLast? '.' path.toList with
  | none =>
      simp only [hcut, Prod.mk.injEq] at h
      rw [← h.2] at hname ⊢
      rw [names, splitOn, splitBy_of_not_mem hname]
      simp only [List.map_cons, String.ofList_toList, List.map_nil, List.mem_singleton]
  | some cut =>
      simp only [hcut, Prod.mk.injEq] at h
      have hafter : cut.2 = name.toList := by rw [← h.2, String.toList_ofList]
      rw [names, splitOn, cutLast?_eq_some hcut, splitBy_append_sep, hafter,
        splitBy_of_not_mem hname]
      simp only [List.map_append, List.map_cons, String.ofList_toList, List.map_nil,
        List.mem_append, List.mem_singleton, or_true]

/-- A path without markers does not override the rules of a property. -/
theorem isOverride_eq_false {path : String} (h : Marker.isMarked path = false) :
    Marker.isOverride path = false := by
  rw [Bool.eq_false_iff]
  intro hover
  obtain ⟨before, after, hsplit⟩ := exists_append_of_occursIn hover
  have hdotted : Marker.dottedNested = '.' :: (Marker.nested.toList ++ ['.']) := by decide
  have hnested : '.' ∉ Marker.nested.toList := by decide
  have hpieces : [] :: splitBy (· == '.') path.toList =
      splitBy (· == '.') before ++ ([Marker.nested.toList] ++ splitBy (· == '.') after) := by
    calc [] :: splitBy (· == '.') path.toList = splitBy (· == '.') ('.' :: path.toList) := rfl
      _ = splitBy (· == '.') (before ++ '.' :: (Marker.nested.toList ++ '.' :: after)) := by
        rw [hsplit, hdotted]
        simp only [List.cons_append, List.append_assoc, List.nil_append]
      _ = _ := by
        rw [splitBy_append_sep, splitBy_append_sep,
          splitBy_of_not_mem hnested]
  -- the marker stands behind the pieces of `before`, so it is not the empty first piece
  have hmem : Marker.nested.toList ∈ splitBy (· == '.') path.toList := by
    obtain ⟨piece, pieces, hp⟩ := List.exists_cons_of_ne_nil (splitBy_ne_nil (· == '.') before)
    rw [hp, List.cons_append, List.cons.injEq] at hpieces
    rw [hpieces.2]
    exact List.mem_append_right _ (List.mem_append_left _ (List.mem_singleton.mpr rfl))
  have hmarked : Marker.isMarked path = true := by
    rw [Marker.isMarked, List.any_eq_true]
    exact ⟨Marker.nested, List.mem_map.mpr ⟨_, hmem, String.ofList_toList⟩, by decide⟩
  rw [h] at hmarked
  cases hmarked

/-- A path without markers does not end in one. -/
theorem cutLastDot_ne {path : String} (h : Marker.isMarked path = false) {marker : String}
    (hmarker : marker ∈ Marker.all) : (Marker.cutLastDot path).2 ≠ marker := by
  intro heq
  have hname : IsName marker := by
    have hall : ∀ marker ∈ Marker.all, '.' ∉ marker.toList := by decide
    exact hall marker hmarker
  have hmem := mem_names_of_cutLastDot hname (Prod.ext rfl heq)
  have hmarked : Marker.isMarked path = true := by
    rw [Marker.isMarked, List.any_eq_true]
    exact ⟨marker, hmem, List.contains_iff_mem.mpr hmarker⟩
  rw [h] at hmarked
  cases hmarked

/-- An entry that is not marked leaves the groups as they are. -/
theorem applyMarker_of_not_isMarked {path : String} (h : Marker.isMarked path = false)
    (g : RuleGroup) (value : RuleValue) : Grouping.applyMarker g path value = .ok g := by
  have hbase := cutLastDot_ne h (show Marker.baseRules ∈ Marker.all by decide)
  have hclass := cutLastDot_ne h (show Marker.className ∈ Marker.all by decide)
  simp only [Grouping.applyMarker, beq_false_of_ne hbase, beq_false_of_ne hclass, Bool.or_self,
    Bool.false_and, Bool.false_eq_true, if_false, isOverride_eq_false h]

end RuleSchema.DottedPath
