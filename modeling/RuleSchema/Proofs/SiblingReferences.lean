import RuleSchema.Proofs.CopiedSubtrees
import RuleSchema.Proofs.DottedLookups
import RuleSchema.Proofs.PlacedRefinements
import RuleSchema.Proofs.SegmentGaps

/-!
# References to siblings

A rule on a field inside the items of an array names a sibling by its bare name or by its path from
the root. Both are turned into a path from the root first, and both turn into the same one. What is
left of it behind the scope is what the refinement of the item reads. A reference is made relative
exactly where the path starts with the scope and goes on with a path that has no star in it.
-/

namespace RuleSchema.Refinement

open DottedPath RuleGroup

/-- The path from the root that a text stands for in a rule on the field at a path. -/
def absolutePath (path text : String) : String :=
  besideField (Messages.siblingPath (Text.trim text) path) path

/-- A name on a path: with characters, without a dot and without blanks at its ends. -/
structure IsPathName (name : String) : Prop where
  filled : name ≠ ""
  isName : IsName name
  trimmed : Text.trim name = name

/-- A name of a property: a name on a path without a star. -/
structure IsPropertyName (name : String) : Prop extends IsPathName name where
  unstarred : '*' ∉ name.toList

instance (name : String) : Decidable (IsPathName name) :=
  decidable_of_iff (name ≠ "" ∧ '.' ∉ name.toList ∧ Text.trim name = name)
    ⟨fun h => ⟨h.1, h.2.1, h.2.2⟩, fun h => ⟨h.filled, h.isName, h.trimmed⟩⟩

instance (name : String) : Decidable (IsPropertyName name) :=
  decidable_of_iff (IsPathName name ∧ '*' ∉ name.toList)
    ⟨fun h => ⟨h.1, h.2⟩, fun h => ⟨h.toIsPathName, h.unstarred⟩⟩

theorem isPathName_wildcard : IsPathName wildcard := by decide

section References

variable {path : List String} {scope field text r : String}

theorem contains_star_iff {s : String} : Text.contains s "*" = true ↔ '*' ∈ s.toList := by
  refine ⟨fun h => ?_, fun h => occursIn_singleton h⟩
  by_contra hnot
  rw [contains_eq_false List.mem_cons_self hnot] at h
  cases h

/-- What a path goes on with behind a scope. -/
def behind? (scope path : String) : Option String :=
  if Text.isEmpty scope then some path
  else if Text.startsWith path scope then some (Text.drop scope.length path) else none

theorem behind?_eq_some_iff {whole : String} : behind? scope whole = some r ↔ scope ++ r = whole := by
  rw [behind?]
  by_cases hempty : scope = ""
  · subst hempty
    rw [if_pos (by rfl), String.empty_append, Option.some.injEq, eq_comm]
  · rw [Text.isEmpty_eq_false hempty, if_neg Bool.false_ne_true]
    by_cases hstart : Text.startsWith whole scope = true
    · obtain ⟨rest, rfl⟩ := Text.startsWith_iff.mp hstart
      rw [if_pos hstart, Text.drop_append, Option.some.injEq, String.append_right_inj, eq_comm]
    · rw [if_neg hstart]
      exact iff_of_false (by simp) fun h => hstart (Text.startsWith_iff.mpr ⟨r, h.symm⟩)

/-- A reference stands for what follows the scope, if that has characters and no star. -/
theorem reference?_eq_some_iff :
    reference? scope field text = some r ↔
      scope ++ r = absolutePath field text ∧ r ≠ "" ∧ '*' ∉ r.toList := by
  have hdef : reference? scope field text =
      (behind? scope (absolutePath field text)).bind fun rest =>
        if Text.isEmpty (absolutePath field text) || Text.isEmpty rest || Text.contains rest "*"
          then none else some rest := by
    unfold reference?
    dsimp only
    cases hrest : behind? scope (absolutePath field text) with
    | none =>
        rw [behind?, absolutePath] at hrest
        rw [hrest, Option.bind_none]
    | some rest =>
        rw [behind?, absolutePath] at hrest
        rw [hrest, Option.bind_some, absolutePath]
  rw [hdef]
  cases hrest : behind? scope (absolutePath field text) with
  | none =>
      refine iff_of_false (by simp) fun h => ?_
      rw [behind?_eq_some_iff.mpr h.1] at hrest
      cases hrest
  | some rest =>
      have hwhole := behind?_eq_some_iff.mp hrest
      rw [Option.bind_some, ← hwhole, String.append_right_inj, Option.ite_none_left_eq_some, Option.some.injEq,
        and_comm, eq_comm]
      refine and_congr_right fun hr => ?_
      subst hr
      rw [Bool.or_eq_true, Bool.or_eq_true, not_or, not_or, Bool.not_eq_true, Bool.not_eq_true,
        Text.isEmpty_eq_false_iff, Text.isEmpty_eq_false_iff, contains_star_iff]
      refine ⟨fun h => ⟨h.1.2, h.2⟩, fun h => ⟨⟨fun hwhole => h.1 ?_, h.1⟩, h.2⟩⟩
      exact (String.append_eq_empty_iff.mp hwhole).2

/-- The names of a path that are all filled are its names. -/
theorem pathNames_ofNames (hne : path ≠ []) (h : ∀ n ∈ path, IsPathName n) :
    filledNames (ofNames path) = path := by
  have hnames : Text.splitOn '.' (ofNames path) = path :=
    names_ofNames hne fun n hn => (h n hn).isName
  rw [filledNames, hnames, List.filter_eq_self]
  intro n hn
  rw [Text.isEmpty_eq_false (h n hn).filled]
  rfl

theorem IsPathName.isTrimmed {name : String} (h : IsPathName name) :
    Text.IsTrimmed name.toList := by
  rw [Text.isTrimmed_iff, ← String.toList_ofList (l := Text.trimChars _)]
  exact congrArg String.toList h.trimmed

/-- A path of names without blanks at their ends has none at its ends. -/
theorem isTrimmed_ofNames (hne : path ≠ []) (h : ∀ n ∈ path, IsPathName n) :
    (ofNames path).toList ≠ [] ∧ Text.IsTrimmed (ofNames path).toList := by
  induction path using List.reverseRecOn with
  | nil => exact absurd rfl hne
  | append_singleton init name ih =>
      have hname := h name (by simp)
      have hfilled : name.toList ≠ [] := mt String.toList_eq_nil_iff.mp hname.filled
      by_cases hinit : init = []
      · subst hinit
        exact ⟨hfilled, hname.isTrimmed⟩
      · obtain ⟨hfirst, htrim⟩ := ih hinit fun n hn => h n (List.mem_append_left _ hn)
        rw [ofNames_concat hinit, String.toList_append, String.toList_append]
        refine ⟨by simp, fun c hc => htrim.first c ?_, fun c hc =>
          hname.isTrimmed.last c ?_⟩
        · rwa [List.append_assoc, List.head?_append_of_ne_nil _ hfirst] at hc
        · rwa [List.getLast?_append_of_ne_nil _ hfilled] at hc

theorem trim_ofNames (hne : path ≠ []) (h : ∀ n ∈ path, IsPathName n) :
    Text.trim (ofNames path) = ofNames path := by
  rw [Text.trim, Text.isTrimmed_iff.mp (isTrimmed_ofNames hne h).2, String.ofList_toList]

/-- A sibling named by its bare name is found below the parent of a field inside an array. -/
theorem siblingPath_bare {above : List String} {name other : String} (habove : wildcard ∈ above)
    (h : ∀ n ∈ above, IsPathName n) (hname : IsPathName name) (hother : IsName other) :
    Messages.siblingPath other (ofNames (above ++ [name])) = ofNames (above ++ [other]) := by
  have hne : above ≠ [] := List.ne_nil_of_mem habove
  have hnames : Text.splitOn '.' (ofNames (above ++ [name])) = above ++ [name] := by
    refine names_ofNames (by simp) fun n hn => ?_
    obtain hn | hn := List.mem_append.mp hn
    · exact (h n hn).isName
    · exact List.mem_singleton.mp hn ▸ hname.isName
  have hcut : Text.cutLast? '.' (ofNames (above ++ [name])).toList =
      some ((ofNames above).toList, name.toList) := by
    rw [ofNames_concat hne, String.toList_append, String.toList_append, List.append_assoc]
    exact cutLast?_append_sep _ hname.isName
  have hstar : (above ++ [name]).contains "*" = true :=
    List.contains_iff_mem.mpr (List.mem_append_left _ habove)
  rw [Messages.siblingPath, hnames, hstar, contains_eq_false List.mem_cons_self hother, hcut,
    ofNames_concat hne other]
  simp

/-- A path with a dot in it is taken as it stands. -/
theorem siblingPath_dotted (hdot : '.' ∈ text.toList) (field : String) :
    Messages.siblingPath text field = text := by
  have hcontains : Text.contains text "." = true := occursIn_singleton hdot
  rw [Messages.siblingPath, hcontains, Bool.or_true, if_pos rfl]

/-- A path that is not longer than that of the field is not one below it. -/
theorem besideField_of_length_le (htrim : Text.trim text = text)
    (hlength : (filledNames text).length ≤ (filledNames field).length) :
    besideField text field = text := by
  by_cases hempty : text = ""
  · subst hempty
    rfl
  · rw [besideField, htrim]
    simp [Text.isEmpty_eq_false hempty, hlength]

theorem forall_mem_concat {above : List String} {last : String} (h : ∀ n ∈ above, IsPathName n)
    (hlast : IsPathName last) : ∀ n ∈ above ++ [last], IsPathName n := by
  intro n hn
  obtain hn | hn := List.mem_append.mp hn
  · exact h n hn
  · exact List.mem_singleton.mp hn ▸ hlast

section Siblings

variable {above : List String} {name other : String}

/-- The path of a sibling is as long as that of the field, so it is not moved. -/
theorem besideField_sibling (h : ∀ n ∈ above, IsPathName n) (hname : IsPathName name)
    (hother : IsPathName other) :
    besideField (ofNames (above ++ [other])) (ofNames (above ++ [name])) =
      ofNames (above ++ [other]) := by
  have hall := forall_mem_concat h hother
  refine besideField_of_length_le (trim_ofNames (by simp) hall) ?_
  rw [pathNames_ofNames (by simp) hall,
    pathNames_ofNames (by simp) (forall_mem_concat h hname)]
  simp

/-- The path of a sibling from the root stands for itself. -/
theorem absolutePath_sibling (hne : above ≠ []) (h : ∀ n ∈ above, IsPathName n)
    (hname : IsPathName name) (hother : IsPathName other) :
    absolutePath (ofNames (above ++ [name])) (ofNames (above ++ [other])) =
      ofNames (above ++ [other]) := by
  have hdot : '.' ∈ (ofNames (above ++ [other])).toList := by
    rw [ofNames_concat hne, String.toList_append, String.toList_append]
    exact List.mem_append_left _ (List.mem_append_right _ List.mem_cons_self)
  rw [absolutePath, trim_ofNames (by simp) (forall_mem_concat h hother), siblingPath_dotted hdot,
    besideField_sibling h hname hother]

/-- The bare name of a sibling inside an array stands for the path of the sibling. -/
theorem absolutePath_bare (hstar : wildcard ∈ above) (h : ∀ n ∈ above, IsPathName n)
    (hname : IsPathName name) (hother : IsPathName other) :
    absolutePath (ofNames (above ++ [name])) other = ofNames (above ++ [other]) := by
  rw [absolutePath, hother.trimmed, siblingPath_bare hstar h hname hother.isName,
    besideField_sibling h hname hother]

/-- The path of a field inside the items of an array has the scope of the item at its start. -/
theorem scopeOf_append {object names : List String} (hobject : object ≠ []) (hnames : names ≠ []) :
    scopeOf object ++ ofNames names = ofNames (object ++ names) := by
  rw [scopeOf, List.isEmpty_eq_false_iff.mpr hobject, if_neg Bool.false_ne_true,
    MessageMap.ofNames_append hobject hnames]

end Siblings

/-- A field inside the items of an array refers to a sibling by its bare name and by its path from
the root, and both give the path that the sibling has in the item. A reference is what its path from
the root has behind the scope, if that has characters and no star; the names that are read from the
item are the ones that the path from the root has behind those of the scope. -/
theorem sibling_references {above names : List String} {field other : String}
    (habove : ∀ n ∈ above, IsPathName n) (hnames : ∀ n ∈ names, IsPropertyName n)
    (hfield : IsPropertyName field) (hother : IsPropertyName other) :
    reference? (scopeOf (above ++ [wildcard]))
        (ofNames (above ++ [wildcard] ++ names ++ [field])) other =
      some (ofNames (names ++ [other])) ∧
    reference? (scopeOf (above ++ [wildcard]))
        (ofNames (above ++ [wildcard] ++ names ++ [field]))
        (ofNames (above ++ [wildcard] ++ names ++ [other])) =
      some (ofNames (names ++ [other])) ∧
    (∀ scope path text r, reference? scope path text = some r ↔
      scope ++ r = absolutePath path text ∧ r ≠ "" ∧ '*' ∉ r.toList) ∧
    ∀ base path text r, reference? (base ++ ".") path text = some r →
      filledNames (absolutePath path text) = filledNames base ++ filledNames r := by
  have hobject : ∀ n ∈ above ++ [wildcard] ++ names, IsPathName n := by
    intro n hn
    obtain hn | hn := List.mem_append.mp hn
    · exact forall_mem_concat habove isPathName_wildcard n hn
    · exact (hnames n hn).toIsPathName
  have hstar : wildcard ∈ above ++ [wildcard] ++ names := by simp
  -- what both stand for has the sibling behind the scope
  have hfound : scopeOf (above ++ [wildcard]) ++ ofNames (names ++ [other]) =
      ofNames (above ++ [wildcard] ++ names ++ [other]) := by
    rw [scopeOf_append (by simp) (by simp), ← List.append_assoc]
  have hfilled : ofNames (names ++ [other]) ≠ "" := by
    refine mt String.toList_eq_nil_iff.mpr (isTrimmed_ofNames (by simp) ?_).1
    exact forall_mem_concat (fun n hn => (hnames n hn).toIsPathName) hother.toIsPathName
  have hunstarred : '*' ∉ (ofNames (names ++ [other])).toList := by
    intro hmem
    obtain hdot | ⟨name, hname, hc⟩ := mem_toList_ofNames hmem
    · exact absurd hdot (by decide)
    · obtain hname | hname := List.mem_append.mp hname
      · exact (hnames name hname).unstarred hc
      · exact hother.unstarred (List.mem_singleton.mp hname ▸ hc)
  refine ⟨reference?_eq_some_iff.mpr ⟨?_, hfilled, hunstarred⟩,
    reference?_eq_some_iff.mpr ⟨?_, hfilled, hunstarred⟩, fun _ _ _ _ => reference?_eq_some_iff,
    fun base path text r h => ?_⟩
  · rw [hfound, absolutePath_bare hstar hobject hfield.toIsPathName hother.toIsPathName]
  · rw [hfound, absolutePath_sibling (List.ne_nil_of_mem hstar) hobject hfield.toIsPathName
      hother.toIsPathName]
  · have hnames : Text.splitOn '.' (base ++ "." ++ r) =
        Text.splitOn '.' base ++ Text.splitOn '.' r := MessageMap.names_append_dot base r
    rw [← (reference?_eq_some_iff.mp h).1, filledNames, hnames, List.filter_append]
    rfl

end References

/-- A street is found beside a city in an object of an item of a nested array. -/
theorem street_beside_city :
    (∀ n ∈ ["orders", "*", "lines"], IsPathName n) ∧ (∀ n ∈ ["address"], IsPropertyName n) ∧
      IsPropertyName "city" ∧ IsPropertyName "street" ∧
      reference? "orders.*.lines.*." "orders.*.lines.*.address.city" "street" =
        some "address.street" ∧
      reference? "orders.*.lines.*." "orders.*.lines.*.address.city"
        "orders.*.lines.*.address.street" = some "address.street" := by
  have habove : ∀ n ∈ ["orders", "*", "lines"], IsPathName n := by decide
  have hnames : ∀ n ∈ ["address"], IsPropertyName n := by decide
  have hfield : IsPropertyName "city" := by decide
  have hother : IsPropertyName "street" := by decide
  obtain ⟨hbare, hpath, -⟩ := sibling_references habove hnames hfield hother
  exact ⟨habove, hnames, hfield, hother, hbare, hpath⟩

end RuleSchema.Refinement
