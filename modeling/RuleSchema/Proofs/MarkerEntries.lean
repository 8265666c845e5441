import RuleSchema.Proofs.DottedPaths
import RuleSchema.Proofs.RuleNames

/-!
# Marker entries

How the key of a rule map is read as a marker entry, by the names of its path. A key that ends in
the marker for base rules or for a class speaks of the object before it. Otherwise the first marker
for nested rules that stands behind a name and before another divides the key into an object and a
property. Where that marker only opens the key, there is no object to speak of, and grouping fails.
-/

namespace RuleSchema

namespace Marker

open DottedPath

/-- What a key says as a marker entry. -/
inductive Reading where
  /-- Its value are the rules or the class of the object at a path. -/
  | object (path : List String) (marker : String)
  /-- Its value are the rules of a property of the object at a path. -/
  | property (path : List String) (name : String)
  /-- It names a property, but no object that has it. -/
  | headless
  /-- Its value is not recorded. -/
  | nothing
deriving DecidableEq, Repr

/-- What stands before and after the first marker for nested rules that is not the last name. -/
def cutNested : List String → Option (List String × List String)
  | [] => none
  | name :: rest =>
    if name = nested ∧ rest ≠ [] then some ([], rest)
    else (cutNested rest).map fun cut => (name :: cut.1, cut.2)

/-- The names of a key read as a property of an object. -/
def readNested : List String → Reading
  | [] => .nothing
  | first :: rest =>
    match cutNested rest with
    | some (before, after) => .property (first :: before) (ofNames after)
    | none => if first = nested ∧ rest ≠ [] then .headless else .nothing

/-- The names of a key read as a marker entry. -/
def read (path : List String) : Reading :=
  let marker := path.getLastD ""
  if (marker = baseRules ∨ marker = className) ∧ ofNames path.dropLast ≠ "" then
    .object path.dropLast marker
  else readNested path

/-- A group with its own rules or its class recorded. -/
def describe (marker : String) (value : RuleValue) (g : RuleGroup) : RuleGroup :=
  if marker == className then g.setObject.setClass value.display
  else if g.rules.isAbsent then g.setObject.setRules value
  else g.setObject

/-- A group with the rules of a property recorded. -/
def override (name : String) (value : RuleValue) (g : RuleGroup) : RuleGroup :=
  g.setObject.update name (RuleGroup.setRules value)

section Cuts

/-- A cut is made at the first marker for nested rules that other names follow. -/
theorem cutNested_eq_some_iff {path before after : List String} :
    cutNested path = some (before, after) ↔
      path = before ++ nested :: after ∧ after ≠ [] ∧ nested ∉ before := by
  induction path generalizing before with
  | nil => simp [cutNested]
  | cons name rest ih =>
      rw [cutNested]
      by_cases hcut : name = nested ∧ rest ≠ []
      · rw [if_pos hcut, Option.some.injEq, Prod.mk.injEq]
        constructor
        · rintro ⟨rfl, rfl⟩
          exact ⟨by rw [hcut.1, List.nil_append], hcut.2, List.not_mem_nil⟩
        · rintro ⟨hsplit, -, hbefore⟩
          cases before with
          | nil => exact ⟨rfl, (List.cons.inj hsplit).2⟩
          | cons first more =>
              rw [List.cons_append, List.cons.injEq, hcut.1] at hsplit
              exact absurd (hsplit.1 ▸ List.mem_cons_self) hbefore
      · rw [if_neg hcut, Option.map_eq_some_iff]
        constructor
        · rintro ⟨⟨more, last⟩, hrest, heq⟩
          cases heq
          obtain ⟨rfl, hafter, hmore⟩ := ih.mp hrest
          have hname : name ≠ nested := fun hname => hcut ⟨hname, by simp⟩
          refine ⟨rfl, hafter, ?_⟩
          rw [List.mem_cons, not_or]
          exact ⟨hname.symm, hmore⟩
        · rintro ⟨hsplit, hafter, hbefore⟩
          cases before with
          | nil =>
              rw [List.nil_append, List.cons.injEq] at hsplit
              exact absurd ⟨hsplit.1, hsplit.2 ▸ hafter⟩ hcut
          | cons first more =>
              rw [List.cons_append, List.cons.injEq] at hsplit
              rw [List.mem_cons, not_or] at hbefore
              exact ⟨(more, after), ih.mpr ⟨hsplit.2, hafter, hbefore.2⟩, by rw [hsplit.1]⟩

/-- Names with a dot before each of them. -/
def dotted (path : List String) : List Char := path.flatMap fun name => '.' :: name.toList

theorem dotted_cons (name : String) (rest : List String) :
    dotted (name :: rest) = '.' :: (name.toList ++ dotted rest) := by
  rw [dotted, List.flatMap_cons]
  rfl

theorem toList_ofNames_cons (name : String) (rest : List String) :
    (ofNames (name :: rest)).toList = name.toList ++ dotted rest := by
  induction rest generalizing name with
  | nil => exact (List.append_nil _).symm
  | cons next more ih =>
      have hjoin : ofNames (name :: next :: more) = name ++ "." ++ ofNames (next :: more) := rfl
      rw [hjoin, String.toList_append, String.toList_append, ih, dotted_cons, List.append_assoc]
      rfl

theorem dotted_eq {path : List String} (hne : path ≠ []) :
    dotted path = '.' :: (ofNames path).toList := by
  obtain ⟨name, rest, rfl⟩ := List.exists_cons_of_ne_nil hne
  rw [dotted_cons, toList_ofNames_cons]

theorem dottedNested_eq : dottedNested = '.' :: (nested.toList ++ ['.']) := by decide

theorem dot_not_mem_nested : '.' ∉ nested.toList := by decide

/-- Characters without a dot are only passed by a search for the dotted marker. -/
theorem cutOn?_append_of_not_mem {cs : List Char} (h : '.' ∉ cs) (rest : List Char) :
    Text.cutOn? dottedNested (cs ++ rest) =
      (Text.cutOn? dottedNested rest).map fun cut => (cs ++ cut.1, cut.2) := by
  induction cs with
  | nil => exact Option.map_id'.symm
  | cons c more ih =>
      rw [List.mem_cons, not_or] at h
      have hprefix : dottedNested.isPrefixOf (c :: (more ++ rest)) = false := by
        rw [dottedNested_eq, List.isPrefixOf, beq_false_of_ne h.1, Bool.false_and]
      rw [List.cons_append, Text.cutOn?, hprefix, if_neg Bool.false_ne_true, ih h.2, Option.map_map]
      rfl

/-- The dotted marker opens dotted names if the first name is the marker and others follow it. -/
theorem dottedNested_prefix_iff {name : String} (hname : IsName name) (rest : List String) :
    dottedNested <+: dotted (name :: rest) ↔ name = nested ∧ rest ≠ [] := by
  rw [dottedNested_eq, dotted_cons, List.cons_prefix_cons]
  constructor
  · rintro ⟨-, more, hmore⟩
    rw [List.append_assoc, List.singleton_append] at hmore
    cases rest with
    | nil =>
        have hdot : '.' ∈ name.toList ++ dotted [] := by
          rw [← hmore]
          exact List.mem_append_right _ List.mem_cons_self
        rw [dotted, List.flatMap_nil, List.append_nil] at hdot
        exact absurd hdot hname
    | cons next others =>
        have hsplit := congrArg (Text.splitBy (· == '.')) hmore
        rw [dotted_cons, splitBy_append_sep, splitBy_append_sep,
          splitBy_of_not_mem dot_not_mem_nested, splitBy_of_not_mem hname, List.singleton_append,
          List.singleton_append, List.cons.injEq] at hsplit
        exact ⟨String.toList_injective hsplit.1.symm, List.cons_ne_nil _ _⟩
  · rintro ⟨rfl, hne⟩
    refine ⟨rfl, (ofNames rest).toList, ?_⟩
    rw [dotted_eq hne, List.append_assoc, List.singleton_append]

/-- Searching dotted names for the dotted marker is searching for the marker among the names. -/
theorem cutOn?_dotted {path : List String} (h : IsAddress path) :
    Text.cutOn? dottedNested (dotted path) =
      (cutNested path).map fun cut => (dotted cut.1, (ofNames cut.2).toList) := by
  induction path with
  | nil => decide
  | cons name rest ih =>
      have hname : IsName name := h name List.mem_cons_self
      have hrest := ih fun n hn => h n (List.mem_cons_of_mem _ hn)
      rw [cutNested]
      by_cases hcut : name = nested ∧ rest ≠ []
      · have hprefix : dottedNested <+: dotted (name :: rest) :=
          (dottedNested_prefix_iff hname rest).mpr hcut
        have hdrop : (dotted (name :: rest)).drop dottedNested.length = (ofNames rest).toList := by
          have hsplit : dotted (name :: rest) = dottedNested ++ (ofNames rest).toList := by
            rw [dotted_cons, hcut.1, dotted_eq hcut.2, dottedNested_eq, List.cons_append,
              List.append_assoc, List.singleton_append]
          rw [hsplit, List.drop_left]
        rw [if_pos hcut, Text.cutOn?.eq_def, List.isPrefixOf_iff_prefix.mpr hprefix, if_pos rfl,
          hdrop]
        rfl
      · have hprefix : dottedNested.isPrefixOf ('.' :: (name.toList ++ dotted rest)) = false := by
          rw [Bool.eq_false_iff, Ne, List.isPrefixOf_iff_prefix, ← dotted_cons,
            dottedNested_prefix_iff hname]
          exact hcut
        rw [if_neg hcut, dotted_cons, Text.cutOn?, hprefix, if_neg Bool.false_ne_true,
          cutOn?_append_of_not_mem hname, hrest, Option.map_map, Option.map_map, Option.map_map]
        simp only [Function.comp_def, dotted_cons]

theorem isOverride_iff (key : String) :
    isOverride key = true ↔ (cutNested (names key)).isSome = true := by
  have hdotted : '.' :: key.toList = dotted (names key) := by
    rw [dotted_eq (names_ne_nil key), ofNames_names]
  rw [isOverride, hdotted, ← Text.cutOn?_isSome,
    cutOn?_dotted fun n hn => isName_of_mem_names hn, Option.isSome_map]

/-- An override names what stands before and after the first marker behind its first name. -/
theorem override?_eq {key first : String} {rest : List String} (hkey : names key = first :: rest) :
    override? key =
      (cutNested rest).map fun cut => (ofNames (first :: cut.1), ofNames cut.2) := by
  have haddress : IsAddress (first :: rest) := fun n hn => isName_of_mem_names (hkey ▸ hn)
  have hchars : key.toList = first.toList ++ dotted rest := by
    rw [← ofNames_names key, hkey, toList_ofNames_cons]
  rw [override?, hchars, cutOn?_append_of_not_mem (haddress first List.mem_cons_self),
    cutOn?_dotted fun n hn => haddress n (List.mem_cons_of_mem _ hn), Option.map_map,
    Option.map_map]
  congr 1
  funext cut
  simp only [Function.comp_apply, String.ofList_toList, ← toList_ofNames_cons]

theorem cutLastDot_concat (base : List String) {marker : String} (h : IsName marker) :
    cutLastDot (ofNames (base ++ [marker])) = (ofNames base, marker) := by
  by_cases hbase : base = []
  · subst hbase
    have hcut : Text.cutLast? '.' (ofNames [marker]).toList = none := cutLast?_of_not_mem h
    rw [List.nil_append, cutLastDot, hcut]
    rfl
  · have hchars : (ofNames (base ++ [marker])).toList =
        (ofNames base).toList ++ '.' :: marker.toList := by
      rw [ofNames_concat hbase, String.toList_append, String.toList_append, List.append_assoc]
      rfl
    rw [cutLastDot, hchars, cutLast?_append_sep _ h]
    simp only [String.ofList_toList]

/-- The last dot stands before the last name. -/
theorem cutLastDot_eq (key : String) :
    cutLastDot key = (ofNames (names key).dropLast, (names key).getLastD "") := by
  have hne := names_ne_nil key
  have hlast : IsName ((names key).getLast hne) := isName_of_mem_names (List.getLast_mem hne)
  have hcut := cutLastDot_concat (names key).dropLast hlast
  rw [List.dropLast_concat_getLast, ofNames_names] at hcut
  rw [hcut, List.getLastD_eq_getLast?, List.getLast?_eq_some_getLast hne, Option.getD_some]

end Cuts

section Read

variable {key : String}

/-- A key is cut where its reading divides it: an object ends before the last name, a property
stands behind a marker for nested rules, and no object stands before one that opens the key. -/
theorem read_cases (key : List String) :
    (∃ path marker, read key = .object path marker ∧ key = path ++ [marker] ∧ marker ∈ all) ∨
    (∃ path after, read key = .property path (ofNames after) ∧ key = path ++ nested :: after ∧
      after ≠ []) ∨
    (∃ after, read key = .headless ∧ key = nested :: after ∧ after ≠ []) ∨
    read key = .nothing := by
  rw [read]
  split
  · rename_i hmarker
    have hall : key.getLastD "" ∈ all := by
      rcases hmarker.1 with hbase | hclass
      · rw [hbase]
        decide
      · rw [hclass]
        decide
    have hne : key ≠ [] := by
      rintro rfl
      exact absurd hall (by decide)
    refine .inl ⟨_, _, rfl, ?_, hall⟩
    rw [List.getLastD_eq_getLast?, List.getLast?_eq_some_getLast hne, Option.getD_some,
      List.dropLast_concat_getLast]
  · cases key with
    | nil => exact .inr (.inr (.inr rfl))
    | cons first rest =>
        rw [readNested]
        split
        · rename_i before after hcut
          obtain ⟨hsplit, hafter, -⟩ := cutNested_eq_some_iff.mp hcut
          exact .inr (.inl ⟨_, after, rfl, by rw [hsplit, List.cons_append], hafter⟩)
        · split
          · rename_i hopen
            exact .inr (.inr (.inl ⟨rest, rfl, by rw [hopen.1], hopen.2⟩))
          · exact .inr (.inr (.inr rfl))

theorem ensureAt_ofNames {path : List String} (h : IsAddress path) (hne : path ≠ [])
    (f : RuleGroup → RuleGroup) :
    Grouping.ensureAt (ofNames path) f = Grouping.ensure f path := by
  funext g
  change Grouping.ensure f (names (ofNames path)) g = _
  rw [names_ofNames hne h]

/-- An entry is applied as its key is read. -/
theorem applyMarker_eq (g : RuleGroup) (key : String) (value : RuleValue) :
    Grouping.applyMarker g key value =
      match read (names key) with
      | .object path marker => .ok (Grouping.ensure (describe marker value) path g)
      | .property path name => .ok (Grouping.ensure (override name value) path g)
      | .headless => .error (.invalidValue none)
      | .nothing => .ok g := by
  have haddress : IsAddress (names key) := fun n hn => isName_of_mem_names hn
  rw [Grouping.applyMarker, cutLastDot_eq]
  dsimp only
  generalize hmarker : (names key).getLastD "" = marker
  by_cases hobject : (marker = baseRules ∨ marker = className) ∧ ofNames (names key).dropLast ≠ ""
  · have hread : read (names key) = .object (names key).dropLast marker := by
      rw [read, hmarker, if_pos hobject]
    have hne : (names key).dropLast ≠ [] := fun hnil => hobject.2 (by rw [hnil]; rfl)
    have hbase : IsAddress (names key).dropLast := fun n hn =>
      haddress n (List.dropLast_subset _ hn)
    have hcond : ((marker == baseRules || marker == className) &&
        !Text.isEmpty (ofNames (names key).dropLast)) = true := by
      rw [Text.isEmpty_eq_false hobject.2]
      simpa using hobject.1
    rw [hread, if_pos hcond, ensureAt_ofNames hbase hne]
    rfl
  · have hread : read (names key) = readNested (names key) := by
      rw [read, hmarker, if_neg hobject]
    have hcond : ((marker == baseRules || marker == className) &&
        !Text.isEmpty (ofNames (names key).dropLast)) = false := by
      rw [Bool.eq_false_iff]
      intro hboth
      rw [Bool.and_eq_true, Bool.or_eq_true, beq_iff_eq, beq_iff_eq, Bool.not_eq_true'] at hboth
      refine hobject ⟨hboth.1, fun hempty => ?_⟩
      rw [hempty] at hboth
      cases hboth.2
    obtain ⟨first, rest, hkey⟩ := List.exists_cons_of_ne_nil (names_ne_nil key)
    rw [hread, hcond, if_neg Bool.false_ne_true, override?_eq hkey, hkey, readNested]
    cases hcut : cutNested rest with
    | some cut =>
        obtain ⟨hrest, -⟩ := cutNested_eq_some_iff.mp hcut
        have hover : isOverride key = true := by
          rw [isOverride_iff, hkey, cutNested]
          split
          · rfl
          · rw [hcut]
            rfl
        have hbefore : IsAddress (first :: cut.1) := by
          intro n hn
          apply haddress n
          rw [hkey, hrest, ← List.cons_append]
          exact List.mem_append_left _ hn
        rw [if_pos hover, Option.map_some]
        dsimp only
        rw [ensureAt_ofNames hbefore (List.cons_ne_nil _ _)]
        rfl
    | none =>
        have hover : isOverride key = decide (first = nested ∧ rest ≠ []) := by
          rw [Bool.eq_iff_iff, isOverride_iff, hkey, cutNested, decide_eq_true_eq]
          split
          · rename_i hfirst
            exact iff_of_true rfl hfirst
          · rename_i hfirst
            rw [hcut]
            exact iff_of_false Bool.false_ne_true hfirst
        rw [hover]
        by_cases hfirst : first = nested ∧ rest ≠ []
        · rw [decide_eq_true hfirst]
          simp only [if_pos hfirst, if_true, Option.map_none]
        · rw [decide_eq_false hfirst]
          simp only [if_neg hfirst, Bool.false_eq_true, if_false]

end Read

end Marker

end RuleSchema
