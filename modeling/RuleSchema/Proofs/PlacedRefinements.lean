import Mathlib.Data.List.DropRight
import Mathlib.Data.List.Forall2
import RuleSchema.Proofs.RefinementPieces

/-!
# Where rules between fields are refined

Two walks share the work. The definition of a schema walks from its root through objects and stops
at arrays, and the expression of an object that is the item of an array walks from there in the same
way. Together they meet every field once: a field is refined on the object of the innermost array
item above it, or on the root where there is none, and its path is read from that object.

## Implementation notes

An address is cut behind its last star. The induction over a tree keeps the cut: going to a property
moves the field and leaves the object where it is, going to an item starts over with a new object.
-/

namespace RuleSchema.Refinement

open DottedPath RuleGroup Piece Compiler List

/-- The object on which the field at an address is refined: the innermost item of an array above it,
or the root. -/
def objectAddress (address : List String) : List String := address.rdropWhile (· ≠ wildcard)

/-- The names that lead from this object to the field; the item of an array has none. -/
def fieldAddress (address : List String) : List String := address.rtakeWhile (· ≠ wildcard)

/-- What stands before the paths of the fields of an object. -/
def scopeOf (object : List String) : String :=
  if object.isEmpty then "" else ofNames object ++ "."

/-- The branches of the field at an address, each with its scope. -/
def placed (address : List String) (r : Resolved) : List (String × String) :=
  if (fieldAddress address).isEmpty then []
  else (branches (scopeOf (objectAddress address)) (ofNames (fieldAddress address)) r).map
    fun branch => (scopeOf (objectAddress address), branch)

/-- The branches of all fields, each with its scope. -/
def placedAll (fields : List (List String × Resolved)) : List (String × String) :=
  fields.flatMap fun p => placed p.1 p.2

/-- An address cut into the object on which a field is refined and the names of the field in it. -/
structure Cut (object field : List String) : Prop where
  address : IsAddress object
  ends : object = [] ∨ ∃ above, object = above ++ [wildcard]
  plain : ∀ name ∈ field, Node.IsPlainName name

section Cuts

variable {object field : List String}

theorem ne_wildcard_of_plain {name : String} (h : Node.IsPlainName name) : name ≠ wildcard := by
  rintro rfl
  exact h.2 (by decide)

theorem Cut.objectAddress_eq (h : Cut object field) :
    objectAddress (object ++ field) = object := by
  obtain ⟨-, hends, hplain⟩ := h
  induction field using List.reverseRecOn with
  | nil =>
      rw [List.append_nil, objectAddress]
      rcases hends with rfl | ⟨above, rfl⟩
      · rfl
      · exact List.rdropWhile_concat_neg _ _ _ (by simp)
  | append_singleton init name ih =>
      have hname := ne_wildcard_of_plain (hplain name (List.mem_append_right _ List.mem_cons_self))
      rw [← List.append_assoc, objectAddress,
        List.rdropWhile_concat_pos _ _ _ (by simpa using hname)]
      exact ih fun n hn => hplain n (List.mem_append_left _ hn)

theorem Cut.fieldAddress_eq (h : Cut object field) : fieldAddress (object ++ field) = field := by
  obtain ⟨-, hends, hplain⟩ := h
  induction field using List.reverseRecOn with
  | nil =>
      rw [List.append_nil, fieldAddress]
      rcases hends with rfl | ⟨above, rfl⟩
      · rfl
      · exact List.rtakeWhile_concat_neg _ _ _ (by simp)
  | append_singleton init name ih =>
      have hname := ne_wildcard_of_plain (hplain name (List.mem_append_right _ List.mem_cons_self))
      rw [← List.append_assoc, fieldAddress,
        List.rtakeWhile_concat_pos _ _ _ (by simpa using hname)]
      congr 1
      exact ih fun n hn => hplain n (List.mem_append_left _ hn)

/-- Going to a property leaves the object where it is. -/
theorem Cut.property (h : Cut object field) {name : String} (hname : Node.IsPlainName name) :
    Cut object (field ++ [name]) := by
  refine ⟨h.address, h.ends, fun n hn => ?_⟩
  rcases List.mem_append.mp hn with hn | hn
  · exact h.plain n hn
  · rw [List.mem_singleton.mp hn]
    exact hname

/-- Going to an item starts over with a new object. -/
theorem Cut.item (h : Cut object field) : Cut (object ++ field ++ [wildcard]) [] := by
  constructor
  · have hfield : IsAddress field := fun n hn => (h.plain n hn).1
    exact (h.address.append hfield).append (isAddress_singleton isName_wildcard)
  · exact .inr ⟨object ++ field, rfl⟩
  · exact fun n hn => by cases hn

theorem Cut.placed_nil (h : Cut object []) (r : Resolved) : placed object r = [] := by
  have hfield := h.fieldAddress_eq
  rw [List.append_nil] at hfield
  rw [placed, hfield]
  rfl

theorem Cut.placed_eq (h : Cut object field) (hne : field ≠ []) (r : Resolved) :
    placed (object ++ field) r =
      (branches (scopeOf object) (ofNames field) r).map fun branch => (scopeOf object, branch) := by
  rw [placed, h.objectAddress_eq, h.fieldAddress_eq, List.isEmpty_eq_false_iff.mpr hne]
  rfl

theorem contains_star (h : ∀ name ∈ field, Node.IsPlainName name) :
    Text.contains (ofNames field) "*" = false := by
  apply contains_eq_false List.mem_cons_self
  intro hmem
  rcases mem_toList_ofNames hmem with hdot | ⟨name, hname, hc⟩
  · exact absurd hdot (by decide)
  · exact (h name hname).2 hc

/-- A path is that of an item exactly when a star is its last name. -/
theorem isItemPath_ofNames {above : List String} {name : String} (hname : IsName name) :
    isItemPath (ofNames (above ++ [name])) = (name == wildcard) := by
  have hlast : (name.toList == ['*']) = (name == wildcard) := by
    rw [Bool.eq_iff_iff, beq_iff_eq, beq_iff_eq]
    constructor
    · intro h
      exact String.toList_injective h
    · rintro rfl
      rfl
  by_cases hne : above = []
  · subst hne
    have htext : ofNames ([] ++ [name]) = name := rfl
    rw [htext, isItemPath, cutLast?_of_not_mem hname]
    exact hlast
  · have htext : (ofNames (above ++ [name])).toList =
        (ofNames above).toList ++ '.' :: name.toList := by
      rw [ofNames_concat hne, String.toList_append, String.toList_append, List.append_assoc]
      rfl
    rw [isItemPath, htext, cutLast?_append_sep _ hname]
    exact hlast

end Cuts

section Collected

variable {properties : List (String × Node)}

/-- The branches that run on an object, with its scope. -/
def tagged (object : List String) (found : List String) : List (String × String) :=
  found.map fun branch => (scopeOf object, branch)

theorem tagged_flatMap {α : Type} (object : List String) (l : List α) (f : α → List String) :
    tagged object (l.flatMap f) = l.flatMap fun a => tagged object (f a) := List.map_flatMap

theorem collectBelow_eq_flatMap (scope field : String)
    (h : ∀ p ∈ properties, Node.IsPlainName p.1) : collectBelow scope field properties =
      properties.flatMap fun p => collect scope (field ++ "." ++ p.1) p.2 := by
  induction properties with
  | nil => rw [collectBelow, List.flatMap_nil]
  | cons p rest ih =>
      obtain ⟨name, child⟩ := p
      obtain ⟨hname, hrest⟩ := List.forall_mem_cons.mp h
      rw [collectBelow, contains_dot hname, if_neg Bool.false_ne_true, ih hrest, List.flatMap_cons]

theorem collectProperties_eq_flatMap (scope : String) (r : Resolved)
    (h : ∀ p ∈ properties, Node.IsPlainName p.1) :
    collectProperties scope (.object r properties) =
      properties.flatMap fun p => collect scope p.1 p.2 := by
  apply List.flatMap_congr
  intro p hp
  dsimp only
  rw [contains_dot (h p hp), if_neg Bool.false_ne_true]

variable {object field : List String}

/-- A walk that comes to a field takes its branches with it, whatever lies below. -/
theorem collect_eq (hfield : ∀ name ∈ field, Node.IsPlainName name) (scope : String) (node : Node) :
    collect scope (ofNames field) node = branches scope (ofNames field) node.head ++
      match node with
      | .object r properties =>
        if r.isObject then collectBelow scope (ofNames field) properties else []
      | _ => [] := by
  have hstar := contains_star hfield
  cases node with
  | leaf r =>
      rw [collect, hstar, if_neg Bool.false_ne_true]
      exact fun _ _ h => by cases h
  | array r item =>
      rw [collect, hstar, if_neg Bool.false_ne_true]
      exact fun _ _ h => by cases h
  | object r properties => rw [collect, hstar, if_neg Bool.false_ne_true]

/-- The walk goes on from an object to its properties. -/
theorem collect_object (hfield : ∀ name ∈ field, Node.IsPlainName name) (hne : field ≠ [])
    {scope : String} {r : Resolved} (htype : r.inferredType = "object")
    (hnames : ∀ p ∈ properties, Node.IsPlainName p.1) :
    collect scope (ofNames field) (.object r properties) = branches scope (ofNames field) r ++
      properties.flatMap fun p => collect scope (ofNames (field ++ [p.1])) p.2 := by
  have hobject : r.isObject = true := beq_iff_eq.mpr htype
  have hpaths : ∀ p : String × Node, ofNames (field ++ [p.1]) = ofNames field ++ "." ++ p.1 :=
    fun p => ofNames_concat hne p.1
  simp only [hpaths]
  rw [collect_eq hfield, ← collectBelow_eq_flatMap _ _ hnames]
  dsimp only
  rw [hobject, if_pos rfl]
  rfl

end Collected

section Walks

/-- Two lists of parts that make up a third one part by part make it up as a whole. -/
theorem perm_flatMap_of_forall₂ {α β γ : Type} {E : β → List γ} {C S : α → List γ} {l : List α}
    {l' : List β} (h : List.Forall₂ (fun a b => (E b ++ C a).Perm (S a)) l l') :
    (l'.flatMap E ++ l.flatMap C).Perm (l.flatMap S) := by
  induction h with
  | nil => exact .nil
  | @cons a b l l' hpart _ ih =>
      rw [List.flatMap_cons, List.flatMap_cons, List.flatMap_cons]
      calc E b ++ l'.flatMap E ++ (C a ++ l.flatMap C)
          = E b ++ (l'.flatMap E ++ C a) ++ l.flatMap C := by simp only [List.append_assoc]
        _ ~ E b ++ (C a ++ l'.flatMap E) ++ l.flatMap C :=
          (List.perm_append_comm.append_left _).append_right _
        _ = (E b ++ C a) ++ (l'.flatMap E ++ l.flatMap C) := by simp only [List.append_assoc]
        _ ~ S a ++ l.flatMap S := hpart.append ih

variable {c : Compiler}

/-- What the walk from the object above brings of a node: nothing of an item, which starts a walk
of its own. -/
def brought (object field : List String) (node : Node) : List (String × String) :=
  if field.isEmpty then [] else tagged object (collect (scopeOf object) (ofNames field) node)

theorem Cut.brought_leaf {object field : List String} (h : Cut object field) {node : Node}
    (hnode : ∀ r properties, node ≠ .object r properties) :
    brought object field node = placed (object ++ field) node.head := by
  unfold brought
  by_cases hne : field = []
  · subst hne
    rw [List.append_nil, h.placed_nil]
    rfl
  · rw [List.isEmpty_eq_false_iff.mpr hne, if_neg Bool.false_ne_true, collect_eq h.plain,
      h.placed_eq hne]
    cases node with
    | leaf r => exact congrArg (tagged object) (List.append_nil _)
    | array r item => exact congrArg (tagged object) (List.append_nil _)
    | object r properties => exact absurd rfl (hnode r properties)

/-- The item of an array starts a walk of its own through its properties. -/
theorem Cut.emittedBy_item {object : List String} (h : Cut object []) (hne : object ≠ [])
    {r : Resolved} {properties : List (String × Node)} (hpath : r.path = ofNames object)
    (hnames : ∀ p ∈ properties, Node.IsPlainName p.1) :
    emittedBy (itemRefinement (.object r properties)) =
      tagged object (properties.flatMap fun p => collect (scopeOf object) p.1 p.2) := by
  obtain ⟨above, rfl⟩ := h.ends.resolve_left hne
  have hitem : isItemPath r.path = true := by
    rw [hpath, isItemPath_ofNames isName_wildcard]
    exact beq_self_eq_true wildcard
  have hscope : r.path ++ "." = scopeOf (above ++ [wildcard]) := by
    rw [hpath, scopeOf, List.isEmpty_eq_false_iff.mpr hne, if_neg Bool.false_ne_true]
  change emittedBy (if isItemPath r.path then refinement (r.path ++ ".")
    (collectProperties (r.path ++ ".") (.object r properties)) else []) = _
  rw [if_pos hitem, hscope, collectProperties_eq_flatMap _ _ hnames, emittedBy_refinement]
  rfl

/-- An object that is a field has no refinement: the walk from above goes on through it. -/
theorem Cut.itemRefinement_eq_nil {object field : List String} (h : Cut object field)
    (hne : field ≠ []) {node : Node} (hpath : node.head.path = ofNames (object ++ field)) :
    itemRefinement node = [] := by
  obtain ⟨init, name, rfl⟩ := (List.eq_nil_or_concat field).resolve_left hne
  rw [List.concat_eq_append] at h hpath
  have hname : Node.IsPlainName name :=
    h.plain name (List.mem_append_right _ (List.mem_singleton.mpr rfl))
  have hitem : isItemPath node.head.path = false := by
    rw [hpath, ← List.append_assoc, isItemPath_ofNames hname.1]
    exact beq_false_of_ne (ne_wildcard_of_plain hname)
  rw [itemRefinement, hitem, if_neg Bool.false_ne_true]

/-- The walk from above and the walk from an item take the properties of an object between them. -/
theorem Cut.brought_object {object field : List String} (h : Cut object field)
    (hne : object ++ field ≠ []) {r : Resolved} {properties : List (String × Node)}
    (hpath : r.path = ofNames (object ++ field)) (htype : r.inferredType = "object")
    (hnames : ∀ p ∈ properties, Node.IsPlainName p.1) :
    emittedBy (itemRefinement (.object r properties)) ++
        brought object field (.object r properties) =
      placed (object ++ field) r ++
        properties.flatMap fun p => brought object (field ++ [p.1]) p.2 := by
  have hbelow : ∀ p : String × Node, brought object (field ++ [p.1]) p.2 =
      tagged object (collect (scopeOf object) (ofNames (field ++ [p.1])) p.2) := by
    intro p
    rw [brought, List.isEmpty_eq_false_iff.mpr (by simp), if_neg Bool.false_ne_true]
  simp only [hbelow]
  rw [← tagged_flatMap]
  by_cases hfield : field = []
  · subst hfield
    rw [List.append_nil] at hne hpath ⊢
    rw [h.emittedBy_item hne hpath hnames, h.placed_nil, brought, List.isEmpty_nil, if_pos rfl,
      List.append_nil]
    rfl
  · have hnone : itemRefinement (.object r properties) = [] :=
      h.itemRefinement_eq_nil hfield hpath
    rw [hnone, emittedBy_nil, List.nil_append, h.placed_eq hfield,
      brought, List.isEmpty_eq_false_iff.mpr hfield, if_neg Bool.false_ne_true,
      collect_object h.plain hfield htype hnames, tagged, List.map_append]
    rfl

/-- Every field of a tree has its branches in one of the two walks: the one from the object above,
or one from an item inside. -/
theorem emittedBy_perm_placedAll {address : List String} {node : Node}
    (h : Node.Laid address node) : ∀ object field, address = object ++ field →
      Cut object field → address ≠ [] → ∀ isOptional parts, c.pieces isOptional node = .ok parts →
        (emittedBy parts ++ brought object field node).Perm (placedAll (node.located address)) := by
  induction h with
  | @leaf address r here =>
      rintro object field rfl hcut hne isOptional parts hparts
      have hbrought : brought object field (.leaf r) = placed (object ++ field) r :=
        hcut.brought_leaf fun _ _ h => by cases h
      rw [emittedBy_of_leaf hparts, hbrought, List.nil_append, Tree.located, placedAll,
        List.flatMap_singleton]
  | @array address r item here below ih =>
      rintro object field rfl hcut hne isOptional parts hparts
      obtain ⟨inner, hinner, hemitted⟩ := emittedBy_of_array hparts
      have hitem := ih _ [] (List.append_nil _).symm hcut.item (by simp) false inner hinner
      rw [brought, List.isEmpty_nil, if_pos rfl, List.append_nil] at hitem
      rw [hemitted, hcut.brought_leaf fun _ _ h => by cases h]
      let inside := item.located (object ++ field ++ [wildcard])
      calc emittedBy inner ++ placed (object ++ field) r
          ~ placed (object ++ field) r ++ emittedBy inner := List.perm_append_comm
        _ ~ placed (object ++ field) r ++ placedAll inside := hitem.append_left _
        _ = placedAll ((Tree.array r item).located (object ++ field)) := by
          rw [Tree.located, placedAll, placedAll, List.flatMap_cons]
  | @object address r properties here names below ih =>
      rintro object field rfl hcut hne isOptional parts hparts
      obtain ⟨entries, hentries, hemitted⟩ := emittedBy_of_object hparts
      have hparts : List.Forall₂ (fun p q => (emittedBy q.2 ++
            brought object (field ++ [p.1]) p.2).Perm
          (placedAll (p.2.located (object ++ field ++ [p.1])))) properties entries := by
        apply ((List.forall₂_and_left _ _).mpr
            ⟨fun _ hp => hp, forall₂_of_piecesOfAll hentries⟩).imp
        rintro p q ⟨hp, -, hq⟩
        exact ih p hp object (field ++ [p.1]) (List.append_assoc _ _ _)
          (hcut.property (names p hp)) (by simp) _ q.2 hq
      have hbrought := hcut.brought_object hne here.1 (here.2.2 _ rfl) names
      calc emittedBy parts ++ brought object field (.object r properties)
          = entries.flatMap (fun q => emittedBy q.2) ++
              (placed (object ++ field) r ++
                properties.flatMap fun p => brought object (field ++ [p.1]) p.2) := by
            rw [hemitted, List.append_assoc, hbrought]
        _ ~ placed (object ++ field) r ++ (entries.flatMap (fun q => emittedBy q.2) ++
              properties.flatMap fun p => brought object (field ++ [p.1]) p.2) := by
            rw [← List.append_assoc, ← List.append_assoc]
            exact List.perm_append_comm.append_right _
        _ ~ placed (object ++ field) r ++
              properties.flatMap fun p => placedAll (p.2.located (object ++ field ++ [p.1])) :=
            (perm_flatMap_of_forall₂ hparts).append_left _
        _ = placedAll ((Tree.object r properties).located (object ++ field)) := by
          rw [Tree.located, placedAll, List.flatMap_cons, Tree.locatedAll_eq_flatMap,
            List.flatMap_assoc]
          rfl

/-- The pieces of the nodes of a schema, one list for each property. -/
theorem forall₂_of_schemaPieces {properties : List Property} {parts : List Piece}
    (h : c.schemaPieces properties = .ok parts) : ∃ entries : List (List Piece),
      emittedBy parts = entries.flatMap emittedBy ++
        tagged [] (properties.flatMap fun p => collect "" p.name p.node) ∧
      List.Forall₂ (fun p entry => ∃ inner, c.pieces p.isOptional p.node = .ok inner ∧
        emittedBy entry = emittedBy inner) properties entries := by
  rw [schemaPieces] at h
  obtain ⟨entries, hentries, h⟩ := exists_of_bind h
  cases h
  refine ⟨entries, ?_, ?_⟩
  · rw [emittedBy_append, emittedBy_enclosed, emittedBy_refinement]
    rfl
  · apply (forall₂_of_mapM hentries).imp
    intro p entry hentry
    obtain ⟨inner, hinner, rfl⟩ := exists_of_map hentry
    exact ⟨inner, hinner, emittedBy_entryPieces _ _⟩

/-- The fields of a schema, each with its address. -/
def fieldsOf (properties : List Property) : List (List String × Resolved) :=
  properties.flatMap fun p => p.node.located [p.name]

/-- Every rule between fields is refined exactly once, on the object of the innermost array item
above its field, or on the root. The definition of a schema is the text of pieces laid end to end,
and the branches read from these texts are those of all fields, each once, with the scope of this
object and the path read from it. -/
theorem define_refines_once {c : Compiler} (hc : c.registry = .builtIn) (s : Schema)
    (hbuilt : ∀ p ∈ s.properties, Node.IsBuilt p.name p.node)
    (hfragments : ∀ p ∈ s.properties, p.override = none ∧ ∀ r ∈ p.node.heads, r.fragment = none)
    (hnames : ∀ p ∈ s.properties, ∀ name ∈ p.name :: p.node.propertyNames, Node.IsPlainName name) :
    s.define c = (c.schemaPieces s.properties).map textOf ∧
      ∀ parts, c.schemaPieces s.properties = .ok parts →
        (emittedBy parts).Perm (placedAll (fieldsOf s.properties)) := by
  have hplain : ∀ p ∈ s.properties, IsPlainProperty p := by
    intro p hp
    obtain ⟨hname, hbelow⟩ := List.forall_mem_cons.mp (hnames p hp)
    exact ⟨hname, (hfragments p hp).1, (hbuilt p hp).laid (hfragments p hp).2 hbelow⟩
  refine ⟨define_eq_pieces hc hplain, fun parts hparts => ?_⟩
  obtain ⟨entries, hemitted, hentries⟩ := forall₂_of_schemaPieces hparts
  have hroot : Cut [] [] := ⟨isAddress_nil, .inl rfl, fun _ h => by cases h⟩
  rw [hemitted, tagged_flatMap, fieldsOf, placedAll, List.flatMap_assoc]
  apply perm_flatMap_of_forall₂
  apply ((List.forall₂_and_left _ _).mpr ⟨hplain, hentries⟩).imp
  rintro p entry ⟨hp, inner, hinner, hentry⟩
  rw [hentry]
  exact emittedBy_perm_placedAll hp.node [] [p.name] rfl (hroot.property hp.name)
    (List.cons_ne_nil _ _) _ inner hinner

/-- A rule on an object inside the items of an array runs on each item, with the path from there. -/
theorem define_refines_once_nested :
    let pin : Resolved := ⟨"lines.*.box.pin", [⟨"same", [.text "lines.*.pin"],
      some "The pins differ.", false, false⟩], "string", none⟩
    let node : Node := .array ⟨"lines", [⟨"array", [], some "Lines are needed.", false, false⟩],
        "array", none⟩
      (.object ⟨"lines.*", [], "object", none⟩
        [("box", .object ⟨"lines.*.box", [], "object", none⟩ [("pin", .leaf pin)])])
    let s : Schema := ⟨"OrderSchema", "Order", .request, [⟨"lines", true, node, none⟩], []⟩
    (branches "lines.*." "box.pin" pin).length = 1 ∧
      ∃ parts, s.define builtIn = .ok (textOf parts) ∧
        (emittedBy parts).Perm
          ((branches "lines.*." "box.pin" pin).map fun branch => ("lines.*.", branch)) := by
  intro pin node s
  have hbuilt : Node.IsBuilt "lines" node := by
    let m : Messages :=
      ⟨some (.ofMap []), [("array", "Lines are needed."), ("same", "The pins differ.")], []⟩
    let box : RuleGroup :=
      .node .absent [("pin", .node (.text "same:lines.*.pin") [] false none)] true none
    have hlines : Declared.resolve m ⟨"lines", .text "array", false, some "array"⟩ =
        .ok node.head := by decide +kernel
    have hpin : Declared.resolve m ⟨"lines.*.box.pin", .text "same:lines.*.pin", false, none⟩ =
        .ok pin := by decide +kernel
    have hempty : NormalizedRules.normalize (.text "") = .ok .empty := by decide +kernel
    have hobject (path : String) (isItem : Bool) :
        Declared.resolve m ⟨path, .text "", isItem, some "object"⟩ =
          .ok ⟨path, [], "object", none⟩ := by
      rw [Declared.resolve, hempty]
      rfl
    have hshape : Declared.ofField [] "lines" (.node .absent [("box", box)] false none) =
        .array ⟨"lines", .text "array", false, some "array"⟩
          (.object ⟨"lines.*", .text "", true, some "object"⟩
            [("box", .object ⟨"lines.*.box", .text "", false, some "object"⟩
              [("pin", .leaf ⟨"lines.*.box.pin", .text "same:lines.*.pin", false, none⟩)])]) := rfl
    refine ⟨m, [], .node .absent [("box", box)] false none, ?_⟩
    rw [Node.ofShape, hshape]
    simp only [Tree.mapHeads, Tree.mapHeadsOfAll, hlines, hpin, hobject]
    rfl
  obtain ⟨hdefine, hemitted⟩ := define_refines_once (c := builtIn) rfl s
    (List.forall_mem_singleton.mpr hbuilt)
    (List.forall_mem_singleton.mpr ⟨rfl, by decide⟩)
    (List.forall_mem_singleton.mpr (by unfold Node.IsPlainName; decide))
  have hpieces : (builtIn.schemaPieces s.properties).isOk = true := by decide +kernel
  have hplaced : placedAll (fieldsOf s.properties) =
      (branches "lines.*." "box.pin" pin).map fun branch => ("lines.*.", branch) := by
    decide +kernel
  cases hparts : builtIn.schemaPieces s.properties with
  | error fault =>
      rw [hparts] at hpieces
      cases hpieces
  | ok parts =>
      refine ⟨by decide +kernel, parts, ?_, ?_⟩
      · rw [hdefine, hparts]
        rfl
      · rw [← hplaced]
        exact hemitted parts hparts

end Walks

end RuleSchema.Refinement
