import RuleSchema.Proofs.FieldShapes
import RuleSchema.Proofs.NodeExpressions

/-!
# Stacked items

Stars that follow each other at the end of a path speak of arrays of arrays. Inserting a rule value
leaves out a star without a name before it, so all of these stars speak of the items of one array:
the field is one array around the items with the rules, however many stars there are.
-/

namespace RuleSchema

/-- A field of as many arrays, one in another, as are told, around items with the given rules. -/
def Stacked (rules : List String) : Nat → Node → Prop
  | 0, node => node.inside = [] ∧ node.head.ruleNames = rules
  | depth + 1, node => ∃ item, node.item? = some item ∧ Stacked rules depth item

namespace Grouping

open DottedPath RuleGroup

/-- The path of a name with stars after it. -/
def starred (name : String) (stars : Nat) : String :=
  ofNames (name :: List.replicate stars wildcard)

section Insertion

variable {context : Context} {value : RuleValue} {name : String} {stars : Nat}

theorem stretches_stars (stars : Nat) :
    stretches (List.replicate stars wildcard) = List.replicate (stars + 1) [] := by
  induction stars with
  | zero => rfl
  | succ stars ih =>
      rw [List.replicate_succ, stretches, if_pos (beq_self_eq_true wildcard), ih]
      rfl

/-- Of stars without names between them only the last one counts. -/
theorem afterStretch_stars (stars : Nat) : ∀ above,
    afterStretch context value above (List.replicate (stars + 1) []) =
      RuleGroup.update wildcard (setRules value) := by
  induction stars with
  | zero => exact fun _ => rfl
  | succ stars ih =>
      intro above
      funext g
      -- the first of two stars has no name before it, and its group is the one it is met on
      calc afterStretch context value above (List.replicate (stars + 2) []) g
          = insertAlong context value above ([] :: List.replicate (stars + 1) []) g := rfl
        _ = afterStretch context value (under (under above (Text.join "." [])) wildcard)
              (List.replicate (stars + 1) []) g := by rw [insertAlong_cons]; rfl
        _ = g.update wildcard (setRules value) := by rw [ih]

theorem names_starred (hname : IsName name) (stars : Nat) :
    names (starred name stars) = name :: List.replicate stars wildcard := by
  apply names_ofNames (List.cons_ne_nil _ _)
  intro n hn
  rcases List.mem_cons.mp hn with rfl | hn
  · exact hname
  · rw [List.eq_of_mem_replicate hn]
    exact isName_wildcard

/-- All stars after a name speak of the items of the group under this name. -/
theorem insert_starred (hname : IsName name) (hstar : name ≠ wildcard) (g : RuleGroup) :
    insert context (starred name (stars + 1)) value g =
      g.update name (RuleGroup.update wildcard (setRules value)) := by
  have hstretches : stretches (name :: List.replicate (stars + 1) wildcard) =
      [name] :: List.replicate (stars + 1) [] := by
    rw [stretches, if_neg (by simpa using hstar), stretches_stars]
    rfl
  have hnames : Text.splitOn '.' (starred name (stars + 1)) = _ := names_starred hname _
  rw [insert, hnames, hstretches, insertAlong_cons, afterStretch_stars]
  rfl

theorem isMarked_starred (hname : IsName name) (hmarker : name ∉ Marker.all) :
    Marker.isMarked (starred name stars) = false := by
  have hnames : Text.splitOn '.' (starred name stars) = _ := names_starred hname stars
  rw [Marker.isMarked, hnames, List.any_eq_false]
  intro n hn
  rw [List.contains_iff_mem]
  rcases List.mem_cons.mp hn with rfl | hn
  · exact hmarker
  · rw [List.eq_of_mem_replicate hn]
    decide

/-- One group comes out, an array with the value at its items. -/
theorem group_starred (hname : IsName name) (hstar : name ≠ wildcard)
    (hmarker : name ∉ Marker.all) :
    group [(starred name (stars + 1), value)] [] =
      .ok [(name, empty.update wildcard (setRules value))] := by
  have hmarked : ∀ e ∈ [(starred name (stars + 1), value)], Marker.isMarked e.1 = false := by
    intro e he
    rw [List.mem_singleton.mp he]
    exact isMarked_starred hname hmarker
  rw [group_of_not_isMarked [] hmarked, List.foldl_cons, List.foldl_nil,
    insert_starred hname hstar]
  rfl

end Insertion

end Grouping

open DottedPath RuleGroup

section Nodes

variable {name rule : String} {m : Messages} {n : NormalizedRules}

theorem RuleValue.orRules_text (s : String) : (RuleValue.text s).orRules "" = .text s := by
  rw [orRules, isDeclared]
  cases hempty : Text.isEmpty s with
  | false => rfl
  | true =>
      have hs : s = "" := by
        apply String.toList_injective
        exact List.isEmpty_iff.mp hempty
      rw [hs]
      rfl

/-- The shape of a group with a rule text at its items: one array of them. -/
theorem Declared.ofGroups_items (name rule : String) :
    ofGroups [] [(name, empty.update wildcard (setRules (.text rule)))] =
      [(name, .array ⟨name, .text "array", false, some "array"⟩
        (.leaf ⟨below name wildcard, .text rule, true, none⟩))] := by
  have hitem : itemOf name [(wildcard, empty.setRules (.text rule))] =
      .leaf ⟨below name wildcard, .text rule, true, none⟩ := by
    have hall : [(wildcard, empty.setRules (.text rule))].all (·.1 == wildcard) = true := rfl
    rw [itemOf, hall, if_pos rfl, scalarItem_singleton rfl, rules_setRules,
      RuleValue.orRules_text]
  rw [ofGroups_eq_map, List.map_singleton, ofGroup_array rfl]
  change [(name, Tree.array _ (itemOf name [(wildcard, empty.setRules (.text rule))]))] = _
  rw [hitem]
  rfl

theorem NormalizedRules.normalize_array :
    normalize (.text "array") = .ok ⟨[⟨"array", []⟩], none, 0⟩ := by
  decide +kernel

theorem NormalizedRules.normalize_integer :
    normalize (.text "integer") = .ok ⟨[⟨"integer", []⟩], none, 0⟩ := by
  decide +kernel

theorem Declared.resolve_array {d : Declared} {r : Resolved} (hrules : d.rules = .text "array")
    (htype : d.shapeType = some "array") (h : d.resolve m = .ok r) :
    r.inferredType = "array" ∧ ∃ message, r.checks = [⟨"array", [], message, false, false⟩] := by
  obtain ⟨n, hn, hr⟩ := exists_of_bind h
  rw [hrules, NormalizedRules.normalize_array] at hn
  cases hn
  obtain ⟨checks, hchecks, hr⟩ := exists_of_bind (x := List.mapM _ _) hr
  cases hr
  refine ⟨by rw [htype]; rfl, ?_⟩
  rw [List.mapM_cons, List.mapM_nil] at hchecks
  obtain ⟨c, hc, hchecks⟩ := exists_of_bind hchecks
  cases hchecks
  obtain ⟨message, -, hc⟩ := exists_of_bind hc
  cases hc
  exact ⟨message, rfl⟩

/-- What the group becomes: an array with nothing but its own rule, of items with the rules of the
text. -/
theorem Node.ofGroups_items (hn : NormalizedRules.normalize (.text rule) = .ok n)
    {nodes : List (String × Node)}
    (hnodes : Node.ofGroups m [] [(name, empty.update wildcard (setRules (.text rule)))] =
      .ok nodes) :
    ∃ head item, nodes = [(name, .array head (.leaf item))] ∧ head.inferredType = "array" ∧
      (∃ message, head.checks = [⟨"array", [], message, false, false⟩]) ∧
      item.ruleNames = n.names := by
  rw [Node.ofGroups, Declared.ofGroups_items] at hnodes
  obtain ⟨node, hnode, hnodes⟩ := exists_of_bind hnodes
  cases hnodes
  obtain ⟨head, hhead, hnode⟩ := exists_of_bind hnode
  obtain ⟨leaf, hleaf, hnode⟩ := exists_of_bind hnode
  cases hnode
  obtain ⟨item, hitem, hleaf⟩ := exists_of_bind hleaf
  cases hleaf
  obtain ⟨htype, hchecks⟩ := Declared.resolve_array rfl rfl hhead
  obtain ⟨n', hn', -, hnames⟩ := Declared.ruleNames_of_resolve hitem
  rw [hn, Except.ok.injEq] at hn'
  exact ⟨head, item, rfl, htype, hchecks, hn' ▸ hnames⟩

theorem Node.succeeds_ofGroups_items (hm : m.Ready) (hname : name ≠ "")
    (hn : NormalizedRules.normalize (.text rule) = .ok n) :
    Succeeds (Node.ofGroups m [] [(name, empty.update wildcard (setRules (.text rule)))]) := by
  rw [Node.ofGroups, Declared.ofGroups_items]
  apply Tree.succeeds_mapHeadsOfAll
  have hbelow : Declared.below name wildcard ≠ "" := by
    intro h
    have hlength := congrArg (fun s : String => s.toList.length) h
    simp [Declared.below] at hlength
  intro d hd
  rcases List.mem_cons.mp hd with rfl | hd
  · exact Declared.succeeds_resolve hm rfl (Text.isEmpty_eq_false hname)
      ⟨_, NormalizedRules.normalize_array⟩
  · rw [List.mem_singleton.mp hd]
    exact Declared.succeeds_resolve hm rfl (Text.isEmpty_eq_false hbelow) ⟨n, hn⟩

theorem stacked_array_iff {rules : List String} {head item : Resolved} (depth : Nat)
    (h : item.ruleNames = rules) : Stacked rules depth (.array head (.leaf item)) ↔ depth = 1 := by
  constructor
  · intro hdepth
    match depth, hdepth with
    | 0, hdepth => exact absurd hdepth.1 (List.cons_ne_nil _ _)
    | 1, _ => rfl
    | _ + 2, hdepth =>
        obtain ⟨_, hitem, _, hinner, -⟩ := hdepth
        cases hitem
        cases hinner
  · rintro rfl
    exact ⟨_, rfl, rfl, h⟩

theorem Compiler.applyCheck_array (item : String) (message : Option String) :
    applyCheck (.ofBase (.array item)) ⟨"array", [], message, false, false⟩ =
      .ok (.ofBase (.array item)) := by
  let b := Builder.ofBase (.array item)
  have hname : Builder.methodName "array" = "array" := by decide +kernel
  have hmethod : b.method? "array" = some Building.nothing := by
    rw [Builder.method?, hname]
    rfl
  have hrun : (Builder.applyRule "array" [] message).run b = (.ok true, b) := by
    rw [Builder.run_applyRule_of_some hmethod]
    rfl
  have hcalled : isPassedOver "array" = false := by decide
  rw [applyCheck, hcalled, if_neg Bool.false_ne_true, List.map_nil, hrun]

/-- An array with nothing but its own rule is one call around its items. -/
theorem Compiler.compile_array {c : Compiler} (hc : c.registry = .builtIn) {head : Resolved}
    (htype : head.inferredType = "array")
    (hchecks : ∃ message, head.checks = [⟨"array", [], message, false, false⟩]) (item : Node)
    (isOptional : Bool) : c.compile isOptional none (.array head item) =
      (c.compile false item.head.fragment item).map fun code =>
        "z.array(" ++ code ++ ")" ++ if isOptional then ".optional()" else "" := by
  obtain ⟨message, hchecks⟩ := hchecks
  have happlied : ∀ code,
      applyChecks (.ofBase (.array code)) head = .ok (.ofBase (.array code)) := by
    intro code
    rw [applyChecks, hchecks, List.foldlM_cons, applyCheck_array]
    rfl
  have hcontent : ∀ code, (Builder.ofBase (.array code)).content = "z.array(" ++ code ++ ")" := by
    intro code
    rw [Builder.content_of_array_frame rfl]
    exact String.append_empty
  have hpresence : head.presence isOptional = if isOptional then ".optional()" else "" := by
    rw [Resolved.presence, Resolved.isNullable, Resolved.isRequired, hchecks]
    cases isOptional <;> rfl
  rw [compile_builtIn (.array head item) hc (.inl htype), content_array hc htype]
  cases c.compile false item.head.fragment item with
  | error fault => rfl
  | ok code =>
      change (applyChecks (.ofBase (.array code)) head >>= _).map _ = _
      rw [happlied]
      apply congrArg Except.ok
      change (Builder.ofBase (.array code)).content ++ head.presence isOptional = _
      rw [hcontent, hpresence]

/-- However many stars follow a name, its field is one array around items with the rules of the
text, and compiles to one call around them; so arrays are as deep as stars are many only where there
is one star. -/
theorem Grouping.stacked_starred_iff {stars : Nat} (hname : IsName name) (hstar : name ≠ wildcard)
    (hmarker : name ∉ Marker.all) (hstars : 1 ≤ stars)
    (hn : NormalizedRules.normalize (.text rule) = .ok n) (m : Messages) :
    ∃ groups, group [(starred name stars, .text rule)] [] = .ok groups ∧
      (m.Ready → name ≠ "" → Succeeds (Node.ofGroups m [] groups)) ∧
      ∀ nodes, Node.ofGroups m [] groups = .ok nodes →
        ∃ node item, nodes = [(name, node)] ∧ node.item? = some item ∧
          Stacked n.names 1 node ∧ (Stacked n.names stars node ↔ stars = 1) ∧
          ∀ c : Compiler, c.registry = .builtIn → ∀ isOptional,
            c.compile isOptional none node =
              (c.compile false item.head.fragment item).map fun code =>
                "z.array(" ++ code ++ ")" ++ if isOptional then ".optional()" else "" := by
  obtain ⟨more, rfl⟩ := Nat.exists_eq_add_of_le' hstars
  refine ⟨_, group_starred hname hstar hmarker, fun hm hfilled => ?_, fun nodes hnodes => ?_⟩
  · exact Node.succeeds_ofGroups_items hm hfilled hn
  · obtain ⟨head, item, rfl, htype, hchecks, hnames⟩ := Node.ofGroups_items hn hnodes
    refine ⟨.array head (.leaf item), .leaf item, rfl, rfl, ?_, stacked_array_iff _ hnames, ?_⟩
    · exact (stacked_array_iff 1 hnames).mpr rfl
    · intro c hc isOptional
      exact Compiler.compile_array hc htype hchecks (.leaf item) isOptional

/-- The rows of a matrix are lost: two stars make one array of integers. -/
theorem Grouping.stacked_matrix :
    ∃ groups node, group [(starred "m" 2, .text "integer")] [] = .ok groups ∧
      Node.ofGroups ⟨some (.ofMap []), [], []⟩ [] groups = .ok [("m", node)] ∧
      Stacked ["integer"] 1 node ∧ ¬ Stacked ["integer"] 2 node := by
  have hname : IsName "m" := by
    unfold IsName
    decide
  have hready : Messages.Ready ⟨some (.ofMap []), [], []⟩ :=
    ⟨.ofMap [], rfl, ⟨[], rfl⟩, fun _ h => by cases h⟩
  obtain ⟨groups, hgroups, hbuilt, hnodes⟩ := stacked_starred_iff hname (by decide)
    (by decide) (by decide : 1 ≤ 2) NormalizedRules.normalize_integer ⟨some (.ofMap []), [], []⟩
  obtain ⟨nodes, hok⟩ := hbuilt hready (by decide)
  obtain ⟨node, item, rfl, -, hone, htwo, -⟩ := hnodes nodes hok
  exact ⟨groups, node, hgroups, hok, hone, fun h => absurd (htwo.mp h) (by decide)⟩

/-- Arrays are not as deep as stars are many: a name with two stars is a counterexample. -/
theorem Grouping.depth_ne_stars :
    ¬ ∀ (name rule : String) (stars : Nat) (n : NormalizedRules) (m : Messages)
        (groups : List (String × RuleGroup)) (nodes : List (String × Node)),
      '.' ∉ name.toList → '*' ∉ name.toList → 1 ≤ stars →
      NormalizedRules.normalize (.text rule) = .ok n →
      Inference.inferType n.entries none ≠ "array" →
      group [(starred name stars, .text rule)] [] = .ok groups →
      Node.ofGroups m [] groups = .ok nodes →
      ∃ node, nodes = [(name, node)] ∧ Stacked n.names stars node := by
  intro h
  let m : Messages := ⟨some (.ofMap []), [], []⟩
  have hname : IsName "m" := by
    unfold IsName
    decide
  have hready : m.Ready := ⟨.ofMap [], rfl, ⟨[], rfl⟩, fun _ h => by cases h⟩
  obtain ⟨nodes, hnodes⟩ := Node.succeeds_ofGroups_items hready (by decide : "m" ≠ "")
    NormalizedRules.normalize_integer
  obtain ⟨head, item, rfl, -, -, hnames⟩ :=
    Node.ofGroups_items NormalizedRules.normalize_integer hnodes
  obtain ⟨node, hnode, hstacked⟩ := h "m" "integer" 2 _ m _ _ (by decide) (by decide) (by decide)
    NormalizedRules.normalize_integer (by decide +kernel)
    (group_starred hname (by decide) (by decide)) hnodes
  cases hnode
  exact absurd ((stacked_array_iff 2 hnames).mp hstacked) (by decide)

end Nodes

end RuleSchema
