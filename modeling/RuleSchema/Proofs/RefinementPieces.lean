import RuleSchema.Proofs.LaidTrees
import RuleSchema.Proofs.NodeExpressions
import RuleSchema.Schema.Definition

/-!
# Pieces of expressions

The definition of a schema is a text in which refinements stand among other code, and the branches
of a refinement among its own. Taking the text apart keeps them in view: a piece is code or the text
of one branch, with the object that the branch runs on. The pieces of a node are found along its
tree, in the order in which its expression is put together, and laid end to end they are this
expression. A branch is moved in where it stands in the text; moved out again, it is read back.
-/

namespace RuleSchema

open DottedPath RuleGroup

namespace Refinement

/-- A line without the indentation of one level. -/
def outdentLine (line : String) : String :=
  if Text.startsWith line indent then Text.drop indent.length line else line

/-- A text with its lines moved out by one level. -/
def outdent (text : String) : String :=
  Text.join "\n" ((Text.splitOn '\n' text).map outdentLine)

theorem outdentLine_indented (line : String) :
    outdentLine (if Text.isEmpty line then line else indent ++ line) = line := by
  split
  · rename_i hempty
    obtain rfl : line = "" := String.toList_injective (List.isEmpty_iff.mp hempty)
    rfl
  · rw [outdentLine, if_pos (Text.startsWith_append indent line), Text.drop_append]

/-- A block that is moved in by one level is read back by moving it out. -/
theorem outdent_indentBlock (block : String) : outdent (indentBlock 1 block) = block := by
  have hindent : String.join (List.replicate 1 indent) = indent := rfl
  have hlines : ∀ line ∈ (Text.splitOn '\n' block).map
      (fun line => if Text.isEmpty line then line else indent ++ line), '\n' ∉ line.toList := by
    intro line hline
    obtain ⟨raw, hraw, rfl⟩ := List.mem_map.mp hline
    have hfeed : '\n' ∉ raw.toList := by
      obtain ⟨piece, hpiece, rfl⟩ := List.mem_map.mp hraw
      intro hmem
      rw [String.toList_ofList] at hmem
      exact absurd (Text.not_sep_of_mem_splitBy hpiece hmem) (by decide)
    split
    · exact hfeed
    · rw [String.toList_append, List.mem_append, not_or]
      exact ⟨by decide, hfeed⟩
  have hne : (Text.splitOn '\n' block).map
      (fun line => if Text.isEmpty line then line else indent ++ line) ≠ [] := by
    rw [Ne, List.map_eq_nil_iff, Text.splitOn, List.map_eq_nil_iff]
    exact Text.splitBy_ne_nil _ _
  calc outdent (indentBlock 1 block)
      = Text.join "\n" (((Text.splitOn '\n' block).map fun line =>
          if Text.isEmpty line then line else indent ++ line).map outdentLine) := by
        rw [outdent, indentBlock, hindent, splitOn_join rfl hne hlines]
    _ = Text.join "\n" (Text.splitOn '\n' block) := by
        rw [List.map_map]
        simp only [Function.comp_def, outdentLine_indented, List.map_id']
    _ = block := join_splitOn rfl block

end Refinement

/-- A piece of an expression: code, or the text of a branch that runs on the object of a scope. -/
inductive Piece where
  | code (text : String)
  | branch (scope text : String)

namespace Piece

/-- The text of a piece. -/
def text : Piece → String
  | code s => s
  | branch _ s => s

/-- The branch that is read from the text of a piece, with the scope on which it runs. -/
def emitted : Piece → List (String × String)
  | code _ => []
  | branch scope s => [(scope, Refinement.outdent s)]

/-- The text of pieces laid end to end. -/
def textOf (pieces : List Piece) : String := String.join (pieces.map text)

/-- The branches that are read from all pieces. -/
def emittedBy (pieces : List Piece) : List (String × String) := pieces.flatMap emitted

/-- The pieces of expressions with a text between one and the next. -/
def separated (sep : String) : List (List Piece) → List Piece
  | [] => []
  | [pieces] => pieces
  | pieces :: rest => pieces ++ code sep :: separated sep rest

/-- The pieces of an object with the given entries, between an opening and a closing text. -/
def enclosed (opening sep closing : String) (entries : List (List Piece)) : List Piece :=
  if entries.isEmpty then [code "z.object(\x7b\x7d)"]
  else code opening :: (separated sep entries ++ [code closing])

/-- The pieces of a refinement that runs branches on the object of a scope. -/
def refinement (scope : String) (branches : List String) : List Piece :=
  if branches.isEmpty then []
  else code ".superRefine((data, ctx) => \x7b\n" ::
    (separated "\n\n" (branches.map fun b => [branch scope (Refinement.indentBlock 1 b)]) ++
      [code "\n\x7d)"])

@[simp] theorem textOf_nil : textOf [] = "" := rfl

@[simp] theorem textOf_cons (piece : Piece) (rest : List Piece) :
    textOf (piece :: rest) = piece.text ++ textOf rest := by
  rw [textOf, List.map_cons, String.join_cons, textOf]

@[simp] theorem textOf_append (pieces more : List Piece) :
    textOf (pieces ++ more) = textOf pieces ++ textOf more := by
  rw [textOf, List.map_append, String.join_append, textOf, textOf]

@[simp] theorem emittedBy_nil : emittedBy [] = [] := rfl

@[simp] theorem emittedBy_cons (piece : Piece) (rest : List Piece) :
    emittedBy (piece :: rest) = piece.emitted ++ emittedBy rest := List.flatMap_cons

@[simp] theorem emittedBy_append (pieces more : List Piece) :
    emittedBy (pieces ++ more) = emittedBy pieces ++ emittedBy more := List.flatMap_append

@[simp] theorem emitted_code (s : String) : (code s).emitted = [] := rfl

@[simp] theorem text_code (s : String) : (code s).text = s := rfl

theorem textOf_separated (sep : String) (entries : List (List Piece)) :
    textOf (separated sep entries) = Text.join sep (entries.map textOf) := by
  induction entries with
  | nil => rfl
  | cons pieces rest ih =>
      cases rest with
      | nil => rfl
      | cons next more =>
          calc textOf (separated sep (pieces :: next :: more))
              = textOf (pieces ++ code sep :: separated sep (next :: more)) := rfl
            _ = textOf pieces ++ sep ++ Text.join sep ((next :: more).map textOf) := by
              rw [textOf_append, textOf_cons, ih, text_code, String.append_assoc]
            _ = Text.join sep ((pieces :: next :: more).map textOf) := rfl

theorem emittedBy_separated (sep : String) (entries : List (List Piece)) :
    emittedBy (separated sep entries) = entries.flatMap emittedBy := by
  induction entries with
  | nil => rfl
  | cons pieces rest ih =>
      cases rest with
      | nil => rw [separated, List.flatMap_cons, List.flatMap_nil, List.append_nil]
      | cons next more =>
          calc emittedBy (separated sep (pieces :: next :: more))
              = emittedBy (pieces ++ code sep :: separated sep (next :: more)) := rfl
            _ = emittedBy pieces ++ (next :: more).flatMap emittedBy := by
              rw [emittedBy_append, emittedBy_cons, ih, emitted_code, List.nil_append]
            _ = (pieces :: next :: more).flatMap emittedBy := List.flatMap_cons.symm

theorem textOf_enclosed (opening sep closing : String) (entries : List (List Piece)) :
    textOf (enclosed opening sep closing entries) =
      if entries.isEmpty then "z.object(\x7b\x7d)"
      else opening ++ Text.join sep (entries.map textOf) ++ closing := by
  unfold enclosed
  split
  · rfl
  · simp only [textOf_cons, textOf_append, textOf_separated, text_code, textOf_nil,
      String.append_empty, String.append_assoc]

theorem emittedBy_enclosed (opening sep closing : String) (entries : List (List Piece)) :
    emittedBy (enclosed opening sep closing entries) = entries.flatMap emittedBy := by
  unfold enclosed
  split
  · rename_i hempty
    rw [List.isEmpty_iff.mp hempty]
    rfl
  · simp only [emittedBy_cons, emittedBy_append, emittedBy_separated, emitted_code, emittedBy_nil,
      List.append_nil, List.nil_append]

/-- The pieces of a refinement are the text that is emitted for its branches. -/
theorem textOf_refinement (scope : String) (branches : List String) :
    textOf (refinement scope branches) = Refinement.render branches := by
  unfold refinement Refinement.render
  split
  · rfl
  · have htexts : (branches.map fun b => [branch scope (Refinement.indentBlock 1 b)]).map textOf =
        branches.map (Refinement.indentBlock 1) := by
      rw [List.map_map]
      apply List.map_congr_left
      intro b _
      rw [Function.comp_apply, textOf_cons, textOf_nil, String.append_empty, text]
    rw [textOf_cons, textOf_append, textOf_separated, htexts, textOf_cons, textOf_nil, text_code,
      text_code, String.append_empty, String.append_assoc]

/-- The branches of a refinement are read from its text, each once and in order. -/
theorem emittedBy_refinement (scope : String) (branches : List String) :
    emittedBy (refinement scope branches) = branches.map fun b => (scope, b) := by
  unfold refinement
  split
  · rename_i hempty
    rw [List.isEmpty_iff.mp hempty]
    rfl
  · rw [emittedBy_cons, emittedBy_append, emittedBy_separated, emittedBy_cons, emittedBy_nil,
      emitted_code, emitted_code, List.append_nil, List.append_nil, List.nil_append, List.flatMap_map]
    simp only [emittedBy_cons, emittedBy_nil, List.append_nil, emitted,
      Refinement.outdent_indentBlock]
    exact List.map_eq_flatMap.symm

end Piece

namespace Compiler

open Piece

/-- The refinement of an object, if it is the item of an array. -/
def itemRefinement (node : Node) : List Piece :=
  if Refinement.isItemPath node.head.path then
    refinement (node.head.path ++ ".")
      (Refinement.collectProperties (node.head.path ++ ".") node)
  else []

/-- The pieces of an entry of an object. -/
def entryPieces (indent : String) (p : String × List Piece) : List Piece :=
  .code (indent ++ Script.propertyKey p.1 ++ ": ") :: p.2

mutual
/-- The pieces of the expression of a node that has no fragments. A leaf has no properties to
refine, so it is code as a whole. -/
def pieces (c : Compiler) (isOptional : Bool) : Node → Except Fault (List Piece)
  | .leaf r => (c.compile isOptional none (.leaf r)).map fun code => [.code code]
  | .array r item => do
    let inner ← pieces c false item
    let b ← applyChecks (.ofBase (.array (textOf inner))) r
    return .code "z.array(" :: (inner ++
      [.code (")" ++ String.join b.chain ++ r.presence isOptional)])
  | .object r properties => do
    let entries ← piecesOfAll c properties
    let b ← applyChecks (.ofBase (.object (entries.map fun p => (p.1, textOf p.2)))) r
    return enclosed "z.object(\x7b " ", " " \x7d)" (entries.map (entryPieces "")) ++
      (.code (String.join b.chain) :: (itemRefinement (.object r properties) ++
        [.code (r.presence isOptional)]))
/-- The pieces of the expressions of properties. -/
def piecesOfAll (c : Compiler) : List (String × Node) → Except Fault (List (String × List Piece))
  | [] => .ok []
  | (name, child) :: rest => do
    let inner ← pieces c (!child.head.isRequired) child
    return (name, inner) :: (← piecesOfAll c rest)
end

/-- The pieces of the definition of a schema with the given properties. -/
def schemaPieces (c : Compiler) (properties : List Property) : Except Fault (List Piece) := do
  let entries ← properties.mapM fun p =>
    (c.pieces p.isOptional p.node).map fun inner => entryPieces Refinement.indent (p.name, inner)
  return enclosed "z.object(\x7b\n" ",\n" ",\n\x7d)" entries ++
    refinement "" (properties.flatMap fun p => Refinement.collect "" p.name p.node)

section Emitted

variable {c : Compiler} {isOptional : Bool} {r : Resolved} {parts : List Piece}

theorem emittedBy_entryPieces (indent : String) (p : String × List Piece) :
    emittedBy (entryPieces indent p) = emittedBy p.2 := by
  rw [entryPieces, emittedBy_cons, emitted_code, List.nil_append]

theorem emittedBy_of_leaf (h : c.pieces isOptional (.leaf r) = .ok parts) :
    emittedBy parts = [] := by
  rw [pieces] at h
  obtain ⟨code, -, rfl⟩ := exists_of_map h
  rfl

/-- An array runs what its item runs. -/
theorem emittedBy_of_array {item : Node} (h : c.pieces isOptional (.array r item) = .ok parts) :
    ∃ inner, c.pieces false item = .ok inner ∧ emittedBy parts = emittedBy inner := by
  rw [pieces] at h
  obtain ⟨inner, hinner, h⟩ := exists_of_bind h
  obtain ⟨b, -, h⟩ := exists_of_bind h
  cases h
  refine ⟨inner, hinner, ?_⟩
  simp only [emittedBy_cons, emittedBy_append, emitted_code, emittedBy_nil, List.append_nil,
    List.nil_append]

/-- An object runs what its properties run and then its own refinement, if it has one. -/
theorem emittedBy_of_object {properties : List (String × Node)}
    (h : c.pieces isOptional (.object r properties) = .ok parts) :
    ∃ entries, c.piecesOfAll properties = .ok entries ∧
      emittedBy parts = entries.flatMap (fun q => emittedBy q.2) ++
        emittedBy (itemRefinement (.object r properties)) := by
  rw [pieces] at h
  obtain ⟨entries, hentries, h⟩ := exists_of_bind h
  obtain ⟨b, -, h⟩ := exists_of_bind h
  cases h
  refine ⟨entries, hentries, ?_⟩
  rw [emittedBy_append, emittedBy_enclosed, List.flatMap_map]
  simp only [emittedBy_entryPieces, emittedBy_cons, emittedBy_append, emitted_code, emittedBy_nil,
    List.append_nil, List.nil_append]

end Emitted

section Texts

variable {c : Compiler}

theorem join_chain_withItemRefinement (b : Builder) {node : Node} (h : node.head.isObject = true) :
    String.join (withItemRefinement b node).chain =
      String.join b.chain ++ textOf (itemRefinement node) := by
  unfold withItemRefinement itemRefinement
  dsimp only
  rw [h, Bool.true_and]
  split
  · rw [textOf_refinement]
    split
    · rename_i hempty
      have hnone : Refinement.render
          (Refinement.collectProperties (node.head.path ++ ".") node) = "" := by
        apply String.toList_injective
        exact List.isEmpty_iff.mp hempty
      rw [hnone, String.append_empty]
    · rw [Builder.addCall, String.join_append, String.join_cons, String.join_nil,
        String.append_empty]
  · rw [textOf_nil, String.append_empty]

theorem contains_dot {name : String} (h : Node.IsPlainName name) :
    Text.contains name "." = false :=
  contains_eq_false List.mem_cons_self h.1

/-- The base expression of an object has the pieces of its entries. -/
theorem baseExpression_object {entries : List (String × List Piece)}
    (h : ∀ p ∈ entries, Node.IsPlainName p.1) :
    (Builder.ofBase (.object (entries.map fun p => (p.1, textOf p.2)))).baseExpression =
      textOf (enclosed "z.object(\x7b " ", " " \x7d)" (entries.map (entryPieces ""))) := by
  have hfilter : (entries.map fun p => (p.1, textOf p.2)).filter
      (fun p => !Text.contains p.1 ".") = entries.map fun p => (p.1, textOf p.2) := by
    apply List.filter_eq_self.mpr
    intro q hq
    obtain ⟨p, hp, rfl⟩ := List.mem_map.mp hq
    rw [contains_dot (h p hp)]
    rfl
  have htexts : (entries.map fun p => (p.1, textOf p.2)).map
      (fun p => Script.propertyKey p.1 ++ ": " ++ p.2) =
        (entries.map (entryPieces "")).map textOf := by
    rw [List.map_map, List.map_map]
    apply List.map_congr_left
    intro p _
    change Script.propertyKey p.1 ++ ": " ++ textOf p.2 = textOf (entryPieces "" p)
    rw [entryPieces, textOf_cons, text_code, String.empty_append]
  rw [textOf_enclosed, ← htexts]
  change (if (List.map _ (List.filter _ _)).isEmpty then _ else _) = _
  rw [hfilter]
  simp only [List.isEmpty_map]
  split
  · rfl
  · have hopening : "z.object(\x7b " = "z.object(" ++ ("\x7b" ++ " ") := rfl
    have hclosing : " \x7d)" = " " ++ ("\x7d" ++ ")") := rfl
    rw [hopening, hclosing]
    simp only [TextRule.braces, String.append_assoc]

/-- Properties are compiled to the pieces of their expressions, under their names. -/
theorem compileAll_eq_pieces {properties : List (String × Node)}
    (h : ∀ p ∈ properties, Node.IsPlainName p.1 ∧ p.2.head.fragment = none ∧
      ∀ isOptional, c.compile isOptional none p.2 = (c.pieces isOptional p.2).map textOf) :
    c.compileAll properties =
      (c.piecesOfAll properties).map fun entries => entries.map fun p => (p.1, textOf p.2) := by
  induction properties with
  | nil =>
      rw [compileAll, piecesOfAll]
      rfl
  | cons p rest ih =>
      obtain ⟨name, child⟩ := p
      obtain ⟨⟨hname, hfragment, hchild⟩, hrest⟩ := List.forall_mem_cons.mp h
      rw [compileAll, piecesOfAll, contains_dot hname, if_neg Bool.false_ne_true, hfragment, hchild,
        ih hrest]
      cases c.pieces (!child.head.isRequired) child with
      | error fault => rfl
      | ok inner =>
          cases c.piecesOfAll rest with
          | error fault => rfl
          | ok entries => rfl

theorem forall₂_of_piecesOfAll {properties : List (String × Node)}
    {entries : List (String × List Piece)} (h : c.piecesOfAll properties = .ok entries) :
    List.Forall₂ (fun p q => q.1 = p.1 ∧ c.pieces (!p.2.head.isRequired) p.2 = .ok q.2)
      properties entries := by
  induction properties generalizing entries with
  | nil =>
      rw [piecesOfAll] at h
      cases h
      exact .nil
  | cons p rest ih =>
      obtain ⟨name, child⟩ := p
      rw [piecesOfAll] at h
      obtain ⟨inner, hinner, h⟩ := exists_of_bind h
      obtain ⟨more, hmore, h⟩ := exists_of_bind h
      cases h
      exact .cons ⟨rfl, hinner⟩ (ih hmore)

theorem compile_leaf_eq_pieces (r : Resolved) (isOptional : Bool) :
    c.compile isOptional none (.leaf r) = (c.pieces isOptional (.leaf r)).map textOf := by
  rw [pieces]
  cases c.compile isOptional none (.leaf r) with
  | error fault => rfl
  | ok code =>
      apply congrArg Except.ok
      rw [textOf_cons, textOf_nil, text_code, String.append_empty]

/-- An array has the pieces of its item. -/
theorem compile_array_eq_pieces (hc : c.registry = .builtIn) {r : Resolved} {item : Node}
    (htype : r.inferredType = "array") (hfragment : item.head.fragment = none)
    (hitem : c.compile false none item = (c.pieces false item).map textOf) (isOptional : Bool) :
    c.compile isOptional none (.array r item) =
      (c.pieces isOptional (.array r item)).map textOf := by
  rw [compile_builtIn (.array r item) hc (.inl htype), content_array hc htype, hfragment, hitem,
    pieces]
  cases c.pieces false item with
  | error fault => rfl
  | ok inner =>
      change (applyChecks (.ofBase (.array (textOf inner))) r >>= _).map _ =
        (applyChecks (.ofBase (.array (textOf inner))) r >>= _).map _
      cases hchecks : applyChecks (.ofBase (.array (textOf inner))) r with
      | error fault => rfl
      | ok b =>
          apply congrArg Except.ok
          change b.content ++ r.presence isOptional = _
          rw [Builder.content_of_array_frame (frame_of_applyChecks hchecks)]
          simp only [textOf_cons, textOf_append, text_code, textOf_nil, String.append_empty,
            String.append_assoc]

/-- An object has the pieces of its properties, with its own refinement behind its checks. -/
theorem compile_object_eq_pieces (hc : c.registry = .builtIn) {r : Resolved}
    {properties : List (String × Node)} (htype : r.inferredType = "object")
    (hnames : ∀ p ∈ properties, Node.IsPlainName p.1)
    (hall : c.compileAll properties =
      (c.piecesOfAll properties).map fun entries => entries.map fun p => (p.1, textOf p.2))
    (isOptional : Bool) : c.compile isOptional none (.object r properties) =
      (c.pieces isOptional (.object r properties)).map textOf := by
  rw [compile_builtIn (.object r properties) hc (.inr htype), content_object hc htype, hall, pieces]
  cases hentries : c.piecesOfAll properties with
  | error fault => rfl
  | ok entries =>
      let node : Node := .object r properties
      let codes := entries.map fun p => (p.1, textOf p.2)
      change (applyChecks (.ofBase (.object codes)) r >>= _).map _ =
        (applyChecks (.ofBase (.object codes)) r >>= _).map _
      cases hchecks : applyChecks (.ofBase (.object codes)) r with
      | error fault => rfl
      | ok b =>
          have hplain : ∀ q ∈ entries, Node.IsPlainName q.1 := by
            intro q hq
            obtain ⟨p, hp, hname, -⟩ := exists_of_forall₂ (forall₂_of_piecesOfAll hentries) hq
            rw [hname]
            exact hnames p hp
          have hframe := (frame_withItemRefinement b node).trans (frame_of_applyChecks hchecks)
          apply congrArg Except.ok
          change (withItemRefinement b node).content ++ r.presence isOptional = _
          rw [Builder.content_of_object_frame hframe, baseExpression_object hplain,
            join_chain_withItemRefinement b (beq_iff_eq.mpr htype : node.head.isObject = true)]
          simp only [textOf_cons, textOf_append, text_code, textOf_nil, String.append_empty,
            String.append_assoc]
          rfl

/-- The pieces of a node laid end to end are its expression. -/
theorem compile_eq_pieces (hc : c.registry = .builtIn) {address : List String} {node : Node}
    (h : Node.Laid address node) : ∀ isOptional,
      c.compile isOptional none node = (c.pieces isOptional node).map textOf := by
  induction h with
  | @leaf address r here => exact compile_leaf_eq_pieces r
  | @array address r item here below ih =>
      obtain ⟨-, -, htype⟩ := here
      exact compile_array_eq_pieces hc (htype _ rfl) (Node.fragment_head_of_laid below) (ih false)
  | @object address r properties here names below ih =>
      obtain ⟨-, -, htype⟩ := here
      apply compile_object_eq_pieces hc (htype _ rfl) names
      exact compileAll_eq_pieces fun p hp =>
        ⟨names p hp, Node.fragment_head_of_laid (below p hp), ih p hp⟩

/-- A property with a plain name, whose node is laid out from it, and without any fragment. -/
structure IsPlainProperty (p : Property) : Prop where
  name : Node.IsPlainName p.name
  override : p.override = none
  node : Node.Laid [p.name] p.node

theorem propertyExpression_eq_pieces (hc : c.registry = .builtIn) {p : Property}
    (h : IsPlainProperty p) :
    Schema.propertyExpression c p = (c.pieces p.isOptional p.node).map textOf := by
  have hfragment := Node.fragment_head_of_laid h.node
  rw [Schema.propertyExpression, Property.fragment, h.override, hfragment, Option.or_none,
    compileWith, hfragment, Option.or_none, compile_eq_pieces hc h.node]

theorem entryLines_eq_pieces (hc : c.registry = .builtIn) {properties : List Property}
    (h : ∀ p ∈ properties, IsPlainProperty p) :
    Schema.entryLines c properties = (properties.mapM fun p =>
      (c.pieces p.isOptional p.node).map fun inner =>
        entryPieces Refinement.indent (p.name, inner)).map (List.map textOf) := by
  have hfilter : (properties.filter fun p => !Text.contains p.name ".") = properties := by
    apply List.filter_eq_self.mpr
    intro p hp
    rw [contains_dot (h p hp).name]
    rfl
  rw [Schema.entryLines, hfilter]
  clear hfilter
  induction properties with
  | nil => rfl
  | cons p rest ih =>
      obtain ⟨hp, hrest⟩ := List.forall_mem_cons.mp h
      rw [List.mapM_cons, List.mapM_cons, ih hrest, propertyExpression_eq_pieces hc hp]
      cases c.pieces p.isOptional p.node with
      | error fault => rfl
      | ok inner =>
          cases List.mapM (fun p => (c.pieces p.isOptional p.node).map fun inner =>
            entryPieces Refinement.indent (p.name, inner)) rest with
          | error fault => rfl
          | ok entries =>
              apply congrArg Except.ok
              change _ :: _ = textOf (entryPieces Refinement.indent (p.name, inner)) :: _
              rw [entryPieces, textOf_cons, text_code]

/-- The pieces of a schema laid end to end are its definition. -/
theorem define_eq_pieces (hc : c.registry = .builtIn) {s : Schema}
    (h : ∀ p ∈ s.properties, IsPlainProperty p) :
    s.define c = (c.schemaPieces s.properties).map textOf := by
  rw [Schema.define, entryLines_eq_pieces hc h, schemaPieces]
  cases List.mapM (fun p : Property => (c.pieces p.isOptional p.node).map fun inner =>
    entryPieces Refinement.indent (p.name, inner)) s.properties with
  | error fault => rfl
  | ok entries =>
      apply congrArg Except.ok
      rw [textOf_append, textOf_enclosed, textOf_refinement, Schema.objectOf, List.isEmpty_map]

end Texts

end Compiler

end RuleSchema
