import RuleSchema.Proofs.BuilderFrames
import RuleSchema.Proofs.ResolvedTrees

/-!
# Fragments and suffixes of expressions

Whatever handler compiles a node, it fills a builder first. The base expression and the chain of
this builder are the content of the node. Then come the code of an appended fragment and the
suffixes for values that may be null or missing; a replacing fragment takes the place of the
content. Truth values are enclosed in a coercion, together with their suffixes.
-/

namespace RuleSchema

/-- The suffixes that the rules of a field ask for. -/
def Resolved.presence (r : Resolved) (isOptional : Bool) : String :=
  (if r.isNullable then ".nullable()" else "") ++
    (if isOptional && !r.isRequired then ".optional()" else "")

namespace Builder

/-- The base expression of a builder and the calls that are chained onto it. -/
def content (b : Builder) : String :=
  b.baseExpression ++ (if b.rendersChain then String.join b.settle.chain else "")

/-- An expression, coerced where it is one of a truth value. -/
def enclose (isTruth : Bool) (code : String) : String :=
  if isTruth then "z.preprocess(" ++ coercion ++ ", " ++ code ++ ")" else code

/-- Whether a builder is one of truth values. -/
def isTruth (b : Builder) : Bool := b.base == .boolean

/-- A builder that says nothing yet about values that are null or missing, and is one of truth
values where that is said. -/
structure Bare (b : Builder) (isTruth : Bool) : Prop where
  isNullable : b.isNullable = false
  isOptional : b.isOptional = false
  isTruth : b.isTruth = isTruth

/-- A builder in the frame of a bare one is bare. -/
theorem Bare.of_frame {b next : Builder} {isTruth : Bool} (hb : b.Bare isTruth)
    (h : next.frame = b.frame) : next.Bare isTruth := by
  injection h with hsort hnullable hoptional
  constructor
  · exact hnullable.trans hb.isNullable
  · exact hoptional.trans hb.isOptional
  · rw [← hb.isTruth]
    unfold Builder.isTruth
    cases hnext : next.base <;> cases hbase : b.base <;>
      first | rfl | (rw [hnext, hbase] at hsort; cases hsort)

theorem bare_ofBase (base : Base) : (ofBase base).Bare (base == .boolean) := ⟨rfl, rfl, rfl⟩

/-- The items of an array come before its chain. -/
theorem content_of_array_frame {b : Builder} {item : String}
    (h : b.frame = (ofBase (.array item)).frame) :
    b.content = "z.array(" ++ item ++ ")" ++ String.join b.chain := by
  injection h with hsort
  have hbase : b.base = .array item := by
    cases hb : b.base <;> rw [hb] at hsort <;> cases hsort
    rfl
  simp only [content, settle, trimsOnRender, rendersChain, baseExpression, hbase,
    Bool.false_eq_true, if_false, if_true]

/-- The properties of an object come before its chain. -/
theorem content_of_object_frame {b : Builder} {properties : Table String}
    (h : b.frame = (ofBase (.object properties)).frame) :
    b.content = (ofBase (.object properties)).baseExpression ++ String.join b.chain := by
  injection h with hsort
  have hbase : b.base = .object properties := by
    cases hb : b.base <;> rw [hb] at hsort <;> cases hsort
    rfl
  simp only [content, settle, trimsOnRender, rendersChain, baseExpression, hbase,
    Bool.false_eq_true, if_false, if_true, ofBase]

section Rendering

variable {b : Builder} {r : Resolved} {isOptional isTruth : Bool}

theorem wrap_eq_enclose (b : Builder) (code : String) :
    render.wrap b code = enclose b.isTruth code := by
  unfold render.wrap enclose isTruth
  cases b.base <;> rfl

theorem chain_settle (b : Builder) : b.settle.chain =
    if b.trimsOnRender then (b.replaceCall "trim" ".trim()").chain else b.chain :=
  apply_ite chain _ _ _

/-- What is set when a builder is finished comes after its content. -/
theorem expression_eq_content (b : Builder) (name : Option String) (fragment : Option Fragment)
    (isNullable isOptional : Bool) :
    expression { b with
        fieldName := name
        fragment := fragment
        isNullable := isNullable
        isOptional := isOptional } =
      b.content ++ (fragment.map Fragment.code).getD "" ++
        ((if isNullable then ".nullable()" else "") ++
          (if isOptional then ".optional()" else "")) := by
  simp only [expression, content, chain_settle]
  rfl

theorem finish_of_replace (hb : b.Bare isTruth) {f : Fragment} (hf : f.isReplace = true) :
    Compiler.finish b r isOptional (some f) = f.code ++ r.presence isOptional := by
  rw [Compiler.finish, hb.isNullable, hb.isOptional, Bool.false_or, Bool.false_or]
  exact if_pos hf

theorem finish_of_not_replace (hb : b.Bare isTruth) {fragment : Option Fragment}
    (hf : fragment.any Fragment.isReplace = false) :
    Compiler.finish b r isOptional fragment = enclose isTruth
      (b.content ++ (fragment.map Fragment.code).getD "" ++ r.presence isOptional) := by
  rw [Compiler.finish, hb.isNullable, hb.isOptional, Bool.false_or, Bool.false_or,
    Resolved.presence, ← expression_eq_content b (some r.path), ← hb.isTruth, ← wrap_eq_enclose]
  cases fragment with
  | none => rfl
  | some f =>
      have hkeep : f.isReplace = false := hf
      exact if_neg (by rw [hkeep]; exact Bool.false_ne_true)

end Rendering

end Builder

namespace Compiler

open Builder

/-- The builder that a handler fills for a node, before the fragment and the suffixes. -/
def fill (c : Compiler) (h : Handler) (node : Node) (below : Below) : Except Fault Builder :=
  let r := node.head
  match h with
  | .oneOf => .ok (withEnumerationMessage (ofValues (parameterTexts (r.check? "in"))) r)
  | .enumeration => .ok (withEnumerationMessage (enumerationBuilder r) r)
  | .reference => referenceBuilder c.names r
  | .universal => do
    let b ← applyChecks (← builderFor c.builders r below) r
    return withItemRefinement b node
  | .amount .. => amountBuilder r

/-- What lies below a node, compiled. -/
def below (c : Compiler) : Node → Below
  | .leaf _ => ⟨.ok none, .ok []⟩
  | .array _ item => ⟨(c.compile false item.head.fragment item).map some, .ok []⟩
  | .object _ properties => ⟨.ok none, c.compileAll properties⟩

/-- The content of a node: the expression without any fragment and suffixes. -/
def content (c : Compiler) (node : Node) : Except Fault String := do
  let h ← c.registry.forField? node.head
  return (← c.fill h node (c.below node)).content

/-- Whether a handler compiles a field with the builder of truth values. -/
def buildsTruth (c : Compiler) (h : Handler) (r : Resolved) : Bool :=
  h == .universal && !r.isArray && !r.isObject && (ofType c.builders r.inferredType).isTruth

/-- Whether a field is compiled with the builder of truth values. -/
def isTruth (c : Compiler) (r : Resolved) : Bool :=
  match c.registry.forField? r with
  | .ok h => c.buildsTruth h r
  | .error _ => false

section Handlers

variable {c : Compiler} {h : Handler} {node : Node} {below : Below} {b : Builder} {r : Resolved}

theorem frame_withEnumerationMessage (b : Builder) (r : Resolved) :
    (withEnumerationMessage b r).frame = b.frame := by
  unfold withEnumerationMessage
  dsimp only
  generalize (if r.isRequired then Text.nonEmpty? (r.message? "required") else none) = message
  split
  · simp only [frame, Base.sort, *]
  · rfl

theorem frame_withItemRefinement (b : Builder) (node : Node) :
    (withItemRefinement b node).frame = b.frame := by
  unfold withItemRefinement
  dsimp only
  split
  · split <;> rfl
  · rfl

theorem frame_ofName (name : String) :
    (ofName name).frame = (ofBase (.enumeration [] none none)).frame := by
  unfold ofName
  split <;> rfl

theorem frame_enumerationBuilder (r : Resolved) :
    (enumerationBuilder r).frame = (ofBase (.enumeration [] none none)).frame := by
  unfold enumerationBuilder
  split
  · exact frame_ofName _
  · rfl
  · rfl

theorem frame_amountBuilder (hb : amountBuilder r = .ok b) :
    b.frame = (ofBase (.number none)).frame := by
  obtain ⟨checked, hchecked, hb⟩ := exists_of_bind hb
  have hdecimal := NumberRule.framed_decimal [some (.ofInt 2)] none checked
  rw [frame_of_applyChecks hchecked] at hdecimal
  change ((NumberRule.decimal [some (.ofInt 2)] none).run checked).2.frame = _ at hdecimal
  split at hb
  · rename_i hrun
    rw [hrun] at hdecimal
    cases hb
    exact hdecimal
  · cases hb

theorem bare_referenceBuilder {names : SchemaNames} (hb : referenceBuilder names r = .ok b) :
    b.Bare false := by
  unfold referenceBuilder at hb
  dsimp only at hb
  split at hb
  · exact (bare_ofBase _).of_frame (frame_of_applyChecks hb)
  · cases hb
    exact bare_ofBase _

theorem bare_ofType (builders : Table Base) (inferred : String) :
    (ofType builders inferred).Bare (ofType builders inferred).isTruth := by
  unfold ofType
  split <;> exact ⟨rfl, rfl, rfl⟩

theorem bare_builderFor {builders : Table Base} (hb : builderFor builders r below = .ok b) :
    b.Bare (!r.isArray && !r.isObject && (ofType builders r.inferredType).isTruth) := by
  unfold builderFor at hb
  cases harray : r.isArray with
  | true =>
      rw [harray, if_pos rfl] at hb
      obtain ⟨item, -, rfl⟩ := exists_of_map hb
      exact bare_ofBase _
  | false =>
      rw [harray, if_neg Bool.false_ne_true] at hb
      cases hobject : r.isObject with
      | true =>
          rw [hobject, if_pos rfl] at hb
          obtain ⟨properties, -, rfl⟩ := exists_of_map hb
          exact bare_ofBase _
      | false =>
          rw [hobject, if_neg Bool.false_ne_true] at hb
          cases hb
          exact bare_ofType _ _

/-- The builder that a handler fills is bare, and one of truth values only for their type. -/
theorem bare_fill (hb : c.fill h node below = .ok b) : b.Bare (c.buildsTruth h node.head) := by
  cases h with
  | oneOf =>
      cases hb
      exact (bare_ofBase _).of_frame (frame_withEnumerationMessage _ _)
  | enumeration =>
      cases hb
      exact (bare_ofBase _).of_frame
        ((frame_withEnumerationMessage _ _).trans (frame_enumerationBuilder _))
  | reference => exact bare_referenceBuilder hb
  | universal =>
      obtain ⟨start, hstart, hb⟩ := exists_of_bind hb
      obtain ⟨checked, hchecked, hb⟩ := exists_of_bind hb
      cases hb
      apply (bare_builderFor hstart).of_frame
      exact (frame_withItemRefinement _ _).trans (frame_of_applyChecks hchecked)
  | amount => exact (bare_ofBase _).of_frame (frame_amountBuilder hb)

end Handlers

section Nodes

variable {c : Compiler} {node : Node} {isOptional : Bool}

theorem compile_eq_dispatch (c : Compiler) (isOptional : Bool) (fragment : Option Fragment)
    (node : Node) :
    c.compile isOptional fragment node = c.dispatch node (c.below node) isOptional fragment := by
  cases node with
  | leaf r => rw [compile, below]
  | array r item => rw [compile, below]
  | object r properties => rw [compile, below]

/-- A handler finishes the builder that it fills; only for a replacing fragment does it leave
that out where it compiles every type. -/
theorem handle_eq_fill (h : Handler) (below : Below) {fragment : Option Fragment}
    (hf : fragment.any Fragment.isReplace = false) :
    c.handle h node below isOptional fragment =
      (c.fill h node below).map fun b => finish b node.head isOptional fragment := by
  cases h with
  | universal =>
      unfold handle universal fill
      dsimp only
      rw [hf, if_neg Bool.false_ne_true]
      cases builderFor c.builders node.head below with
      | error fault => rfl
      | ok start =>
          change (applyChecks start node.head >>= _) = (applyChecks start node.head >>= _).map _
          cases applyChecks start node.head with
          | error fault => rfl
          | ok checked => rfl
  | oneOf => rfl
  | enumeration => rfl
  | reference => rfl
  | amount => rfl

/-- A replacing fragment takes the place of the content whatever the handler. -/
theorem handle_of_replace {h : Handler} {below : Below} {f : Fragment} (hf : f.isReplace = true)
    {code : String} (hcode : c.handle h node below isOptional (some f) = .ok code) :
    code = f.code ++ node.head.presence isOptional := by
  have hfill : ∀ filled : Except Fault Builder, (∀ b, filled = .ok b → ∃ isTruth, b.Bare isTruth) →
      filled.map (fun b => finish b node.head isOptional (some f)) = .ok code →
      code = f.code ++ node.head.presence isOptional := by
    intro filled hbare hmap
    obtain ⟨b, hb, rfl⟩ := exists_of_map hmap
    obtain ⟨isTruth, hb⟩ := hbare b hb
    exact finish_of_replace hb hf
  cases h with
  | universal =>
      apply hfill (.ok (ofType c.builders node.head.inferredType))
      · intro b hb
        cases hb
        exact ⟨_, bare_ofType _ _⟩
      · rw [← hcode]
        exact (if_pos hf).symm
  | oneOf => exact hfill (c.fill .oneOf node below) (fun b hb => ⟨_, bare_fill hb⟩) hcode
  | enumeration =>
      exact hfill (c.fill .enumeration node below) (fun b hb => ⟨_, bare_fill hb⟩) hcode
  | reference => exact hfill (c.fill .reference node below) (fun b hb => ⟨_, bare_fill hb⟩) hcode
  | amount name priority own =>
      exact hfill (c.fill (.amount name priority own) node below) (fun b hb => ⟨_, bare_fill hb⟩)
        hcode

/-- Without a replacing fragment an expression is the content, the code of the fragment and the
suffixes. -/
theorem compile_eq_content {fragment : Option Fragment}
    (hf : fragment.any Fragment.isReplace = false) :
    c.compile isOptional fragment node = (c.content node).map fun code =>
      enclose (c.isTruth node.head)
        (code ++ (fragment.map Fragment.code).getD "" ++ node.head.presence isOptional) := by
  rw [compile_eq_dispatch, dispatch, content, isTruth]
  cases c.registry.forField? node.head with
  | error fault => rfl
  | ok h =>
      change c.handle h node (c.below node) isOptional fragment =
        (c.fill h node (c.below node) >>= _).map _
      rw [handle_eq_fill h _ hf]
      cases hb : c.fill h node (c.below node) with
      | error fault => rfl
      | ok b => exact congrArg Except.ok (finish_of_not_replace (bare_fill hb) hf)

theorem builtIn_eq : Registry.builtIn = [.oneOf, .enumeration, .reference, .universal] := by
  decide

/-- Of the built-in handlers only the last one compiles arrays and objects. -/
theorem forField?_builtIn {r : Resolved}
    (h : r.inferredType = "array" ∨ r.inferredType = "object") :
    Registry.builtIn.forField? r = .ok .universal := by
  have hpassed : Handler.accepts .oneOf r = false ∧ Handler.accepts .enumeration r = false ∧
      Handler.accepts .reference r = false := by
    rcases h with h | h
    all_goals
      simp only [Handler.accepts, Handler.acceptsType, h]
      exact ⟨rfl, by decide, by decide⟩
  obtain ⟨honeOf, henumeration, hreference⟩ := hpassed
  simp only [Registry.forField?, builtIn_eq, List.find?_cons, Handler.handling_accepts, honeOf,
    henumeration, hreference]
  rfl

theorem content_builtIn (node : Node) (hc : c.registry = .builtIn)
    (h : node.head.inferredType = "array" ∨ node.head.inferredType = "object") :
    c.content node = do
      let start ← builderFor c.builders node.head (c.below node)
      let b ← applyChecks start node.head
      return (withItemRefinement b node).content := by
  rw [content, hc, forField?_builtIn h]
  change (builderFor c.builders node.head (c.below node) >>= _) >>= _ = _
  cases builderFor c.builders node.head (c.below node) with
  | error fault => rfl
  | ok start =>
      change (applyChecks start node.head >>= _) >>= _ = applyChecks start node.head >>= _
      cases applyChecks start node.head with
      | error fault => rfl
      | ok b => rfl

/-- The content of an array: its items, then its checks. -/
theorem content_array (hc : c.registry = .builtIn) {r : Resolved} (h : r.inferredType = "array")
    (item : Node) : c.content (.array r item) = do
      let code ← c.compile false item.head.fragment item
      let b ← applyChecks (.ofBase (.array code)) r
      return b.content := by
  have harray : r.isArray = true := beq_iff_eq.mpr h
  have hitem : ∀ b, withItemRefinement b (.array r item) = b := by
    intro b
    have hobject : r.isObject = false := by
      rw [Resolved.isObject, h]
      rfl
    change (if r.isObject && _ then _ else b) = b
    rw [hobject]
    rfl
  rw [content_builtIn (.array r item) hc (.inl h)]
  simp only [hitem]
  change (if r.isArray then _ else _) >>= _ = _
  rw [harray, if_pos rfl]
  change ((c.compile false item.head.fragment item).map some).map _ >>= _ = _
  cases c.compile false item.head.fragment item with
  | error fault => rfl
  | ok code => rfl

/-- The content of an object: its properties, then its checks and, for the items of an array, the
branches between the properties. -/
theorem content_object (hc : c.registry = .builtIn) {r : Resolved} (h : r.inferredType = "object")
    (properties : List (String × Node)) : c.content (.object r properties) = do
      let codes ← c.compileAll properties
      let b ← applyChecks (.ofBase (.object codes)) r
      return (withItemRefinement b (.object r properties)).content := by
  have harray : r.isArray = false := by
    rw [Resolved.isArray, h]
    rfl
  have hobject : r.isObject = true := beq_iff_eq.mpr h
  rw [content_builtIn (.object r properties) hc (.inr h)]
  change (if r.isArray then _ else if r.isObject then _ else _) >>= _ = _
  rw [harray, hobject, if_neg Bool.false_ne_true, if_pos rfl]
  change (c.compileAll properties).map _ >>= _ = _
  cases c.compileAll properties with
  | error fault => rfl
  | ok codes => rfl

/-- Arrays and objects are never coerced. -/
theorem isTruth_builtIn (hc : c.registry = .builtIn) {r : Resolved}
    (h : r.inferredType = "array" ∨ r.inferredType = "object") : c.isTruth r = false := by
  rw [isTruth, hc, forField?_builtIn h]
  change (!r.isArray && !r.isObject && _) = false
  rcases h with h | h
  · rw [Resolved.isArray, h]
    rfl
  · rw [Resolved.isObject, h, beq_self_eq_true, Bool.not_true, Bool.and_false, Bool.false_and]

/-- Arrays and objects are compiled to their content and their suffixes. -/
theorem compile_builtIn (node : Node) (hc : c.registry = .builtIn)
    (h : node.head.inferredType = "array" ∨ node.head.inferredType = "object") (isOptional : Bool) :
    c.compile isOptional none node =
      (c.content node).map fun code => code ++ node.head.presence isOptional := by
  rw [compile_eq_content rfl, isTruth_builtIn hc h]
  simp only [enclose, Bool.false_eq_true, if_false, Option.map_none, Option.getD_none,
    String.append_empty]

/-- Fragments and suffixes act in the same way on every node without a fragment of its own. -/
theorem compileWith_fragment (c : Compiler) (node : Node) (h : node.head.fragment = none)
    (isOptional : Bool) :
    c.compileWith isOptional none node = (c.content node).map (fun code =>
      enclose (c.isTruth node.head) (code ++ node.head.presence isOptional)) ∧
    ∀ f : Fragment,
      (f.isAppend = true → c.compileWith isOptional (some f) node = (c.content node).map fun code =>
        enclose (c.isTruth node.head) (code ++ f.code ++ node.head.presence isOptional)) ∧
      (f.isReplace = true → ∀ code, c.compileWith isOptional (some f) node = .ok code →
        code = f.code ++ node.head.presence isOptional) := by
  refine ⟨?_, fun f => ⟨fun hf => ?_, fun hf code hcode => ?_⟩⟩
  · rw [compileWith, h, Option.or_none, compile_eq_content rfl]
    simp only [Option.map_none, Option.getD_none, String.append_empty]
  · have hkeep : (some f).any Fragment.isReplace = false := by
      rw [Fragment.isAppend, beq_iff_eq] at hf
      rw [Option.any_some, Fragment.isReplace, hf]
      rfl
    rw [compileWith, Option.some_or, compile_eq_content hkeep]
    rfl
  · rw [compileWith, Option.some_or, compile_eq_dispatch, dispatch] at hcode
    obtain ⟨handler, -, hcode⟩ := exists_of_bind hcode
    exact handle_of_replace hf hcode

/-- A truth value that may be null, with the code of a fragment before its suffixes, or instead of
everything else. -/
theorem compileWith_fragment_agreed :
    let node : Node := .leaf ⟨"agreed", [⟨"nullable", [], none, false, true⟩], "boolean", none⟩
    builtIn.compileWith true (some ⟨".default(false)", .append⟩) node =
        .ok (enclose true "z.boolean().default(false).nullable().optional()") ∧
      ∀ code, builtIn.compileWith true (some ⟨"z.any()", .replace⟩) node = .ok code →
        code = "z.any().nullable().optional()" := by
  intro node
  obtain ⟨-, hfragment⟩ := compileWith_fragment builtIn node rfl true
  have hcontent : builtIn.content node = .ok "z.boolean()" := by decide +kernel
  have htruth : builtIn.isTruth node.head = true := by decide +kernel
  have hpresence : node.head.presence true = ".nullable().optional()" := by decide +kernel
  constructor
  · rw [(hfragment ⟨".default(false)", .append⟩).1 rfl, hcontent, htruth, hpresence]
    rfl
  · exact (hfragment ⟨"z.any()", .replace⟩).2 rfl

end Nodes

end Compiler

end RuleSchema
