import Mathlib.Data.List.Basic
import RuleSchema.Proofs.BuilderFrames
import RuleSchema.Proofs.DottedPaths
import RuleSchema.Proofs.WrittenIntegers

/-!
# Rules on bounds

A rule on bounds compares with an integer, or lies between two. Its parameters are integers, decimal
texts of integers, or texts that are no numbers and ask for nothing. What a builder keeps of such
rules is a list of calls, each a comparison with an integer. A new call takes the place of those
with the same comparison.
-/

namespace RuleSchema

/-- The comparisons with a bound. -/
inductive Comparison where
  | min
  | max
  | gt
  | gte
  | lt
  | lte
deriving DecidableEq

namespace Comparison

/-- The name of a comparison, as a rule and as a call. -/
def name : Comparison → String
  | min => "min"
  | max => "max"
  | gt => "gt"
  | gte => "gte"
  | lt => "lt"
  | lte => "lte"

/-- Whether a value compares with a bound. -/
def Holds {α : Type} [LE α] [LT α] (c : Comparison) (bound x : α) : Prop :=
  match c with
  | min | gte => bound ≤ x
  | max | lte => x ≤ bound
  | gt => bound < x
  | lt => x < bound

/-- The call that compares with an integer. -/
def call (c : Comparison) (n : Int) : String := "." ++ c.name ++ "(" ++ intText n ++ ")"

variable {c d : Comparison} {m n : Int}

theorem call_eq (c : Comparison) (n : Int) : c.call n =
    "." ++ c.name ++ "(" ++ (Number.whole n).text ++ Script.messageArgument none ++ ")" := by
  rw [Script.messageArgument, String.append_empty]
  rfl

theorem toList_call (c : Comparison) (n : Int) :
    (c.call n).toList = '.' :: c.name.toList ++ '(' :: ((intText n).toList ++ [')']) := by
  simp [call, String.toList_append]

theorem not_mem_name (c : Comparison) : '(' ∉ '.' :: c.name.toList := by
  cases c <;> decide

theorem not_mem_rest (n : Int) : '(' ∉ (intText n).toList ++ [')'] := by
  intro h
  rcases List.mem_append.mp h with h | h
  · exact absurd (Binary64.isNumeral_of_mem_intText h) (by simp [Binary64.IsNumeral])
  · exact absurd h (by decide)

/-- A call tells its comparison and its bound. -/
theorem call_injective (h : c.call m = d.call n) : c = d ∧ m = n := by
  have hlist := congrArg String.toList h
  rw [toList_call, toList_call,
    List.append_cons_inj_of_notMem (not_mem_name c) (not_mem_rest m)] at hlist
  obtain ⟨hname, -, hrest⟩ := hlist
  refine ⟨?_, intText_injective (String.toList_inj.mp (List.append_cancel_right hrest))⟩
  revert hname
  cases c <;> cases d <;> decide

/-- A call contains the name of a comparison and its parenthesis if the comparison is its own. -/
theorem contains_call (c d : Comparison) (n : Int) :
    Text.contains (c.call n) (d.name ++ "(") = decide (c = d) := by
  rw [Bool.eq_iff_iff, decide_eq_true_iff]
  constructor
  · intro h
    obtain ⟨before, later, hsplit⟩ := DottedPath.exists_append_of_occursIn h
    have hopen : (d.name ++ "(").toList = d.name.toList ++ ['('] := String.toList_append
    rw [toList_call, hopen, List.append_assoc, List.append_assoc, ← List.append_assoc before,
      List.singleton_append,
      List.append_cons_inj_of_notMem (not_mem_name c) (not_mem_rest n)] at hsplit
    have hsuffix : d.name.toList <:+ '.' :: c.name.toList := ⟨before, hsplit.1.symm⟩
    revert hsuffix
    cases c <;> cases d <;> decide
  · rintro rfl
    have h := DottedPath.occursIn_append ['.'] (c.name ++ "(").toList ((intText n).toList ++ [')'])
    rw [String.toList_append] at h
    rw [Text.contains, toList_call, String.toList_append]
    simpa using h

end Comparison

/-- A parameter of a rule on bounds. -/
inductive Operand where
  | whole (n : Int)
  /-- The decimal text of an integer. -/
  | written (n : Int)
  /-- A text that is no number. -/
  | other (s : String)

namespace Operand

/-- The operand as a parameter of a rule. -/
def parameter : Operand → Parameter
  | whole n => .ofInt n
  | written n => .text (intText n)
  | other s => .text s

/-- The integer that an operand stands for. -/
def value? : Operand → Option Int
  | whole n | written n => some n
  | other _ => none

/-- Integers are below `2 ^ 52` in absolute value, and a text that is no number denotes none. -/
def IsFair : Operand → Prop
  | whole n | written n => n.natAbs < 2 ^ 52
  | other s => Parameter.numberOfText? s = none

instance : DecidablePred IsFair
  | whole n | written n => inferInstanceAs (Decidable (n.natAbs < 2 ^ 52))
  | other s => inferInstanceAs (Decidable (Parameter.numberOfText? s = none))

theorem number?_parameter {o : Operand} (h : o.IsFair) :
    o.parameter.number? = .ok (o.value?.map .whole) := by
  cases o with
  | whole n => exact Parameter.number?_ofInt (Nat.lt_of_lt_of_le h (by decide))
  | written n => exact Parameter.number?_intText (Nat.lt_of_lt_of_le h (by decide))
  | other s => exact congrArg Except.ok h

theorem IsFair.natAbs_lt {o : Operand} (h : o.IsFair) {n : Int} (hn : o.value? = some n) :
    n.natAbs < 2 ^ 52 := by
  cases o with
  | whole | written =>
      cases hn
      exact h
  | other => cases hn

end Operand

/-- The rules on bounds. -/
inductive BoundRule where
  | compare (c : Comparison) (n : Operand)
  | between (low high : Operand)
  | size (n : Operand)

/-- A comparison with an integer. -/
abbrev Bound := Comparison × Int

namespace Bound

section Values

variable {α : Type} [LE α] [LT α] [IntCast α] {x : α} {bounds more : List Bound}

/-- The bound on an integer, if there is one. -/
def ofOption (c : Comparison) (n : Option Int) : List Bound := n.toList.map (c, ·)

/-- A value compares with all bounds. -/
def Satisfied (bounds : List Bound) (x : α) : Prop :=
  ∀ bound ∈ bounds, bound.1.Holds (bound.2 : α) x

/-- A value passes all comparisons with integers that a chain calls. -/
def Admits (chain : List String) (x : α) : Prop :=
  ∀ c n, Comparison.call c n ∈ chain → c.Holds (n : α) x

/-- The calls of bounds. -/
def calls (bounds : List Bound) : List String := bounds.map fun bound => bound.1.call bound.2

theorem satisfied_append : Satisfied (bounds ++ more) x ↔ Satisfied bounds x ∧ Satisfied more x :=
  List.forall_mem_append

theorem satisfied_singleton {c : Comparison} {n : Int} :
    Satisfied [(c, n)] x ↔ c.Holds (n : α) x := List.forall_mem_singleton

theorem satisfied_ofOption {c : Comparison} {n : Option Int} :
    Satisfied (ofOption c n) x ↔ ∀ i ∈ n, c.Holds (i : α) x := by
  cases n <;> simp [Satisfied, ofOption]

theorem admits_calls_iff : Admits (calls bounds) x ↔ Satisfied bounds x := by
  constructor
  · intro h bound hbound
    exact h bound.1 bound.2 (List.mem_map_of_mem hbound)
  · intro h c n hcall
    obtain ⟨bound, hbound, heq⟩ := List.mem_map.mp hcall
    obtain ⟨rfl, rfl⟩ := Comparison.call_injective heq
    exact h bound hbound

theorem admits_perm {chain other : List String} (h : chain.Perm other) :
    Admits chain x ↔ Admits other x := by
  simp only [Admits, h.mem_iff]

end Values

/-- A bound takes the place of those with its comparison. -/
def put (bounds : List Bound) (bound : Bound) : List Bound :=
  bounds.filter (·.1 ≠ bound.1) ++ [bound]

variable {b : Builder} {bounds : List Bound}

theorem filter_calls (bounds : List Bound) (c : Comparison) :
    (calls bounds).filter (! Text.contains · (c.name ++ "(")) =
      calls (bounds.filter (·.1 ≠ c)) := by
  rw [calls, List.filter_map]
  congr 1
  apply List.filter_congr
  intro bound _
  simp only [Function.comp_apply, Comparison.contains_call, decide_not]

/-- A call takes the place of those of the same comparison and of no others. -/
theorem chain_replaceCall (h : b.chain.Perm (calls bounds)) (c : Comparison) (n : Int) :
    (b.replaceCall c.name (c.call n)).chain.Perm (calls (put bounds (c, n))) := by
  have hkept := h.filter (! Text.contains · (c.name ++ "("))
  rw [filter_calls] at hkept
  rw [put, calls, List.map_append]
  exact hkept.append_right [c.call n]

end Bound

namespace BoundRule

def name : BoundRule → String
  | compare c _ => c.name
  | between .. => "between"
  | size _ => "size"

theorem methodName_name (r : BoundRule) : Builder.methodName r.name = r.name := by
  have hcompare : ∀ c : Comparison, Builder.methodName c.name = c.name := by
    rintro (_ | _ | _ | _ | _ | _) <;> decide
  cases r with
  | compare c n => exact hcompare c
  | between low high => exact (by decide : Builder.methodName "between" = "between")
  | size n => exact (by decide : Builder.methodName "size" = "size")

def operands : BoundRule → List Operand
  | compare _ n | size n => [n]
  | between low high => [low, high]

/-- The bounds that a rule asks for. -/
def bounds : BoundRule → List Bound
  | compare c n => Bound.ofOption c n.value?
  | between low high => Bound.ofOption .min low.value? ++ Bound.ofOption .max high.value?
  | size n => Bound.ofOption .min n.value? ++ Bound.ofOption .max n.value?

/-- The bounds that rules ask for in turn. -/
def asked (rules : List BoundRule) : List Bound := rules.flatMap bounds

/-- A value is as a rule has it. -/
def Admits {α : Type} [LE α] [LT α] [IntCast α] (r : BoundRule) (x : α) : Prop :=
  Bound.Satisfied r.bounds x

theorem forall_admits_iff {α : Type} [LE α] [LT α] [IntCast α] {rules : List BoundRule} {x : α} :
    (∀ r ∈ rules, r.Admits x) ↔ Bound.Satisfied (asked rules) x := List.forall_mem_flatMap.symm

def IsFair (r : BoundRule) : Prop := ∀ o ∈ r.operands, o.IsFair

instance : DecidablePred IsFair := fun r =>
  inferInstanceAs (Decidable (∀ o ∈ r.operands, o.IsFair))

/-- A rule applied to a builder, without a message. -/
def apply (r : BoundRule) : Building Bool :=
  Builder.applyRule r.name (r.operands.map fun o => some o.parameter) none

/-- Rules applied in turn; the answers tell which ones the builder knows. -/
def applyAll (rules : List BoundRule) : Building (List Bool) := rules.mapM apply

/-- The calls of a builder after rules. -/
def chainAfter (rules : List BoundRule) (b : Builder) : List String :=
  (Chain.after (applyAll rules) b).chain

end BoundRule

/-- A change succeeds with an answer, and where a builder is as the bounds asked for before have it,
it leads to one that is as these and some more bounds have it. -/
def Yields {α : Type} (Inv : List Bound → Builder → Prop) (x : Building α) (a : α)
    (more : List Bound) : Prop :=
  ∀ asked b, Inv asked b → ∃ next, x.run b = (.ok a, next) ∧ Inv (asked ++ more) next

namespace Yields

variable {α β : Type} {Inv : List Bound → Builder → Prop} {x : Building α} {f : α → Building β}
  {a : α} {answer : β} {first second : List Bound}

theorem pure (a : α) : Yields Inv (Pure.pure a) a [] := fun asked b h =>
  ⟨b, rfl, by rwa [List.append_nil]⟩

theorem bind (hx : Yields Inv x a first) (hf : Yields Inv (f a) answer second) :
    Yields Inv (x >>= f) answer (first ++ second) := by
  intro asked b h
  obtain ⟨middle, hrun, hmiddle⟩ := hx asked b h
  obtain ⟨next, hnext, hlast⟩ := hf (asked ++ first) middle hmiddle
  refine ⟨next, ?_, by rwa [← List.append_assoc]⟩
  change (ExceptT.run (x >>= f)).run b = _
  rw [ExceptT.run_bind, StateT.run_bind]
  change x.run.run b = (.ok a, middle) at hrun
  rw [hrun]
  exact hnext

/-- An action on the number that an operand stands for. -/
theorem withNumber {c : Comparison} {o : Operand} {act : Number → Building Unit} (ho : o.IsFair)
    (hact : ∀ n, o.value? = some n → Yields Inv (act (.whole n)) () [(c, n)])
    (rest : List Argument) :
    Yields Inv (do
      match ← Building.firstNumber? (some o.parameter :: rest) with
      | none => return
      | some n => act n) () (Bound.ofOption c o.value?) := by
  have hread : Building.firstNumber? (some o.parameter :: rest) =
      Pure.pure (o.value?.map Number.whole) := by
    rw [Building.firstNumber?, Argument.number?, Operand.number?_parameter ho]
    rfl
  rw [hread]
  cases hvalue : o.value? with
  | none => exact pure ()
  | some n => exact hact n hvalue

/-- A rule that the builder knows. -/
theorem apply {r : BoundRule} (method : RuleMethod)
    (hknown : ∀ asked b, Inv asked b → b.method? r.name = some method)
    (h : Yields Inv (method (r.operands.map fun o => some o.parameter) none) () r.bounds) :
    Yields Inv r.apply true r.bounds := by
  intro asked b hb
  have hlast : Yields Inv (method (r.operands.map fun o => some o.parameter) none >>= fun _ =>
      return true) true (r.bounds ++ []) := h.bind (pure true)
  rw [List.append_nil] at hlast
  obtain ⟨next, hrun, hnext⟩ := hlast asked b hb
  exact ⟨next, (Builder.run_applyRule_of_some (hknown asked b hb)).trans hrun, hnext⟩

/-- What each of the rules keeps is kept by all of them in turn. -/
theorem applyAll {rules : List BoundRule}
    (h : ∀ r ∈ rules, Yields Inv r.apply true r.bounds) :
    Yields Inv (BoundRule.applyAll rules) (rules.map fun _ => true) (BoundRule.asked rules) := by
  induction rules with
  | nil => exact pure []
  | cons r rest ih =>
      have hrest : Yields Inv (BoundRule.applyAll rest >>= fun answers => return true :: answers)
          (true :: rest.map fun _ => true) (BoundRule.asked rest ++ []) :=
        (ih fun s hs => h s (List.mem_cons_of_mem r hs)).bind (pure _)
      rw [List.append_nil] at hrest
      rw [BoundRule.applyAll, List.mapM_cons]
      exact (h r List.mem_cons_self).bind hrest

/-- The rules all succeed, and the builder is then as the bounds that they ask for have it. -/
theorem after_applyAll {rules : List BoundRule} {b : Builder}
    (h : ∀ r ∈ rules, Yields Inv r.apply true r.bounds) (hb : Inv [] b) :
    (BoundRule.applyAll rules).run b =
        (.ok (rules.map fun _ => true), Chain.after (BoundRule.applyAll rules) b) ∧
      Inv (BoundRule.asked rules) (Chain.after (BoundRule.applyAll rules) b) := by
  obtain ⟨next, hrun, hnext⟩ := applyAll h [] b hb
  obtain rfl : Chain.after (BoundRule.applyAll rules) b = next := congrArg Prod.snd hrun
  exact ⟨hrun, hnext⟩

end Yields

end RuleSchema
