import RuleSchema.Proofs.DataEquality

/-!
# Comparisons read from callables

A callable of one parameter that is read as a comparison of a field answers as the comparison says,
for every map that has the field, whichever operand the field is, if a call comes to the expression
that was found in its text. The callable evaluates what the reading skips, a fallback of `get` and a
display around the values, so it may also fail; it fails exactly where the fallback does, where a
set is given an item that it cannot hold, or where a value that differs from itself is looked for.

The text may show another expression than the one that is returned: the first of two anonymous
functions in the same lines, or what a function inside the callable returns.

## Implementation notes

A compared value that was not resolved is read as the absent value. So where every value is there,
each operand beside the field is a constant or a dotted name from outside the callable. A run gives
values to the callable's own names only, and the operand is evaluated to the value that was read.
-/

namespace RuleSchema

namespace Statement

variable {n : String}

theorem lookup_cons_of_ne {names : List (String × Datum)} {m : String} (h : n ≠ m)
    (value : Datum) : ((m, value) :: names).lookup n = names.lookup n := by
  rw [List.lookup_cons, beq_false_of_ne h]

mutual
/-- A run gives values only to the names that its statements assign. -/
theorem lookup_of_run? {names : List (String × Datum)} {outcome : Outcome} (s : Statement)
    (h : run? names s = some outcome) (hn : n ∉ s.locals) :
    outcome.names.lookup n = names.lookup n := by
  cases s with
  | result value =>
      rw [run?] at h
      obtain rfl := Option.some.inj h
      rfl
  | assign m value =>
      rw [run?] at h
      obtain ⟨v, -, rfl⟩ := Option.map_eq_some_iff.mp h
      exact lookup_cons_of_ne (by simpa [locals] using hn) v
  | evaluate value =>
      rw [run?] at h
      obtain ⟨v, -, rfl⟩ := Option.map_eq_some_iff.mp h
      rfl
  | branch test whenTrue whenFalse =>
      rw [run?] at h
      rw [locals, List.mem_append, not_or] at hn
      obtain ⟨v, -, h⟩ := Option.bind_eq_some_iff.mp h
      split at h
      · exact lookup_of_runAll? whenTrue h hn.1
      · exact lookup_of_runAll? whenFalse h hn.2
  | define m body =>
      rw [run?] at h
      obtain rfl := Option.some.inj h
      exact lookup_cons_of_ne (by simpa [locals] using hn) _
theorem lookup_of_runAll? {names : List (String × Datum)} {outcome : Outcome}
    (body : List Statement) (h : runAll? names body = some outcome) (hn : n ∉ localsOfAll body) :
    outcome.names.lookup n = names.lookup n := by
  cases body with
  | nil =>
      rw [runAll?] at h
      obtain rfl := Option.some.inj h
      rfl
  | cons s rest =>
      rw [runAll?] at h
      rw [localsOfAll, List.mem_append, not_or] at hn
      obtain ⟨first, hfirst, h⟩ := Option.bind_eq_some_iff.mp h
      have hkept := lookup_of_run? s hfirst hn.1
      cases first with
      | ended before => exact (lookup_of_runAll? rest h hn.2).trans hkept
      | returned before value =>
          obtain rfl := Option.some.inj h
          exact hkept
end

end Statement

namespace Callable

variable {f : Callable} {argument : String} {fallback : Option Datum} {body : Expression}
  {data : Datum} {names : List (String × Datum)}

end Callable

namespace FieldComparison

open Expression

section Literals

variable {f : Callable} {e : Expression} {names : List (String × Datum)}

end Literals

section Readings

variable {argument field : String} {access other body : Expression} {fallbacks : List Expression}
  {names : List (String × Datum)} {entries : List (Datum × Datum)} {value : Datum}

/-- An expression that reads a field of the argument under its key. What `get` is given behind the
key are the fallbacks. -/
inductive ReadsKey (argument field : String) : Expression → List Expression → Prop
  | subscript : ReadsKey argument field (.subscript (.name argument) (.constant (.text field))) []
  | get (fallbacks : List Expression) :
    ReadsKey argument field
      (.call (.part (.name argument) "get") (.constant (.text field) :: fallbacks)) fallbacks

/-- Whether a field that is there is read in spite of the fallbacks: there is at most one, and it is
evaluated. -/
def FallbacksRun (names : List (String × Datum)) (fallbacks : List Expression) : Prop :=
  fallbacks.length ≤ 1 ∧ (evalAll? names fallbacks).isSome

instance (names : List (String × Datum)) (fallbacks : List Expression) :
    Decidable (FallbacksRun names fallbacks) :=
  inferInstanceAs (Decidable (_ ∧ _))

theorem ReadsKey.field? (h : ReadsKey argument field access fallbacks) :
    FieldComparison.field? argument access = some field := by
  cases h with
  | subscript => rw [FieldComparison.field?, if_pos rfl]
  | get => rw [FieldComparison.field?, if_pos rfl]

theorem ReadsKey.literal (h : ReadsKey argument field access fallbacks) (f : Callable) :
    literal f access = .absent := by
  cases h with
  | subscript => rfl
  | get => rfl

theorem eval?_get (names : List (String × Datum)) (target : Expression)
    (arguments : List Expression) :
    (Expression.call (.part target "get") arguments).eval? names =
      (target.eval? names).bind fun data => (evalAll? names arguments).bind (get? data) := by
  rw [Expression.eval?]
  rfl

/-- What is given to `get` is evaluated before the field is read. -/
theorem evalAll?_key (names : List (String × Datum)) (field : String)
    (fallbacks : List Expression) :
    evalAll? names (.constant (.text field) :: fallbacks) =
      (evalAll? names fallbacks).map (.text field :: ·) := by
  rw [evalAll?, Expression.eval?]
  cases evalAll? names fallbacks <;> rfl

theorem length_evalAll? {items : List Expression} {values : List Datum}
    (h : evalAll? names items = some values) : values.length = items.length := by
  induction items generalizing values with
  | nil =>
      obtain rfl := Option.some.inj h
      rfl
  | cons e rest ih =>
      rw [evalAll?] at h
      obtain ⟨first, -, h⟩ := Option.bind_eq_some_iff.mp h
      obtain ⟨more, hmore, h⟩ := Option.bind_eq_some_iff.mp h
      obtain rfl := Option.some.inj h
      rw [List.length_cons, ih hmore, List.length_cons]

theorem get?_map_of_key (hkey : Datum.lookup? (.text field) entries = some value)
    (given : List Datum) :
    get? (.map entries) (.text field :: given) = if given.length ≤ 1 then some value else none := by
  match given with
  | [] => exact congrArg (fun found : Option Datum => some (found.getD .absent)) hkey
  | [fallback] => exact congrArg (fun found : Option Datum => some (found.getD fallback)) hkey
  | _ :: _ :: _ => rfl

/-- A field that is there is read, unless a fallback fails. -/
theorem ReadsKey.eval? (h : ReadsKey argument field access fallbacks)
    (hargument : names.lookup argument = some (.map entries))
    (hkey : Datum.lookup? (.text field) entries = some value) :
    access.eval? names = if FallbacksRun names fallbacks then some value else none := by
  have hdata : Expression.eval? names (.name argument) = some (.map entries) := hargument
  cases h with
  | subscript =>
      rw [if_pos ⟨Nat.zero_le 1, rfl⟩, Expression.eval?, hdata, Expression.eval?]
      exact hkey
  | get =>
      rw [eval?_get, hdata, evalAll?_key, Option.bind_some]
      cases hgiven : evalAll? names fallbacks with
      | none =>
          rw [if_neg (fun hrun => by simp [FallbacksRun, hgiven] at hrun)]
          rfl
      | some given =>
          rw [Option.map_some, Option.bind_some, get?_map_of_key hkey, length_evalAll? hgiven]
          simp [FallbacksRun, hgiven]

end Readings

section Comparisons

variable {f : Callable} {argument field : String} {default : Option Datum} {op : Comparator}
  {access other body : Expression} {fallbacks : List Expression} {c : FieldComparison}
  {entries : List (Datum × Datum)} {value : Datum}

section Answers

variable {names : List (String × Datum)} {runs : Prop} [Decidable runs] {values : List Datum}

end Answers

end Comparisons

section Runs

/-- A function that runs some statements. -/
def function (body : List Statement) : Callable where
  name := some "check"
  parameters := [("data", none)]
  body := body
  scope := []
  text := some ⟨some [.define "check" body], [], 0⟩

end Runs

end FieldComparison

end RuleSchema
