import RuleSchema.Text.Cut

/-!
# Literal fragments

A fragment is code that a user attaches to a field. It is placed in the output as it stands, either
after the compiled chain or instead of it. Of several fragments the first decides; appended code is
collected.
-/

namespace RuleSchema

/-- How a fragment combines with the compiled chain. -/
inductive FragmentMode where
  /-- After the chain. -/
  | append
  /-- Instead of the chain. -/
  | replace
deriving DecidableEq, Repr

/-- Literal code attached to a field. -/
structure Fragment where
  code : String
  mode : FragmentMode
deriving DecidableEq, Repr

namespace Fragment

/-- Code that is appended if it starts with a dot, blanks aside, and replaces otherwise. -/
def literal (code : String) : Fragment :=
  match Text.stripStart Text.isBlank code.toList with
  | '.' :: _ => ⟨code, .append⟩
  | _ => ⟨code, .replace⟩

/-- Appended code with its blanks collapsed and a leading dot. -/
def append (code : String) : Fragment :=
  let collapsed := Text.collapse code
  ⟨if Text.startsWith collapsed "." then collapsed else "." ++ collapsed, .append⟩

/-- Replacing code without blanks at its ends. -/
def replace (code : String) : Fragment := ⟨Text.trim code, .replace⟩

/-- Whether a fragment is appended. -/
def isAppend (f : Fragment) : Bool := f.mode == .append

/-- Whether a fragment replaces. -/
def isReplace (f : Fragment) : Bool := f.mode == .replace

/-- A collected fragment with a later one: appended code grows, and in every other case the
collected fragment stays. -/
def merge (current : Option Fragment) (incoming : Fragment) : Fragment :=
  match current with
  | none => incoming
  | some held =>
    if held.code == incoming.code then held
    else if held.isAppend && incoming.isAppend then ⟨held.code ++ incoming.code, .append⟩
    else held

/-- Whether a later fragment is ignored although it differs from the collected one. -/
def conflicts (current : Option Fragment) (incoming : Fragment) : Bool :=
  match current with
  | none => false
  | some held => held.code != incoming.code && !(held.isAppend && incoming.isAppend)

@[simp] theorem merge_none (f : Fragment) : merge none f = f := rfl

theorem merge_replace {held incoming : Fragment} (h : held.mode = .replace) :
    merge (some held) incoming = held := by
  simp [merge, isAppend, h]

end Fragment

end RuleSchema
