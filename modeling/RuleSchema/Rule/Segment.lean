import RuleSchema.Rule.Name
import RuleSchema.Text.CharacterClass

/-!
# Segments of a rule text

A rule text holds rules between pipes. A pipe splits only outside brackets, unescaped, and outside
the delimiters of a pattern at the start of a segment. Every character of the text belongs to a
segment or to the pipes and blanks between segments.
-/

namespace RuleSchema.Segment

/-- The closer of an opening bracket. -/
def closerOf? (c : Char) : Option Char :=
  if c == '(' then some ')' else if c == '[' then some ']'
  else if c == '\x7b' then some '\x7d' else none

/-- The part of a delimited pattern up to its closing delimiter and flags, and the rest. -/
def closePattern (delimiter : Char) : List Char → List Char × List Char
  | [] => ([], [])
  | [c] => ([c], [])
  | c :: next :: rest =>
    if c == '\\' then
      let (span, after) := closePattern delimiter rest
      (c :: next :: span, after)
    else if c == delimiter then
      (c :: (next :: rest).takeWhile Text.isLetter, (next :: rest).dropWhile Text.isLetter)
    else
      let (span, after) := closePattern delimiter (next :: rest)
      (c :: span, after)

/-- Whether a character can delimit a pattern. -/
def isDelimiter (c : Char) : Bool :=
  !(Text.isAlphanumeric c || c == '\\' || c == ' ' || c == '|')

/-- A pattern rule at the start of a text and what follows it. -/
def patternSpan? (cs : List Char) : Option (List Char × List Char) :=
  match Text.cutFirst ':' cs with
  | (head, some (delimiter :: body)) =>
    if Family.wholeParameter.contains (RuleName.canonical (String.ofList head)) &&
        isDelimiter delimiter then
      let (span, rest) := closePattern delimiter body
      some (head ++ ':' :: delimiter :: span, rest)
    else none
  | _ => none

/-- A text without one leading pipe. -/
def dropPipe : List Char → List Char
  | '|' :: rest => rest
  | cs => cs

theorem closePattern_append (delimiter : Char) (cs : List Char) :
    (closePattern delimiter cs).1 ++ (closePattern delimiter cs).2 = cs := by
  fun_induction closePattern delimiter cs <;> simp_all

theorem cutFirst_append {sep : Char} {cs head tail : List Char}
    (h : Text.cutFirst sep cs = (head, some tail)) : cs = head ++ sep :: tail := by
  induction cs generalizing head with
  | nil => simp [Text.cutFirst] at h
  | cons c rest ih =>
    simp only [Text.cutFirst] at h
    split at h
    · simp_all
    · obtain ⟨rfl, tailEq⟩ := Prod.mk.inj h
      have := @ih (Text.cutFirst sep rest).1 (Prod.ext rfl tailEq)
      simpa using this

/-- A pattern span and what follows it make up the text, and the span is not empty. -/
theorem patternSpan?_append {cs span rest : List Char} (h : patternSpan? cs = some (span, rest)) :
    cs = span ++ rest ∧ span ≠ [] := by
  unfold patternSpan? at h
  split at h
  · rename_i head delimiter body cut
    split at h
    · obtain ⟨rfl, rfl⟩ := Prod.mk.inj (Option.some.inj h)
      have whole := closePattern_append delimiter body
      refine ⟨?_, by simp⟩
      rw [cutFirst_append cut]
      simp [whole]
    · simp at h
  · simp at h

theorem length_dropPipe_le (cs : List Char) : (dropPipe cs).length ≤ cs.length := by
  unfold dropPipe
  split <;> simp

theorem length_patternSpan?_lt {cs span rest : List Char}
    (h : patternSpan? cs = some (span, rest)) : (dropPipe rest).length < cs.length := by
  obtain ⟨rfl, nonempty⟩ := patternSpan?_append h
  have := length_dropPipe_le rest
  have := List.length_pos_iff.mpr nonempty
  simp only [List.length_append]
  omega

/-- The raw segments of a text, given the characters of the current segment, last first, and the
closers that are awaited, innermost first. -/
def scan (current awaited cs : List Char) : List (List Char) :=
  match h : if current.isEmpty && awaited.isEmpty then patternSpan? cs else none with
  | some (span, rest) =>
    have : (dropPipe rest).length < cs.length := by
      split at h
      · exact length_patternSpan?_lt h
      · simp at h
    span :: scan [] [] (dropPipe rest)
  | none =>
    match cs with
    | [] => [current.reverse]
    | [c] =>
      if c == '|' && awaited.isEmpty then [current.reverse, []] else [(c :: current).reverse]
    | c :: next :: rest =>
      if c == '\\' then scan (next :: c :: current) awaited rest
      else match closerOf? c with
        | some closer => scan (c :: current) (closer :: awaited) (next :: rest)
        | none =>
          if awaited.head? == some c then scan (c :: current) awaited.tail (next :: rest)
          else if c == '|' && awaited.isEmpty then
            current.reverse :: scan [] [] (next :: rest)
          else scan (c :: current) awaited (next :: rest)
termination_by cs.length

/-- The trimmed segments of a list of characters, the empty ones left out. -/
def splitChars (cs : List Char) : List (List Char) :=
  ((scan [] [] cs).map Text.trimChars).filter (! ·.isEmpty)

/-- The rules of a rule text. -/
def split (rules : String) : List String := (splitChars rules.toList).map String.ofList

end RuleSchema.Segment
