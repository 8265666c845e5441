import RuleSchema.Text.Blank

/-!
# Cutting and joining texts

Splitting at characters, cutting at a first or last separator, searching and replacing. All
functions walk a list of characters once; the versions on `String` wrap them. A line of a text ends
at any line boundary of Unicode; a carriage return and a line feed together end one line, and text
after the last boundary is a line of its own only if there is some.
-/

namespace RuleSchema.Text

/-- The pieces between the characters that satisfy `p`; always at least one. -/
def splitBy (p : Char → Bool) : List Char → List (List Char)
  | [] => [[]]
  | c :: rest =>
    if p c then [] :: splitBy p rest
    else match splitBy p rest with
      | [] => [[c]]
      | piece :: pieces => (c :: piece) :: pieces

/-- The pieces of a text between the separators `sep`. -/
def splitOn (sep : Char) (s : String) : List String :=
  (splitBy (· == sep) s.toList).map String.ofList

/-- Characters at which a line ends. -/
def isLineEnd (c : Char) : Bool :=
  let n := c.toNat
  (10 ≤ n && n ≤ 13) || (28 ≤ n && n ≤ 30) || n == 0x85 || n == 0x2028 || n == 0x2029

/-- A line put in front of the lines that follow. -/
def consChar (c : Char) : List (List Char) → List (List Char)
  | [] => [[c]]
  | line :: lines => (c :: line) :: lines

/-- The lines of a list of characters, without their ends. -/
def lineList : List Char → List (List Char)
  | [] => []
  | '\r' :: '\n' :: rest => [] :: lineList rest
  | c :: rest => if isLineEnd c then [] :: lineList rest else consChar c (lineList rest)

/-- The lines of a text, without their ends. -/
def lines (s : String) : List String := (lineList s.toList).map String.ofList

/-- Lists laid end to end with a separator between them. -/
def joinChars (sep : List Char) : List (List Char) → List Char
  | [] => []
  | [piece] => piece
  | piece :: rest => piece ++ sep ++ joinChars sep rest

/-- Texts laid end to end with a separator between them. -/
def join (sep : String) : List String → String
  | [] => ""
  | [piece] => piece
  | piece :: rest => piece ++ sep ++ join sep rest

/-- The non-empty pieces between blanks. -/
def words (cs : List Char) : List (List Char) := (splitBy isBlank cs).filter (! ·.isEmpty)

/-- A text with every stretch of blanks reduced to one space and none at either end. -/
def collapse (s : String) : String :=
  String.ofList (joinChars [' '] (words s.toList))

/-- What stands before the first `sep`, and what stands after it if there is one. -/
def cutFirst (sep : Char) : List Char → List Char × Option (List Char)
  | [] => ([], none)
  | c :: rest =>
    if c == sep then ([], some rest)
    else ((cutFirst sep rest).1.cons c, (cutFirst sep rest).2)

/-- What stands before and after the last `sep`, if there is one. -/
def cutLast? (sep : Char) : List Char → Option (List Char × List Char)
  | [] => none
  | c :: rest =>
    match cutLast? sep rest with
    | some (before, after) => some (c :: before, after)
    | none => if c == sep then some ([], rest) else none

/-- What stands before and after the first occurrence of `needle`, if there is one. -/
def cutOn? (needle : List Char) (cs : List Char) : Option (List Char × List Char) :=
  if needle.isPrefixOf cs then some ([], cs.drop needle.length)
  else match cs with
    | [] => none
    | c :: rest => (cutOn? needle rest).map fun (before, after) => (c :: before, after)

/-- Whether `needle` occurs in a list of characters. -/
def occursIn (needle cs : List Char) : Bool :=
  needle.isPrefixOf cs || match cs with
    | [] => false
    | _ :: rest => occursIn needle rest

/-- Whether a text contains another. -/
def contains (s needle : String) : Bool := occursIn needle.toList s.toList

/-- Whether a text starts with another. -/
def startsWith (s start : String) : Bool := start.toList.isPrefixOf s.toList

/-- Whether a text ends with another. -/
def endsWith (s tail : String) : Bool := tail.toList.isSuffixOf s.toList

/-- Replacement from left to right, after `skip` characters of an occurrence already replaced. -/
def replaceFrom (needle by' : List Char) : Nat → List Char → List Char
  | _, [] => []
  | skip + 1, _ :: rest => replaceFrom needle by' skip rest
  | 0, c :: rest =>
    if needle.isPrefixOf (c :: rest) then by' ++ replaceFrom needle by' (needle.length - 1) rest
    else c :: replaceFrom needle by' 0 rest

/-- Replacement of every occurrence of a non-empty `needle`, from left to right. -/
def replaceChars (needle by' cs : List Char) : List Char := replaceFrom needle by' 0 cs

/-- A text with every occurrence of a non-empty `needle` replaced. -/
def replace (s needle by' : String) : String :=
  String.ofList (replaceChars needle.toList by'.toList s.toList)

/-- A text without its first `n` characters. -/
def drop (n : Nat) (s : String) : String := String.ofList (s.toList.drop n)

/-- Whether a text is empty. -/
def isEmpty (s : String) : Bool := s.toList.isEmpty

/-- A text that is there and not empty. -/
def nonEmpty? (s : Option String) : Option String := s.filter (! isEmpty ·)

theorem isEmpty_eq_false_iff {s : String} : isEmpty s = false ↔ s ≠ "" := by
  rw [isEmpty, List.isEmpty_eq_false_iff, Ne, String.toList_eq_nil_iff]

theorem isEmpty_eq_false {s : String} (h : s ≠ "") : isEmpty s = false := isEmpty_eq_false_iff.mpr h

theorem startsWith_iff {s start : String} :
    startsWith s start = true ↔ ∃ rest, s = start ++ rest := by
  rw [startsWith, List.isPrefixOf_iff_prefix]
  constructor
  · rintro ⟨rest, hrest⟩
    exact ⟨String.ofList rest, String.toList_injective (by simp [hrest])⟩
  · rintro ⟨rest, rfl⟩
    exact ⟨rest.toList, String.toList_append.symm⟩

theorem startsWith_append (start rest : String) : startsWith (start ++ rest) start = true :=
  startsWith_iff.mpr ⟨rest, rfl⟩

theorem drop_append (start rest : String) : drop start.length (start ++ rest) = rest := by
  rw [drop, String.toList_append, ← String.length_toList, List.drop_left, String.ofList_toList]

theorem splitBy_ne_nil (p : Char → Bool) (cs : List Char) : splitBy p cs ≠ [] := by
  cases cs with
  | nil => simp [splitBy]
  | cons c rest =>
    simp only [splitBy]
    split
    · simp
    · split <;> simp

/-- No piece of a split contains a separator. -/
theorem not_sep_of_mem_splitBy {p : Char → Bool} {cs piece : List Char} {c : Char}
    (mem : piece ∈ splitBy p cs) (inPiece : c ∈ piece) : p c = false := by
  induction cs generalizing piece with
  | nil => simp_all [splitBy]
  | cons d rest ih =>
    simp only [splitBy] at mem
    split at mem
    · rcases List.mem_cons.mp mem with rfl | later
      · simp at inPiece
      · exact ih later inPiece
    · rename_i hd
      split at mem
      · simp_all
      · rename_i first pieces eq
        rcases List.mem_cons.mp mem with rfl | later
        · rcases List.mem_cons.mp inPiece with rfl | inFirst
          · simpa using hd
          · exact ih (eq ▸ List.mem_cons_self) inFirst
        · exact ih (eq ▸ List.mem_cons_of_mem _ later) inPiece

/-- Joining the pieces of a split with its separator gives the text back. -/
theorem joinChars_splitBy (sep : Char) (cs : List Char) :
    joinChars [sep] (splitBy (· == sep) cs) = cs := by
  induction cs with
  | nil => rfl
  | cons c rest ih =>
    simp only [splitBy]
    by_cases hc : c = sep
    · subst hc
      cases hr : splitBy (· == c) rest with
      | nil => exact absurd hr (splitBy_ne_nil _ _)
      | cons piece pieces => rw [hr] at ih; simp [joinChars, ih]
    · cases hr : splitBy (· == sep) rest with
      | nil => exact absurd hr (splitBy_ne_nil _ _)
      | cons piece pieces =>
        rw [hr] at ih
        cases pieces with
        | nil => simp_all [joinChars]
        | cons next more => simp_all [joinChars]

theorem toList_join (sep : String) (pieces : List String) :
    (join sep pieces).toList = joinChars sep.toList (pieces.map String.toList) := by
  induction pieces with
  | nil => rfl
  | cons piece rest ih =>
    cases rest with
    | nil => rfl
    | cons next more =>
      rw [join, String.toList_append, String.toList_append, ih]
      · rfl
      · exact List.cons_ne_nil _ _

theorem cutOn?_isSome (needle cs : List Char) :
    (cutOn? needle cs).isSome = occursIn needle cs := by
  induction cs with
  | nil => by_cases h : needle.isPrefixOf [] <;> simp [cutOn?, occursIn, h]
  | cons c rest ih =>
    by_cases h : needle.isPrefixOf (c :: rest) <;> simp [cutOn?, occursIn, h, ih]

end RuleSchema.Text
