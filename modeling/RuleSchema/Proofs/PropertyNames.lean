import RuleSchema.Proofs.DottedPaths
import RuleSchema.Proofs.StringLiterals
import RuleSchema.Refinement.Access

/-!
# Names of properties in scripts

The key that declares a property, the accessor that reads it and the path of its issues each decide
on their own whether the name can stand bare. A name that stands bare must be an identifier of
scripts, and one in quotes a literal that denotes it. This holds unless a bare key ends in a line
feed or has a word character that identifiers do not have, such as a raised digit.

## Implementation notes

A path is always written with literals. An accessor has only ASCII names bare, and all of these are
identifiers, so it can only be wrong about a final line feed; a key is then wrong about it as well.
-/

namespace RuleSchema

namespace Text

/-- Characters that start names, but not those that keep to names when they are normalized. -/
def unstableStarts : List Nat :=
  [890, 1, 2744, 1, 127, 1, 8679, 2, 52161, 6, 406, 2, 116, 1, 1, 1, 1, 1, 1, 1, 1, 1, 1, 1, 1, 1,
    1, 1, 287, 2]

/-- Characters that continue names, but not those that keep to names when they are normalized. -/
def unstableParts : List Nat :=
  [890, 1, 11552, 2, 52161, 6, 406, 2, 116, 1, 1, 1, 1, 1, 1, 1, 1, 1, 1, 1, 1, 1, 1, 1]

end Text

namespace Script

open Text

/-- Characters that may start an identifier of scripts. -/
def isIdentifierStart (c : Char) : Bool :=
  c == '$' || isNameStart c || inRuns unstableStarts c.toNat

/-- Characters that may continue an identifier of scripts, two joiners without width included. -/
def isIdentifierPart (c : Char) : Bool :=
  c == '$' || c == '\u200c' || c == '\u200d' || isNamePart c || inRuns unstableParts c.toNat

/-- Whether characters are one of the first kind followed by others of the second. -/
def isSpelled (first rest : Char → Bool) : List Char → Bool
  | [] => false
  | c :: more => first c && more.all rest

/-- Whether characters are spelled so up to one line feed at their end. -/
def isSpelledFed (first rest : Char → Bool) (cs : List Char) : Bool :=
  cs.getLast? == some '\n' && isSpelled first rest cs.dropLast

/-- Whether characters are an identifier of scripts. -/
def isIdentifier (cs : List Char) : Bool := isSpelled isIdentifierStart isIdentifierPart cs

/-- A single-quoted literal that denotes a text. -/
def Denotes (lit text : String) : Prop :=
  lit.toList.head? = some '\'' ∧ StringLiteral.read? lit.toList = some (units text.toList, [])

/-- A key of an object literal for a property: its name if this is an identifier, or a literal. -/
def IsKeyOf (key name : String) : Prop :=
  key = name ∧ isIdentifier name.toList = true ∨ Denotes key name

instance (key name : String) : Decidable (IsKeyOf key name) :=
  inferInstanceAs (Decidable (_ ∧ _ ∨ _ ∧ _))

/-- An expression that reads a property of an object: by its name if this is an identifier, or by a
literal in brackets. -/
def IsMemberOf (object expression name : String) : Prop :=
  expression = object ++ "." ++ name ∧ isIdentifier name.toList = true ∨
    ∃ lit, Denotes lit name ∧ expression = object ++ "[" ++ lit ++ "]"

/-- An array of one literal. -/
def IsPathOf (path name : String) : Prop := ∃ lit, Denotes lit name ∧ path = "[" ++ lit ++ "]"

/-- The key, the accessor and the path of a property all name this property. -/
structure NamesOneProperty (name : String) : Prop where
  key : IsKeyOf (propertyKey name) name
  member : IsMemberOf "data" (Refinement.accessor name) name
  path : IsPathOf (Refinement.issuePath name) name

/-- Letters of the Latin alphabet, the underscore and the dollar sign. -/
def isKeyStart (c : Char) : Bool := isPlainStart c || c == '$'

/-- Word characters of any script and the dollar sign. -/
def isKeyPart (c : Char) : Bool := isWord c || c == '$'

/-- Letters of the Latin alphabet, the underscore and the digits. -/
def isPlainPart (c : Char) : Bool := isPlainStart c || c.isDigit

section Spelled

variable {first rest first' rest' : Char → Bool} {c : Char} {cs : List Char}

theorem isSpelled_iff : isSpelled first rest cs = true ↔
    ∃ c more, cs = c :: more ∧ first c = true ∧ ∀ d ∈ more, rest d = true := by
  cases cs with
  | nil => simp [isSpelled]
  | cons c more => simp [isSpelled]

theorem isSpelled_mono (hfirst : ∀ c, first c = true → first' c = true)
    (hrest : ∀ c, rest c = true → rest' c = true) (h : isSpelled first rest cs = true) :
    isSpelled first' rest' cs = true := by
  obtain ⟨c, more, rfl, hc, hmore⟩ := isSpelled_iff.mp h
  exact isSpelled_iff.mpr ⟨c, more, rfl, hfirst c hc, fun d hd => hrest d (hmore d hd)⟩

theorem not_mem_of_isSpelled (hfirst : first c = false) (hrest : rest c = false)
    (h : isSpelled first rest cs = true) : c ∉ cs := by
  obtain ⟨d, more, rfl, hd, hmore⟩ := isSpelled_iff.mp h
  intro hmem
  rcases List.mem_cons.mp hmem with rfl | hmem
  · rw [hfirst] at hd
    cases hd
  · rw [hmore c hmem] at hrest
    cases hrest

theorem isSpelledFed_iff : isSpelledFed first rest cs = true ↔
    ∃ base, cs = base ++ ['\n'] ∧ isSpelled first rest base = true := by
  rw [isSpelledFed, Bool.and_eq_true, beq_iff_eq]
  constructor
  · rintro ⟨hlast, hbase⟩
    exact ⟨cs.dropLast, (List.dropLast_append_getLast? _ hlast).symm, hbase⟩
  · rintro ⟨base, rfl, hbase⟩
    rw [List.dropLast_concat]
    exact ⟨List.getLast?_concat, hbase⟩

theorem isSpelledFed_mono (hfirst : ∀ c, first c = true → first' c = true)
    (hrest : ∀ c, rest c = true → rest' c = true) (h : isSpelledFed first rest cs = true) :
    isSpelledFed first' rest' cs = true := by
  obtain ⟨base, hcs, hbase⟩ := isSpelledFed_iff.mp h
  exact isSpelledFed_iff.mpr ⟨base, hcs, isSpelled_mono hfirst hrest hbase⟩

theorem feed_mem_of_isSpelledFed (h : isSpelledFed first rest cs = true) : '\n' ∈ cs := by
  obtain ⟨base, rfl, -⟩ := isSpelledFed_iff.mp h
  simp

/-- A sequence is spelled by its kinds of characters, with a line feed behind it or not. -/
theorem isSequence_iff (hfirst : first '\n' = false) (hrest : rest '\n' = false) :
    isSequence first rest cs = true ↔
      isSpelled first rest cs = true ∨ isSpelledFed first rest cs = true := by
  have hsequence : isSequence first rest cs = isSpelled first rest (dropFinalFeed cs) := rfl
  rw [hsequence, dropFinalFeed, isSpelledFed, Bool.and_eq_true, beq_iff_eq]
  split
  · rename_i hlast
    have hunfed : ¬ isSpelled first rest cs = true := fun h =>
      not_mem_of_isSpelled hfirst hrest h (List.mem_of_getLast? hlast)
    simp [hunfed, hlast]
  · rename_i hlast
    exact ⟨.inl, fun h => h.elim id fun hfed => absurd hfed.1 hlast⟩

end Spelled

section Characters

variable {c : Char}

theorem isWord_of_isPlainStart (h : isPlainStart c = true) : isWord c = true := by
  rw [isPlainStart, Bool.or_eq_true] at h
  rcases h with halpha | hunderscore
  · exact isWord_of_isLetter (isLetter_of_isAlpha halpha)
  · rw [isWord, hunderscore, Bool.or_true]

theorem isKeyPart_of_isPlainPart (h : isPlainPart c = true) : isKeyPart c = true := by
  rw [isPlainPart, Bool.or_eq_true] at h
  rcases h with hstart | hdigit
  · rw [isKeyPart, isWord_of_isPlainStart hstart, Bool.true_or]
  · simp [isKeyPart, isWord, isAlphanumeric, hdigit]

theorem isKeyStart_of_isPlainStart (h : isPlainStart c = true) : isKeyStart c = true := by
  rw [isKeyStart, h, Bool.true_or]

theorem toNat_lt_of_isPlainPart (h : isPlainPart c = true) : c.toNat < 128 := by
  rw [isPlainPart, isPlainStart, Bool.or_eq_true, Bool.or_eq_true, beq_iff_eq] at h
  rcases h with (halpha | rfl) | hdigit
  · have hcode := toNat_of_isAlpha halpha
    omega
  · decide
  · have hcode : c.toNat ≤ 57 := of_decide_eq_true (Bool.and_eq_true_iff.mp hdigit).2
    omega

theorem isPlainPart_of_isPlainStart (h : isPlainStart c = true) : isPlainPart c = true := by
  rw [isPlainPart, h, Bool.true_or]

theorem isIdentifierStart_of_isKeyStart (h : isKeyStart c = true) : isIdentifierStart c = true := by
  rw [isKeyStart, Bool.or_eq_true] at h
  rcases h with hplain | hdollar
  · have hascii := toNat_lt_of_isPlainPart (isPlainPart_of_isPlainStart hplain)
    have hname : isNameStart c = true := by rwa [isNameStart, if_pos hascii]
    rw [isIdentifierStart, hname, Bool.or_true, Bool.true_or]
  · rw [isIdentifierStart, hdollar, Bool.true_or, Bool.true_or]

theorem isIdentifierPart_of_isPlainPart (h : isPlainPart c = true) :
    isIdentifierPart c = true := by
  have hname : isNamePart c = true := by
    rw [isNamePart, if_pos (toNat_lt_of_isPlainPart h), Bool.or_right_comm]
    exact h
  rw [isIdentifierPart, hname, Bool.or_true, Bool.true_or]

theorem isIdentifierPart_of_isKeyStart (h : isKeyStart c = true) : isIdentifierPart c = true := by
  rw [isKeyStart, Bool.or_eq_true] at h
  rcases h with hplain | hdollar
  · exact isIdentifierPart_of_isPlainPart (isPlainPart_of_isPlainStart hplain)
  · simp [isIdentifierPart, hdollar]

end Characters

section Names

variable {name : String}

theorem isBareKey_iff : isBareKey name = true ↔
    isSpelled isKeyStart isKeyPart name.toList = true ∨
      isSpelledFed isKeyStart isKeyPart name.toList = true :=
  isSequence_iff (by decide) (by decide)

theorem isPlainName_iff : isPlainName name = true ↔
    isSpelled isPlainStart isPlainPart name.toList = true ∨
      isSpelledFed isPlainStart isPlainPart name.toList = true :=
  isSequence_iff (by decide) (by decide)

/-- A bare key starts like one. -/
theorem exists_head_of_isBareKey (h : isBareKey name = true) :
    ∃ c more, name.toList = c :: more ∧ isKeyStart c = true := by
  rcases isBareKey_iff.mp h with hspelled | hfed
  · obtain ⟨c, more, hname, hc, -⟩ := isSpelled_iff.mp hspelled
    exact ⟨c, more, hname, hc⟩
  · obtain ⟨base, hname, hbase⟩ := isSpelledFed_iff.mp hfed
    obtain ⟨c, more, rfl, hc, -⟩ := isSpelled_iff.mp hbase
    exact ⟨c, more ++ ['\n'], hname, hc⟩

/-- A name that is a bare key is no literal. -/
theorem not_denotes_of_isBareKey (h : isBareKey name = true) (text : String) :
    ¬ Denotes name text := by
  obtain ⟨c, more, hname, hc⟩ := exists_head_of_isBareKey h
  rintro ⟨hquote, -⟩
  rw [hname, List.head?_cons] at hquote
  rw [Option.some.inj hquote] at hc
  revert hc
  decide

theorem denotes_literal (text : String) : Denotes (literal text) text := by
  have hread := read?_literal text []
  rw [List.append_nil] at hread
  exact ⟨by simp [literal], hread⟩

/-- No line feed is in an identifier. -/
theorem not_isIdentifier_of_feed (h : '\n' ∈ name.toList) : ¬ isIdentifier name.toList = true :=
  fun hname => not_mem_of_isSpelled (by decide) (by decide) hname h

/-- A name of word characters is an identifier if all of them may stand in one. -/
theorem isIdentifier_iff_of_isSpelled (h : isSpelled isKeyStart isKeyPart name.toList = true) :
    isIdentifier name.toList = true ↔ ∀ c ∈ name.toList, isIdentifierPart c = true := by
  obtain ⟨c, more, hname, hc, -⟩ := isSpelled_iff.mp h
  rw [hname, isIdentifier, isSpelled, isIdentifierStart_of_isKeyStart hc, Bool.true_and,
    List.all_eq_true, List.forall_mem_cons]
  exact (and_iff_right (isIdentifierPart_of_isKeyStart hc)).symm

/-- A key in quotes is always right, and a bare one exactly if it is an identifier. -/
theorem isKeyOf_propertyKey_iff : IsKeyOf (propertyKey name) name ↔
    isSpelledFed isKeyStart isKeyPart name.toList = false ∧
      (isSpelled isKeyStart isKeyPart name.toList = true →
        ∀ c ∈ name.toList, isIdentifierPart c = true) := by
  unfold propertyKey
  split
  · rename_i hbare
    have hkey : IsKeyOf name name ↔ isIdentifier name.toList = true :=
      (or_iff_left (not_denotes_of_isBareKey hbare name)).trans (and_iff_right rfl)
    rw [hkey]
    rcases isBareKey_iff.mp hbare with hspelled | hfed
    · have hunfed : isSpelledFed isKeyStart isKeyPart name.toList = false :=
        Bool.eq_false_iff.mpr fun hfed =>
          not_mem_of_isSpelled (by decide) (by decide) hspelled (feed_mem_of_isSpelledFed hfed)
      rw [isIdentifier_iff_of_isSpelled hspelled, and_iff_right hunfed]
      exact ⟨fun h _ => h, fun h => h hspelled⟩
    · rw [hfed]
      exact iff_of_false (not_isIdentifier_of_feed (feed_mem_of_isSpelledFed hfed)) nofun
  · rename_i hquoted
    obtain ⟨hspelled, hfed⟩ := not_or.mp (mt isBareKey_iff.mpr hquoted)
    exact iff_of_true (.inr (denotes_literal name))
      ⟨Bool.eq_false_iff.mpr hfed, fun h => absurd h hspelled⟩

section Undotted

variable (hne : name ≠ "") (hdot : '.' ∉ name.toList)

include hne hdot

theorem pathNames_of_name : Refinement.filledNames name = [name] := by
  rw [Refinement.filledNames, splitOn, DottedPath.splitBy_of_not_mem hdot]
  simp [isEmpty_eq_false hne]

theorem accessor_of_name : Refinement.accessor name = "data" ++ Refinement.firstStep name := by
  rw [Refinement.accessor, pathNames_of_name hne hdot]
  exact String.append_empty

theorem isMemberOf_accessor_iff : IsMemberOf "data" (Refinement.accessor name) name ↔
    isSpelledFed isPlainStart isPlainPart name.toList = false := by
  rw [accessor_of_name hne hdot, Refinement.firstStep]
  split
  · rename_i hplain
    rcases isPlainName_iff.mp hplain with hspelled | hfed
    · refine iff_of_true (.inl ⟨String.append_assoc.symm, ?_⟩) ?_
      · exact isSpelled_mono
          (fun _ hc => isIdentifierStart_of_isKeyStart (isKeyStart_of_isPlainStart hc))
          (fun _ => isIdentifierPart_of_isPlainPart) hspelled
      · exact Bool.eq_false_iff.mpr fun hfed =>
          not_mem_of_isSpelled (by decide) (by decide) hspelled (feed_mem_of_isSpelledFed hfed)
    · refine iff_of_false ?_ (by simp [hfed])
      rintro (⟨-, hidentifier⟩ | ⟨lit, -, heq⟩)
      · exact not_isIdentifier_of_feed (feed_mem_of_isSpelledFed hfed) hidentifier
      · simp [← String.toList_inj] at heq
  · rename_i hbracketed
    refine iff_of_true (.inr ⟨literal name, denotes_literal name, ?_⟩) ?_
    · simp only [String.append_assoc]
    · exact Bool.eq_false_iff.mpr fun hfed => hbracketed (isPlainName_iff.mpr (.inr hfed))

theorem isPathOf_issuePath : IsPathOf (Refinement.issuePath name) name := by
  rw [Refinement.issuePath, pathNames_of_name hne hdot]
  exact ⟨literal name, denotes_literal name, rfl⟩

/-- The key, the accessor and the path of a property all name it exactly if the key has no final line
feed behind word characters and, where all of the name is word characters, none of them is foreign
to identifiers. The accessor alone is right unless a line feed follows an ASCII name, and the path
always is. -/
theorem names_one_property_iff :
    (NamesOneProperty name ↔ isSpelledFed isKeyStart isKeyPart name.toList = false ∧
      (isSpelled isKeyStart isKeyPart name.toList = true →
        ∀ c ∈ name.toList, isIdentifierPart c = true)) ∧
    (IsMemberOf "data" (Refinement.accessor name) name ↔
      isSpelledFed isPlainStart isPlainPart name.toList = false) ∧
    IsPathOf (Refinement.issuePath name) name := by
  have hmember := isMemberOf_accessor_iff hne hdot
  have hpath := isPathOf_issuePath hne hdot
  refine ⟨⟨fun h => isKeyOf_propertyKey_iff.mp h.key, fun h => ?_⟩, hmember, hpath⟩
  refine ⟨isKeyOf_propertyKey_iff.mpr h, hmember.mpr (Bool.eq_false_iff.mpr fun hfed => ?_), hpath⟩
  rw [isSpelledFed_mono (fun _ => isKeyStart_of_isPlainStart) (fun _ => isKeyPart_of_isPlainPart)
    hfed] at h
  exact Bool.noConfusion h.1

end Undotted

/-- A name with letters beyond ASCII stands bare as a key and in brackets where it is read. -/
theorem names_one_property_size :
    "größe_m2" ≠ "" ∧ '.' ∉ "größe_m2".toList ∧ propertyKey "größe_m2" = "größe_m2" ∧
      Refinement.accessor "größe_m2" = "data['größe_m2']" ∧ NamesOneProperty "größe_m2" := by
  have hne : "größe_m2" ≠ "" := by decide
  have hdot : '.' ∉ "größe_m2".toList := by decide
  have hparts : "größe_m2".toList.all isIdentifierPart = true := by decide
  exact ⟨hne, hdot, by decide, by decide,
    (names_one_property_iff hne hdot).1.mpr ⟨by decide, fun _ => List.all_eq_true.mp hparts⟩⟩

/-- A raised digit is a word character but stands in no identifier, and a final line feed is no part
of the identifier before it. -/
theorem bare_key_not_identifier :
    ¬ NamesOneProperty "area_m²" ∧ ¬ NamesOneProperty "name\n" := by
  have harea : ¬ IsKeyOf (propertyKey "area_m²") "area_m²" := by decide
  have hfeed : ¬ IsKeyOf (propertyKey "name\n") "name\n" := by decide
  exact ⟨fun h => harea h.key, fun h => hfeed h.key⟩

end Names

end Script

end RuleSchema
