import RuleSchema.Proofs.InheritedRules
import RuleSchema.Proofs.OutsideClasses
import RuleSchema.Proofs.WrittenEntries

/-!
# Patterns wrapped twice

A pattern between slashes with its flags may stand between two more slashes: it is converted without
either pair. A rule text closes a pattern at the next slash without a backslash, which is the second
one here. So of a pattern that is wrapped twice a rule text keeps two slashes and the letters behind
them, which count as flags, and what follows is read as further rules. As an item of a list the
pattern is read whole.
-/

namespace RuleSchema

namespace Script.Pattern

/-- A pattern and its flags in two pairs of slashes. -/
def wrappedTwice (body flags : String) : String := "//" ++ body ++ "/" ++ flags ++ "/"

theorem toList_wrappedTwice (body flags : String) :
    (wrappedTwice body flags).toList =
      '/' :: '/' :: (body.toList ++ '/' :: (flags.toList ++ ['/'])) := by
  simp [wrappedTwice]

/-- A pattern that is wrapped twice is converted as the pattern inside. -/
theorem parts_wrappedTwice {body flags : String} (hflags : ∀ c ∈ flags.toList, c.isAlpha = true) :
    parts (wrappedTwice body flags).toList = ⟨'/', body.toList, flags.toList⟩ := by
  have hreverse : (body.toList ++ '/' :: (flags.toList ++ ['/'])).reverse =
      '/' :: (body.toList ++ '/' :: flags.toList).reverse := by
    simp
  rw [parts, toList_wrappedTwice, unwrapTwice?, hreverse]
  simp only [Option.bind_some, List.reverse_reverse,
    DottedPath.cutLast?_append_sep _ (not_mem_of_isAlpha hflags), Option.map_some]

end Script.Pattern

namespace Segment

open Script.Pattern

/-- Two slashes and the letters at the start of a body. -/
def opening (body : String) : String := "//" ++ String.ofList (body.toList.takeWhile Text.isLetter)

/-- What follows the opening of a pattern that is wrapped twice. -/
def remnant (body flags : String) : String :=
  String.ofList (body.toList.dropWhile Text.isLetter ++ '/' :: (flags.toList ++ ['/']))

/-- What stands behind the opening of a pattern that is wrapped twice, with further rules. -/
def behindOpening (body flags more : String) : List Char :=
  body.toList.dropWhile Text.isLetter ++ '/' :: (flags.toList ++ '/' :: '|' :: more.toList)

section Wrapped

variable {name : String} (body flags more : String)

theorem toList_opening :
    (opening body).toList = '/' :: '/' :: body.toList.takeWhile Text.isLetter := by
  simp [opening]

theorem opening_last : ∀ c ∈ (opening body).toList.getLast?, Text.isBlank c = false := by
  intro c hc
  rw [toList_opening] at hc
  rcases List.mem_cons.mp (List.mem_of_getLast? hc) with rfl | hc
  · rfl
  · rcases List.mem_cons.mp hc with rfl | hc
    · rfl
    · exact isBlank_of_isLetter (List.all_eq_true.mp List.all_takeWhile c hc)

theorem length_opening_lt : (opening body).length < (wrappedTwice body flags).length := by
  have hletters := (List.takeWhile_sublist Text.isLetter (l := body.toList)).length_le
  rw [← String.length_toList, ← String.length_toList, toList_opening, toList_wrappedTwice]
  simp only [List.length_cons, List.length_append]
  omega

/-- A pattern that starts with its delimiter takes the letters behind it as flags. -/
theorem closePattern_wrapped (cs behind : List Char) :
    closePattern '/' ('/' :: (cs ++ '/' :: behind)) =
      ('/' :: cs.takeWhile Text.isLetter, cs.dropWhile Text.isLetter ++ '/' :: behind) := by
  have hslash : Text.isLetter '/' = false := by decide
  have hcut : (cs ++ '/' :: behind).takeWhile Text.isLetter = cs.takeWhile Text.isLetter ∧
      (cs ++ '/' :: behind).dropWhile Text.isLetter =
        cs.dropWhile Text.isLetter ++ '/' :: behind := by
    induction cs with
    | nil => simp [hslash]
    | cons c rest ih =>
        by_cases hc : Text.isLetter c = true
        · simpa [hc] using ih
        · simp [hc]
  rw [closePattern_delimiter _ (by decide), hcut.1, hcut.2]

/-- In a rule text a pattern that is wrapped twice is cut behind its opening. -/
theorem split_wrappedTwice (hname : name ∈ Family.wholeParameter.rules) :
    split (name ++ ":" ++ wrappedTwice body flags ++ ("|" ++ more)) =
      (name ++ ":" ++ opening body) ::
        split (String.ofList (dropPipe (behindOpening body flags more))) := by
  have hisName := RuleEntry.isName_of_wholeParameter hname
  have hhead : IsHead name.toList := by
    refine ⟨hisName.noColon, ?_⟩
    rwa [String.ofList_toList, hisName.canonical]
  have htext : (name ++ ":" ++ wrappedTwice body flags ++ ("|" ++ more)).toList =
      name.toList ++ ':' :: '/' ::
        ('/' :: (body.toList ++ '/' :: (flags.toList ++ '/' :: '|' :: more.toList))) := by
    simp [toList_wrappedTwice]
  have hdelimiter : Segment.isDelimiter '/' = true := by decide
  have hspan := hhead.patternSpan? hdelimiter
    ('/' :: (body.toList ++ '/' :: (flags.toList ++ '/' :: '|' :: more.toList)))
  rw [closePattern_wrapped, ← htext, ← toList_opening] at hspan
  have htrim := hisName.trimChars_called (Text.stripEnd_eq_self_iff.mpr (opening_last body))
  rw [split_of_span rfl hspan, Text.trim, String.toList_ofList, htrim]
  congr 1
  simp [← String.toList_inj]

theorem IsPlain.of_head {s : String} (hne : s ≠ "") (htrim : Text.trim s = s)
    (hhead : RuleName.canonical (String.ofList (Text.cutFirst ':' s.toList).1) ∉
      Family.wholeParameter.rules) (hreads : Reads [] s.toList []) : IsPlain s := by
  refine ⟨hne, htrim, fun head tail hcut => ?_, hreads⟩
  rwa [hcut] at hhead

theorem Reads.of_all {cs : List Char} (h : cs.all (! splitters.contains ·) = true) :
    Reads [] cs [] :=
  .of_forall fun c hc => by simpa using List.all_eq_true.mp h c hc

/-- A plain segment does not start with a pipe. -/
theorem dropPipe_of_reads {cs : List Char} (hreads : Reads [] cs []) (hne : cs ≠ [])
    (rest : List Char) : dropPipe (cs ++ rest) = cs ++ rest := by
  match cs, hne with
  | c :: more, _ =>
      have hpipe : c ≠ '|' := by
        rintro rfl
        cases hreads with
        | opened hopen tail => cases hopen
        | other _ _ _ hawaited tail => exact hawaited rfl rfl
      unfold dropPipe
      split
      · rename_i heq
        exact absurd (List.cons.inj heq).1 hpipe
      · rfl

/-- What follows the opening is a rule of its own where it is a plain segment. -/
theorem split_behindOpening {body flags more : String} (hplain : IsPlain (remnant body flags))
    (hmore : IsSegment more) :
    split (String.ofList (dropPipe (behindOpening body flags more))) =
      [remnant body flags, more] := by
  have hne : (remnant body flags).toList ≠ [] := fun h =>
    hplain.nonempty (String.toList_injective h)
  have hbehind : behindOpening body flags more =
      (remnant body flags).toList ++ '|' :: more.toList := by
    simp [behindOpening, remnant]
  have hjoin : String.ofList (dropPipe (behindOpening body flags more)) =
      Text.join "|" [remnant body flags, more] := by
    rw [hbehind, dropPipe_of_reads hplain.balanced hne, ← String.toList_inj, Text.toList_join]
    simp [Text.joinChars]
  rw [hjoin]
  exact split_join_pipe (List.forall_mem_cons.mpr ⟨.inl hplain, List.forall_mem_singleton.mpr hmore⟩)

end Wrapped

end Segment

namespace NormalizedRules

open Segment Script.Pattern

theorem entriesOfText_of_split {rules first rest : String} {e : RuleEntry}
    (hsplit : split rules = first :: split rest) (hparse : RuleEntry.parse first = .ok e) :
    entriesOfText rules = (entriesOfText rest).map (e :: ·) := by
  rw [entriesOfText, hsplit, List.mapM_cons, hparse, entriesOfText]
  rfl

/-- A pattern with a name and a colon before it is a rule of a list. -/
theorem isRule_pattern {name pattern : String} (hname : name ∈ Family.wholeParameter.rules)
    (hlast : ∀ c ∈ pattern.toList.getLast?, Text.isBlank c = false) :
    isRule (name ++ ":" ++ pattern) = true := by
  have htext : (name ++ ":" ++ pattern).toList = name.toList ++ ':' :: pattern.toList := by simp
  rw [isRule_iff_trimChars, htext, (RuleEntry.isName_of_wholeParameter hname).trimChars_called
    (Text.stripEnd_eq_self_iff.mpr hlast)]
  simp

theorem wrappedTwice_last (body flags : String) :
    ∀ c ∈ (wrappedTwice body flags).toList.getLast?, Text.isBlank c = false := by
  have hconcat : (wrappedTwice body flags).toList =
      ('/' :: '/' :: (body.toList ++ '/' :: flags.toList)) ++ ['/'] := by
    simp [wrappedTwice]
  intro c hc
  rw [hconcat, List.getLast?_concat] at hc
  obtain rfl := Option.some.inj hc
  rfl

/-- A pattern that is wrapped twice is converted as the pattern inside, and an item of a list has it
whole. In a rule text it is cut behind its opening: the rest is read as further rules, and the entry of
the rule that takes the pattern is never that of the list. -/
theorem wrapped_twice_cut (body flags : String) (hflags : ∀ c ∈ flags.toList, c.isAlpha = true) :
    parts (wrappedTwice body flags).toList = ⟨'/', body.toList, flags.toList⟩ ∧
      normalize (.list [.text ("regex:" ++ wrappedTwice body flags), .text "max:3"]) =
        .ok ⟨[⟨"regex", [.text (wrappedTwice body flags)]⟩, ⟨"max", [.text "3"]⟩], none, 0⟩ ∧
      split ("regex:" ++ wrappedTwice body flags ++ "|max:3") =
        ("regex:" ++ opening body) ::
          split (String.ofList (dropPipe (behindOpening body flags "max:3"))) ∧
      normalize (.text ("regex:" ++ wrappedTwice body flags ++ "|max:3")) =
        (entriesOfText (String.ofList (dropPipe (behindOpening body flags "max:3")))).map
          (fun entries => ⟨⟨"regex", [.text (opening body)]⟩ :: entries, none, 0⟩) ∧
      split ("regex:" ++ wrappedTwice body flags ++ "|max:3") ≠
        ["regex:" ++ wrappedTwice body flags, "max:3"] ∧
      opening body ≠ wrappedTwice body flags := by
  have hregex : "regex" ∈ Family.wholeParameter.rules := by decide
  have hcolon : "regex" ++ ":" = "regex:" := by decide
  have hpipe : "|" ++ "max:3" = "|max:3" := by decide
  have hsplit := split_wrappedTwice body flags "max:3" hregex
  have hopening := RuleEntry.parse_pattern hregex (opening_last body)
  rw [hcolon, hpipe] at hsplit
  rw [hcolon] at hopening
  have hne : opening body ≠ wrappedTwice body flags := by
    intro heq
    have hless := length_opening_lt body flags
    rw [heq] at hless
    exact Nat.lt_irrefl _ hless
  refine ⟨parts_wrappedTwice hflags, ?_, hsplit, ?_, ?_, hne⟩
  · -- each text of the list is one rule
    have hrule := isRule_pattern hregex (wrappedTwice_last body flags)
    have hwrapped := RuleEntry.parse_pattern hregex (wrappedTwice_last body flags)
    rw [hcolon] at hrule hwrapped
    have hmax : RuleEntry.parse "max:3" = .ok ⟨"max", [.text "3"]⟩ := by decide
    have htexts := normalize_texts ["regex:" ++ wrappedTwice body flags, "max:3"]
    rw [List.filter_cons_of_pos hrule, List.filter_cons_of_pos (by decide), List.filter_nil,
      List.mapM_cons, List.mapM_cons, List.mapM_nil, hwrapped, hmax] at htexts
    exact htexts
  · rw [normalize, entriesOfText_of_split hsplit hopening]
    cases entriesOfText (String.ofList (dropPipe (behindOpening body flags "max:3"))) <;> rfl
  · intro heq
    rw [hsplit] at heq
    have hpattern := (List.cons.inj heq).1
    exact hne (String.append_right_inj "regex:" |>.mp hpattern)

theorem isPlain_max : IsPlain "max:3" :=
  .of_head (by decide) (by decide) (by decide) (.of_all (by decide))

/-- A pattern with brackets is cut in front of them, and the brackets keep its pipe from splitting. -/
theorem bracketed_pattern_cut :
    (∀ c ∈ "i".toList, c.isAlpha = true) ∧
      split ("regex:" ++ wrappedTwice "ab(c|d)$" "i" ++ "|max:3") =
        ["regex://ab", "(c|d)$/i/", "max:3"] ∧
      normalize (.text ("regex:" ++ wrappedTwice "ab(c|d)$" "i" ++ "|max:3")) =
        .ok ⟨[⟨"regex", [.text "//ab"]⟩, ⟨"(c|d)$/i/", []⟩, ⟨"max", [.text "3"]⟩], none, 0⟩ := by
  have hflags : ∀ c ∈ "i".toList, c.isAlpha = true := List.all_eq_true.mp (by decide)
  have hremnant : remnant "ab(c|d)$" "i" = "(c|d)$/i/" := by decide
  have hplain : IsPlain (remnant "ab(c|d)$" "i") := by
    rw [hremnant]
    refine .of_head (by decide) (by decide) (by decide) ?_
    have hchars : "(c|d)$/i/".toList = ['(', 'c', '|', 'd', ')', '$', '/', 'i', '/'] := by decide
    rw [hchars]
    -- the bracket is open where the pipe is read
    refine .opened rfl (.other (by decide) rfl (by decide) (by decide) ?_)
    refine .other (by decide) rfl (by decide) (by decide) ?_
    refine .other (by decide) rfl (by decide) (by decide) (.closed (by decide) rfl ?_)
    exact .of_all (by decide)
  have hbehind := split_behindOpening hplain (.inl isPlain_max)
  rw [hremnant] at hbehind
  obtain ⟨-, -, hsplit, hentries, -, -⟩ := wrapped_twice_cut "ab(c|d)$" "i" hflags
  refine ⟨hflags, ?_, ?_⟩
  · rw [hsplit, hbehind]
    decide
  · rw [hentries, entriesOfText, hbehind]
    decide

/-- An anchored pattern that is wrapped twice: a rule text has nothing of it but two slashes. -/
theorem anchored_pattern_cut :
    wrappedTwice "^a$" "i" = "//^a$/i/" ∧
      split "regex://^a$/i/|max:3" = ["regex://", "^a$/i/", "max:3"] ∧
      split "regex://^a$/i/|max:3" ≠ ["regex://^a$/i/", "max:3"] ∧
      normalize (.text "regex://^a$/i/|max:3") =
        .ok ⟨[⟨"regex", [.text "//"]⟩, ⟨"^a$/i/", []⟩, ⟨"max", [.text "3"]⟩], none, 0⟩ ∧
      normalize (.list [.text "regex://^a$/i/", .text "max:3"]) =
        .ok ⟨[⟨"regex", [.text "//^a$/i/"]⟩, ⟨"max", [.text "3"]⟩], none, 0⟩ := by
  have hremnant : remnant "^a$" "i" = "^a$/i/" := by decide
  have hplain : IsPlain (remnant "^a$" "i") := by
    rw [hremnant]
    exact .of_head (by decide) (by decide) (by decide) (.of_all (by decide))
  have hbehind := split_behindOpening hplain (.inl isPlain_max)
  have hsplit : split "regex://^a$/i/|max:3" = ["regex://", "^a$/i/", "max:3"] := by
    have hregex : "regex" ∈ Family.wholeParameter.rules := by decide
    have hcut := split_wrappedTwice "^a$" "i" "max:3" hregex
    rwa [hbehind, hremnant] at hcut
  refine ⟨by decide, hsplit, ?_, ?_, by decide⟩
  · rw [hsplit]
    decide
  · rw [normalize, entriesOfText, hsplit]
    decide

end NormalizedRules

end RuleSchema
