import RuleSchema.Proofs.DottedPaths
import RuleSchema.Proofs.JoinedRules
import RuleSchema.Proofs.PatternBrackets

/-!
# Patterns outside of their classes

A class starts at an opening bracket on its own and ends at the next closing bracket on its own. The
brackets between which a pattern is rewritten need not be those of a class, as one behind a
backslash counts too. What stands outside of the classes is kept exactly when no character there
loses its backslash between such brackets.
-/

namespace RuleSchema.Script.Pattern

/-- Whether a class is open behind a token. -/
def classStep (open? : Bool) (t : Token) : Bool :=
  if open? then t ≠ .plain ']' else t = .plain '['

/-- Whether a class is open behind tokens. A class that is not closed runs to the end. -/
def inClass (before : List Token) : Bool := before.foldl classStep false

/-- Where the next token stands among the brackets that are looked for. -/
def placeBehind (before : List Token) : Place := before.foldl Place.next .outside

/-- The texts in front of, between and behind classes. -/
def outsideParts (open? : Bool) : List Token → List (List Char)
  | [] => if open? then [] else [[]]
  | t :: ts =>
    if open? then outsideParts (classStep true t) ts
    else if t = .plain '[' then [] :: outsideParts true ts
    else (outsideParts false ts).modifyHead (t.spell ++ ·)

/-- The parts of a pattern outside of its classes. -/
def outside (cs : List Char) : List (List Char) := outsideParts false (tokens cs)

section Parts

variable {open? : Bool} {p : Place} {t : Token} {ts : List Token} {c : Char}

theorem outsideParts_ne_nil (ts : List Token) : outsideParts false ts ≠ [] := by
  cases ts with
  | nil => simp [outsideParts]
  | cons t ts =>
      rw [outsideParts, if_neg (by simp)]
      split
      · simp
      · simpa using outsideParts_ne_nil ts

/-- A rewritten token is a bracket or a slash on its own only if it was one. -/
theorem rewritten_eq_plain_iff (hc : c ≠ '.' ∧ c ≠ '-') :
    (if p.Loses t ts then Token.plain t.char else t) = .plain c ↔ t = .plain c := by
  by_cases h : p.Loses t ts
  · have hloosened := Token.loosened_of_loses h.2.2
    rw [if_pos h, ← hloosened, Token.loosened_eq_plain_iff hc]
  · rw [if_neg h]

theorem classStep_rewritten :
    classStep open? (if p.Loses t ts then Token.plain t.char else t) = classStep open? t := by
  simp only [classStep, ne_eq, rewritten_eq_plain_iff (c := ']') (by decide),
    rewritten_eq_plain_iff (c := '[') (by decide)]

/-- What holds wherever a token stands in a list holds of the first one and behind it. -/
theorem forall_split_cons {P : List Token → Token → List Token → Prop} :
    (∀ before u behind, t :: ts = before ++ u :: behind → P before u behind) ↔
      P [] t ts ∧ ∀ before u behind, ts = before ++ u :: behind → P (t :: before) u behind := by
  constructor
  · intro h
    exact ⟨h [] t ts rfl, fun before u behind hts => h (t :: before) u behind (by rw [hts]; rfl)⟩
  · rintro ⟨hfirst, hrest⟩ (_ | ⟨v, before⟩) u behind hts
    · obtain ⟨rfl, rfl⟩ := List.cons.inj hts
      exact hfirst
    · obtain ⟨rfl, rfl⟩ := List.cons.inj hts
      exact hrest before u behind rfl

/-- A text that starts with a backslash is not the text without it. -/
theorem modifyHead_spell_ne {loser : Token} (h : p.Loses loser ts) {parts others : List (List Char)}
    (hparts : parts ≠ []) (hothers : others ≠ []) :
    parts.modifyHead ((Token.plain loser.char).spell ++ ·) ≠
      others.modifyHead (loser.spell ++ ·) := by
  intro heq
  cases parts with
  | nil => exact hparts rfl
  | cons part rest =>
      cases others with
      | nil => exact hothers rfl
      | cons other more =>
          obtain ⟨-, -, rfl | ⟨rfl, -⟩⟩ := h <;> simp [Token.spell] at heq

theorem modifyHead_append_inj (cs : List Char) {parts others : List (List Char)} :
    parts.modifyHead (cs ++ ·) = others.modifyHead (cs ++ ·) ↔ parts = others := by
  cases parts <;> cases others <;> simp

theorem outsideParts_rewritten_iff (p : Place) (open? : Bool) (ts : List Token) :
    outsideParts open? (rewritten p ts) = outsideParts open? ts ↔
      ∀ before t behind, ts = before ++ t :: behind → before.foldl classStep open? = false →
        ¬ (before.foldl Place.next p).Loses t behind := by
  induction ts generalizing p open? with
  | nil => simp [rewritten]
  | cons t ts ih =>
      rw [forall_split_cons]
      simp only [List.foldl_nil, List.foldl_cons]
      rw [← ih (p.next t) (classStep open? t), rewritten, outsideParts, outsideParts]
      cases open? with
      | true => simp [classStep_rewritten]
      | false =>
          simp only [Bool.false_eq_true, if_false, true_imp_iff,
            rewritten_eq_plain_iff (c := '[') (by decide)]
          by_cases ht : t = .plain '['
          · have hkept : ¬ p.Loses t ts := by
              rintro ⟨-, -, h | ⟨h, -⟩⟩ <;> simp [ht] at h
            have hstep : classStep false t = true := by simp [classStep, ht]
            rw [if_pos ht, if_pos ht, hstep, and_iff_right hkept, List.cons_inj_right]
          · have hstep : classStep false t = false := by simp [classStep, ht]
            rw [if_neg ht, if_neg ht, hstep]
            by_cases hloses : p.Loses t ts
            · rw [if_pos hloses]
              exact iff_of_false (modifyHead_spell_ne hloses (outsideParts_ne_nil _)
                (outsideParts_ne_nil _)) fun h => h.1 hloses
            · rw [if_neg hloses, modifyHead_append_inj]
              exact ⟨fun h => ⟨hloses, h⟩, And.right⟩

/-- Without an escaped opening bracket outside of the classes, brackets that are looked for are only
met within classes. -/
theorem inClass_of_placeBehind_ne {before : List Token}
    (h : ∀ earlier behind, before = earlier ++ .escaped '[' :: behind → inClass earlier = true)
    (hplace : placeBehind before ≠ .outside) : inClass before = true := by
  induction before using List.reverseRecOn with
  | nil => exact absurd rfl hplace
  | append_singleton earlier t ih =>
      have hinner : placeBehind earlier ≠ .outside → inClass earlier = true :=
        ih fun first behind hsplit => h first (behind ++ [t]) (by simp [hsplit])
      have hstep : inClass (earlier ++ [t]) = classStep (inClass earlier) t := by simp [inClass]
      have hnext : placeBehind (earlier ++ [t]) = (placeBehind earlier).next t := by
        simp [placeBehind]
      rw [hstep]
      rw [hnext] at hplace
      by_cases hp : placeBehind earlier = .outside
      · rw [hp, Place.next] at hplace
        have hchar : t.char = '[' := by
          by_contra hchar
          exact hplace (if_neg hchar)
        cases t with
        | plain c =>
            obtain rfl : c = '[' := hchar
            cases inClass earlier <;> rfl
        | escaped c =>
            obtain rfl : c = '[' := hchar
            rw [h earlier [] rfl]
            rfl
      · have hclosing : t ≠ .plain ']' := by
          rintro rfl
          cases hearlier : placeBehind earlier with
          | outside => exact hp hearlier
          | opened | negated | inside =>
              rw [hearlier] at hplace
              exact hplace rfl
        rw [hinner hp]
        simp [classStep, hclosing]

end Parts

section Slashed

variable {body flags : List Char}

/-- In the body between slashes no backslash and no slash stands on its own. -/
theorem isBody_slash_iff :
    Segment.IsBody '/' body ↔ .plain '\\' ∉ tokens body ∧ .plain '/' ∉ tokens body := by
  constructor
  · intro h
    induction h with
    | nil => simp
    | escaped tail ih => simpa [tokens_escaped] using ih
    | other hb hd tail ih => simpa [tokens_plain hb, Ne.symm hb, Ne.symm hd] using ih
  · fun_induction tokens body with
    | case1 => exact fun _ => .nil
    | case2 c => simpa using fun hb hd => .other (Ne.symm hb) (Ne.symm hd) .nil
    | case3 next rest ih => simpa using fun hb hd => .escaped (ih ⟨hb, hd⟩)
    | case4 c next rest hc ih =>
        simpa [Ne.symm hc] using fun hb hd hrest => .other hc (Ne.symm hd) (ih ⟨hb, hrest⟩)

/-- The last slash tells what stands before it and behind it. -/
theorem append_slash_inj {next other known more : List Char} (hknown : '/' ∉ known)
    (hmore : '/' ∉ more) (h : next ++ '/' :: known = other ++ '/' :: more) :
    next = other ∧ known = more := by
  have hcut := congrArg (Text.cutLast? '/') h
  rw [DottedPath.cutLast?_append_sep _ hknown, DottedPath.cutLast?_append_sep _ hmore] at hcut
  exact Prod.mk.inj (Option.some.inj hcut)

theorem not_mem_of_isAlpha (hflags : ∀ c ∈ flags, c.isAlpha = true) : '/' ∉ flags :=
  fun h => absurd (hflags _ h) (by decide)

/-- A pattern between slashes has the parts that it shows. -/
theorem parts_slashed (hbody : Segment.IsBody '/' body)
    (hflags : ∀ c ∈ flags, c.isAlpha = true) :
    parts ('/' :: (body ++ '/' :: flags)) = ⟨'/', body, flags⟩ := by
  have hlast : ∀ c ∈ flags.getLast?, c.isAlpha = true := fun c hc =>
    hflags c (List.mem_of_getLast? hc)
  have htwice : unwrapTwice? ('/' :: (body ++ '/' :: flags)) = none := by
    cases hbody with
    | nil =>
        rw [List.nil_append, unwrapTwice?]
        split
        · rename_i before hreverse
          have := hlast '/' (by rw [← List.head?_reverse, hreverse]; rfl)
          cases this
        · rename_i before hreverse
          have := hlast '\n' (by rw [← List.head?_reverse, hreverse]; rfl)
          cases this
        · rfl
    | escaped tail => rfl
    | other hb hd tail =>
        rw [List.cons_append, unwrapTwice?]
        rintro rest hrest
        exact hd (List.cons.inj (List.cons.inj hrest).2).1
  have hdelimiter : isDelimiter '/' = true := by decide
  rw [parts, htwice]
  simp only [unwrap?, hdelimiter, if_true,
    DottedPath.cutLast?_append_sep body (not_mem_of_isAlpha hflags), Option.bind_some]
  split
  · rename_i hnewline
    have := hlast '\n' hnewline
    cases this
  · rw [if_pos (List.all_eq_true.mpr hflags), Option.getD_some]

theorem toList_convert_slashed (hbody : Segment.IsBody '/' body)
    (hflags : ∀ c ∈ flags, c.isAlpha = true) :
    (convert (String.ofList ('/' :: (body ++ '/' :: flags)))).toList =
      '/' :: (rewriteClasses none body ++ '/' :: flags.eraseDups.filter isKnownFlag) := by
  rw [convert, String.toList_ofList, String.toList_ofList, convertChars, parts_slashed hbody hflags]
  rfl

/-- The parts of a pattern between slashes outside of its classes are all kept exactly when no
escaped dot there, and no escaped hyphen at an edge, stands between brackets that are looked for
without regard to backslashes. So they are kept if no opening bracket there is escaped. -/
theorem outside_kept_iff (hbody : Segment.IsBody '/' body)
    (hflags : ∀ c ∈ flags, c.isAlpha = true) :
    ∃ next, (convert (String.ofList ('/' :: (body ++ '/' :: flags)))).toList =
        '/' :: (next ++ '/' :: flags.eraseDups.filter isKnownFlag) ∧
      (outside next = outside body ↔
        ∀ before t behind, tokens body = before ++ t :: behind → inClass before = false →
          ¬ (placeBehind before).Loses t behind) ∧
      ((∀ before behind, tokens body = before ++ .escaped '[' :: behind → inClass before = true) →
        outside next = outside body) := by
  have hkept : outside (rewriteClasses none body) = outside body ↔
      ∀ before t behind, tokens body = before ++ t :: behind → inClass before = false →
        ¬ (placeBehind before).Loses t behind := by
    rw [outside, outside, tokens_rewriteClasses]
    exact outsideParts_rewritten_iff .outside false (tokens body)
  refine ⟨rewriteClasses none body, toList_convert_slashed hbody hflags, hkept, fun hopening => ?_⟩
  rw [hkept]
  intro before t behind hsplit houtside hloses
  have hinside : inClass before = true :=
    inClass_of_placeBehind_ne (fun earlier later hbefore => hopening earlier (later ++ t :: behind)
      (by rw [hsplit, hbefore, List.append_assoc, List.cons_append])) hloses.1
  rw [houtside] at hinside
  cases hinside

/-- An escaped dot loses its backslash in a class and keeps it behind one. -/
theorem dot_kept_behind_class :
    let body := "^[\\w\\.]+\\.com$".toList
    Segment.IsBody '/' body ∧ (∀ c ∈ ['i'], c.isAlpha = true) ∧
      ∃ next, (convert (String.ofList ('/' :: (body ++ '/' :: ['i'])))).toList =
        '/' :: (next ++ "/i".toList) ∧ outside next = ["^".toList, "+\\.com$".toList] := by
  intro body
  have hbody : Segment.IsBody '/' body := isBody_slash_iff.mpr (by decide)
  have hflags : ∀ c ∈ ['i'], c.isAlpha = true := List.forall_mem_singleton.mpr (by decide)
  have hopening : .escaped '[' ∉ tokens body := by decide
  obtain ⟨next, hnext, -, hkept⟩ := outside_kept_iff hbody hflags
  refine ⟨hbody, hflags, next, hnext, ?_⟩
  rw [hkept fun before behind hsplit => absurd (by simp [hsplit]) hopening]
  decide

/-- Between two escaped brackets an escaped dot loses its backslash, although it stands in no
class. -/
theorem dot_between_escaped_brackets_lost :
    ¬ ∀ body flags : List Char, Segment.IsBody '/' body → (∀ c ∈ flags, c.isAlpha = true) →
      ∃ next known, '/' ∉ known ∧
        (convert (String.ofList ('/' :: (body ++ '/' :: flags)))).toList =
          '/' :: (next ++ '/' :: known) ∧ outside next = outside body := by
  intro h
  obtain ⟨next, known, hknown, hnext, hkept⟩ :=
    h "\\[a\\.b\\]".toList [] (isBody_slash_iff.mpr (by decide)) nofun
  have hconverted : (convert "/\\[a\\.b\\]/").toList = '/' :: ("\\[a.b\\]".toList ++ ['/']) := by
    decide
  obtain ⟨rfl, -⟩ :=
    append_slash_inj (by decide) hknown (List.cons.inj (hconverted.symm.trans hnext)).2
  revert hkept
  decide

end Slashed

end RuleSchema.Script.Pattern
