import RuleSchema.Proofs.MergedRules
import RuleSchema.Proofs.MessagePaths

/-!
# Copied subtrees

An inherited field comes with the rules of everything below it. A key of the source belongs to the
subtree of a field if it is the field itself or goes on with a dot after it. Exactly the keys of that
subtree are taken over, each at the place that it has below the target field. All other rules of the
target stay, and so do the places of its keys.

## Implementation notes

The target is updated key by key. Distinct keys of the source go to distinct keys of the target, so
what is held when a key is merged is still what the target had at the start.
-/

namespace RuleSchema

namespace ClassRules

/-- What the path of a field goes on with in its subtree: nothing, or a dot and more. -/
def IsBelow (suffix : String) : Prop := suffix = "" ∨ ∃ rest, suffix = "." ++ rest

/-- Rules hold exactly the subtree of a source field merged into a target field. -/
structure CopiesSubtree (target inherited merged : Table RuleValue)
    (targetField sourceField : String) : Prop where
  /-- A key of the subtree holds the old items with the inherited ones merged in behind them. -/
  copied : ∀ suffix value, IsBelow suffix → inherited.get? (sourceField ++ suffix) = some value →
    ∃ items, merged.get? (targetField ++ suffix) = some (.list items) ∧
      items = ((target.get? (targetField ++ suffix)).getD .absent).merge value ∧
      ((target.get? (targetField ++ suffix)).getD .absent).toList <+: items
  /-- Every other key is as it was. -/
  untouched : ∀ key,
    (∀ suffix, IsBelow suffix → sourceField ++ suffix ∈ inherited.keys →
      key ≠ targetField ++ suffix) →
    merged.get? key = target.get? key
  /-- The keys of the target are followed by the new ones in the order of the source. -/
  ordered : ∃ suffixes : List String,
    merged.keys = target.keys ++ suffixes.map (targetField ++ ·) ∧
      (suffixes.map (sourceField ++ ·)).Sublist inherited.keys ∧
      ∀ suffix, suffix ∈ suffixes ↔
        IsBelow suffix ∧ sourceField ++ suffix ∈ inherited.keys ∧
          targetField ++ suffix ∉ target.keys

section Copies

variable {target merged before : Table RuleValue} {e : String × RuleValue}
  {targetField sourceField key new : String}

/-- A key moves exactly if it belongs to the subtree, and then its suffix moves. -/
theorem targetKey?_eq_some_iff :
    targetKey? targetField sourceField key = some new ↔
      ∃ suffix, IsBelow suffix ∧ key = sourceField ++ suffix ∧ new = targetField ++ suffix := by
  rw [targetKey?]
  split
  · rename_i hkey
    subst hkey
    constructor
    · rintro ⟨⟩
      exact ⟨"", .inl rfl, String.append_empty.symm, String.append_empty.symm⟩
    · rintro ⟨suffix, -, hkey, rfl⟩
      rw [String.append_eq_left_iff.mp hkey.symm, String.append_empty]
  · rename_i hkey
    by_cases hstart : Text.startsWith key (sourceField ++ ".") = true
    · obtain ⟨rest, rfl⟩ := Text.startsWith_iff.mp hstart
      rw [if_pos hstart, Text.drop_append]
      constructor
      · rintro ⟨⟩
        exact ⟨"." ++ rest, .inr ⟨rest, rfl⟩, String.append_assoc, String.append_assoc⟩
      · rintro ⟨suffix, -, hsuffix, rfl⟩
        rw [String.append_assoc, String.append_right_inj] at hsuffix
        rw [← hsuffix, String.append_assoc]
    · rw [if_neg hstart]
      refine iff_of_false (by simp) ?_
      rintro ⟨suffix, rfl | ⟨rest, rfl⟩, rfl, -⟩
      · exact hkey String.append_empty
      · exact hstart (Text.startsWith_iff.mpr ⟨rest, String.append_assoc.symm⟩)

theorem mem_keys_concat : key ∈ Table.keys (before ++ [e]) ↔ key ∈ before.keys ∨ key = e.1 := by
  simp [Table.keys]

/-- A key outside the subtree is passed over. -/
theorem CopiesSubtree.pass (h : CopiesSubtree target before merged targetField sourceField)
    (hkey : ∀ suffix, IsBelow suffix → e.1 ≠ sourceField ++ suffix) :
    CopiesSubtree target (before ++ [e]) merged targetField sourceField := by
  have hkeys : ∀ suffix, IsBelow suffix →
      (sourceField ++ suffix ∈ Table.keys (before ++ [e]) ↔ sourceField ++ suffix ∈ before.keys) := by
    intro suffix hsuffix
    rw [mem_keys_concat, or_iff_left fun heq => hkey suffix hsuffix heq.symm]
  refine ⟨fun suffix value hsuffix hvalue => ?_, fun key hother => ?_, ?_⟩
  · refine h.copied suffix value hsuffix ?_
    rwa [Table.get?_append, Table.get?, if_neg (hkey suffix hsuffix), Table.get?_nil,
      Option.or_none] at hvalue
  · exact h.untouched key fun suffix hsuffix hmem =>
      hother suffix hsuffix ((hkeys suffix hsuffix).mpr hmem)
  · obtain ⟨suffixes, hmerged, hsource, hmem⟩ := h.ordered
    refine ⟨suffixes, hmerged, ?_, fun suffix => ?_⟩
    · rw [Table.keys, List.map_append]
      exact hsource.trans (List.sublist_append_left _ _)
    · rw [hmem]
      exact and_congr_right fun hsuffix => by rw [hkeys suffix hsuffix]

/-- A key of the subtree is merged into what the target had at its place from the start. -/
theorem CopiesSubtree.merge {suffix : String} {value : RuleValue}
    (h : CopiesSubtree target before merged targetField sourceField) (hsuffix : IsBelow suffix)
    (hnew : sourceField ++ suffix ∉ before.keys) :
    CopiesSubtree target (before ++ [(sourceField ++ suffix, value)])
      (merged.put (targetField ++ suffix)
        (.list (((merged.get? (targetField ++ suffix)).getD .absent).merge value)))
      targetField sourceField := by
  have hheld : merged.get? (targetField ++ suffix) = target.get? (targetField ++ suffix) := by
    refine h.untouched _ fun other _ hother heq => hnew ?_
    rwa [(String.append_right_inj _).mp heq]
  rw [hheld]
  refine ⟨fun other found hother hfound => ?_, fun key hkey => ?_, ?_⟩
  · by_cases hsame : other = suffix
    · subst hsame
      rw [Table.get?_append, Table.get?_eq_none_of_not_mem hnew, Option.none_or, Table.get?,
        if_pos rfl, Option.some.injEq] at hfound
      subst hfound
      exact ⟨_, Table.get?_put_self _ _ _, rfl, RuleValue.prefix_foldl_addItem⟩
    · have hne : targetField ++ other ≠ targetField ++ suffix :=
        fun heq => hsame ((String.append_right_inj _).mp heq)
      have hne' : sourceField ++ suffix ≠ sourceField ++ other :=
        fun heq => hsame ((String.append_right_inj _).mp heq).symm
      rw [Table.get?_append, Table.get?, if_neg hne', Table.get?_nil, Option.or_none] at hfound
      rw [Table.get?_put_of_ne _ hne]
      exact h.copied other found hother hfound
  · rw [Table.get?_put_of_ne _ (hkey suffix hsuffix (mem_keys_concat.mpr (.inr rfl)))]
    exact h.untouched key fun other hother hmem =>
      hkey other hother (mem_keys_concat.mpr (.inl hmem))
  · obtain ⟨suffixes, hmerged, hsource, hmem⟩ := h.ordered
    have hfresh : suffix ∉ suffixes := fun hin => hnew ((hmem suffix).mp hin).2.1
    have hin : targetField ++ suffix ∈ merged.keys ↔ targetField ++ suffix ∈ target.keys := by
      rw [hmerged, List.mem_append, or_iff_left]
      rintro hin
      obtain ⟨other, hother, heq⟩ := List.mem_map.mp hin
      exact hfresh ((String.append_right_inj _).mp heq ▸ hother)
    have hkeys : Table.keys (before ++ [(sourceField ++ suffix, value)]) =
        before.keys ++ [sourceField ++ suffix] := by simp [Table.keys]
    rw [Table.keys_put, hkeys]
    by_cases hpresent : targetField ++ suffix ∈ target.keys
    · rw [if_pos (hin.mpr hpresent)]
      refine ⟨suffixes, hmerged, hsource.trans (List.sublist_append_left _ _), fun other => ?_⟩
      rw [hmem, List.mem_append, List.mem_singleton, String.append_right_inj]
      constructor
      · rintro ⟨hother, hbefore, habsent⟩
        exact ⟨hother, .inl hbefore, habsent⟩
      · rintro ⟨hother, hbefore | rfl, habsent⟩
        · exact ⟨hother, hbefore, habsent⟩
        · exact absurd hpresent habsent
    · rw [if_neg (mt hin.mp hpresent), hmerged]
      refine ⟨suffixes ++ [suffix], by simp, ?_, fun other => ?_⟩
      · rw [List.map_append]
        exact hsource.append (List.Sublist.refl _)
      · rw [List.mem_append, hmem, List.mem_append, List.mem_singleton, List.mem_singleton,
          String.append_right_inj]
        constructor
        · rintro (⟨hother, hbefore, habsent⟩ | rfl)
          · exact ⟨hother, .inl hbefore, habsent⟩
          · exact ⟨hsuffix, .inr rfl, hpresent⟩
        · rintro ⟨hother, hbefore | rfl, habsent⟩
          · exact .inl ⟨hother, hbefore, habsent⟩
          · exact .inr rfl

/-- One key of the source keeps what has been copied so far. -/
theorem CopiesSubtree.step (h : CopiesSubtree target before merged targetField sourceField)
    (hnew : e.1 ∉ before.keys) :
    CopiesSubtree target (before ++ [e]) (mergeRule targetField sourceField merged e) targetField
      sourceField := by
  rw [mergeRule]
  cases hkey : targetKey? targetField sourceField e.1 with
  | none =>
      refine h.pass fun suffix hsuffix heq => ?_
      rw [targetKey?_eq_some_iff.mpr ⟨suffix, hsuffix, heq, rfl⟩] at hkey
      cases hkey
  | some new =>
      obtain ⟨suffix, hsuffix, heq, rfl⟩ := targetKey?_eq_some_iff.mp hkey
      obtain ⟨key, value⟩ := e
      obtain rfl : key = sourceField ++ suffix := heq
      exact h.merge hsuffix hnew

theorem copiesSubtree_nil (target : Table RuleValue) (targetField sourceField : String) :
    CopiesSubtree target [] target targetField sourceField where
  copied _ _ _ hvalue := nomatch hvalue
  untouched _ _ := rfl
  ordered := ⟨[], (List.append_nil _).symm, List.Sublist.refl _, fun _ =>
    iff_of_false List.not_mem_nil fun h => List.not_mem_nil h.2.1⟩

/-- Merging a field in copies exactly the subtree of the source field below the target field, and
leaves the fragments alone. -/
theorem mergeField_copiesSubtree (target inherited : ClassRules) (targetField sourceField : String)
    (hkeys : inherited.rules.keys.Nodup) :
    CopiesSubtree target.rules inherited.rules
        (target.mergeField targetField inherited sourceField).rules targetField sourceField ∧
      (target.mergeField targetField inherited sourceField).fragments = target.fragments := by
  refine ⟨?_, rfl⟩
  have hrun : ∀ read : Table RuleValue, read.keys.Nodup →
      CopiesSubtree target.rules read
        (read.foldl (mergeRule targetField sourceField) target.rules) targetField sourceField := by
    intro read
    induction read using List.reverseRecOn with
    | nil => exact fun _ => copiesSubtree_nil target.rules targetField sourceField
    | append_singleton before e ih =>
        intro hread
        rw [Table.keys, List.map_append, List.nodup_append] at hread
        rw [List.foldl_append]
        refine (ih hread.1).step fun hmem => ?_
        exact hread.2.2 e.1 hmem e.1 (List.mem_singleton_self _) rfl
  exact hrun inherited.rules hkeys

end Copies

/-- A class with rules of its own below a contact. -/
def contactRules : ClassRules :=
  ⟨[("contact.name", .text "nullable"), ("contacts", .text "array"), ("note", .text "string")], []⟩

/-- A class with a user, something below it and a field whose name starts with its name. -/
def userRules : ClassRules :=
  ⟨[("username", .text "alpha"), ("user.*.id", .text "integer"), ("user.name", .text "max:9"),
    ("user", .text "array"), ("account.user", .text "string")], []⟩

/-- The subtree of the user arrives below the contact, and no field with a like name does. -/
theorem user_copied_to_contact :
    userRules.rules.keys.Nodup ∧
      (contactRules.mergeField "contact" userRules "user").rules.keys =
        ["contact.name", "contacts", "note", "contact.*.id", "contact"] ∧
      (∃ items, (contactRules.mergeField "contact" userRules "user").rules.get? "contact.name" =
          some (.list items) ∧ items = (RuleValue.text "nullable").merge (.text "max:9") ∧
          (RuleValue.text "nullable").toList <+: items) ∧
      (contactRules.mergeField "contact" userRules "user").rules.get? "contacts" =
        some (.text "array") := by
  have hkeys : userRules.rules.keys.Nodup := by decide
  obtain ⟨hcopies, -⟩ := mergeField_copiesSubtree contactRules userRules "contact" "user" hkeys
  refine ⟨hkeys, by decide, hcopies.copied ".name" _ (.inr ⟨"name", rfl⟩) rfl, ?_⟩
  refine (hcopies.untouched "contacts" fun suffix hsuffix _ heq => ?_).trans rfl
  obtain rfl | ⟨rest, rfl⟩ := hsuffix
  · exact absurd heq (by decide)
  · have hhead := congrArg (fun s => s.toList[7]?) heq
    simp at hhead

end ClassRules

end RuleSchema
