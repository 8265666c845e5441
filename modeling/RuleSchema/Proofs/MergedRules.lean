import RuleSchema.Proofs.InheritedRules

/-!
# Merging rule values

The items of one value are added to those of another one by one. A text is added unless it is there
already, and every other item is added each time. Adding an item to the added ones and adding it
after them come to the same, so it makes no difference how several values are merged. Merged items
are not split any further, because segments are segments of themselves.
-/

namespace RuleSchema

namespace RuleValue

/-- An item that is a rule text, and no rule object. -/
def IsText : RuleValue → Prop
  | text _ => True
  | _ => False

/-- A rule value without rule objects: nothing, a rule text or a list of texts. -/
def HasOnlyTexts : RuleValue → Prop
  | absent | text _ => True
  | list items | tuple items => ∀ item ∈ items, item.IsText
  | rule _ | datum _ => False

section Items

variable {items more : List RuleValue} {item v : RuleValue}

/-- What an item stands for are texts exactly when it is a text. -/
theorem isText_iff_itemList : v.IsText ↔ ∀ item ∈ v.itemList, item.IsText := by
  cases v with
  | text s =>
      refine iff_of_true trivial fun item hitem => ?_
      obtain ⟨segment, -, rfl⟩ := List.mem_map.mp hitem
      trivial
  | absent | list | tuple | rule | datum => simp [itemList]

theorem hasOnlyTexts_iff : v.HasOnlyTexts ↔ ∀ item ∈ v.toList, item.IsText := by
  cases v with
  | absent => exact iff_of_true trivial fun item h => absurd h List.not_mem_nil
  | text s => exact iff_of_true trivial ((isText_iff_itemList (v := text s)).mp trivial)
  | list items | tuple items =>
      rw [HasOnlyTexts, toList, List.forall_mem_flatMap]
      exact forall₂_congr fun item _ => isText_iff_itemList
  | rule | datum => simp [HasOnlyTexts, toList, IsText]

/-- A text that is there is not added. -/
theorem addItem_of_mem (htext : item.IsText) (hmem : item ∈ items) : addItem items item = items := by
  cases item with
  | text s => rw [addItem, if_pos (any_isSame_iff.mpr hmem)]
  | absent | list | tuple | rule | datum => cases htext

/-- Every other item is added at the end. -/
theorem addItem_of_not (h : ¬ (item.IsText ∧ item ∈ items)) :
    addItem items item = items ++ [item] := by
  cases item with
  | text s =>
      have hmem : ¬ items.any (addItem.isSame s) = true :=
        fun hany => h ⟨trivial, any_isSame_iff.mp hany⟩
      rw [addItem, if_neg hmem]
  | absent | list | tuple | rule | datum => rfl

theorem addItem_eq_self_iff : addItem items item = items ↔ item.IsText ∧ item ∈ items := by
  constructor
  · intro heq
    by_contra hnot
    rw [addItem_of_not hnot] at heq
    simpa using congrArg List.length heq
  · exact fun h => addItem_of_mem h.1 h.2

theorem prefix_addItem : items <+: addItem items item := by
  by_cases h : item.IsText ∧ item ∈ items
  · rw [addItem_of_mem h.1 h.2]
  · rw [addItem_of_not h]
    exact List.prefix_append items [item]

theorem prefix_foldl_addItem : items <+: more.foldl addItem items := by
  induction more generalizing items with
  | nil => exact List.prefix_refl items
  | cons first rest ih => exact prefix_addItem.trans ih

/-- Adding items changes nothing exactly when they are texts that are there. -/
theorem foldl_addItem_eq_self_iff :
    more.foldl addItem items = items ↔ ∀ item ∈ more, item.IsText ∧ item ∈ items := by
  induction more with
  | nil => simp
  | cons first rest ih =>
      rw [List.foldl_cons, List.forall_mem_cons]
      constructor
      · intro heq
        -- the items with the first one stand between the items and the result
        have hfirst : addItem items first = items := by
          have hbetween : addItem items first <+: rest.foldl addItem (addItem items first) :=
            prefix_foldl_addItem
          rw [heq] at hbetween
          exact (prefix_addItem.eq_of_length_le hbetween.length_le).symm
        rw [hfirst] at heq
        exact ⟨addItem_eq_self_iff.mp hfirst, ih.mp heq⟩
      · rintro ⟨hfirst, hrest⟩
        rw [addItem_eq_self_iff.mpr hfirst]
        exact ih.mpr hrest

/-- An item may be added before or after the others are. -/
theorem foldl_addItem_addItem :
    (addItem more item).foldl addItem items = addItem (more.foldl addItem items) item := by
  by_cases h : item.IsText ∧ item ∈ more
  · rw [addItem_of_mem h.1 h.2, addItem_of_mem h.1 (mem_foldl_addItem.mpr (.inr h.2))]
  · rw [addItem_of_not h, List.foldl_append, List.foldl_cons, List.foldl_nil]

theorem foldl_addItem_foldl (items more last : List RuleValue) :
    (last.foldl addItem more).foldl addItem items =
      last.foldl addItem (more.foldl addItem items) := by
  induction last generalizing more with
  | nil => rfl
  | cons first rest ih => rw [List.foldl_cons, ih, foldl_addItem_addItem, List.foldl_cons]

end Items

/-- Merged items are the items of themselves; merging is associative; it keeps the items of the first
value at the start; and merging the second value once more changes nothing exactly when that value
has only texts. -/
theorem merge_laws (x y z : RuleValue) :
    (list (merge x y)).toList = merge x y ∧
      merge (list (merge x y)) z = merge x (list (merge y z)) ∧
      x.toList <+: merge x y ∧
      (merge (list (merge x y)) y = merge x y ↔ y.HasOnlyTexts) := by
  refine ⟨toList_list_merge, ?_, prefix_foldl_addItem, ?_⟩
  · calc merge (list (merge x y)) z
        = z.toList.foldl addItem (merge x y) := by rw [merge, toList_list_merge]
      _ = (z.toList.foldl addItem y.toList).foldl addItem x.toList :=
          (foldl_addItem_foldl _ _ _).symm
      _ = merge x (list (merge y z)) := by rw [merge, toList_list_merge, merge]
  · rw [merge, toList_list_merge, foldl_addItem_eq_self_iff, hasOnlyTexts_iff]
    have hmem : ∀ item ∈ y.toList, item ∈ merge x y := fun item h => mem_merge.mpr (.inr h)
    exact forall₂_congr fun item h => and_iff_left (hmem item h)

end RuleValue

end RuleSchema
