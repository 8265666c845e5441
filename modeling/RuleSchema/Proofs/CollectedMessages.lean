import RuleSchema.Proofs.InheritedMessages

/-!
# Collections of messages

A collection marks a class while it goes through the class's fields and takes the mark away again.
It follows references in any graph of classes, comes to an end and leaves the marks that it found.
What a class says itself comes first, then what its nested classes say, and then the inherited
messages.

## Implementation notes

`collect` carries the marked classes along as an argument. `Collects` has them as a state that each
step may change, so that it is a theorem and not a matter of form that they are given back. As in
the runs of the expansion, a task is a class or what is left of its fields, so that one relation
describes both recursions.
-/

namespace RuleSchema

namespace Collected

/-- What a collection works on: a class under a path, or the fields that are left of a class, with
the messages held so far. -/
inductive Task where
  | ofClass (name path : String)
  | fields (path : String) (left : Table FieldMetadata) (held : Table String)

/-- The own messages of a class under a path. -/
def own (path : String) (source : SchemaSource) : Table String :=
  source.messages.map fun m => (under path m.1, m.2)

/-- A task turns the marked classes into messages and the marked classes after it. -/
inductive Collects (sources : Table SchemaSource) :
    Task → List String → Table String → List String → Prop
  | unknown {name path marked} (hs : sources.get? name = none) :
      Collects sources (.ofClass name path) marked [] marked
  | met {name path marked} (hm : name ∈ marked) :
      Collects sources (.ofClass name path) marked [] marked
  | entered {name path marked source found marked'} (hs : sources.get? name = some source)
      (hm : name ∉ marked)
      (body : Collects sources (.fields path source.metadata (own path source)) (name :: marked)
        found marked') :
      Collects sources (.ofClass name path) marked found (marked'.filter (· != name))
  | done {path held marked} : Collects sources (.fields path [] held) marked held marked
  | plain {path field known rest held marked found marked'}
      (hr : reference? path field known = none)
      (tail : Collects sources (.fields path rest held) marked found marked') :
      Collects sources (.fields path ((field, known) :: rest) held) marked found marked'
  | skipped {path field known rest held marked nestedPath nested found marked'}
      (hr : reference? path field known = some (nestedPath, nested)) (hm : nested ∈ marked)
      (tail : Collects sources (.fields path rest held) marked found marked') :
      Collects sources (.fields path ((field, known) :: rest) held) marked found marked'
  | followed {path field known rest held marked nestedPath nested below marked' found marked''}
      (hr : reference? path field known = some (nestedPath, nested)) (hm : nested ∉ marked)
      (child : Collects sources (.ofClass nested nestedPath) marked below marked')
      (tail : Collects sources (.fields path rest (held.putAllNew below)) marked' found marked'') :
      Collects sources (.fields path ((field, known) :: rest) held) marked found marked''

section Runs

variable {sources : Table SchemaSource} {task : Task} {name path : String} {source : SchemaSource}
  {marked marked' : List String} {found : Table String}

/-- The messages held after a field. -/
def takeField (sources : Table SchemaSource) (marked : List String) (path : String)
    (held : Table String) (m : String × FieldMetadata) : Table String :=
  match reference? path m.1 m.2 with
  | none => held
  | some (nestedPath, nested) =>
    if marked.contains nested then held
    else held.putAllNew (collect sources marked nested nestedPath)

/-- The messages that a task gives. -/
def Task.messages (sources : Table SchemaSource) (marked : List String) : Task → Table String
  | ofClass name path => collect sources marked name path
  | fields path left held => left.foldl (takeField sources marked path) held

theorem collect_eq_takeField (hs : sources.get? name = some source) (hm : name ∉ marked) :
    collect sources marked name path =
      source.metadata.foldl (takeField sources (name :: marked) path) (own path source) :=
  collect_eq hs hm

theorem takeField_of_not_mem {held : Table String} {field nestedPath nested : String}
    {known : FieldMetadata} (hr : reference? path field known = some (nestedPath, nested))
    (hm : nested ∉ marked) :
    takeField sources marked path held (field, known) =
      held.putAllNew (collect sources marked nested nestedPath) := by
  rw [takeField, hr]
  exact if_neg (by simpa using hm)

theorem takeField_of_mem {held : Table String} {field nestedPath nested : String}
    {known : FieldMetadata} (hr : reference? path field known = some (nestedPath, nested))
    (hm : nested ∈ marked) : takeField sources marked path held (field, known) = held := by
  rw [takeField, hr]
  exact if_pos (by simpa using hm)

theorem takeField_of_none {held : Table String} {field : String} {known : FieldMetadata}
    (hr : reference? path field known = none) :
    takeField sources marked path held (field, known) = held := by
  rw [takeField, hr]

/-- A task ends with the marks that it began with. -/
theorem Collects.marked_eq (h : Collects sources task marked found marked') : marked' = marked := by
  induction h with
  | unknown | met | done => rfl
  | entered hs hm body ih => rw [ih, Inheritance.filter_ne_cons_self hm]
  | plain hr tail ih => exact ih
  | skipped hr hm tail ih => exact ih
  | followed hr hm child tail ihc iht => exact iht.trans ihc

theorem Collects.found_eq (h : Collects sources task marked found marked') :
    found = task.messages sources marked := by
  induction h with
  | unknown hs => exact (collect_eq_nil (.inl hs)).symm
  | met hm => exact (collect_eq_nil (.inr hm)).symm
  | entered hs hm body ih => exact ih.trans (collect_eq_takeField hs hm).symm
  | done => rfl
  | plain hr tail ih =>
      rw [ih, Task.messages, Task.messages, List.foldl_cons, takeField_of_none hr]
  | skipped hr hm tail ih =>
      rw [ih, Task.messages, Task.messages, List.foldl_cons, takeField_of_mem hr hm]
  | followed hr hm child tail ihc iht =>
      rw [iht, child.marked_eq, ihc, Task.messages, Task.messages, Task.messages, List.foldl_cons,
        takeField_of_not_mem hr hm]

/-- The fields of a class are gone through when each class that they refer to can be collected. -/
theorem collects_fields
    (h : ∀ nested nestedPath, nested ∉ marked → Collects sources (.ofClass nested nestedPath) marked
      (collect sources marked nested nestedPath) marked)
    (path : String) (left : Table FieldMetadata) (held : Table String) :
    Collects sources (.fields path left held) marked
      (left.foldl (takeField sources marked path) held) marked := by
  induction left generalizing held with
  | nil => exact .done
  | cons m rest ih =>
      obtain ⟨field, known⟩ := m
      rw [List.foldl_cons]
      cases hr : reference? path field known with
      | none =>
          rw [takeField_of_none hr]
          exact .plain hr (ih held)
      | some reference =>
          obtain ⟨nestedPath, nested⟩ := reference
          by_cases hm : nested ∈ marked
          · rw [takeField_of_mem hr hm]
            exact .skipped hr hm (ih held)
          · rw [takeField_of_not_mem hr hm]
            exact .followed hr hm (h nested nestedPath hm) (ih _)

/-- The collection of a class comes to an end, whatever the classes refer to. -/
theorem collects_collect (sources : Table SchemaSource) (name path : String)
    (marked : List String) :
    Collects sources (.ofClass name path) marked (collect sources marked name path) marked := by
  -- each class that is entered is one of the sources and was not marked before
  induction hsize : (unvisited sources marked).length using Nat.strong_induction_on
    generalizing marked name path with
  | _ size ih =>
      cases hs : sources.get? name with
      | none =>
          rw [collect_eq_nil (.inl hs)]
          exact .unknown hs
      | some source =>
          by_cases hm : name ∈ marked
          · rw [collect_eq_nil (.inr hm)]
            exact .met hm
          · rw [collect_eq_takeField hs hm]
            have hless := unvisited_lt hs (by simpa using hm)
            have hbody := collects_fields (fun nested nestedPath _ =>
              ih _ (hsize ▸ hless) nested nestedPath (name :: marked) rfl) path source.metadata
              (own path source)
            have hentered := Collects.entered hs hm hbody
            rwa [Inheritance.filter_ne_cons_self hm] at hentered

/-- The collection of a class has one outcome: its messages, and the marks that were there. -/
theorem collects_iff :
    Collects sources (.ofClass name path) marked found marked' ↔
      found = collect sources marked name path ∧ marked' = marked := by
  constructor
  · exact fun h => ⟨h.found_eq, h.marked_eq⟩
  · rintro ⟨rfl, rfl⟩
    exact collects_collect sources name path marked'

end Runs

section Own

theorem under_injective (path : String) : Function.Injective (under path) := by
  intro a b h
  by_cases hpath : path = ""
  · rwa [hpath, under_empty, under_empty] at h
  · rwa [under_of_ne hpath, under_of_ne hpath, String.append_right_inj] at h

theorem get?_own (path : String) (source : SchemaSource) (key : String) :
    (own path source).get? (under path key) = source.messages.get? key := by
  rw [own]
  induction source.messages with
  | nil => rfl
  | cons m rest ih =>
      obtain ⟨first, text⟩ := m
      rw [List.map_cons, Table.get?, Table.get?, ih]
      simp only [(under_injective path).eq_iff]

/-- What a class says itself comes first under its key. -/
theorem get?_collect_own {sources : Table SchemaSource} {marked : List String} {name : String}
    {source : SchemaSource} (hs : sources.get? name = some source) (hm : name ∉ marked)
    (path : String) {key text : String} (hown : source.messages.get? key = some text) :
    (collect sources marked name path).get? (under path key) = some text := by
  rw [get?_collect, entries_eq hs hm, Table.get?_append]
  have hfirst := (get?_own path source key).trans hown
  rw [own] at hfirst
  rw [hfirst, Option.some_or]

end Own

section Claims

variable {sources : Table SchemaSource} {seen : List String} {name path key text : String}

theorem reference?_cases {field nestedPath nested : String} {known : FieldMetadata}
    (h : reference? path field known = some (nestedPath, nested)) :
    (known.isCollection = true ∧ known.elementClass = some nested ∧ nested ≠ "" ∧
      nestedPath = Link.pathUnder path ⟨field, true⟩) ∨
    (¬ IsTyped known ∧ known.isNestedObject = true ∧ known.nestedClass = some nested ∧
      nested ≠ "" ∧ nestedPath = Link.pathUnder path ⟨field, false⟩) := by
  have hnamed : ∀ {named : Option String}, named.filter (! Text.isEmpty ·) = some nested →
      named = some nested ∧ nested ≠ "" := by
    intro named hfilter
    rw [Option.filter_eq_some_iff] at hfilter
    refine ⟨hfilter.1, ?_⟩
    rintro rfl
    cases hfilter.2
  by_cases htyped : IsTyped known
  · obtain ⟨hcollection, element, helement, hne⟩ := htyped
    rw [reference?_of_collection hcollection helement hne, Option.some.injEq, Prod.mk.injEq] at h
    obtain ⟨rfl, rfl⟩ := h
    exact .inl ⟨hcollection, helement, hne, rfl⟩
  · unfold reference? at h
    dsimp only at h
    split at h
    · rename_i element hcollection helement
      rw [Option.some.injEq, Prod.mk.injEq] at h
      obtain ⟨rfl, rfl⟩ := h
      exact .inl ⟨hcollection, (hnamed helement).1, (hnamed helement).2, rfl⟩
    · split at h
      · rename_i _ _ nested' hobject hnested
        rw [Option.some.injEq, Prod.mk.injEq] at h
        obtain ⟨rfl, rfl⟩ := h
        exact .inr ⟨htyped, hobject, (hnamed hnested).1, (hnamed hnested).2, rfl⟩
      · cases h

/-- Every entry of a class is a message at the end of a chain of references. -/
theorem exists_leads_of_mem_entries (h : (key, text) ∈ entries sources seen name path) :
    ∃ links last own, Leads sources seen name links last ∧ (own, text) ∈ last.messages ∧
      key = under (filedPath path links) own := by
  induction hsize : (unvisited sources seen).length using Nat.strong_induction_on
    generalizing seen name path with
  | _ size ih =>
      by_cases hnone : sources.get? name = none ∨ name ∈ seen
      · rw [entries_eq_nil hnone] at h
        cases h
      · rw [not_or] at hnone
        obtain ⟨source, hs⟩ := Option.ne_none_iff_exists'.mp hnone.1
        rw [entries_eq hs hnone.2, List.mem_append] at h
        rcases h with h | h
        · obtain ⟨m, hmessage, heq⟩ := List.mem_map.mp h
          cases heq
          exact ⟨[], source, m.1, .here hs hnone.2, hmessage, rfl⟩
        · obtain ⟨⟨field, known⟩, hfield, h⟩ := List.mem_flatMap.mp h
          dsimp only at h
          split at h
          · cases h
          · rename_i nestedPath nested hr
            have hless := unvisited_lt hs (by simpa using hnone.2)
            obtain ⟨links, last, own, hleads, hmessage, hkey⟩ := ih _ (hsize ▸ hless) h rfl
            rcases reference?_cases hr with
              ⟨hcollection, helement, hne, rfl⟩ | ⟨hother, hobject, hnested, hne, rfl⟩
            · exact ⟨⟨field, true⟩ :: links, last, own,
                .collection hs hnone.2 hfield hcollection helement hne hleads, hmessage, hkey⟩
            · exact ⟨⟨field, false⟩ :: links, last, own,
                .object hs hnone.2 hfield hother hobject hnested hne hleads, hmessage, hkey⟩

/-- A class claims the keys that its own messages have, and those of the classes that chains of
references lead to. -/
def Claims (sources : Table SchemaSource) (name key : String) : Prop :=
  ∃ links last own text, Leads sources [] name links last ∧ (own, text) ∈ last.messages ∧
    filedKey links own = key

/-- A collection has messages under the claimed keys and under no others. -/
theorem get?_collect_eq_none_iff :
    (collect sources [] name "").get? key = none ↔ ¬ Claims sources name key := by
  rw [get?_collect, Table.get?_eq_none_iff, not_iff_not]
  constructor
  · intro hkeys
    obtain ⟨⟨_, text⟩, hmem, rfl⟩ := List.mem_map.mp hkeys
    obtain ⟨links, last, own, hleads, hmessage, hkey⟩ := exists_leads_of_mem_entries hmem
    exact ⟨links, last, own, text, hleads, hmessage, hkey.symm⟩
  · rintro ⟨links, last, own, text, hleads, hmessage, rfl⟩
    exact List.mem_map.mpr ⟨_, mem_entries_of_leads hleads hmessage "", rfl⟩

end Claims

/-- In any graph of classes the collection of a class comes to an end with one outcome, gives back
the marks, here none, and has the own messages of the class under the path. The messages of a
source have its own ones, and each inherited one whose key is claimed neither by the class itself
nor by a nested class; of several under one key it is the first. -/
theorem collection_keeps_own (sources : List SchemaSource) :
    (∀ name path,
      (∀ found marked, Collects (sourceTable sources) (.ofClass name path) [] found marked ↔
        found = collect (sourceTable sources) [] name path ∧ marked = []) ∧
      ∀ source, (sourceTable sources).get? name = some source →
        ∀ key text, source.messages.get? key = some text →
          (collect (sourceTable sources) [] name path).get? (under path key) = some text) ∧
    ∀ name source, (sourceTable sources).get? name = some source →
      (∀ key text, source.messages.get? key = some text →
        (ofSource (sourceTable sources) source).get? key = some text) ∧
      ∀ key text,
        Table.get? (source.inheritance.flatMap (supplied (sourceTable sources))) key = some text →
        ¬ Claims (sourceTable sources) source.className key →
        (ofSource (sourceTable sources) source).get? key = some text := by
  refine ⟨fun name path => ⟨fun found marked => collects_iff, fun source hs key text hown => ?_⟩,
    fun name source hs => ?_⟩
  · exact get?_collect_own hs List.not_mem_nil path hown
  · -- a source is kept under its own class
    obtain rfl := Inheritance.keyed_sourceTable sources name source hs
    refine ⟨fun key text hown => ?_, fun key text hsupplied hfree => ?_⟩
    · have hcollected := get?_collect_own hs List.not_mem_nil "" hown
      rw [under_empty] at hcollected
      rw [get?_ofSource, hcollected, Option.some_or]
    · have hnone := get?_collect_eq_none_iff.mpr hfree
      have hundeclared : source.messages.has key = false := by
        cases hown : source.messages.get? key with
        | none => rw [Table.has, hown, Option.isSome_none]
        | some text =>
            have hcollected := get?_collect_own hs List.not_mem_nil "" hown
            rw [under_empty, hnone] at hcollected
            cases hcollected
      rw [get?_ofSource, hnone, Option.none_or, hundeclared, if_neg Bool.false_ne_true, hsupplied]

section Cycle

/-- Orders refer to their customer, and a customer to its orders. An order has a message of its own
for the name of the customer, and inherits one for the total. -/
def orderClasses : List SchemaSource :=
  [{ Inheritance.ruleClass "OrderData" [] [("total", ⟨"AmountData", some "value"⟩)] with
      messages := [("customer.name", "Who orders?")],
      metadata := [("customer", ⟨true, false, false, some "CustomerData", none⟩)] },
    { Inheritance.ruleClass "CustomerData" [] [] with
      messages := [("name", "Name please."), ("mail", "Mail please.")],
      metadata := [("orders", ⟨false, false, true, none, some "OrderData"⟩)] },
    { Inheritance.ruleClass "AmountData" [] [] with messages := [("value.min", "Too little.")] }]

/-- The collection of the orders ends. The own message comes before that of the customer, and the
inherited one is there. -/
theorem orderClasses_keep_own :
    ∃ order, (sourceTable orderClasses).get? "OrderData" = some order ∧
    order.messages.get? "customer.name" = some "Who orders?" ∧
    Collects (sourceTable orderClasses) (.ofClass "OrderData" "cart") []
      [("cart.customer.name", "Who orders?"), ("cart.customer.mail", "Mail please.")] [] ∧
    (ofSource (sourceTable orderClasses) order).get? "customer.name" = some "Who orders?" ∧
    ¬ Claims (sourceTable orderClasses) order.className "total.min" ∧
    (ofSource (sourceTable orderClasses) order).get? "total.min" = some "Too little." := by
  obtain ⟨hcollects, hsources⟩ := collection_keeps_own orderClasses
  have hfound : [("cart.customer.name", "Who orders?"), ("cart.customer.mail", "Mail please.")] =
      collect (sourceTable orderClasses) [] "OrderData" "cart" := by decide +kernel
  have hfree : ¬ Claims (sourceTable orderClasses) "OrderData" "total.min" :=
    get?_collect_eq_none_iff.mp (by decide +kernel)
  obtain ⟨hown, hinherited⟩ := hsources "OrderData" _ rfl
  exact ⟨_, rfl, rfl, ((hcollects "OrderData" "cart").1 _ _).mpr ⟨hfound, rfl⟩, hown _ _ rfl, hfree,
    hinherited _ _ (by decide +kernel) hfree⟩

end Cycle

end Collected

end RuleSchema
