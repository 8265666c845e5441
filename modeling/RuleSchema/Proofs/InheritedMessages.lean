import RuleSchema.Proofs.InheritedRules
import RuleSchema.Proofs.MessagePaths
import RuleSchema.Proofs.PlainExpansion

/-!
# Inherited messages

Rules are inherited along every chain of inheritances, for each class takes the expanded rules of the
class below it. Messages are taken from what the class below declares itself. So along a chain on
which only the last class has a message for a rule, the rule arrives at every class, and the message
at the last two.
-/

namespace RuleSchema

namespace Inheritance

/-- A chain of inheritances of fields, with the classes and fields before the last one. -/
inductive FieldChain (sources : Table SchemaSource) :
    SchemaSource → String → List (SchemaSource × String) → SchemaSource → String → Prop
  | last {source field} : FieldChain sources source field [] source field
  | link {source field declaration origin above last sourceField}
      (hd : source.inheritance.get? field = some declaration)
      (ho : sources.get? declaration.sourceClass = some origin)
      (rest : FieldChain sources origin (fromField (field, declaration)) above last sourceField) :
      FieldChain sources source field ((source, field) :: above) last sourceField

end Inheritance

open Inheritance

namespace ClassRules

/-- Rules hold for a field every item of a rule value. -/
def Holds (rules : Table RuleValue) (field : String) (value : RuleValue) : Prop :=
  ∃ kept, rules.get? field = some kept ∧ ∀ item ∈ value.toList, item ∈ kept.toList

section Holds

variable {rules : Table RuleValue} {inherited : ClassRules} {field targetField sourceField : String}
  {value : RuleValue}

theorem Holds.put_merge (h : Holds rules field value) (key : String) (incoming : RuleValue) :
    Holds (rules.put key (.list (((rules.get? key).getD .absent).merge incoming))) field value := by
  obtain ⟨kept, hkept, hitems⟩ := h
  by_cases hkey : field = key
  · subst hkey
    refine ⟨_, Table.get?_put_self _ _ _, fun item hitem => ?_⟩
    rw [RuleValue.toList_list_merge, RuleValue.mem_merge, hkept, Option.getD_some]
    exact .inl (hitems item hitem)
  · exact ⟨kept, by rw [Table.get?_put_of_ne _ hkey, hkept], hitems⟩

theorem Holds.mergeRule (h : Holds rules field value) (inherited : String × RuleValue) :
    Holds (mergeRule targetField sourceField rules inherited) field value := by
  rw [ClassRules.mergeRule]
  split
  · exact h.put_merge _ _
  · exact h

/-- Merging rules in takes nothing away. -/
theorem Holds.foldl_mergeRule (h : Holds rules field value) (inherited : Table RuleValue) :
    Holds (inherited.foldl (ClassRules.mergeRule targetField sourceField) rules) field value := by
  induction inherited generalizing rules with
  | nil => exact h
  | cons first rest ih => exact ih (h.mergeRule first)

/-- Merging a field in brings the items of the source field. -/
theorem holds_foldl_mergeRule {inherited : Table RuleValue}
    (h : inherited.get? sourceField = some value) :
    Holds (inherited.foldl (mergeRule targetField sourceField) rules) targetField value := by
  obtain ⟨before, after, rfl⟩ := List.append_of_mem (Table.mem_of_get?_eq_some h)
  rw [List.foldl_append, List.foldl_cons]
  refine Holds.foldl_mergeRule ?_ after
  rw [mergeRule, targetKey?, if_pos rfl]
  refine ⟨_, Table.get?_put_self _ _ _, fun item hitem => ?_⟩
  rw [RuleValue.toList_list_merge, RuleValue.mem_merge]
  exact .inr hitem

theorem Holds.mono {rules' : Table RuleValue} {field' : String} (h : Holds rules field value)
    (hall : ∀ kept, rules.get? field = some kept → Holds rules' field' kept) :
    Holds rules' field' value := by
  obtain ⟨kept, hkept, hitems⟩ := h
  obtain ⟨kept', hkept', hitems'⟩ := hall kept hkept
  exact ⟨kept', hkept', fun item hitem => hitems' item (hitems item hitem)⟩

end Holds

end ClassRules

namespace Inheritance

open ClassRules

variable {sources : Table SchemaSource} {names : SchemaNames}

theorem rules_of_takeFrom {source : SchemaSource} {target inherited taken : ClassRules}
    {declared : String × Inheritance}
    (h : takeFrom names source target declared inherited = .ok taken) :
    taken.rules =
      inherited.rules.foldl (mergeRule declared.1 (fromField declared)) target.rules := by
  rw [takeFrom] at h
  split at h
  · rw [← Except.ok.inj h]
    rfl
  · cases h

/-- The inheritances of a class take away nothing that it has. -/
theorem Evaluates.keeps_holds {task : Task} {result : Except Fault ClassRules}
    (h : Evaluates sources names task result) :
    ∀ {source target declared rules field value}, task = .inherits source target declared →
      result = .ok rules → Holds target.rules field value → Holds rules.rules field value := by
  induction h with
  | unknown | entered => rintro _ _ _ _ _ _ ⟨⟩
  | done =>
      rintro _ _ _ _ _ _ ⟨⟩ ⟨⟩ hholds
      exact hholds
  | missing => rintro _ _ _ _ _ _ _ ⟨⟩
  | stopped => rintro _ _ _ _ _ _ _ ⟨⟩
  | @taken _ _ _ _ inherited _ _ hs child ht tail ihc iht =>
      rintro _ _ _ _ _ _ ⟨⟩ hrules hholds
      cases inherited with
      | error fault => cases ht
      | ok inherited =>
          refine iht rfl hrules ?_
          rw [rules_of_takeFrom ht]
          exact hholds.foldl_mergeRule _

/-- Each of the inheritances of a class brings the items of its source field. -/
theorem Evaluates.takes_holds {task : Task} {result : Except Fault ClassRules}
    (h : Evaluates sources names task result) :
    ∀ {source target declared rules d}, task = .inherits source target declared →
      result = .ok rules → d ∈ declared →
      ∃ inherited, Evaluates sources names (.ofClass d.2.sourceClass) (.ok inherited) ∧
        ∀ value, Holds inherited.rules (fromField d) value → Holds rules.rules d.1 value := by
  induction h with
  | unknown | entered => rintro _ _ _ _ _ ⟨⟩
  | done =>
      rintro _ _ _ _ _ ⟨⟩ _ hd
      cases hd
  | missing => rintro _ _ _ _ _ _ ⟨⟩
  | stopped => rintro _ _ _ _ _ _ ⟨⟩
  | @taken _ _ first rest inherited _ _ hs child ht tail ihc iht =>
      rintro _ _ _ _ d ⟨⟩ rfl hd
      cases inherited with
      | error fault => cases ht
      | ok inherited =>
          rcases List.mem_cons.mp hd with rfl | hd
          · refine ⟨inherited, child, fun value hvalue => tail.keeps_holds rfl rfl ?_⟩
            rw [rules_of_takeFrom ht]
            exact hvalue.mono fun kept hkept => holds_foldl_mergeRule hkept
          · exact iht rfl rfl hd

/-- The rules of the last field of a chain arrive at the first one. -/
theorem FieldChain.holds {source last : SchemaSource} {field sourceField : String}
    {above : List (SchemaSource × String)} {value : RuleValue}
    (chain : FieldChain sources source field above last sourceField)
    (hvalue : last.rules.get? sourceField = some value) :
    ∀ {c rules}, sources.get? c = some source →
      Evaluates sources names (.ofClass c) (.ok rules) → Holds rules.rules field value := by
  induction chain with
  | last =>
      intro c rules hsource heval
      cases heval with
      | entered hs body =>
          rw [hsource, Option.some.injEq] at hs
          subst hs
          exact body.keeps_holds rfl rfl ⟨value, hvalue, fun _ h => h⟩
  | link hd ho rest ih =>
      intro c rules hsource heval
      cases heval with
      | entered hs body =>
          rw [hsource, Option.some.injEq] at hs
          subst hs
          obtain ⟨inherited, hinherited, htakes⟩ :=
            body.takes_holds rfl rfl (Table.mem_of_get?_eq_some hd)
          exact htakes value (ih hvalue ho hinherited)

end Inheritance

namespace Collected

/-- The messages that come with one declared inheritance. -/
def supplied (sources : Table SchemaSource) (declared : String × Inheritance) : Table String :=
  match sources.get? declared.2.sourceClass with
  | none => []
  | some origin => origin.messages.filterMap fun m =>
    (after? (fromField declared) m.1).map fun rest => (declared.1 ++ "." ++ rest, m.2)

section Supplied

variable {sources : Table SchemaSource} {source origin : SchemaSource} {declared : String × Inheritance}

theorem after?_eq_some_iff {field key rest : String} :
    after? field key = some rest ↔ key = field ++ "." ++ rest := by
  rw [after?, Option.ite_none_right_eq_some, List.isPrefixOf_iff_prefix, Option.some.injEq]
  constructor
  · rintro ⟨⟨tail, htail⟩, rfl⟩
    rw [← htail, List.drop_left]
    exact String.toList_inj.mp (by simp [← htail])
  · rintro rfl
    have hkey : (field ++ "." ++ rest).toList = (field ++ ".").toList ++ rest.toList :=
      String.toList_append
    rw [hkey, List.drop_left, String.ofList_toList]
    exact ⟨List.prefix_append _ _, rfl⟩

/-- A declared inheritance supplies the messages that the source class has for the source field. -/
theorem get?_supplied (declared : String × Inheritance)
    (ho : sources.get? declared.2.sourceClass = some origin) (rest : String) :
    (supplied sources declared).get? (declared.1 ++ "." ++ rest) =
      origin.messages.get? (fromField declared ++ "." ++ rest) := by
  rw [supplied, ho]
  dsimp only
  induction origin.messages with
  | nil => rfl
  | cons m more ih =>
      obtain ⟨key, text⟩ := m
      rw [List.filterMap_cons, Table.get?]
      cases hafter : after? (fromField declared) key with
      | none =>
          have hne : key ≠ fromField declared ++ "." ++ rest := fun heq => by
            rw [after?_eq_some_iff.mpr heq] at hafter
            cases hafter
          rw [if_neg hne]
          exact ih
      | some rest' =>
          obtain rfl := after?_eq_some_iff.mp hafter
          simp only [Option.map_some, Table.get?, String.append_right_inj]
          rw [ih]

theorem fromField_eq (declared : String × Inheritance) :
    fromField declared =
      (declared.2.sourceField.filter (! Text.isEmpty ·)).getD declared.1 := by
  rw [fromField]
  cases declared.2.sourceField with
  | none => rfl
  | some field => cases h : Text.isEmpty field <;> simp [Option.filter, h]

/-- The messages held after a message of a source class. -/
def takeMessage (source : SchemaSource) (declared : String × Inheritance) (held : Table String)
    (m : String × String) : Table String :=
  match after? (fromField declared) m.1 with
  | none => held
  | some rest =>
    if source.messages.has (declared.1 ++ "." ++ rest) then held
    else held.putNew (declared.1 ++ "." ++ rest) m.2

/-- The messages held after a declared inheritance. -/
def takeMessages (sources : Table SchemaSource) (source : SchemaSource) (held : Table String)
    (declared : String × Inheritance) : Table String :=
  match sources.get? declared.2.sourceClass with
  | none => held
  | some origin => origin.messages.foldl (takeMessage source declared) held

theorem inherited_eq (sources : Table SchemaSource) (source : SchemaSource) :
    inherited sources source = source.inheritance.foldl (takeMessages sources source) [] := by
  rw [inherited]
  congr 1
  funext held declared
  rw [takeMessages]
  simp only [← fromField_eq]
  rfl

theorem get?_takeMessages (held : Table String) (key : String) :
    (takeMessages sources source held declared).get? key =
      (held.get? key).or
        (if source.messages.has key then none else (supplied sources declared).get? key) := by
  rw [takeMessages, supplied]
  cases sources.get? declared.2.sourceClass with
  | none => simp
  | some origin =>
      dsimp only
      induction origin.messages generalizing held with
      | nil => simp
      | cons m more ih =>
          rw [List.foldl_cons, ih, takeMessage, List.filterMap_cons]
          cases after? (fromField declared) m.1 with
          | none => rfl
          | some rest =>
              dsimp only
              rw [Option.map_some, Table.get?]
              by_cases hkey : declared.1 ++ "." ++ rest = key
              · subst hkey
                split
                · rfl
                · rw [Table.get?_putNew, if_pos rfl, if_pos rfl, Option.or_assoc, Option.some_or]
              · rw [if_neg hkey]
                split
                · rfl
                · rw [Table.get?_putNew, if_neg (Ne.symm hkey), Option.or_none]

/-- Of the messages that come with inherited fields the first under a key is taken, unless the class
has one itself. -/
theorem get?_inherited (sources : Table SchemaSource) (source : SchemaSource) (key : String) :
    (inherited sources source).get? key =
      if source.messages.has key then none
      else Table.get? (source.inheritance.flatMap (supplied sources)) key := by
  rw [inherited_eq, ← Option.none_or (o := if source.messages.has key then none else _)]
  change _ = (Table.get? ([] : Table String) key).or _
  generalize ([] : Table String) = held
  induction source.inheritance generalizing held with
  | nil => simp
  | cons declared rest ih =>
      rw [List.foldl_cons, ih, get?_takeMessages, List.flatMap_cons, Table.get?_append,
        Option.or_assoc]
      congr 1
      split <;> rfl

/-- The messages of a class: those collected from it, then the supplied ones. -/
theorem get?_ofSource (sources : Table SchemaSource) (source : SchemaSource) (key : String) :
    (ofSource sources source).get? key =
      ((collect sources [] source.className "").get? key).or
        (if source.messages.has key then none
          else Table.get? (source.inheritance.flatMap (supplied sources)) key) := by
  rw [ofSource, Table.get?_putAllNew, get?_inherited]

end Supplied

section Declared

variable {sources : Table SchemaSource} {declared : Table Inheritance} {key : String}

theorem get?_flatMap_eq_none (h : ∀ d ∈ declared, (supplied sources d).get? key = none) :
    Table.get? (declared.flatMap (supplied sources)) key = none := by
  induction declared with
  | nil => rfl
  | cons d rest ih =>
      rw [List.flatMap_cons, Table.get?_append, h d List.mem_cons_self, Option.none_or]
      exact ih fun e he => h e (List.mem_cons_of_mem _ he)

/-- Where no other inheritance supplies a message under a key, it is supplied by that of the field. -/
theorem get?_flatMap_supplied {field : String} {declaration : Inheritance}
    (hkeys : declared.keys.Nodup) (hd : declared.get? field = some declaration)
    (hother : ∀ d ∈ declared, d.1 ≠ field → (supplied sources d).get? key = none) :
    Table.get? (declared.flatMap (supplied sources)) key =
      (supplied sources (field, declaration)).get? key := by
  induction declared with
  | nil => cases hd
  | cons d rest ih =>
      obtain ⟨target, first⟩ := d
      rw [Table.keys, List.map_cons, List.nodup_cons] at hkeys
      rw [List.flatMap_cons, Table.get?_append]
      by_cases hfield : target = field
      · subst hfield
        rw [Table.get?, if_pos rfl, Option.some.injEq] at hd
        subst hd
        have hnone : Table.get? (rest.flatMap (supplied sources)) key = none := by
          refine get?_flatMap_eq_none fun d hmem => hother d (List.mem_cons_of_mem _ hmem) ?_
          have hkey : d.1 ∈ rest.map Prod.fst := List.mem_map_of_mem hmem
          exact fun heq => hkeys.1 (heq ▸ hkey)
        rw [hnone, Option.or_none]
      · rw [Table.get?, if_neg hfield] at hd
        rw [hother _ List.mem_cons_self hfield, Option.none_or]
        exact ih hkeys.2 hd fun d hmem => hother d (List.mem_cons_of_mem _ hmem)

end Declared

end Collected

/-- On a chain of inheritances without a cycle on which the last class alone has a message for a rule,
and no nested class or other inheritance has one for the first field, the message arrives at the
first field over one inheritance and not over more. The rules arrive over any number. -/
theorem message_reaches_iff (sources : List SchemaSource) (names : SchemaNames)
    (history : List String) {source last : SchemaSource} {field sourceField rule text : String}
    {above : List (SchemaSource × String)}
    (hacyclic : ∀ k, ¬ OnCycle (sourceTable sources) k)
    (hsource : (sourceTable sources).get? source.className = some source)
    (hkeys : source.inheritance.keys.Nodup)
    (chain : FieldChain (sourceTable sources) source field above last sourceField)
    (hmessage : last.messages.get? (sourceField ++ "." ++ rule) = some text)
    (hown : ∀ link ∈ above, link.1.messages.get? (link.2 ++ "." ++ rule) = none)
    (hnested : (Collected.collect (sourceTable sources) [] source.className "").get?
      (field ++ "." ++ rule) = source.messages.get? (field ++ "." ++ rule))
    (hother : ∀ declared ∈ source.inheritance, declared.1 ≠ field →
      (Collected.supplied (sourceTable sources) declared).get? (field ++ "." ++ rule) = none) :
    ((Collected.ofSource (sourceTable sources) source).get? (field ++ "." ++ rule) = some text ↔
        above.length ≤ 1) ∧
      ∀ rules, outcomeAfter (sourceTable sources) names history source.className = .ok rules →
        ∀ value, last.rules.get? sourceField = some value →
          ∃ kept, rules.rules.get? field = some kept ∧
            ∀ item ∈ value.toList, item ∈ kept.toList := by
  refine ⟨?_, fun rules hrules value hvalue => ?_⟩
  · rw [Collected.get?_ofSource, hnested]
    cases chain with
    | last => simp [hmessage]
    | @link _ _ declaration origin above _ _ hd ho rest =>
        have hnone : source.messages.get? (field ++ "." ++ rule) = none :=
          hown _ List.mem_cons_self
        rw [hnone, Option.none_or, Table.has, hnone, Option.isSome_none, if_neg Bool.false_ne_true,
          Collected.get?_flatMap_supplied hkeys hd hother,
          Collected.get?_supplied (field, declaration) ho]
        cases rest with
        | last => simp [hmessage]
        | link hd' ho' rest' =>
            have hnone' := hown _ (List.mem_cons_of_mem _ List.mem_cons_self)
            rw [hnone']
            simp
  · have heval := evaluates_outcomeAfter names (keyed_sourceTable sources) history
      (c := source.className) fun m _ => hacyclic m
    rw [hrules] at heval
    exact chain.holds hvalue hsource heval

section Renamed

/-- A class with a rule and a message for it. -/
def baseClass : SchemaSource :=
  { ruleClass "BaseData" [("name", .text "required|max:80")] [] with
    messages := [("name.required", "Name please.")] }

/-- A class that inherits the field. -/
def middleClass : SchemaSource := ruleClass "MiddleData" [] [("name", ⟨"BaseData", none⟩)]

/-- A class that inherits the inherited field under another name. -/
def leafClass : SchemaSource := ruleClass "LeafData" [] [("title", ⟨"MiddleData", some "name"⟩)]

/-- The three classes. -/
def renamedClasses : List SchemaSource := [leafClass, middleClass, baseClass]

/-- Classes that are ranked above those they inherit from are on no cycle. -/
theorem Inheritance.not_onCycle_of_rank {sources : Table SchemaSource} (rank : String → Nat)
    (h : ∀ source ∈ sources, ∀ declared ∈ source.2.inheritance,
      rank declared.2.sourceClass < rank source.1) (k : String) : ¬ OnCycle sources k := by
  have hstep : ∀ {a b}, Inherits sources a b → rank b < rank a := by
    rintro a b ⟨source, hs, hb⟩
    obtain ⟨declared, hdeclared, rfl⟩ := List.mem_map.mp hb
    exact h (a, source) (Table.mem_of_get?_eq_some hs) declared hdeclared
  intro hcycle
  have hless : ∀ {b}, Relation.TransGen (Inherits sources) k b → rank b < rank k := by
    intro b hb
    induction hb with
    | single hab => exact hstep hab
    | tail _ hbc ih => exact (hstep hbc).trans ih
  exact absurd (hless hcycle) (Nat.lt_irrefl _)

theorem not_onCycle_renamed (k : String) : ¬ OnCycle (sourceTable renamedClasses) k :=
  not_onCycle_of_rank (fun c => if c = "LeafData" then 2 else if c = "MiddleData" then 1 else 0)
    (by decide +kernel) k

theorem fieldChain_middle :
    FieldChain (sourceTable renamedClasses) middleClass "name" [(middleClass, "name")] baseClass
      "name" := by
  have hdeclared : middleClass.inheritance.get? "name" = some ⟨"BaseData", none⟩ := rfl
  have hbase : (sourceTable renamedClasses).get? "BaseData" = some baseClass := rfl
  exact .link hdeclared hbase .last

/-- Rules and message arrive over one inheritance. -/
theorem message_reaches_middle :
    (∀ k, ¬ OnCycle (sourceTable renamedClasses) k) ∧
    FieldChain (sourceTable renamedClasses) middleClass "name" [(middleClass, "name")] baseClass
      "name" ∧
    (Collected.ofSource (sourceTable renamedClasses) middleClass).get? ("name" ++ "." ++ "required") =
      some "Name please." := by
  refine ⟨not_onCycle_renamed, fieldChain_middle, ?_⟩
  refine (message_reaches_iff renamedClasses ⟨[]⟩ [] not_onCycle_renamed rfl ?_ fieldChain_middle
    rfl ?_ ?_ ?_).1.mpr (Nat.le_refl 1)
  · decide
  · decide
  · decide +kernel
  · decide

/-- The rules arrive over two inheritances, the message does not. -/
theorem message_lost_at_leaf :
    (∀ k, ¬ OnCycle (sourceTable renamedClasses) k) ∧
    FieldChain (sourceTable renamedClasses) leafClass "title"
      [(leafClass, "title"), (middleClass, "name")] baseClass "name" ∧
    baseClass.messages.get? ("name" ++ "." ++ "required") = some "Name please." ∧
    leafClass.messages = [] ∧ middleClass.messages = [] ∧
    Collected.collect (sourceTable renamedClasses) [] "LeafData" "" = [] ∧
    leafClass.inheritance.keys = ["title"] ∧
    (Collected.ofSource (sourceTable renamedClasses) leafClass).get? ("title" ++ "." ++ "required") =
      none ∧
    ∃ rules, outcomeAfter (sourceTable renamedClasses) ⟨[]⟩ [] "LeafData" = .ok rules ∧
      rules.rules.get? "title" = some (.list [.text "required", .text "max:80"]) := by
  refine ⟨not_onCycle_renamed, ?_, rfl, rfl, rfl, by decide +kernel, rfl, by decide +kernel, ?_⟩
  · have hdeclared : leafClass.inheritance.get? "title" = some ⟨"MiddleData", some "name"⟩ := rfl
    have hmiddle : (sourceTable renamedClasses).get? "MiddleData" = some middleClass := rfl
    exact .link hdeclared hmiddle fieldChain_middle
  · exact ⟨_, rfl, by with_unfolding_all rfl⟩

end Renamed

end RuleSchema
