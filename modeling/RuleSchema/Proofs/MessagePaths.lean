import RuleSchema.Message.Collected
import RuleSchema.Proofs.NodeShapes
import RuleSchema.Proofs.SpelledRoutes

/-!
# Paths of nested messages

The messages of nested classes are collected along chains of references. Of all messages in the
order in which they are met, the first one under a key is kept. A message is filed under the path of
its chain. This is the path of the node it is meant for, unless the chain goes through a nested
object where the path has the items of an array already: then a further star is added.
-/

namespace RuleSchema

namespace Table

variable {α : Type}

theorem get?_append (t t' : Table α) (key : String) :
    get? (t ++ t') key = (get? t key).or (get? t' key) := by
  induction t with
  | nil => rfl
  | cons p rest ih =>
      obtain ⟨k, v⟩ := p
      rw [List.cons_append, get?, get?, ih]
      split <;> rfl

theorem get?_putNew (t : Table α) (key other : String) (value : α) :
    get? (t.putNew key value) other =
      (get? t other).or (if other = key then some value else none) := by
  rw [putNew, has]
  by_cases hother : other = key
  · subst hother
    rw [if_pos rfl]
    cases hget : get? t other with
    | some v => exact hget
    | none => exact get?_put_self t other value
  · rw [if_neg hother, Option.or_none]
    split
    · rfl
    · exact get?_put_of_ne value hother

/-- Of the pairs under one key the first is kept. -/
theorem get?_putAllNew (t other : Table α) (key : String) :
    get? (putAllNew t other) key = (get? t key).or (get? other key) := by
  induction other generalizing t with
  | nil => exact (Option.or_none).symm
  | cons p rest ih =>
      obtain ⟨k, v⟩ := p
      rw [putAllNew, List.foldl_cons]
      change get? (putAllNew (t.putNew k v) rest) key = _
      rw [ih, get?_putNew, Option.or_assoc, get?]
      congr 1
      by_cases hkey : k = key
      · rw [if_pos hkey, if_pos hkey.symm, Option.some_or]
      · rw [if_neg hkey, if_neg (Ne.symm hkey), Option.none_or]

end Table

namespace Collected

open DottedPath

/-- All messages of a class and of the classes that its fields hold, in the order in which they are
collected. -/
def entries (sources : Table SchemaSource) (collecting : List String) (name path : String) :
    List (String × String) :=
  match _found : sources.get? name with
  | none => []
  | some source =>
    if _fresh : collecting.contains name then []
    else
      (source.messages.map fun m => (under path m.1, m.2)) ++ source.metadata.flatMap fun m =>
        match reference? path m.1 m.2 with
        | none => []
        | some (nestedPath, nested) => entries sources (name :: collecting) nested nestedPath
termination_by (unvisited sources collecting).length
decreasing_by exact unvisited_lt _found _fresh

section Entries

variable {sources : Table SchemaSource} {collecting : List String} {name path : String}
  {source : SchemaSource}

theorem entries_eq (hsource : sources.get? name = some source) (hfresh : name ∉ collecting) :
    entries sources collecting name path =
      (source.messages.map fun m => (under path m.1, m.2)) ++ source.metadata.flatMap fun m =>
        match reference? path m.1 m.2 with
        | none => []
        | some (nestedPath, nested) => entries sources (name :: collecting) nested nestedPath := by
  rw [entries]
  split
  · rename_i hnone
    rw [hsource] at hnone
    cases hnone
  · rename_i found hfound
    rw [hsource] at hfound
    cases hfound
    exact dif_neg (by simpa using hfresh)

theorem collect_eq (hsource : sources.get? name = some source) (hfresh : name ∉ collecting) :
    collect sources collecting name path =
      source.metadata.foldl (fun held m =>
        match reference? path m.1 m.2 with
        | none => held
        | some (nestedPath, nested) =>
          if (name :: collecting).contains nested then held
          else Table.putAllNew held (collect sources (name :: collecting) nested nestedPath))
        (source.messages.map fun m => (under path m.1, m.2)) := by
  rw [collect]
  split
  · rename_i hnone
    rw [hsource] at hnone
    cases hnone
  · rename_i found hfound
    rw [hsource] at hfound
    cases hfound
    exact dif_neg (by simpa using hfresh)

theorem entries_eq_nil (h : sources.get? name = none ∨ name ∈ collecting) :
    entries sources collecting name path = [] := by
  rw [entries]
  split
  · rfl
  · rename_i found hfound
    rw [dif_pos]
    rw [hfound] at h
    simpa using h

/-- A class that is not known or is being collected already adds no messages. -/
theorem collect_eq_nil (h : sources.get? name = none ∨ name ∈ collecting) :
    collect sources collecting name path = [] := by
  rw [collect]
  split
  · rfl
  · rename_i found hfound
    rw [dif_pos]
    rw [hfound] at h
    simpa using h

/-- Collected messages are the first entries under their keys. -/
theorem get?_collect (key : String) (collecting : List String) (name path : String) :
    (collect sources collecting name path).get? key =
      Table.get? (entries sources collecting name path) key := by
  induction hsize : (unvisited sources collecting).length using Nat.strong_induction_on
    generalizing collecting name path with
  | _ size ih =>
      by_cases hcollected : sources.get? name = none ∨ name ∈ collecting
      · rw [collect_eq_nil hcollected, entries_eq_nil hcollected]
      · rw [not_or] at hcollected
        obtain ⟨hknown, hfresh⟩ := hcollected
        obtain ⟨source, hsource⟩ := Option.ne_none_iff_exists'.mp hknown
        have hnested : ∀ nested nestedPath,
            (collect sources (name :: collecting) nested nestedPath).get? key =
              Table.get? (entries sources (name :: collecting) nested nestedPath) key := by
          intro nested nestedPath
          refine ih _ ?_ (name :: collecting) nested nestedPath rfl
          rw [← hsize]
          exact unvisited_lt hsource (by simpa using hfresh)
        rw [collect_eq hsource hfresh, entries_eq hsource hfresh]
        generalize source.messages.map (fun m => (under path m.1, m.2)) = held
        induction source.metadata generalizing held with
        | nil => rw [List.foldl_nil, List.flatMap_nil, List.append_nil]
        | cons m rest ihrest =>
            rw [List.foldl_cons, List.flatMap_cons, ihrest, Table.get?_append, Table.get?_append,
              Table.get?_append, ← Option.or_assoc]
            congr 1
            cases reference? path m.1 m.2 with
            | none => exact (Option.or_none).symm
            | some reference =>
                obtain ⟨nestedPath, nested⟩ := reference
                dsimp only
                split
                · rename_i hseen
                  rw [entries_eq_nil (.inr (by simpa using hseen)), Table.get?_nil, Option.or_none]
                · rw [Table.get?_putAllNew, hnested]

end Entries

/-- A step of a chain of references: a field, which is a collection or a nested object. -/
structure Link where
  field : String
  isCollection : Bool

namespace Link

/-- The names that a link adds to the path of a node. -/
def addedNames (l : Link) : List String :=
  if l.isCollection then [l.field, RuleGroup.wildcard] else [l.field]

/-- The path that messages are filed under behind a link. -/
def pathUnder (path : String) (l : Link) : String :=
  if l.isCollection then under path l.field ++ ".*" else objectPath path l.field

/-- A link is no nested object where the path before it has the items of an array, or where its own
path would be empty. -/
def IsStraight (path : String) (l : Link) : Prop :=
  l.isCollection = false → Text.contains path ".*" = false ∧ (path = "" → l.field ≠ "")

end Link

/-- A field is a collection of a known class. -/
def IsTyped (known : FieldMetadata) : Prop :=
  known.isCollection = true ∧ ∃ element, known.elementClass = some element ∧ element ≠ ""

/-- A chain of references leads from a class to another one: each step goes from a class through one
of its fields to the element class of a collection or to the class of a nested object, and no class
is met again. -/
inductive Leads (sources : Table SchemaSource) :
    List String → String → List Link → SchemaSource → Prop
  | here {seen name source} (hsource : sources.get? name = some source) (hfresh : name ∉ seen) :
      Leads sources seen name [] source
  | collection {seen name source field known element links last}
      (hsource : sources.get? name = some source) (hfresh : name ∉ seen)
      (hfield : (field, known) ∈ source.metadata) (hcollection : known.isCollection = true)
      (helement : known.elementClass = some element) (hnamed : element ≠ "")
      (rest : Leads sources (name :: seen) element links last) :
      Leads sources seen name (⟨field, true⟩ :: links) last
  | object {seen name source field known nested links last}
      (hsource : sources.get? name = some source) (hfresh : name ∉ seen)
      (hfield : (field, known) ∈ source.metadata) (hother : ¬ IsTyped known)
      (hobject : known.isNestedObject = true) (hnested : known.nestedClass = some nested)
      (hnamed : nested ≠ "") (rest : Leads sources (name :: seen) nested links last) :
      Leads sources seen name (⟨field, false⟩ :: links) last

/-- The path that messages are filed under behind a chain. -/
def filedPath (path : String) (links : List Link) : String := links.foldl Link.pathUnder path

/-- The key that a message is filed under behind a chain. -/
def filedKey (links : List Link) (key : String) : String := under (filedPath "" links) key

/-- The key of a message on the path of a node: the field of each link, a star behind a collection,
and the key within the class. -/
def nodeKey (links : List Link) (key : String) : String :=
  ofNames (links.flatMap Link.addedNames ++ [key])

/-- Every link of a chain is straight from the path before it. -/
def IsStraight : String → List Link → Prop
  | _, [] => True
  | path, l :: rest => l.IsStraight path ∧ IsStraight (l.pathUnder path) rest

section Chains

variable {sources : Table SchemaSource} {seen : List String} {name path field key text : String}
  {known : FieldMetadata} {links : List Link} {last : SchemaSource}

theorem reference?_of_collection {element : String} (hcollection : known.isCollection = true)
    (helement : known.elementClass = some element) (hnamed : element ≠ "") :
    reference? path field known = some (Link.pathUnder path ⟨field, true⟩, element) := by
  rw [reference?, hcollection, helement]
  simp only [Option.filter, Text.isEmpty_eq_false hnamed, Bool.not_false, if_true]
  rfl

theorem reference?_of_object {nested : String} (hother : ¬ IsTyped known)
    (hobject : known.isNestedObject = true) (hnested : known.nestedClass = some nested)
    (hnamed : nested ≠ "") :
    reference? path field known = some (Link.pathUnder path ⟨field, false⟩, nested) := by
  unfold reference?
  dsimp only
  split
  · rename_i element hcollection helement
    rw [Option.filter_eq_some_iff] at helement
    refine absurd ⟨hcollection, element, helement.1, ?_⟩ hother
    rintro rfl
    cases helement.2
  · rw [hobject, hnested]
    simp only [Option.filter, Text.isEmpty_eq_false hnamed, Bool.not_false, if_true]
    rfl

/-- A message of the last class of a chain is among the entries of the first one. -/
theorem mem_entries_of_leads (h : Leads sources seen name links last)
    (hmessage : (key, text) ∈ last.messages) (path : String) :
    (under (filedPath path links) key, text) ∈ entries sources seen name path := by
  induction h generalizing path with
  | here hsource hfresh =>
      rw [entries_eq hsource hfresh]
      exact List.mem_append_left _ (List.mem_map.mpr ⟨_, hmessage, rfl⟩)
  | collection hsource hfresh hfield hcollection helement hnamed rest ih =>
      rw [entries_eq hsource hfresh]
      refine List.mem_append_right _ (List.mem_flatMap.mpr ⟨_, hfield, ?_⟩)
      rw [reference?_of_collection hcollection helement hnamed]
      exact ih hmessage _
  | object hsource hfresh hfield hother hobject hnested hnamed rest ih =>
      rw [entries_eq hsource hfresh]
      refine List.mem_append_right _ (List.mem_flatMap.mpr ⟨_, hfield, ?_⟩)
      rw [reference?_of_object hother hobject hnested hnamed]
      exact ih hmessage _

end Chains

section Keys

variable {path key : String} {l : Link} {rest : List Link}

theorem under_empty (key : String) : under "" key = key := rfl

theorem under_of_ne (h : path ≠ "") (key : String) : under path key = path ++ "." ++ key := by
  rw [under, Text.isEmpty_eq_false h, if_neg Bool.false_ne_true]

theorem under_append (path a b : String) : under path (a ++ b) = under path a ++ b := by
  by_cases h : path = ""
  · rw [h, under_empty, under_empty]
  · rw [under_of_ne h, under_of_ne h, String.append_assoc, String.append_assoc, String.append_assoc]

theorem under_ne_empty {field : String} (h : path = "" → field ≠ "") : under path field ≠ "" := by
  by_cases hpath : path = ""
  · rw [hpath, under_empty]
    exact h hpath
  · rw [under_of_ne hpath]
    intro hempty
    rw [String.append_eq_empty_iff, String.append_eq_empty_iff] at hempty
    exact hpath hempty.1.1

theorem under_nodeKey_cons (path : String) (l : Link) (rest : List Link) (key : String) :
    under path (nodeKey (l :: rest) key) =
      under path l.field ++
        ((if l.isCollection then ".*" else "") ++ ("." ++ nodeKey rest key)) := by
  have hne : rest.flatMap Link.addedNames ++ [key] ≠ [] :=
    List.append_ne_nil_of_right_ne_nil _ (List.cons_ne_nil key [])
  rw [← under_append, nodeKey, nodeKey, List.flatMap_cons, Link.addedNames, List.append_assoc]
  congr 1
  cases l.isCollection with
  | true =>
      rw [if_pos rfl, if_pos rfl, List.cons_append, List.cons_append, List.nil_append,
        ofNames_cons _ (List.cons_ne_nil _ _), ofNames_cons _ hne]
      rfl
  | false =>
      rw [if_neg Bool.false_ne_true, if_neg Bool.false_ne_true, List.singleton_append,
        ofNames_cons _ hne, String.empty_append]

/-- A straight link adds to a key what it adds to the path of a node. -/
theorem under_pathUnder_of_isStraight (h : l.IsStraight path) (rest : List Link) (key : String) :
    under (l.pathUnder path) (nodeKey rest key) = under path (nodeKey (l :: rest) key) := by
  rw [under_nodeKey_cons, Link.pathUnder]
  cases hcollection : l.isCollection with
  | true =>
      have hne : under path l.field ++ ".*" ≠ "" := by simp
      rw [if_pos rfl, if_pos rfl, under_of_ne hne, String.append_assoc, String.append_assoc]
  | false =>
      obtain ⟨hitems, hfield⟩ := h hcollection
      rw [if_neg Bool.false_ne_true, if_neg Bool.false_ne_true, objectPath, hitems,
        if_neg Bool.false_ne_true, under_of_ne (under_ne_empty hfield), String.append_assoc,
        String.empty_append]

/-- A link that is not straight adds a star to a key, or leaves the first dot out. -/
theorem under_pathUnder_of_not_isStraight (h : ¬ l.IsStraight path) (rest : List Link)
    (key : String) :
    (∃ before after, under path (nodeKey (l :: rest) key) = before ++ after ∧
      under (l.pathUnder path) (nodeKey rest key) = before ++ ".*" ++ after) ∨
    under path (nodeKey (l :: rest) key) = "." ++ under (l.pathUnder path) (nodeKey rest key) := by
  rw [Link.IsStraight, Classical.not_imp] at h
  obtain ⟨hobject, h⟩ := h
  rw [under_nodeKey_cons, Link.pathUnder, hobject, if_neg Bool.false_ne_true,
    if_neg Bool.false_ne_true, String.empty_append, objectPath]
  cases hitems : Text.contains path ".*" with
  | true =>
      have hpath : path ≠ "" := by
        rintro rfl
        exact absurd hitems (by decide)
      have hne : path ++ "." ++ l.field ++ ".*" ≠ "" := by simp
      refine .inl ⟨under path l.field, "." ++ nodeKey rest key, rfl, ?_⟩
      rw [if_pos rfl, under_of_ne hne, under_of_ne hpath]
      simp only [String.append_assoc]
  | false =>
      obtain ⟨rfl, hfield⟩ : path = "" ∧ l.field = "" := by
        rw [hitems] at h
        simpa using h
      rw [hfield]
      exact .inr rfl

/-- A straight chain files a message under the key of the node. -/
theorem under_filedPath_of_isStraight {links : List Link} (h : IsStraight path links)
    (key : String) : under (filedPath path links) key = under path (nodeKey links key) := by
  induction links generalizing path with
  | nil => rfl
  | cons l rest ih => exact (ih h.2).trans (under_pathUnder_of_isStraight h.1 rest key)

/-- The stars that a chain adds to a key and the dots that it leaves out are never made up for. -/
theorem under_filedPath_counts (links : List Link) (path key : String) :
    ∃ stars dots : Nat,
      (under (filedPath path links) key).toList.count '*' =
        (under path (nodeKey links key)).toList.count '*' + stars ∧
      (under (filedPath path links) key).toList.length + dots =
        (under path (nodeKey links key)).toList.length + 2 * stars ∧
      (stars = 0 → dots = 0 → IsStraight path links) := by
  induction links generalizing path with
  | nil => exact ⟨0, 0, rfl, rfl, fun _ _ => trivial⟩
  | cons l rest ih =>
      obtain ⟨stars, dots, hstars, hdots, hstraight⟩ := ih (l.pathUnder path)
      change (under (filedPath path (l :: rest)) key).toList.count '*' = _ at hstars
      change (under (filedPath path (l :: rest)) key).toList.length + dots = _ at hdots
      by_cases hl : l.IsStraight path
      · rw [under_pathUnder_of_isStraight hl] at hstars hdots
        exact ⟨stars, dots, hstars, hdots, fun hs hd => ⟨hl, hstraight hs hd⟩⟩
      · rcases under_pathUnder_of_not_isStraight hl rest key with
          ⟨before, after, hnode, hfiled⟩ | hnode
        · rw [hfiled] at hstars hdots
          refine ⟨stars + 1, dots, ?_, ?_, by omega⟩
          · rw [hstars, hnode]
            simp
            omega
          · rw [hdots, hnode]
            simp
            omega
        · refine ⟨stars, dots + 1, ?_, ?_, by omega⟩
          · rw [hstars, hnode]
            simp
          · rw [← Nat.add_assoc, hdots, hnode]
            simp
            omega

/-- A message is filed under the key of the node if and only if its chain is straight. -/
theorem filedKey_eq_nodeKey_iff (links : List Link) (key : String) :
    filedKey links key = nodeKey links key ↔ IsStraight "" links := by
  constructor
  · intro h
    obtain ⟨stars, dots, hstars, hdots, hstraight⟩ := under_filedPath_counts links "" key
    rw [filedKey] at h
    rw [h, under_empty] at hstars hdots
    exact hstraight (by omega) (by omega)
  · exact fun h => under_filedPath_of_isStraight h key

end Keys

section Names

variable {path : String} {links : List Link}

theorem contains_append_self (s needle : String) : Text.contains (s ++ needle) needle = true := by
  have h := DottedPath.occursIn_append s.toList needle.toList []
  rwa [List.append_nil, ← String.toList_append] at h

/-- A path that has no star, or the items of an array. -/
def IsRegular (path : String) : Prop := '*' ∈ path.toList → Text.contains path ".*" = true

/-- Behind a link whose field has no star, a path has the items of an array if it had them or if the
link is a collection. -/
theorem contains_pathUnder (h : IsRegular path) {l : Link} (hfield : '*' ∉ l.field.toList) :
    Text.contains (l.pathUnder path) ".*" = (l.isCollection || Text.contains path ".*") ∧
      IsRegular (l.pathUnder path) := by
  rw [Link.pathUnder]
  cases l.isCollection with
  | true =>
      rw [if_pos rfl]
      exact ⟨contains_append_self _ _, fun _ => contains_append_self _ _⟩
  | false =>
      rw [if_neg Bool.false_ne_true, objectPath, Bool.false_or]
      cases hitems : Text.contains path ".*" with
      | true =>
          rw [if_pos rfl]
          exact ⟨contains_append_self _ _, fun _ => contains_append_self _ _⟩
      | false =>
          have hpath : '*' ∉ path.toList := by
            intro hstar
            rw [h hstar] at hitems
            cases hitems
          have hnone : '*' ∉ (under path l.field).toList := by
            rw [under]
            split
            · exact hfield
            · simp only [String.toList_append, List.mem_append, not_or]
              exact ⟨⟨hpath, by decide⟩, hfield⟩
          rw [if_neg Bool.false_ne_true]
          exact ⟨contains_eq_false (by decide) hnone, fun hstar => absurd hstar hnone⟩

theorem isStraight_iff (h : IsRegular path)
    (hfields : ∀ l ∈ links, l.field ≠ "" ∧ '*' ∉ l.field.toList) :
    IsStraight path links ↔
      (Text.contains path ".*" = true → ∀ l ∈ links, l.isCollection = true) ∧
        links.Pairwise fun l l' => l.isCollection = true → l'.isCollection = true := by
  induction links generalizing path with
  | nil => simp [IsStraight]
  | cons l rest ih =>
      obtain ⟨⟨hfilled, hstar⟩, hrest⟩ := List.forall_mem_cons.mp hfields
      obtain ⟨hitems, hregular⟩ := contains_pathUnder h hstar
      rw [IsStraight, ih hregular hrest, hitems, Link.IsStraight, List.pairwise_cons,
        List.forall_mem_cons]
      cases l.isCollection <;> cases Text.contains path ".*" <;> simp [hfilled]

/-- Where fields are named without stars, a chain is straight if and only if it goes through no
nested object behind a collection. -/
theorem isStraight_iff_pairwise (hfields : ∀ l ∈ links, l.field ≠ "" ∧ '*' ∉ l.field.toList) :
    IsStraight "" links ↔
      links.Pairwise fun l l' => l.isCollection = true → l'.isCollection = true := by
  rw [isStraight_iff (fun h => by cases h) hfields]
  exact and_iff_right fun h => absurd h (by decide)

end Names

section Filed

variable {sources : Table SchemaSource} {name key text : String} {links : List Link}
  {last : SchemaSource}

/-- The key of a message is the path of the node that it is meant for and the rule. -/
theorem nodeKey_eq {rules : Table RuleValue} {metadata : Table FieldMetadata}
    {groups : List (String × RuleGroup)} {m : Messages} {nodes : List (String × Node)}
    (hgroups : Grouping.group rules metadata = .ok groups)
    (hnodes : Node.ofGroups m metadata groups = .ok nodes) {q : List String} {r : Resolved}
    (hr : Tree.atAll? nodes (links.flatMap Link.addedNames ++ q) = some r) (rule : String) :
    nodeKey links (ofNames (q ++ [rule])) = r.path ++ "." ++ rule := by
  have hne : links.flatMap Link.addedNames ++ q ≠ [] := by
    intro hnil
    rw [hnil] at hr
    cases hr
  have hpath := Node.path_of_atAll? (Grouping.distinct_of_group hgroups).2 hnodes hr
  rw [hpath, ← ofNames_concat hne, nodeKey]
  cases hnames : links.flatMap Link.addedNames with
  | nil => rfl
  | cons first more =>
      rw [Grouping.ofNames_append (List.cons_ne_nil _ _) (List.cons_ne_nil _ _), List.append_assoc,
        Grouping.ofNames_append (List.cons_ne_nil _ _) (by simp)]
      rfl

/-- Behind a chain of references each message of the last class is filed under the key of its chain,
unless an entry that is met earlier has this key. That is the key of the node the message is meant
for if and only if the chain is straight. -/
theorem filed_under_node_iff (h : Leads sources [] name links last)
    (hmessage : (key, text) ∈ last.messages) :
    (∃ before after, entries sources [] name "" = before ++ (filedKey links key, text) :: after ∧
      (collect sources [] name "").get? (filedKey links key) =
        some ((Table.get? before (filedKey links key)).getD text)) ∧
    (filedKey links key = nodeKey links key ↔ IsStraight "" links) ∧
    ∀ rules metadata groups m nodes, Grouping.group rules metadata = .ok groups →
      Node.ofGroups m metadata groups = .ok nodes → ∀ q r rule, key = ofNames (q ++ [rule]) →
        Tree.atAll? nodes (links.flatMap Link.addedNames ++ q) = some r →
        nodeKey links key = r.path ++ "." ++ rule := by
  refine ⟨?_, filedKey_eq_nodeKey_iff links key, ?_⟩
  · obtain ⟨before, after, hsplit⟩ := List.append_of_mem (mem_entries_of_leads h hmessage "")
    refine ⟨before, after, hsplit, ?_⟩
    rw [get?_collect, hsplit, Table.get?_append, filedKey, Table.get?, if_pos rfl]
    cases Table.get? before (under (filedPath "" links) key) <;> rfl
  · rintro rules metadata groups m nodes hgroups hnodes q r rule rfl hr
    exact nodeKey_eq hgroups hnodes hr rule

/-- A class with messages and with metadata of its fields. -/
def classOf (name : String) (messages : Table String) (metadata : Table FieldMetadata) :
    String × SchemaSource :=
  (name, ⟨name, [], messages, [], metadata, [], [], .data, none⟩)

/-- An order has a delivery, a delivery has parcels, and each parcel has a recipient. -/
def deliverySources : Table SchemaSource :=
  [classOf "OrderData" [] [("delivery", ⟨true, false, false, some "DeliveryData", none⟩)],
    classOf "DeliveryData" [] [("parcels", ⟨false, false, true, none, some "ParcelData"⟩)],
    classOf "ParcelData" [("weight.max", "Too heavy.")]
      [("recipient", ⟨true, false, false, some "PersonData", none⟩)],
    classOf "PersonData" [("name.required", "Name please.")] []]

theorem weight_filed_under_node :
    ∃ last, Leads deliverySources [] "OrderData" [⟨"delivery", false⟩, ⟨"parcels", true⟩] last ∧
      ("weight.max", "Too heavy.") ∈ last.messages ∧
      filedKey [⟨"delivery", false⟩, ⟨"parcels", true⟩] "weight.max" =
        nodeKey [⟨"delivery", false⟩, ⟨"parcels", true⟩] "weight.max" ∧
      (collect deliverySources [] "OrderData" "").get? "delivery.parcels.*.weight.max" =
        some "Too heavy." := by
  obtain ⟨last, hleads, hmessage⟩ : ∃ last,
      Leads deliverySources [] "OrderData" [⟨"delivery", false⟩, ⟨"parcels", true⟩] last ∧
        ("weight.max", "Too heavy.") ∈ last.messages :=
    ⟨_, .object rfl (by decide) List.mem_cons_self (fun h => by cases h.1) rfl rfl (by decide)
      (.collection rfl (by decide) List.mem_cons_self rfl rfl (by decide)
        (.here rfl (by decide))), List.mem_cons_self⟩
  obtain ⟨-, hkey, -⟩ := filed_under_node_iff hleads hmessage
  refine ⟨last, hleads, hmessage, hkey.mpr ?_, by decide +kernel⟩
  rw [isStraight_iff_pairwise (by decide)]
  decide

/-- A message of a nested object in a collection is filed under a key with a further star, and there
is none under the key of its node. -/
theorem name_filed_elsewhere :
    (∃ last, Leads deliverySources [] "OrderData"
        [⟨"delivery", false⟩, ⟨"parcels", true⟩, ⟨"recipient", false⟩] last ∧
      ("name.required", "Name please.") ∈ last.messages) ∧
    nodeKey [⟨"delivery", false⟩, ⟨"parcels", true⟩, ⟨"recipient", false⟩] "name.required" =
      "delivery.parcels.*.recipient.name.required" ∧
    collect deliverySources [] "OrderData" "" =
      [("delivery.parcels.*.weight.max", "Too heavy."),
        ("delivery.parcels.*.recipient.*.name.required", "Name please.")] := by
  refine ⟨⟨_, .object rfl (by decide) List.mem_cons_self (fun h => by cases h.1) rfl rfl (by decide)
    (.collection rfl (by decide) List.mem_cons_self rfl rfl (by decide)
      (.object rfl (by decide) List.mem_cons_self (fun h => by cases h.1) rfl rfl (by decide)
        (.here rfl (by decide)))), List.mem_cons_self⟩, by decide, by decide +kernel⟩

end Filed

end Collected

end RuleSchema
