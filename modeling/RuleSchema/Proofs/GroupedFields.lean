import RuleSchema.Proofs.FieldShapes
import RuleSchema.Proofs.JoinedRules
import RuleSchema.Proofs.ResolvedTrees

/-!
# Fields of grouped rules

A rule map without markers and metadata gives one field for every key, with the rules of that key.
Any other field is on the way to a key and has no rules but that of an implied array. The top-level
fields come in the order in which the keys name them.
-/

namespace RuleSchema.Grouping

open DottedPath RuleGroup

/-- A coherent rule map without markers, with filled names and with written rules that can be
read. -/
structure IsPlain (rules : Table RuleValue) : Prop extends Coherent rules where
  distinct : rules.keys.Nodup
  unmarked : ∀ e ∈ rules, Marker.isMarked e.1 = false
  filled : ∀ e ∈ rules, ∀ name ∈ names e.1, name ≠ ""
  written : ∀ e ∈ rules, ∃ s, e.2 = .text s ∧ Text.trim s ≠ "" ∧
    Succeeds (NormalizedRules.normalize (.text s))

/-- Named nodes hold a rule map: each key has one field with its rules, any other field is implied
by a longer key, and the nodes go by the first names of the keys, in order. -/
structure Holds (nodes : List (String × Node)) (rules : Table RuleValue) : Prop where
  own : ∀ e ∈ rules, ∃ r n, (Tree.headsOfAll nodes).filter (·.path = e.1) = [r] ∧
    NormalizedRules.normalize e.2 = .ok n ∧ r.ruleNames = n.names
  onTheWay : ∀ r ∈ Tree.headsOfAll nodes, r.path ∉ rules.keys →
    ∃ e ∈ rules, names r.path <+: names e.1 ∧ names r.path ≠ names e.1
  implied : ∀ r ∈ Tree.headsOfAll nodes, r.path ∉ rules.keys →
    r.ruleNames = if ∃ e ∈ rules, names r.path ++ [wildcard] <+: names e.1 then ["array"] else []
  order : nodes.map Prod.fst = (rules.map fun e => topField e.1).eraseDups
  roots : ∀ p ∈ nodes, p.2.head.path = p.1

/-- The declared fields of the groups of a rule map. -/
def declared (rules : Table RuleValue) : List Declared :=
  Tree.headsOfAll (Declared.ofGroups [] (placed rules))

section Placed

variable {rules : Table RuleValue}

/-- The groups go by the first names of the keys, in the order in which these first occur. -/
theorem map_fst_placed (rules : Table RuleValue) :
    (placed rules).map Prod.fst = (rules.map fun e => topField e.1).eraseDups := by
  induction rules using List.reverseRecOn with
  | nil => rfl
  | append_singleton earlier e ih =>
      obtain ⟨name, rest, hnames⟩ := List.exists_cons_of_ne_nil (names_ne_nil e.1)
      have htop : topField e.1 = name := by
        have hhead := head?_names e.1
        rw [hnames, List.head?_cons, Option.some.injEq] at hhead
        exact hhead.symm
      rw [placed_concat, hnames, placeAt, keys_updateIn, ih, List.map_append, List.map_singleton,
        htop, List.eraseDups_append]
      by_cases hname : name ∈ earlier.map fun e => topField e.1
      · rw [if_pos (List.mem_eraseDups.mpr hname), List.cons_removeAll,
          if_neg (by simpa using hname), List.nil_removeAll, List.eraseDups_nil, List.append_nil]
      · rw [if_neg fun hmem => hname (List.mem_eraseDups.mp hmem), List.cons_removeAll,
          if_pos (by simpa using hname), List.nil_removeAll]
        rfl

/-- The declared fields with a path are one with the value that is read there, or none. -/
theorem rules_filter_placed (h : Coherent rules) (path : String) :
    ((declared rules).filter (·.path = path)).map Declared.rules =
      ((reading rules (names path)).map
        (·.orRules (Declared.impliedRules (reading rules (names path ++ [wildcard]))))).toList := by
  obtain ⟨hshaped, hread⟩ := placed_spec h
  have hfilter := Declared.rules_filter_ofGroups hshaped (q := names path)
    (fun n hn => isName_of_mem_names hn) (names_ne_nil path)
  rwa [ofNames_names, hread _ (names_ne_nil path), hread _ (by simp)] at hfilter

theorem exists_reading (h : Coherent rules) {d : Declared}
    (hd : d ∈ declared rules) :
    ∃ u, reading rules (names d.path) = some u ∧
      d.rules = u.orRules (Declared.impliedRules (reading rules (names d.path ++ [wildcard]))) := by
  have hmem : d.rules ∈ ((declared rules).filter (·.path = d.path)).map Declared.rules :=
    List.mem_map_of_mem (List.mem_filter.mpr ⟨hd, decide_eq_true rfl⟩)
  rw [rules_filter_placed h, Option.mem_toList] at hmem
  obtain ⟨u, hu, hrules⟩ := Option.map_eq_some_iff.mp hmem
  exact ⟨u, hu, hrules.symm⟩

/-- The path of a declared field is on the way to a key. -/
theorem exists_key_of_declared (h : Coherent rules) {d : Declared}
    (hd : d ∈ declared rules) :
    ∃ e ∈ rules, names d.path <+: names e.1 := by
  obtain ⟨u, hu, -⟩ := exists_reading h hd
  by_contra hnone
  have hread : reading rules (names d.path) = none := by
    rw [reading_eq_none_iff]
    intro e he hpre
    exact hnone ⟨e, he, hpre⟩
  rw [hread] at hu
  cases hu

/-- A declared field at no key has only the rules of an implied array. -/
theorem rules_of_implied (h : Coherent rules) {d : Declared}
    (hd : d ∈ declared rules) (hkey : d.path ∉ rules.keys) :
    d.rules = .text
      (if ∃ e ∈ rules, names d.path ++ [wildcard] <+: names e.1 then "array" else "") := by
  obtain ⟨u, hu, hrules⟩ := exists_reading h hd
  have habsent := reading_eq_absent hu fun e he heq =>
    hkey (names_injective heq ▸ List.mem_map_of_mem he)
  have hitems : (reading rules (names d.path ++ [wildcard])).isSome =
      decide (∃ e ∈ rules, names d.path ++ [wildcard] <+: names e.1) := by
    rw [Bool.eq_iff_iff, decide_eq_true_eq, Option.isSome_iff_ne_none, Ne, reading_eq_none_iff]
    simp only [not_forall, not_not, exists_prop]
  rw [hrules, habsent, Declared.impliedRules, hitems]
  simp only [decide_eq_true_eq]
  rfl

end Placed

section Plain

variable {rules : Table RuleValue} {m : Messages}

theorem IsPlain.orRules_eq (h : IsPlain rules) {e : String × RuleValue} (he : e ∈ rules)
    (fallback : String) : e.2.orRules fallback = e.2 := by
  obtain ⟨s, hs, htrim, -⟩ := h.written e he
  have hne : s ≠ "" := by
    rintro rfl
    exact htrim (by decide)
  rw [hs, RuleValue.orRules, RuleValue.isDeclared, Text.isEmpty_eq_false hne]
  rfl

/-- One declared field has the path of a key, with the value of the key. -/
theorem IsPlain.declared_of_key (h : IsPlain rules) {e : String × RuleValue} (he : e ∈ rules) :
    ∃ d, (declared rules).filter (·.path = e.1) = [d] ∧ d.rules = e.2 := by
  have hfilter := rules_filter_placed h.toCoherent e.1
  rw [reading_key h.distinct he, Option.map_some, h.orRules_eq he, Option.toList_some] at hfilter
  exact List.map_eq_singleton_iff.mp hfilter

theorem normalize_implied (p : Prop) [Decidable p] :
    ∃ n, NormalizedRules.normalize (.text (if p then "array" else "")) = .ok n ∧
      n.names = if p then ["array"] else [] := by
  split
  · refine ⟨⟨[⟨"array", []⟩], none, 0⟩, ?_, rfl⟩
    exact NormalizedRules.normalize_join ["array"]
      (List.forall_mem_singleton.mpr (.inl (.of_isAlpha (by decide) (by decide)))) rfl
  · refine ⟨.empty, ?_, rfl⟩
    exact NormalizedRules.normalize_join [] (fun _ h => absurd h List.not_mem_nil) rfl

/-- Every declared field has written rules that can be read. -/
theorem IsPlain.declared_written (h : IsPlain rules) {d : Declared}
    (hd : d ∈ declared rules) :
    ∃ s, d.rules = .text s ∧ Succeeds (NormalizedRules.normalize (.text s)) := by
  by_cases hkey : d.path ∈ rules.keys
  · obtain ⟨e, he, hpath⟩ := List.mem_map.mp hkey
    obtain ⟨d', hfilter, hrules⟩ := h.declared_of_key he
    have hmem := List.mem_filter (p := (·.path = e.1)) |>.mpr ⟨hd, decide_eq_true hpath.symm⟩
    rw [hfilter, List.mem_singleton] at hmem
    obtain ⟨s, hs, -, hread⟩ := h.written e he
    exact ⟨s, by rw [hmem, hrules, hs], hread⟩
  · obtain ⟨n, hn, -⟩ := normalize_implied (∃ e ∈ rules, names d.path ++ [wildcard] <+: names e.1)
    exact ⟨_, rules_of_implied h.toCoherent hd hkey, n, hn⟩

theorem IsPlain.path_filled (h : IsPlain rules) {d : Declared}
    (hd : d ∈ declared rules) :
    Text.isEmpty d.path = false := by
  obtain ⟨e, he, hpre⟩ := exists_key_of_declared h.toCoherent hd
  apply Text.isEmpty_eq_false
  intro hpath
  have hnames : names "" = [""] := by decide
  rw [hpath, hnames] at hpre
  exact h.filled e he "" (hpre.mem List.mem_cons_self) rfl

/-- The fields of a plain rule map are resolved when messages can be looked up. -/
theorem IsPlain.succeeds_ofGroups (h : IsPlain rules) (hm : m.Ready) :
    Succeeds (Node.ofGroups m [] (placed rules)) := by
  apply Tree.succeeds_mapHeadsOfAll
  intro d hd
  obtain ⟨s, hs, hread⟩ := h.declared_written hd
  exact Declared.succeeds_resolve hm hs (h.path_filled hd) (hs ▸ hread)

/-- The resolved fields come from the declared ones, one from each. -/
theorem forall₂_declared {nodes : List (String × Node)}
    (hnodes : Node.ofGroups m [] (placed rules) = .ok nodes) :
    List.Forall₂ (fun d r => d.resolve m = .ok r) (declared rules) (Tree.headsOfAll nodes) :=
  Tree.forall₂_headsOfAll hnodes

/-- A resolved field at no key comes from a declared one with its path and its rules. -/
theorem IsPlain.implied_of_resolved (h : IsPlain rules) {nodes : List (String × Node)}
    (hnodes : Node.ofGroups m [] (placed rules) = .ok nodes) {r : Resolved}
    (hr : r ∈ Tree.headsOfAll nodes) (hkey : r.path ∉ rules.keys) :
    (∃ e ∈ rules, names r.path <+: names e.1 ∧ names r.path ≠ names e.1) ∧
      r.ruleNames =
        if ∃ e ∈ rules, names r.path ++ [wildcard] <+: names e.1 then ["array"] else [] := by
  obtain ⟨d, hd, hresolve⟩ := exists_of_forall₂ (forall₂_declared hnodes) hr
  obtain ⟨n, hn, hpath, hnames⟩ := Declared.ruleNames_of_resolve hresolve
  rw [hpath] at hkey ⊢
  constructor
  · obtain ⟨e, he, hpre⟩ := exists_key_of_declared h.toCoherent hd
    refine ⟨e, he, hpre, fun heq => hkey ?_⟩
    rw [names_injective heq]
    exact List.mem_map_of_mem he
  · obtain ⟨n', hn', hnames'⟩ :=
      normalize_implied (∃ e ∈ rules, names d.path ++ [wildcard] <+: names e.1)
    rw [rules_of_implied h.toCoherent hd hkey, hn', Except.ok.injEq] at hn
    rw [hnames, ← hn, hnames']

/-- One resolved field has the path of a key, with the rules of the key. -/
theorem IsPlain.resolved_of_key (h : IsPlain rules) {nodes : List (String × Node)}
    (hnodes : Node.ofGroups m [] (placed rules) = .ok nodes) {e : String × RuleValue}
    (he : e ∈ rules) : ∃ r n, (Tree.headsOfAll nodes).filter (·.path = e.1) = [r] ∧
      NormalizedRules.normalize e.2 = .ok n ∧ r.ruleNames = n.names := by
  obtain ⟨d, hdeclared, hrules⟩ := h.declared_of_key he
  have hsame : ∀ (a : Declared) (b : Resolved), a.resolve m = .ok b →
      (decide (a.path = e.1) = true ↔ decide (b.path = e.1) = true) := by
    intro a b hab
    obtain ⟨-, -, hpath, -⟩ := Declared.ruleNames_of_resolve hab
    rw [hpath]
  have hfilter := List.rel_filter hsame (forall₂_declared hnodes)
  rw [hdeclared] at hfilter
  obtain ⟨r, rest, hresolve, hrest, hresolved⟩ := List.forall₂_cons_left_iff.mp hfilter
  rw [List.forall₂_nil_left_iff.mp hrest] at hresolved
  obtain ⟨n, hn, -, hnames⟩ := Declared.ruleNames_of_resolve hresolve
  exact ⟨r, n, hresolved, hrules ▸ hn, hnames⟩

/-- The nodes go by the names of their groups, and each has its name as its path. -/
theorem IsPlain.roots_of_resolved (h : IsPlain rules) {nodes : List (String × Node)}
    (hnodes : Node.ofGroups m [] (placed rules) = .ok nodes) :
    nodes.map Prod.fst = (placed rules).map Prod.fst ∧ ∀ p ∈ nodes, p.2.head.path = p.1 := by
  refine ⟨?_, fun p hp => ?_⟩
  · rw [Tree.map_fst_of_mapHeadsOfAll hnodes, Declared.ofGroups_eq_map, List.map_map]
    rfl
  · obtain ⟨q, hq, hname, htree⟩ := exists_of_forall₂ (Tree.forall₂_mapHeadsOfAll hnodes) hp
    obtain ⟨-, -, hpath, -⟩ := Declared.ruleNames_of_resolve (Tree.head_of_mapHeads htree)
    obtain ⟨-, haddressed⟩ :=
      Declared.addressed_of_mem_ofGroups (placed_spec h.toCoherent).1 q hq
    obtain ⟨hhead, -⟩ := haddressed
    rw [hpath, hhead, hname]
    rfl

/-- Grouping a plain rule map and building its nodes keeps every key and its rules. -/
theorem group_holds (h : IsPlain rules) (m : Messages) :
    ∃ groups, group rules [] = .ok groups ∧ (m.Ready → Succeeds (Node.ofGroups m [] groups)) ∧
      ∀ nodes, Node.ofGroups m [] groups = .ok nodes → Holds nodes rules := by
  refine ⟨placed rules, group_eq_placed h.toCoherent h.unmarked, h.succeeds_ofGroups,
    fun nodes hnodes => ?_⟩
  obtain ⟨hkeys, hroots⟩ := h.roots_of_resolved hnodes
  exact {
    own := fun e he => h.resolved_of_key hnodes he
    onTheWay := fun r hr hkey => (h.implied_of_resolved hnodes hr hkey).1
    implied := fun r hr hkey => (h.implied_of_resolved hnodes hr hkey).2
    order := hkeys.trans (map_fst_placed rules)
    roots := hroots }

end Plain

/-- It is enough to compare two keys at the stars of the first. -/
theorem unmixed_of_stars {a b : List String}
    (h : ∀ i < a.length, a[i]? = some wildcard → a.take i = b.take i →
      ∀ name ∈ b[i]?, name = wildcard) {q : List String} {name : String}
    (ha : q ++ [wildcard] <+: a) (hb : q ++ [name] <+: b) : name = wildcard := by
  obtain ⟨after, rfl⟩ := ha
  obtain ⟨after', rfl⟩ := hb
  refine h q.length ?_ ?_ ?_ name ?_
  all_goals simp

/-- Rules of a form with lines of sizes, tags and an address. -/
def orderForm : Table RuleValue :=
  [("lines", .text "array"), ("address.city", .text "required"),
    ("lines.*.sizes.*.width", .text "required|integer"), ("tags.*", .text "string"),
    ("lines.*.sizes.*.unit", .text "string"), ("lines.*", .text "required")]

theorem orderForm_isPlain : IsPlain orderForm where
  head := by decide +kernel
  apart := by
    unfold Apart
    decide +kernel
  unmixed e he e' he' q name ha hb := by
    have hstars : ∀ e ∈ orderForm, ∀ e' ∈ orderForm, ∀ i < (names e.1).length,
        (names e.1)[i]? = some wildcard → (names e.1).take i = (names e'.1).take i →
          ∀ name ∈ (names e'.1)[i]?, name = wildcard := by
      decide +kernel
    exact unmixed_of_stars (hstars e he e' he') ha hb
  distinct := by decide +kernel
  unmarked := by decide +kernel
  filled := by decide +kernel
  written := by
    have hletters : ∀ w ∈ ["array", "required", "integer", "string"],
        w ≠ "" ∧ w.toList.all Char.isAlpha = true := by
      decide
    have hread : ∀ words entries, (∀ w ∈ words, w ∈ ["array", "required", "integer", "string"]) →
        words.mapM RuleEntry.parse = .ok entries →
        Succeeds (NormalizedRules.normalize (.text (Text.join "|" words))) :=
      fun words entries hwords hparse => ⟨_, NormalizedRules.normalize_join words
        (fun w hw => .inl (.of_isAlpha (hletters w (hwords w hw)).1 (hletters w (hwords w hw)).2))
        hparse⟩
    simp only [orderForm, List.forall_mem_cons, List.not_mem_nil, false_imp_iff, implies_true,
      and_true]
    have harray := hread ["array"] _ (by decide) rfl
    have hrequired := hread ["required"] _ (by decide) rfl
    have hinteger := hread ["required", "integer"] _ (by decide) rfl
    have hstring := hread ["string"] _ (by decide) rfl
    exact ⟨⟨_, rfl, by decide, harray⟩, ⟨_, rfl, by decide, hrequired⟩,
      ⟨_, rfl, by decide, hinteger⟩, ⟨_, rfl, by decide, hstring⟩, ⟨_, rfl, by decide, hstring⟩,
      ⟨_, rfl, by decide, hrequired⟩⟩

theorem orderForm_holds : ∃ groups nodes, group orderForm [] = .ok groups ∧
    Node.ofGroups ⟨some (.ofMap []), [], []⟩ [] groups = .ok nodes ∧ Holds nodes orderForm := by
  obtain ⟨groups, hgroup, hnodes, hholds⟩ :=
    group_holds orderForm_isPlain ⟨some (.ofMap []), [], []⟩
  have hready : Messages.Ready ⟨some (.ofMap []), [], []⟩ :=
    ⟨.ofMap [], rfl, ⟨[], rfl⟩, fun _ h => by cases h⟩
  obtain ⟨nodes, hok⟩ := hnodes hready
  exact ⟨groups, nodes, hgroup, hok, hholds nodes hok⟩

end RuleSchema.Grouping
