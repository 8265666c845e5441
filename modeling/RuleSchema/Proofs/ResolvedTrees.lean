import Mathlib.Data.List.Forall2
import RuleSchema.Node.Declared
import RuleSchema.Proofs.MessageLookup

/-!
# Resolved trees

Resolving a tree of fields resolves its heads in order and keeps its shape. A resolved field has the
path of the declared one and the rules that its rule value normalizes to; it is resolved whenever
the value normalizes and messages can be looked up.
-/

namespace RuleSchema

section Results

variable {α β : Type}

theorem exists_of_bind {x : Except Fault α} {f : α → Except Fault β} {b : β}
    (h : x >>= f = .ok b) : ∃ a, x = .ok a ∧ f a = .ok b := by
  cases x with
  | error fault => cases h
  | ok a => exact ⟨a, rfl, h⟩

theorem exists_of_map {x : Except Fault α} {f : α → β} {b : β} (h : x.map f = .ok b) :
    ∃ a, x = .ok a ∧ f a = b := by
  cases x with
  | error fault => cases h
  | ok a => exact ⟨a, rfl, Except.ok.inj h⟩

/-- An element of the second of two related lists is related to one of the first. -/
theorem exists_of_forall₂ {R : α → β → Prop} {l : List α} {l' : List β} (h : List.Forall₂ R l l')
    {b : β} (hb : b ∈ l') : ∃ a ∈ l, R a b := by
  induction h with
  | nil => cases hb
  | @cons a first rest rest' hfirst _ ih =>
      rcases List.mem_cons.mp hb with rfl | hb
      · exact ⟨a, List.mem_cons_self, hfirst⟩
      · obtain ⟨other, hother, hR⟩ := ih hb
        exact ⟨other, List.mem_cons_of_mem _ hother, hR⟩

/-- An action on a list that gives results gives one for each element. -/
theorem forall₂_of_mapM {f : α → Except Fault β} {l : List α} {l' : List β}
    (h : l.mapM f = .ok l') : List.Forall₂ (fun a b => f a = .ok b) l l' := by
  induction l generalizing l' with
  | nil =>
      cases h
      exact .nil
  | cons a rest ih =>
      rw [List.mapM_cons] at h
      obtain ⟨b, hb, h⟩ := exists_of_bind h
      obtain ⟨rest', hrest, h⟩ := exists_of_bind h
      cases h
      exact .cons hb (ih hrest)

theorem succeeds_of_mem_mapM {f : α → Except Fault β} {l : List α} {l' : List β}
    (h : l.mapM f = .ok l') {a : α} (ha : a ∈ l) : Succeeds (f a) := by
  have hflip : List.Forall₂ (fun b a => f a = .ok b) l' l := (forall₂_of_mapM h).flip
  obtain ⟨b, -, hb⟩ := exists_of_forall₂ hflip ha
  exact ⟨b, hb⟩

end Results

namespace Tree

variable {α β : Type} {f : α → Except Fault β}

mutual
/-- Mapping a tree maps its heads in order. -/
theorem map_heads_mapHeads : ∀ t : Tree α, (t.mapHeads f).map heads = t.heads.mapM f
  | .leaf h => by
      rw [mapHeads, heads, List.mapM_cons, List.mapM_nil]
      cases f h <;> rfl
  | .array h item => by
      rw [mapHeads, heads, List.mapM_cons, ← map_heads_mapHeads item]
      cases f h with
      | error fault => rfl
      | ok r => cases mapHeads f item <;> rfl
  | .object h properties => by
      rw [mapHeads, heads, List.mapM_cons, ← map_headsOfAll_mapHeadsOfAll properties]
      cases f h with
      | error fault => rfl
      | ok r => cases mapHeadsOfAll f properties <;> rfl
/-- Mapping named trees maps their heads in order. -/
theorem map_headsOfAll_mapHeadsOfAll : ∀ trees : List (String × Tree α),
    (mapHeadsOfAll f trees).map headsOfAll = (headsOfAll trees).mapM f
  | [] => rfl
  | (name, t) :: rest => by
      rw [mapHeadsOfAll, headsOfAll, List.mapM_append, ← map_heads_mapHeads t,
        ← map_headsOfAll_mapHeadsOfAll rest]
      cases mapHeads f t with
      | error fault => rfl
      | ok t' => cases mapHeadsOfAll f rest <;> rfl
end

theorem head_of_mapHeads {t : Tree α} {t' : Tree β} (h : t.mapHeads f = .ok t') :
    f t.head = .ok t'.head := by
  cases t with
  | leaf a =>
      rw [mapHeads] at h
      obtain ⟨b, hb, h⟩ := exists_of_bind h
      cases h
      exact hb
  | array a item =>
      rw [mapHeads] at h
      obtain ⟨b, hb, h⟩ := exists_of_bind h
      obtain ⟨item', -, h⟩ := exists_of_bind h
      cases h
      exact hb
  | object a properties =>
      rw [mapHeads] at h
      obtain ⟨b, hb, h⟩ := exists_of_bind h
      obtain ⟨properties', -, h⟩ := exists_of_bind h
      cases h
      exact hb

/-- Mapping named trees maps each of them under its name. -/
theorem forall₂_mapHeadsOfAll {trees : List (String × Tree α)} {mapped : List (String × Tree β)}
    (h : mapHeadsOfAll f trees = .ok mapped) :
    List.Forall₂ (fun p q => q.1 = p.1 ∧ p.2.mapHeads f = .ok q.2) trees mapped := by
  induction trees generalizing mapped with
  | nil =>
      cases h
      exact .nil
  | cons p rest ih =>
      obtain ⟨name, t⟩ := p
      rw [mapHeadsOfAll] at h
      obtain ⟨t', ht, h⟩ := exists_of_bind h
      obtain ⟨rest', hrest, h⟩ := exists_of_bind h
      cases h
      exact .cons ⟨rfl, ht⟩ (ih hrest)

theorem map_fst_of_mapHeadsOfAll {trees : List (String × Tree α)} {mapped : List (String × Tree β)}
    (h : mapHeadsOfAll f trees = .ok mapped) : mapped.map Prod.fst = trees.map Prod.fst := by
  have hall := forall₂_mapHeadsOfAll h
  clear h
  induction hall with
  | nil => rfl
  | cons hp _ ih => rw [List.map_cons, List.map_cons, hp.1, ih]

/-- The heads of mapped trees are the results for the heads, one for each. -/
theorem forall₂_headsOfAll {trees : List (String × Tree α)} {mapped : List (String × Tree β)}
    (h : mapHeadsOfAll f trees = .ok mapped) :
    List.Forall₂ (fun a b => f a = .ok b) (headsOfAll trees) (headsOfAll mapped) := by
  apply forall₂_of_mapM
  rw [← map_headsOfAll_mapHeadsOfAll, h]
  rfl

/-- Trees are mapped when every head is. -/
theorem succeeds_mapHeadsOfAll {trees : List (String × Tree α)}
    (h : ∀ a ∈ headsOfAll trees, Succeeds (f a)) : Succeeds (mapHeadsOfAll f trees) := by
  obtain ⟨results, hresults⟩ := Succeeds.mapM h
  rw [← map_headsOfAll_mapHeadsOfAll] at hresults
  obtain ⟨mapped, hmapped, -⟩ := exists_of_map hresults
  exact ⟨mapped, hmapped⟩

end Tree

namespace NormalizedRules

/-- The entries that a rule text denotes have visible names. -/
theorem isVisible_of_normalize {s : String} {n : NormalizedRules}
    (h : normalize (.text s) = .ok n) : ∀ e ∈ n.entries, RuleName.IsVisible e.name.toList := by
  obtain ⟨entries, hentries, hn⟩ := exists_of_bind h
  cases hn
  intro e he
  obtain ⟨segment, -, hparse⟩ := exists_of_forall₂ (forall₂_of_mapM hentries) he
  exact RuleEntry.isVisible_of_parse hparse

end NormalizedRules

namespace Declared

variable {m : Messages} {d : Declared}

/-- Of a check only the message depends on the other entries of the field. -/
theorem eq_of_check {field : String} {entries : List RuleEntry} {e : RuleEntry} {c : Check}
    (h : check m field entries e = .ok c) :
    c = ⟨e.name, e.parameters, c.message, Family.required.contains e.name,
      e.name == "nullable"⟩ := by
  rw [check] at h
  split at h
  · obtain ⟨message, -, hc⟩ := exists_of_bind h
    cases hc
    rfl
  · cases h
    rfl

theorem map_rule_of_checks {field : String} {entries : List RuleEntry} {l : List RuleEntry}
    {checks : List Check} (h : l.mapM (check m field entries) = .ok checks) :
    checks.map Check.rule = l.map RuleEntry.name := by
  have hall := forall₂_of_mapM h
  clear h
  induction hall with
  | nil => rfl
  | cons hc _ ih => rw [List.map_cons, List.map_cons, eq_of_check hc, ih]

/-- The first check of a rule has the parameters of the first entry of the rule. -/
theorem parameters_find?_of_checks {field : String} {entries l : List RuleEntry}
    {checks : List Check} (h : l.mapM (check m field entries) = .ok checks) (name : String) :
    (checks.find? (·.rule == name)).map Check.parameters =
      (l.find? (·.name == name)).map RuleEntry.parameters := by
  have hall := forall₂_of_mapM h
  clear h
  induction hall with
  | nil => rfl
  | @cons e c _ _ hc _ ih =>
      have heq := eq_of_check hc
      have hrule : c.rule = e.name := by rw [heq]
      have hparameters : c.parameters = e.parameters := by rw [heq]
      rw [List.find?_cons, List.find?_cons, hrule]
      cases e.name == name with
      | true => exact congrArg some hparameters
      | false => exact ih

/-- A resolved field has the path of the declared one, the checks of its normalized value, its
fragment, and the type of its shape or else the inferred one. -/
theorem exists_of_resolve {r : Resolved} (h : d.resolve m = .ok r) :
    ∃ n checks inferred, NormalizedRules.normalize d.rules = .ok n ∧
      n.entries.mapM (check m d.path n.entries) = .ok checks ∧
      (n.entries = [] ∧ inferred = "string" ∨ n.entries ≠ [] ∧
        inferred = Inference.inferType n.entries (if d.isItem then none else some d.path)) ∧
      r = ⟨d.path, checks, d.shapeType.getD inferred, n.fragment⟩ := by
  obtain ⟨n, hn, hr⟩ := exists_of_bind h
  rw [resolveRules] at hr
  split at hr
  · rename_i hempty
    have hnone := List.isEmpty_iff.mp hempty
    cases hr
    refine ⟨n, [], _, hn, ?_, .inl ⟨hnone, rfl⟩, rfl⟩
    rw [hnone]
    rfl
  · rename_i hsome
    obtain ⟨checks, hchecks, hr⟩ := exists_of_bind hr
    cases hr
    exact ⟨n, checks, _, hn, hchecks, .inr ⟨mt List.isEmpty_iff.mpr hsome, rfl⟩, rfl⟩

/-- A resolved field has the path of the declared one and the rules of its normalized value. -/
theorem ruleNames_of_resolve {r : Resolved} (h : d.resolve m = .ok r) :
    ∃ n, NormalizedRules.normalize d.rules = .ok n ∧ r.path = d.path ∧ r.ruleNames = n.names := by
  obtain ⟨n, checks, _, hn, hchecks, -, rfl⟩ := exists_of_resolve h
  exact ⟨n, hn, rfl, map_rule_of_checks hchecks⟩

theorem succeeds_check (hm : m.Ready) {field : String} (hfield : Text.isEmpty field = false)
    (entries : List RuleEntry) {e : RuleEntry} (he : RuleName.IsVisible e.name.toList) :
    Succeeds (check m field entries e) := by
  obtain ⟨c, hc, -⟩ := RuleName.isVisible_canonical he
  have hnamed : Text.isEmpty (RuleName.canonical e.name) = false :=
    List.isEmpty_eq_false_iff.mpr (List.ne_nil_of_mem hc)
  have hmessage : Succeeds (m.resolveIn (Messages.contextOf field entries e)) :=
    hm.resolveIn rfl rfl hfield hnamed
  rw [check]
  exact .ite ((hmessage.map some).bind fun _ => .ok _) (.ok _)

/-- A field with a path and rules with names is resolved when messages can be looked up. -/
theorem succeeds_resolve_of_visible (hm : m.Ready) (hpath : Text.isEmpty d.path = false)
    {n : NormalizedRules} (hn : NormalizedRules.normalize d.rules = .ok n)
    (hvisible : ∀ e ∈ n.entries, RuleName.IsVisible e.name.toList) : Succeeds (d.resolve m) := by
  have hchecks : Succeeds (n.entries.mapM (check m d.path n.entries)) :=
    .mapM fun e he => succeeds_check hm hpath _ (hvisible e he)
  have hresolved : Succeeds (d.resolveRules m n) := by
    rw [resolveRules]
    exact .ite (.ok _) (hchecks.bind fun _ => .ok _)
  rw [resolve, hn]
  exact hresolved

/-- A rule that has a message is checked only on a field with a path and under a visible name. -/
theorem named_of_check {field : String} {entries : List RuleEntry} {e : RuleEntry}
    (hmessage : Family.presence.contains e.name = false)
    (h : Succeeds (check m field entries e)) :
    Text.isEmpty field = false ∧ RuleName.IsVisible e.name.toList ∧ m.source ≠ none := by
  obtain ⟨c, h⟩ := h
  rw [check, hmessage, Bool.not_false, Bool.true_or, if_pos rfl] at h
  obtain ⟨message, hresolved, -⟩ := exists_of_bind h
  obtain ⟨text, htext, -⟩ := exists_of_map hresolved
  obtain ⟨⟨path, hpath, hfilled⟩, ⟨rule, hrule, hnamed⟩, hsource⟩ :=
    Messages.named_of_resolveIn htext
  obtain rfl : field = path := Option.some.inj hpath
  obtain rfl : RuleName.canonical e.name = rule := Option.some.inj hrule
  refine ⟨hfilled, RuleName.isVisible_of_canonical_ne fun hempty => ?_, hsource⟩
  rw [hempty] at hnamed
  cases hnamed

/-- A field with a rule that has a message is resolved, when messages can be looked up, exactly if
it has a path and its rules have visible names. -/
theorem succeeds_resolve_iff (hm : m.Ready) {n : NormalizedRules}
    (hn : NormalizedRules.normalize d.rules = .ok n) {e : RuleEntry} (he : e ∈ n.entries)
    (hmessage : Family.presence.contains e.name = false) :
    Succeeds (d.resolve m) ↔ Text.isEmpty d.path = false ∧
      ∀ e ∈ n.entries, RuleName.IsVisible e.name.toList := by
  constructor
  · rintro ⟨r, hr⟩
    obtain ⟨found, checks, -, hfound, hchecks, -, -⟩ := exists_of_resolve hr
    obtain rfl : found = n := Except.ok.inj (hfound.symm.trans hn)
    refine ⟨(named_of_check hmessage (succeeds_of_mem_mapM hchecks he)).1, fun e' he' => ?_⟩
    cases hpresence : Family.presence.contains e'.name with
    | false => exact (named_of_check hpresence (succeeds_of_mem_mapM hchecks he')).2.1
    | true =>
        have hwords : ∀ name ∈ Family.presence.rules, name.toList.any (! Text.isBlank ·) = true := by
          decide
        obtain ⟨c, hc, hvisible⟩ :=
          List.any_eq_true.mp (hwords _ (List.contains_iff_mem.mp hpresence))
        exact ⟨c, hc, (Bool.not_eq_true' _).mp hvisible⟩
  · rintro ⟨hpath, hvisible⟩
    exact succeeds_resolve_of_visible hm hpath hn hvisible

/-- A field with a path and a rule text that normalizes is resolved when messages can be looked
up. -/
theorem succeeds_resolve (hm : m.Ready) {s : String} (hrules : d.rules = .text s)
    (hpath : Text.isEmpty d.path = false) (hn : Succeeds (NormalizedRules.normalize d.rules)) :
    Succeeds (d.resolve m) := by
  obtain ⟨n, hn⟩ := hn
  exact succeeds_resolve_of_visible hm hpath hn
    (NormalizedRules.isVisible_of_normalize (hrules ▸ hn))

end Declared

end RuleSchema
