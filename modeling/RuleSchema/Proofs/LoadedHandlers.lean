import RuleSchema.Handler.Place
import RuleSchema.Proofs.RegistryOrder

/-!
# Handlers loaded by their paths

Handlers are looked up by path and registered one after the other. The first path without a handler
ends the loading with its fault, and the handlers of the paths before it stay registered. So a fault
leaves the registry as it was exactly where the very first path has it.
-/

namespace RuleSchema.Registry

variable {H : Type} {find : String → Except Fault H} {before paths : List String}
  {handlers : List H} {path : String} {fault : Fault}

/-- Paths and the handlers that are found at them, in order. -/
def AreFound (find : String → Except Fault H) (paths : List String) (handlers : List H) : Prop :=
  paths.map find = handlers.map .ok

theorem AreFound.exists_handler (hfound : AreFound find paths handlers) (hpath : path ∈ paths) :
    ∃ h, find path = .ok h := by
  have hmem : find path ∈ handlers.map Except.ok := hfound ▸ List.mem_map_of_mem hpath
  obtain ⟨h, -, hh⟩ := List.mem_map.mp hmem
  exact ⟨h, hh.symm⟩

theorem AreFound.eq_nil_iff (hfound : AreFound find paths handlers) :
    handlers = [] ↔ paths = [] := by
  rw [← List.map_eq_nil_iff (f := Except.ok (ε := Fault)), ← hfound, List.map_eq_nil_iff]

theorem AreFound.cons {h : H} (hpath : find path = .ok h) (hfound : AreFound find paths handlers) :
    AreFound find (path :: paths) (h :: handlers) := by
  rw [AreFound, List.map_cons, List.map_cons, hpath, hfound]

/-- Either each path has a handler, or there is a first one that has none. -/
theorem areFound_or_first_fault (find : String → Except Fault H) (paths : List String) :
    (∃ handlers, AreFound find paths handlers) ∨
      ∃ before path behind handlers fault, paths = before ++ path :: behind ∧
        AreFound find before handlers ∧ find path = .error fault := by
  induction paths with
  | nil => exact .inl ⟨[], rfl⟩
  | cons first rest ih =>
      cases hfirst : find first with
      | error fault => exact .inr ⟨[], first, rest, [], fault, rfl, rfl, hfirst⟩
      | ok h =>
          rcases ih with ⟨handlers, hfound⟩ |
            ⟨before, path, behind, handlers, fault, rfl, hfound, hfault⟩
          · exact .inl ⟨h :: handlers, hfound.cons hfirst⟩
          · exact .inr ⟨first :: before, path, behind, h :: handlers, fault, rfl,
              hfound.cons hfirst, hfault⟩

variable [Handling H] {registry : Registry H}

/-- Registering adds the handler to those that were there, wherever its priority puts it. -/
theorem register_perm (registry : Registry H) (h : H) :
    (registry.register h).Perm (registry ++ [h]) :=
  (isPriorityOrder_sort (registry ++ [h])).perm

theorem registerAll_perm (registry : Registry H) (handlers : List H) :
    (registry.registerAll handlers).Perm (registry ++ handlers) := by
  induction handlers generalizing registry with
  | nil => rw [List.append_nil]; exact .refl _
  | cons h rest ih =>
      have hrest := (ih (registry.register h)).trans ((register_perm registry h).append_right rest)
      rwa [List.append_assoc] at hrest

theorem registerAll_eq_self_iff : registry.registerAll handlers = registry ↔ handlers = [] := by
  constructor
  · intro h
    have hlength := (registerAll_perm registry handlers).length_eq
    rw [h, List.length_append] at hlength
    exact List.length_eq_zero_iff.mp (by omega)
  · rintro rfl
    rfl

/-- Paths that have handlers are loaded as these are registered, whatever follows. -/
theorem load_append (hfound : AreFound find before handlers) (registry : Registry H)
    (rest : List String) :
    load find registry (before ++ rest) = load find (registry.registerAll handlers) rest := by
  induction before generalizing handlers registry with
  | nil =>
      rw [List.map_eq_nil_iff.mp hfound.symm]
      rfl
  | cons first before ih =>
      cases handlers with
      | nil => cases hfound
      | cons h handlers =>
          obtain ⟨hfirst, hrest⟩ := List.cons.inj hfound
          rw [List.cons_append, load, hfirst]
          exact ih hrest (registry.register h)

theorem load_of_found (hfound : AreFound find paths handlers) (registry : Registry H) :
    load find registry paths = (registry.registerAll handlers, none) := by
  rw [← List.append_nil paths, load_append hfound]
  rfl

theorem load_of_fault (hfound : AreFound find before handlers)
    (hfault : find path = .error fault) (registry : Registry H) (behind : List String) :
    load find registry (before ++ path :: behind) =
      (registry.registerAll handlers, some fault) := by
  rw [load_append hfound, load, hfault]

/-- Loading gives no fault exactly if each path has a handler. Otherwise the fault is that of the
first path that has none, and the handlers of the paths before it have been registered one after the
other; so the registry is the one before exactly if that path is the first of all. -/
theorem load_stops_at_first_fault (find : String → Except Fault H) (registry : Registry H)
    (paths : List String) :
    ((load find registry paths).2 = none ↔ ∀ path ∈ paths, ∃ h, find path = .ok h) ∧
    ∀ fault, (load find registry paths).2 = some fault →
      ∃ before path behind handlers, paths = before ++ path :: behind ∧
        AreFound find before handlers ∧ find path = .error fault ∧
        (load find registry paths).1 = registry.registerAll handlers ∧
        ((load find registry paths).1 = registry ↔ before = []) := by
  rcases areFound_or_first_fault find paths with ⟨handlers, hfound⟩ |
    ⟨before, path, behind, handlers, fault, rfl, hfound, hfault⟩
  · rw [load_of_found hfound]
    exact ⟨iff_of_true rfl fun _ => hfound.exists_handler, nofun⟩
  · rw [load_of_fault hfound hfault]
    constructor
    · refine iff_of_false nofun fun h => ?_
      obtain ⟨g, hg⟩ := h path (by simp)
      rw [hfault] at hg
      cases hg
    · rintro _ ⟨⟩
      exact ⟨before, path, behind, handlers, rfl, hfound, hfault, rfl,
        registerAll_eq_self_iff.trans hfound.eq_nil_iff⟩

/-- A module with a handler of amounts. -/
def shopModules : Handler.Modules :=
  [("shop.handlers", [("MoneyHandler", some (.amount "MoneyHandler" 250 "money"))])]

/-- A second path without a handler comes too late to keep the first one out. -/
theorem load_stops_behind_money :
    let paths := ["shop.handlers:MoneyHandler", "shop.handlers:PriceHandler"]
    (load (Handler.find shopModules) builtIn paths).2 =
        some (.configuration "shop.handlers:PriceHandler" none) ∧
      (load (Handler.find shopModules) builtIn paths).1 ≠ builtIn := by
  intro paths
  have hfault : (load (Handler.find shopModules) builtIn paths).2 =
      some (.configuration "shop.handlers:PriceHandler" none) := by decide
  have hmoney : Handler.find shopModules "shop.handlers:MoneyHandler" =
      .ok (.amount "MoneyHandler" 250 "money") := by decide
  obtain ⟨before, path, behind, handlers, hpaths, -, hrefused, -, hkept⟩ :=
    (load_stops_at_first_fault (Handler.find shopModules) builtIn paths).2 _ hfault
  refine ⟨hfault, fun hsame => ?_⟩
  rw [hkept.mp hsame] at hpaths
  obtain ⟨rfl, -⟩ := List.cons.inj hpaths
  rw [hmoney] at hrefused
  cases hrefused

/-- A fault does not leave every registry as it was. -/
theorem load_fault_keeps_handler_before :
    ¬ ∀ (find : String → Except Fault Handler) (registry : Registry) (paths : List String) path
      detail, (load find registry paths).2 = some (.configuration path detail) →
        (load find registry paths).1 = registry := by
  intro h
  have hkept := h (Handler.find shopModules) builtIn
    ["shop.handlers:MoneyHandler", "shop.handlers:PriceHandler"] "shop.handlers:PriceHandler" none
    (by decide)
  revert hkept
  decide

end RuleSchema.Registry
