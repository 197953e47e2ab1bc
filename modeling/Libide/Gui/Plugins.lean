import Libide.Core.Settings
import Mathlib.Logic.Relation
import Mathlib.Data.List.Nodup

/-! # Which plugins can load

`ide_application_can_load_plugin` (`ide-application-plugins.c`) decides whether
`_ide_application_load_plugin` hands a plugin to `peas_engine_load_plugin`. In single-plugin mode
(`self->plugin` set) only the plugin of that module name passes. Otherwise the check walks the
dependencies depth first, looks each one up by module name in the engine, and keeps in the table
`circular` the module names of the plugins on the current path: a plugin met again on its own path is a
circular dependency. A plugin is refused when it is missing, disabled in its settings, or, outside the
bundled `resource:///plugins/`, when its `X-Builder-ABI` is missing or does not match `IDE_VERSION_S`;
a refusal refuses every plugin above it.

A plugin whose dependencies all pass takes its name off the table again, so siblings never see each
other's names: from an empty table the check accepts exactly when every plugin reachable along the
dependencies exists, is enabled and has a matching ABI, and no cycle of dependencies is reachable. The
depth of the walk is at most the number of plugins; `fuel` bounds it, and running out is `none`. -/

namespace Libide.Gui

open Libide.Core (gStrHasPrefix)

/-- A `PeasPluginInfo` as the check reads it: its module name and directory, its `X-Builder-ABI`
    external data, its dependencies, and the `enabled` key of its settings
    (`org.gnome.builder.plugin` at `/org/gnome/builder/plugins/<module>/`). -/
structure PluginInfo where
  moduleName : String
  moduleDir : String
  builderAbi : Option String
  dependencies : List String
  enabled : Bool
  deriving DecidableEq, Repr

/-- The plugins of the `PeasEngine`. It keeps one plugin per module name: one found again further on
    the search path is dropped. -/
structure Engine where
  plugins : List PluginInfo
  namesNodup : (plugins.map PluginInfo.moduleName).Nodup

/-- `peas_engine_get_plugin_info`. -/
def Engine.getPluginInfo (engine : Engine) (name : String) : Option PluginInfo :=
  engine.plugins.find? (·.moduleName = name)

/-- A warning of the check, with its arguments: `Circular dependency found in module %s`,
    `Refusing to load plugin %s because X-Builder-ABI is missing` and
    `Refusing to load plugin %s, expected ABI %d.%d and got %s`. -/
inductive Warning
  | circular (module : String)
  | abiMissing (module : String)
  | abiMismatch (module abi : String)
  deriving DecidableEq, Repr

/-- The table `circular` and the warnings logged. -/
structure Probe where
  circular : List String
  warnings : List Warning
  deriving DecidableEq, Repr

/-- Why a plugin outside `resource:///plugins/` is refused for its ABI, against `IDE_VERSION_S`: the
    ABI must be a prefix of the version followed there by a `.`. -/
def abiRefusal (version : String) (info : PluginInfo) : Option Warning :=
  if gStrHasPrefix info.moduleDir "resource:///plugins/" then none
  else match info.builderAbi with
    | none => some (.abiMissing info.moduleName)
    | some abi =>
      if gStrHasPrefix version abi ∧ version.data[abi.length]? = some '.' then none
      else some (.abiMismatch info.moduleName abi)

section Check
variable (engine : Engine) (single : Option String) (version : String)

/-- The loop over the dependencies: the first one that cannot load refuses the plugin. -/
def canLoadDeps (canLoad : Option PluginInfo → Probe → Option (Bool × Probe)) :
    List String → Probe → Option (Bool × Probe)
  | [], st => some (true, st)
  | d :: ds, st =>
    (canLoad (engine.getPluginInfo d) st).bind fun (ok, st) =>
      if ok then canLoadDeps canLoad ds st else some (false, st)

/-- `ide_application_can_load_plugin (self, plugin_info, circular)`, with `self->plugin` as `single`. -/
def canLoadPlugin : Nat → Option PluginInfo → Probe → Option (Bool × Probe)
  | 0, _, _ => none
  | _ + 1, none, st => some (false, st)
  | fuel + 1, some info, st =>
    match single with
    | some name => some (decide (info.moduleName = name), st)
    | none =>
      if info.moduleName ∈ st.circular then
        some (false, { st with warnings := st.warnings ++ [.circular info.moduleName] })
      else
        let st := { st with circular := st.circular ++ [info.moduleName] }
        if !info.enabled then some (false, st)
        else match abiRefusal version info with
          | some w => some (false, { st with warnings := st.warnings ++ [w] })
          | none =>
            (canLoadDeps engine (canLoadPlugin fuel) info.dependencies st).map fun (ok, st) =>
              if ok then (true, { st with circular := st.circular.erase info.moduleName }) else (false, st)

end Check

/-! ### What the check accepts -/

section Spec
variable (engine : Engine) (version : String)

/-- `q` is a dependency of `p`: one of `p`'s dependency names that the engine resolves to `q`. -/
def Depends (p q : PluginInfo) : Prop := ∃ d ∈ p.dependencies, engine.getPluginInfo d = some q

/-- What the check asks of each plugin it reaches: enabled, with an accepted ABI, and with every
    dependency present in the engine. -/
def Fit (q : PluginInfo) : Prop :=
  q.enabled = true ∧ abiRefusal version q = none ∧ ∀ d ∈ q.dependencies, (engine.getPluginInfo d).isSome

/-- Every plugin reachable from `p` along the dependencies is fit, and none lies on a cycle. -/
def Loadable (p : PluginInfo) : Prop :=
  ∀ q, Relation.ReflTransGen (Depends engine) p q → Fit engine version q ∧ ¬Relation.TransGen (Depends engine) q q

/-- `Loadable` from the table `circular`: moreover no reachable plugin is on the table. -/
def LoadableFrom (circular : List String) (p : PluginInfo) : Prop :=
  ∀ q, Relation.ReflTransGen (Depends engine) p q →
    q.moduleName ∉ circular ∧ Fit engine version q ∧ ¬Relation.TransGen (Depends engine) q q

variable {engine version}
variable {p q : PluginInfo} {S : List String}

theorem getPluginInfo_mem {name : String} (h : engine.getPluginInfo name = some q) : q ∈ engine.plugins :=
  List.mem_of_find?_eq_some h

theorem eq_of_moduleName_eq (hp : p ∈ engine.plugins) (hq : q ∈ engine.plugins)
    (h : p.moduleName = q.moduleName) : p = q :=
  List.inj_on_of_nodup_map engine.namesNodup hp hq h

theorem mem_of_reaches (hp : p ∈ engine.plugins) (h : Relation.ReflTransGen (Depends engine) p q) :
    q ∈ engine.plugins := by
  induction h with
  | refl => exact hp
  | tail _ hd _ => exact getPluginInfo_mem hd.choose_spec.2

theorem loadableFrom_nil : LoadableFrom engine version [] p ↔ Loadable engine version p := by
  simp [LoadableFrom, Loadable]

/-- One level of the walk: a plugin off the table is accepted when it is fit and each dependency is
    accepted with the plugin's name put on the table. Names are unique, so a dependency that reaches
    that name reaches the plugin itself, which is a cycle. -/
theorem loadableFrom_iff (hq : q ∈ engine.plugins) : LoadableFrom engine version S q ↔
    q.moduleName ∉ S ∧ q.enabled = true ∧ abiRefusal version q = none ∧
      ∀ d ∈ q.dependencies, ∃ q', engine.getPluginInfo d = some q' ∧
        LoadableFrom engine version (S ++ [q.moduleName]) q' := by
  constructor
  · intro h
    obtain ⟨hS, ⟨hen, habi, hdeps⟩, hcyc⟩ := h q .refl
    refine ⟨hS, hen, habi, fun d hd => ?_⟩
    obtain ⟨q', hq'⟩ := Option.isSome_iff_exists.1 (hdeps d hd)
    refine ⟨q', hq', fun x hx => ?_⟩
    have hqx : Relation.ReflTransGen (Depends engine) q x := .head ⟨d, hd, hq'⟩ hx
    obtain ⟨hxS, hfit, hxc⟩ := h x hqx
    refine ⟨?_, hfit, hxc⟩
    simp only [List.mem_append, List.mem_singleton, not_or]
    refine ⟨hxS, fun hxq => hcyc ?_⟩
    obtain rfl := eq_of_moduleName_eq (mem_of_reaches hq hqx) hq hxq
    exact .head' ⟨d, hd, hq'⟩ hx
  · rintro ⟨hS, hen, habi, hdeps⟩ x hx
    rcases hx.cases_head with rfl | ⟨y, ⟨d, hd, hy⟩, hyx⟩
    · refine ⟨hS, ⟨hen, habi, fun d hd => ?_⟩, fun hc => ?_⟩
      · obtain ⟨q', hq', -⟩ := hdeps d hd
        simp [hq']
      · obtain ⟨y, ⟨d, hd, hy⟩, hyq⟩ := Relation.TransGen.head'_iff.1 hc
        obtain ⟨q', hq', hl⟩ := hdeps d hd
        obtain rfl := Option.some_injective _ (hy.symm.trans hq')
        exact (hl q hyq).1 (List.mem_append_right _ (List.mem_singleton_self _))
    · obtain ⟨q', hq', hl⟩ := hdeps d hd
      obtain rfl := Option.some_injective _ (hy.symm.trans hq')
      obtain ⟨hxS, hfit, hxc⟩ := hl x hyx
      exact ⟨fun h => hxS (List.mem_append_left _ h), hfit, hxc⟩

/-- Putting a plugin's name on the table leaves fewer plugins off it. -/
theorem length_filter_lt (hq : q ∈ engine.plugins) (hS : q.moduleName ∉ S) :
    (engine.plugins.filter fun x => x.moduleName ∉ S ++ [q.moduleName]).length <
      (engine.plugins.filter fun x => x.moduleName ∉ S).length := by
  have : (engine.plugins.filter fun x => x.moduleName ∉ S ++ [q.moduleName]) =
      (engine.plugins.filter fun x => x.moduleName ∉ S).filter fun x => x.moduleName ≠ q.moduleName := by
    rw [List.filter_filter]
    exact List.filter_congr fun x _ => by simp [and_comm]
  rw [this, List.length_filter_lt_length_iff_exists]
  exact ⟨q, List.mem_filter.2 ⟨hq, by simpa using hS⟩, by simp⟩

/-- The loop over the dependencies, when each call accepts exactly the plugins that are `LoadableFrom`
    the table and leaves the table as it found it when it accepts. -/
theorem canLoadDeps_spec {walk : Option PluginInfo → Probe → Option (Bool × Probe)} {st : Probe}
    (hnone : ∃ st', walk none st = some (false, st'))
    (hw : ∀ q ∈ engine.plugins, ∃ b st', walk (some q) st = some (b, st') ∧ (b = true → st' = st) ∧
      (b = true ↔ LoadableFrom engine version st.circular q)) :
    ∀ ds : List String, ∃ b st', canLoadDeps engine walk ds st = some (b, st') ∧ (b = true → st' = st) ∧
      (b = true ↔ ∀ d ∈ ds, ∃ q, engine.getPluginInfo d = some q ∧ LoadableFrom engine version st.circular q)
  | [] => ⟨true, st, rfl, fun _ => rfl, by simp⟩
  | d :: ds => by
    cases hd : engine.getPluginInfo d with
    | none =>
      obtain ⟨st', h⟩ := hnone
      exact ⟨false, st', by simp [canLoadDeps, hd, h], by simp, by simp [hd]⟩
    | some q =>
      obtain ⟨b, st', h, hst, hb⟩ := hw q (getPluginInfo_mem hd)
      cases b
      · refine ⟨false, st', by simp [canLoadDeps, hd, h], by simp, ⟨fun h => absurd h (by decide), fun hall => ?_⟩⟩
        obtain ⟨q', hq', hl⟩ := hall d (List.mem_cons_self _ _)
        obtain rfl := Option.some_injective _ (hd.symm.trans hq')
        exact hb.2 hl
      · obtain rfl := hst rfl
        obtain ⟨b', st'', h', hst', hb'⟩ := canLoadDeps_spec hnone hw ds
        exact ⟨b', st'', by simp [canLoadDeps, hd, h, h'], hst', by simp [hd, ← hb, hb']⟩

/-- Outside single-plugin mode, with fuel above the number of plugins off the table, the check
    returns, leaves the table as it found it when it accepts, and accepts exactly what is
    `LoadableFrom` the table. -/
theorem canLoadPlugin_spec : ∀ (fuel : Nat) {q : PluginInfo} {st : Probe}, q ∈ engine.plugins →
    (engine.plugins.filter fun x => x.moduleName ∉ st.circular).length < fuel →
    ∃ b st', canLoadPlugin engine none version fuel (some q) st = some (b, st') ∧ (b = true → st' = st) ∧
      (b = true ↔ LoadableFrom engine version st.circular q) := by
  intro fuel
  induction fuel with
  | zero => exact fun _ h => absurd h (Nat.not_lt_zero _)
  | succ fuel ih =>
    intro q st hq hfuel
    rw [loadableFrom_iff hq]
    by_cases hS : q.moduleName ∈ st.circular
    · exact ⟨false, { st with warnings := st.warnings ++ [.circular q.moduleName] },
        by simp [canLoadPlugin, hS], by simp, by simp [hS]⟩
    let st₁ : Probe := { st with circular := st.circular ++ [q.moduleName] }
    by_cases hen : q.enabled = true
    swap
    · exact ⟨false, st₁, by simp [canLoadPlugin, hS, hen, st₁], by simp, by simp [hen]⟩
    cases habi : abiRefusal version q with
    | some w =>
      exact ⟨false, { st₁ with warnings := st.warnings ++ [w] }, by simp [canLoadPlugin, hS, hen, habi, st₁],
        by simp, by simp [habi]⟩
    | none =>
      have hlt := length_filter_lt hq hS
      -- the plugin's name makes one fewer plugin off the table, so there is fuel left for a level
      obtain ⟨n, rfl⟩ : ∃ n, fuel = n + 1 := ⟨fuel - 1, by omega⟩
      have hnone : ∃ st', canLoadPlugin engine none version (n + 1) none st₁ = some (false, st') := ⟨st₁, rfl⟩
      obtain ⟨b, st', h, hst, hb⟩ := canLoadDeps_spec hnone
        (fun q' hq' => ih hq' (by simp only [st₁]; omega)) q.dependencies
      -- the plugin itself passed every check, so it is accepted exactly when its dependencies are
      cases b
      · exact ⟨false, st', by simp [canLoadPlugin, hS, hen, habi, h, st₁], by simp,
          hb.trans ⟨fun h => ⟨hS, hen, rfl, h⟩, fun h => h.2.2.2⟩⟩
      · exact ⟨true, { st' with circular := st'.circular.erase q.moduleName },
          by simp [canLoadPlugin, hS, hen, habi, h, st₁],
          fun _ => by simp [hst rfl, st₁, List.erase_append_right _ hS],
          hb.trans ⟨fun h => ⟨hS, hen, rfl, h⟩, fun h => h.2.2.2⟩⟩

end Spec

/-- Outside single-plugin mode, the check from an empty table returns, with any fuel above the number
    of plugins, and accepts exactly the `Loadable` plugins; in single-plugin mode it accepts exactly the
    plugin of that module name. -/
theorem canLoadPlugin_iff (engine : Engine) (version : String) (p : PluginInfo) (hp : p ∈ engine.plugins) :
    (∀ fuel, engine.plugins.length < fuel → ∃ b st,
      canLoadPlugin engine none version fuel (some p) ⟨[], []⟩ = some (b, st) ∧
        (b = true ↔ Loadable engine version p)) ∧
    ∀ name fuel, canLoadPlugin engine (some name) version (fuel + 1) (some p) ⟨[], []⟩ =
      some (decide (p.moduleName = name), ⟨[], []⟩) := by
  refine ⟨fun fuel hfuel => ?_, fun _ _ => rfl⟩
  obtain ⟨b, st, h, -, hb⟩ := canLoadPlugin_spec fuel hp (lt_of_le_of_lt (List.length_filter_le _ _) hfuel)
  exact ⟨b, st, h, hb.trans loadableFrom_nil⟩

/-- A bundled `editor` that needs `buffer` and `lsp`. -/
def editorPlugin : PluginInfo := ⟨"editor", "resource:///plugins/editor", none, ["buffer", "lsp"], true⟩

/-- `editor`; `lsp`, installed outside the bundle for ABI `3.32`, which needs `buffer` too; and `buffer`. -/
def diamondEngine : Engine :=
  ⟨[editorPlugin, ⟨"lsp", "/usr/lib/gnome-builder/plugins", some "3.32", ["buffer"], true⟩,
    ⟨"buffer", "resource:///plugins/buffer", none, [], true⟩], by decide⟩

theorem canLoadPlugin_iff_editor :
    (∀ fuel, diamondEngine.plugins.length < fuel → ∃ b st,
      canLoadPlugin diamondEngine none "3.32.0" fuel (some editorPlugin) ⟨[], []⟩ = some (b, st) ∧
        (b = true ↔ Loadable diamondEngine "3.32.0" editorPlugin)) ∧
    ∀ name fuel, canLoadPlugin diamondEngine (some name) "3.32.0" (fuel + 1) (some editorPlugin) ⟨[], []⟩ =
      some (decide (editorPlugin.moduleName = name), ⟨[], []⟩) :=
  canLoadPlugin_iff diamondEngine "3.32.0" editorPlugin (by decide)

example : canLoadPlugin diamondEngine none "3.32.0" 4 (some editorPlugin) ⟨[], []⟩ = some (true, ⟨[], []⟩) := by
  decide

end Libide.Gui
