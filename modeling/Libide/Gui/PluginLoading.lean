import Libide.Gui.Plugins

/-! # Loading the plugins

`_ide_application_load_plugins_for_startup` and the end of `_ide_application_load_plugins`
(`ide-application-plugins.c`) walk `peas_engine_get_plugin_list` and hand each plugin that is not loaded
yet to `_ide_application_load_plugin`; the first loader only those with `X-At-Startup`. That runs
`ide_application_can_load_plugin` from an empty table and, when it accepts, `peas_engine_load_plugin`.
Between the two loaders `peas_engine_rescan_plugins` adds the plugins found on disk to the engine.

Loading a plugin is libpeas's work, not among the sources: it is the parameter `peasLoad`, from the
loaded module names and the plugin handed over to the names loaded after. `PeasLoad` is what the loaders
need of it: it unloads nothing, and it loads nothing but that plugin and plugins its dependencies reach.
Then every plugin either loader loads is `Loadable`; and when libpeas loads each `Loadable` plugin it is
handed, the startup loader loads every `Loadable` plugin with `X-At-Startup`, and the second loader
leaves loaded exactly the `Loadable` plugins of the rescanned engine.

The check's table is fresh for each plugin, so its recursion has at most as many levels as the engine
has plugins: the fuel `engine.plugins.length + 1` never runs out for a plugin of the engine. -/

namespace Libide.Gui

/-- The engine's loaded plugins, by module name, and the warnings the checks have logged. -/
structure Loader where
  loaded : List String
  log : List Warning
  deriving DecidableEq, Repr

section Loading
variable (engine : Engine) (single : Option String) (version : String)
  (peasLoad : List String → PluginInfo → List String)

/-- `_ide_application_load_plugin`: the check from an empty table, then `peas_engine_load_plugin` when
    it accepts. -/
def loadPlugin (st : Loader) (info : PluginInfo) : Loader :=
  match canLoadPlugin engine single version (engine.plugins.length + 1) (some info) ⟨[], []⟩ with
  | some (ok, probe) => ⟨if ok then peasLoad st.loaded info else st.loaded, st.log ++ probe.warnings⟩
  | none => st

/-- The loops over `peas_engine_get_plugin_list`: each plugin that is not loaded yet and that `wanted`
    selects goes to `_ide_application_load_plugin`. -/
def loadEach (wanted : PluginInfo → Bool) : Loader → List PluginInfo → Loader
  | st, [] => st
  | st, info :: infos =>
    loadEach wanted
      (if info.moduleName ∉ st.loaded ∧ wanted info then loadPlugin engine single version peasLoad st info else st)
      infos

/-- `_ide_application_load_plugins_for_startup` from the plugin list on, with `atStartup` for the
    `X-At-Startup` external data. -/
def loadPluginsForStartup (atStartup : PluginInfo → Bool) (st : Loader) : Loader :=
  loadEach engine single version peasLoad atStartup st engine.plugins

/-- The end of `_ide_application_load_plugins`, on the engine `peas_engine_rescan_plugins` left: every
    plugin not loaded yet. -/
def loadPlugins (st : Loader) : Loader :=
  loadEach engine single version peasLoad (fun _ => true) st engine.plugins

end Loading

/-- What the loaders need of `peas_engine_load_plugin` (libpeas): it unloads nothing, and every plugin it
    loads is the plugin handed to it or one that plugin's dependencies reach. -/
structure PeasLoad (engine : Engine) (peasLoad : List String → PluginInfo → List String) : Prop where
  keeps : ∀ loaded info, ∀ n ∈ loaded, n ∈ peasLoad loaded info
  within : ∀ loaded info, ∀ n ∈ peasLoad loaded info,
    n ∈ loaded ∨ ∃ q, Relation.ReflTransGen (Depends engine) info q ∧ q.moduleName = n

/-- Every loaded name is that of a `Loadable` plugin of the engine. -/
def LoadedLoadable (engine : Engine) (version : String) (loaded : List String) : Prop :=
  ∀ n ∈ loaded, ∃ p ∈ engine.plugins, p.moduleName = n ∧ Loadable engine version p

/-- A libpeas that loads the plugin it is handed and nothing else. -/
theorem peasLoad_append (engine : Engine) : PeasLoad engine fun loaded info => loaded ++ [info.moduleName] where
  keeps _ _ _ hn := List.mem_append_left _ hn
  within _ info n hn := by
    rcases List.mem_append.1 hn with hn | hn
    · exact .inl hn
    · exact .inr ⟨info, .refl, (List.mem_singleton.1 hn).symm⟩

/-! ### One plugin -/

section Spec
variable {engine : Engine} {version : String} {peasLoad : List String → PluginInfo → List String}
  {p q : PluginInfo}

theorem loadable_of_reaches (hp : Loadable engine version p) (h : Relation.ReflTransGen (Depends engine) p q) :
    Loadable engine version q :=
  fun r hr => hp r (h.trans hr)

/-- With a fresh table and fuel above the number of plugins, the check returns and accepts exactly the
    `Loadable` plugins. -/
theorem canLoadPlugin_fresh (version : String) (hp : p ∈ engine.plugins) :
    ∃ b probe, canLoadPlugin engine none version (engine.plugins.length + 1) (some p) ⟨[], []⟩ = some (b, probe) ∧
      (b = true ↔ Loadable engine version p) := by
  obtain ⟨b, probe, h, -, hb⟩ :=
    canLoadPlugin_spec (engine.plugins.length + 1) hp (Nat.lt_succ_of_le (List.length_filter_le _ _))
  exact ⟨b, probe, h, hb.trans loadableFrom_nil⟩

/-- Outside single-plugin mode, libpeas is handed a plugin of the engine exactly when it is `Loadable`. -/
theorem loadPlugin_loaded (st : Loader) (hp : p ∈ engine.plugins) :
    (Loadable engine version p → (loadPlugin engine none version peasLoad st p).loaded = peasLoad st.loaded p) ∧
    (¬Loadable engine version p → (loadPlugin engine none version peasLoad st p).loaded = st.loaded) := by
  obtain ⟨b, probe, h, hb⟩ := canLoadPlugin_fresh version hp
  simp only [loadPlugin, h]
  cases b
  · exact ⟨fun hl => absurd (hb.2 hl) Bool.false_ne_true, fun _ => rfl⟩
  · exact ⟨fun _ => rfl, fun hn => absurd (hb.1 rfl) hn⟩

theorem loadPlugin_keeps (hpeas : PeasLoad engine peasLoad) (single : Option String) (st : Loader)
    (info : PluginInfo) {n : String} (hn : n ∈ st.loaded) :
    n ∈ (loadPlugin engine single version peasLoad st info).loaded := by
  simp only [loadPlugin]
  split
  · split
    · exact hpeas.keeps _ _ n hn
    · exact hn
  · exact hn

theorem loadPlugin_loadedLoadable (hpeas : PeasLoad engine peasLoad) (st : Loader) (hp : p ∈ engine.plugins)
    (hst : LoadedLoadable engine version st.loaded) :
    LoadedLoadable engine version (loadPlugin engine none version peasLoad st p).loaded := by
  by_cases hl : Loadable engine version p
  · rw [(loadPlugin_loaded st hp).1 hl]
    intro n hn
    rcases hpeas.within _ _ n hn with hn | ⟨q, hpq, rfl⟩
    · exact hst n hn
    · exact ⟨q, mem_of_reaches hp hpq, rfl, loadable_of_reaches hl hpq⟩
  · rwa [(loadPlugin_loaded st hp).2 hl]

/-! ### The loops -/

variable (wanted : PluginInfo → Bool)

theorem loadEach_keeps (hpeas : PeasLoad engine peasLoad) (single : Option String) (infos : List PluginInfo) :
    ∀ (st : Loader), ∀ n ∈ st.loaded, n ∈ (loadEach engine single version peasLoad wanted st infos).loaded := by
  induction infos with
  | nil => exact fun _ _ hn => hn
  | cons info infos ih =>
    intro st n hn
    apply ih
    split
    · exact loadPlugin_keeps hpeas single st info hn
    · exact hn

theorem loadEach_loadedLoadable (hpeas : PeasLoad engine peasLoad) {infos : List PluginInfo}
    (hinfos : ∀ p ∈ infos, p ∈ engine.plugins) :
    ∀ (st : Loader), LoadedLoadable engine version st.loaded →
      LoadedLoadable engine version (loadEach engine none version peasLoad wanted st infos).loaded := by
  induction infos with
  | nil => exact fun _ h => h
  | cons info infos ih =>
    intro st hst
    apply ih (fun p hp => hinfos p (List.mem_cons_of_mem _ hp))
    split
    · exact loadPlugin_loadedLoadable hpeas st (hinfos info (List.mem_cons_self _ _)) hst
    · exact hst

/-- Every `Loadable` plugin the loop selects is loaded after it, when libpeas loads each `Loadable`
    plugin it is handed. -/
theorem loadEach_complete (hpeas : PeasLoad engine peasLoad)
    (hloads : ∀ loaded p, Loadable engine version p → p.moduleName ∈ peasLoad loaded p)
    {infos : List PluginInfo} (hinfos : ∀ p ∈ infos, p ∈ engine.plugins) :
    ∀ (st : Loader), ∀ p ∈ infos, wanted p = true → Loadable engine version p →
      p.moduleName ∈ (loadEach engine none version peasLoad wanted st infos).loaded := by
  induction infos with
  | nil => exact fun _ _ h => absurd h (List.not_mem_nil _)
  | cons info infos ih =>
    intro st p hp hw hl
    rcases List.mem_cons.1 hp with rfl | hp
    · apply loadEach_keeps wanted hpeas none infos
      split
      · rw [(loadPlugin_loaded st (hinfos p (List.mem_cons_self _ _))).1 hl]
        exact hloads _ _ hl
      next h => simpa [hw] using h
    · exact ih (fun p hp => hinfos p (List.mem_cons_of_mem _ hp)) _ p hp hw hl

theorem loadPlugin_single_congr {peasLoad' : List String → PluginInfo → List String} (name : String)
    (h : ∀ loaded p, p.moduleName = name → peasLoad' loaded p = peasLoad loaded p) (st : Loader) (info : PluginInfo) :
    loadPlugin engine (some name) version peasLoad' st info = loadPlugin engine (some name) version peasLoad st info := by
  by_cases hn : info.moduleName = name <;> simp [loadPlugin, canLoadPlugin, hn, h st.loaded info]

/-- In single-plugin mode the loop's result depends on libpeas only where it is handed the plugin of
    that name. -/
theorem loadEach_single_congr {peasLoad' : List String → PluginInfo → List String} (name : String)
    (h : ∀ loaded p, p.moduleName = name → peasLoad' loaded p = peasLoad loaded p) (infos : List PluginInfo) :
    ∀ (st : Loader), loadEach engine (some name) version peasLoad' wanted st infos =
      loadEach engine (some name) version peasLoad wanted st infos := by
  induction infos with
  | nil => exact fun _ => rfl
  | cons info infos ih => exact fun st => by simp only [loadEach, loadPlugin_single_congr name h, ih]

theorem loadEach_single_loaded (hpeas : PeasLoad engine peasLoad) (name : String) (infos : List PluginInfo) :
    ∀ (st : Loader), ∀ n ∈ (loadEach engine (some name) version peasLoad wanted st infos).loaded, n ∈ st.loaded ∨
      ∃ p ∈ infos, p.moduleName = name ∧ ∃ q, Relation.ReflTransGen (Depends engine) p q ∧ q.moduleName = n := by
  induction infos with
  | nil => exact fun _ n hn => .inl hn
  | cons info infos ih =>
    intro st n hn
    rcases ih _ n hn with hn | ⟨p, hp, hpn, hq⟩
    · split at hn
      · simp only [loadPlugin, canLoadPlugin] at hn
        split at hn
        next hname =>
          rcases hpeas.within _ _ n hn with hn | hq
          · exact .inl hn
          · exact .inr ⟨info, List.mem_cons_self _ _, of_decide_eq_true hname, hq⟩
        · exact .inl hn
      · exact .inl hn
    · exact .inr ⟨p, List.mem_cons_of_mem _ hp, hpn, hq⟩

/-- In single-plugin mode the check passes only the plugin of that name, so a loop hands libpeas that
    plugin at most: any libpeas that does the same with it gives the same result. Everything loaded
    after the loop was loaded before, or is that plugin or a plugin its dependencies reach. -/
theorem loadEach_single (hpeas : PeasLoad engine peasLoad) (name : String) (infos : List PluginInfo) (st : Loader) :
    (∀ peasLoad' : List String → PluginInfo → List String,
      (∀ loaded p, p.moduleName = name → peasLoad' loaded p = peasLoad loaded p) →
        loadEach engine (some name) version peasLoad' wanted st infos =
          loadEach engine (some name) version peasLoad wanted st infos) ∧
    ∀ n ∈ (loadEach engine (some name) version peasLoad wanted st infos).loaded, n ∈ st.loaded ∨
      ∃ p ∈ infos, p.moduleName = name ∧ ∃ q, Relation.ReflTransGen (Depends engine) p q ∧ q.moduleName = n :=
  ⟨fun _ h => loadEach_single_congr wanted name h infos st, loadEach_single_loaded wanted hpeas name infos st⟩

/-- Named `lsp`, on an engine where `editor` is not reachable from it, the loop loads `lsp` alone. -/
theorem loadEach_single_lsp :
    (loadEach diamondEngine (some "lsp") "3.32.0" (fun loaded info => loaded ++ [info.moduleName]) (fun _ => true)
        ⟨[], []⟩ diamondEngine.plugins).loaded = ["lsp"] ∧
    (∀ peasLoad' : List String → PluginInfo → List String,
      (∀ loaded p, p.moduleName = "lsp" → peasLoad' loaded p = loaded ++ [p.moduleName]) →
        loadEach diamondEngine (some "lsp") "3.32.0" peasLoad' (fun _ => true) ⟨[], []⟩ diamondEngine.plugins =
          loadEach diamondEngine (some "lsp") "3.32.0" (fun loaded info => loaded ++ [info.moduleName])
            (fun _ => true) ⟨[], []⟩ diamondEngine.plugins) ∧
    ∀ n ∈ (loadEach diamondEngine (some "lsp") "3.32.0" (fun loaded info => loaded ++ [info.moduleName])
        (fun _ => true) ⟨[], []⟩ diamondEngine.plugins).loaded, n ∈ ([] : List String) ∨
      ∃ p ∈ diamondEngine.plugins, p.moduleName = "lsp" ∧
        ∃ q, Relation.ReflTransGen (Depends diamondEngine) p q ∧ q.moduleName = n :=
  ⟨by decide, loadEach_single (fun _ => true) (peasLoad_append diamondEngine) "lsp" diamondEngine.plugins ⟨[], []⟩⟩

end Spec

/-! ### The rescan -/

section Rescan
variable {engine engine' : Engine} {version : String} {p q r : PluginInfo}

/-- A rescan keeps the plugins the engine had. -/
def Extends (engine engine' : Engine) : Prop := ∀ p ∈ engine.plugins, p ∈ engine'.plugins

theorem getPluginInfo_extends (hext : Extends engine engine') {d : String} (h : engine.getPluginInfo d = some q) :
    engine'.getPluginInfo d = some q := by
  have hq' := hext q (getPluginInfo_mem h)
  have hd : q.moduleName = d := by simpa using List.find?_some h
  cases h' : engine'.getPluginInfo d with
  | none => exact absurd hd (by simpa using List.find?_eq_none.1 h' q hq')
  | some q' =>
    have hd' : q'.moduleName = d := by simpa using List.find?_some h'
    rw [eq_of_moduleName_eq (getPluginInfo_mem h') hq' (hd'.trans hd.symm)]

/-- From a plugin that is `Loadable` before the rescan, each dependency after it is one before. -/
theorem depends_of_extends (hext : Extends engine engine') (hp : Loadable engine version p)
    (hr : Relation.ReflTransGen (Depends engine) p r) (h : Depends engine' r q) : Depends engine r q := by
  obtain ⟨d, hd, hq⟩ := h
  obtain ⟨q₀, hq₀⟩ := Option.isSome_iff_exists.1 ((hp r hr).1.2.2 d hd)
  exact ⟨d, hd, by rw [hq₀, ← Option.some_injective _ ((getPluginInfo_extends hext hq₀).symm.trans hq)]⟩

theorem reaches_of_extends (hext : Extends engine engine') (hp : Loadable engine version p)
    (hr : Relation.ReflTransGen (Depends engine) p r) (h : Relation.ReflTransGen (Depends engine') r q) :
    Relation.ReflTransGen (Depends engine) r q := by
  induction h with
  | refl => exact .refl
  | tail _ hs ih => exact ih.tail (depends_of_extends hext hp (hr.trans ih) hs)

/-- A rescan keeps every `Loadable` plugin `Loadable`: its dependencies resolve as before. -/
theorem loadable_of_extends (hext : Extends engine engine') (hp : Loadable engine version p) :
    Loadable engine' version p := by
  intro q hq
  have hq₀ := reaches_of_extends hext hp .refl hq
  obtain ⟨⟨hen, habi, hdeps⟩, hcyc⟩ := hp q hq₀
  refine ⟨⟨hen, habi, fun d hd => ?_⟩, fun hc => hcyc ?_⟩
  · obtain ⟨q', hq'⟩ := Option.isSome_iff_exists.1 (hdeps d hd)
    simp [getPluginInfo_extends hext hq']
  · obtain ⟨z, hz, hzq⟩ := Relation.TransGen.head'_iff.1 hc
    have hz₀ := depends_of_extends hext hp hq₀ hz
    exact Relation.TransGen.head' hz₀ (reaches_of_extends hext hp (hq₀.tail hz₀) hzq)

theorem loadedLoadable_of_extends (hext : Extends engine engine') {loaded : List String}
    (h : LoadedLoadable engine version loaded) : LoadedLoadable engine' version loaded := by
  intro n hn
  obtain ⟨p, hp, rfl, hl⟩ := h n hn
  exact ⟨p, hext p hp, rfl, loadable_of_extends hext hl⟩

end Rescan

/-- Builder's two loaders, from an engine with nothing loaded: the startup loader loads every
    `Loadable` plugin with `X-At-Startup`, and only `Loadable` plugins; after the rescan, the second
    loader leaves loaded exactly the `Loadable` plugins of the rescanned engine. -/
theorem loadPlugins_loaded_iff (engine engine' : Engine) (version : String) (atStartup : PluginInfo → Bool)
    (peasLoad peasLoad' : List String → PluginInfo → List String)
    (hpeas : PeasLoad engine peasLoad) (hpeas' : PeasLoad engine' peasLoad')
    (hloads : ∀ loaded p, Loadable engine version p → p.moduleName ∈ peasLoad loaded p)
    (hloads' : ∀ loaded p, Loadable engine' version p → p.moduleName ∈ peasLoad' loaded p)
    (hext : Extends engine engine') :
    (∀ p ∈ engine.plugins,
      (atStartup p = true → Loadable engine version p →
        p.moduleName ∈ (loadPluginsForStartup engine none version peasLoad atStartup ⟨[], []⟩).loaded) ∧
      (p.moduleName ∈ (loadPluginsForStartup engine none version peasLoad atStartup ⟨[], []⟩).loaded →
        Loadable engine version p)) ∧
    ∀ p ∈ engine'.plugins,
      p.moduleName ∈ (loadPlugins engine' none version peasLoad'
        (loadPluginsForStartup engine none version peasLoad atStartup ⟨[], []⟩)).loaded ↔
      Loadable engine' version p := by
  have hsound : LoadedLoadable engine version (loadPluginsForStartup engine none version peasLoad atStartup ⟨[], []⟩).loaded :=
    loadEach_loadedLoadable atStartup hpeas (fun _ h => h) ⟨[], []⟩ (fun _ h => absurd h (List.not_mem_nil _))
  refine ⟨fun p hp => ⟨fun hw hl => loadEach_complete atStartup hpeas hloads (fun _ h => h) _ p hp hw hl,
    fun hn => ?_⟩, fun p hp => ⟨fun hn => ?_, fun hl => loadEach_complete _ hpeas' hloads' (fun _ h => h) _ p hp rfl hl⟩⟩
  · obtain ⟨q, hq, hqn, hl⟩ := hsound _ hn
    rwa [← eq_of_moduleName_eq hq hp hqn]
  · obtain ⟨q, hq, hqn, hl⟩ := loadEach_loadedLoadable _ hpeas' (fun _ h => h) _ (loadedLoadable_of_extends hext hsound) _ hn
    rwa [← eq_of_moduleName_eq hq hp hqn]

/-! ### The plugins' settings -/

/-- A `GSettings` of `org.gnome.builder.plugin` made by `_ide_application_plugin_get_settings`: its path,
    and the plugin its `changed::enabled` handler was connected with. -/
structure PluginSettings where
  path : String
  handler : PluginInfo
  deriving DecidableEq, Repr

/-- `_ide_application_plugin_get_settings`: the settings of the plugin's module in
    `self->plugin_settings`, made and connected the first time the module is asked for. -/
def pluginGetSettings (table : List (String × PluginSettings)) (info : PluginInfo) :
    PluginSettings × List (String × PluginSettings) :=
  match table.lookup info.moduleName with
  | some settings => (settings, table)
  | none =>
    let settings : PluginSettings := ⟨"/org/gnome/builder/plugins/" ++ info.moduleName ++ "/", info⟩
    (settings, (info.moduleName, settings) :: table)

/-- `ide_application_changed_plugin_cb`, once the `enabled` key of the settings it was connected to is
    `enabled`: libpeas unloads the plugin or loads it, with no check. -/
def changedPluginCb (peasLoad peasUnload : List String → PluginInfo → List String) (st : Loader)
    (info : PluginInfo) (enabled : Bool) : Loader :=
  if !enabled then { st with loaded := peasUnload st.loaded info } else { st with loaded := peasLoad st.loaded info }

/-- What `self->plugin_settings` holds: one entry per module name, at that module's path and connected
    with a plugin of that name. -/
structure SettingsTable (table : List (String × PluginSettings)) : Prop where
  nodup : (table.map Prod.fst).Nodup
  entries : ∀ m s, (m, s) ∈ table → s.path = "/org/gnome/builder/plugins/" ++ m ++ "/" ∧ s.handler.moduleName = m

section SettingsCache
variable {table : List (String × PluginSettings)}

/-- A lookup returns the settings at the module's path and keeps the table's shape; it makes and connects
    new settings only for a module the table lacks. -/
theorem pluginGetSettings_spec (h : SettingsTable table) (info : PluginInfo) :
    (pluginGetSettings table info).1.path = "/org/gnome/builder/plugins/" ++ info.moduleName ++ "/" ∧
    (pluginGetSettings table info).1.handler.moduleName = info.moduleName ∧
    SettingsTable (pluginGetSettings table info).2 ∧
    ((pluginGetSettings table info).2.map Prod.fst =
      if info.moduleName ∈ table.map Prod.fst then table.map Prod.fst else info.moduleName :: table.map Prod.fst) := by
  unfold pluginGetSettings
  split
  next settings hl =>
    obtain ⟨l₁, l₂, rfl, -⟩ := List.lookup_eq_some_iff.1 hl
    have hmem : (info.moduleName, settings) ∈ l₁ ++ (info.moduleName, settings) :: l₂ := by simp
    exact ⟨(h.entries _ _ hmem).1, (h.entries _ _ hmem).2, h, by simp⟩
  next hl =>
    have hnot : info.moduleName ∉ table.map Prod.fst := fun hm => by
      obtain ⟨⟨m, s⟩, hms, rfl⟩ := List.mem_map.1 hm
      simpa using List.lookup_eq_none_iff.1 hl _ hms
    refine ⟨rfl, rfl, ⟨List.nodup_cons.2 ⟨hnot, h.nodup⟩, fun m s hms => ?_⟩, by simp [hnot]⟩
    rcases List.mem_cons.1 hms with he | hms
    · cases he
      exact ⟨rfl, rfl⟩
    · exact h.entries m s hms

/-- However often and in whatever order the modules are asked for, the table holds one entry, so one
    `changed::enabled` handler, for each module asked for, at that module's path. -/
theorem pluginGetSettings_run (infos : List PluginInfo) :
    SettingsTable (infos.foldl (fun t info => (pluginGetSettings t info).2) []) ∧
    ∀ m, m ∈ (infos.foldl (fun t info => (pluginGetSettings t info).2) []).map Prod.fst ↔
      m ∈ infos.map PluginInfo.moduleName := by
  suffices ∀ table, SettingsTable table → SettingsTable (infos.foldl (fun t info => (pluginGetSettings t info).2) table) ∧
      ∀ m, m ∈ (infos.foldl (fun t info => (pluginGetSettings t info).2) table).map Prod.fst ↔
        m ∈ table.map Prod.fst ∨ m ∈ infos.map PluginInfo.moduleName by
    simpa using this [] ⟨List.nodup_nil, fun _ _ h => absurd h (List.not_mem_nil _)⟩
  induction infos with
  | nil => simp
  | cons info infos ih =>
    intro table h
    obtain ⟨-, -, h', hkeys⟩ := pluginGetSettings_spec h info
    obtain ⟨hrun, hmem⟩ := ih _ h'
    refine ⟨hrun, fun m => ?_⟩
    rw [List.foldl_cons, hmem, hkeys, List.map_cons, List.mem_cons]
    split
    next hin =>
      constructor
      · exact fun h => h.elim .inl (.inr ∘ .inr)
      · rintro (h | rfl | h)
        exacts [.inl h, .inl hin, .inr h]
    next => rw [List.mem_cons, or_assoc, or_left_comm]

end SettingsCache

/-- The bundled plugins `editor` and `buffer`, before the rescan finds `lsp`. -/
def bundledEngine : Engine := ⟨[editorPlugin, ⟨"buffer", "resource:///plugins/buffer", none, [], true⟩], by decide⟩

theorem loadPlugins_loaded_iff_diamond :
    (∀ p ∈ bundledEngine.plugins,
      ((fun _ => true : PluginInfo → Bool) p = true → Loadable bundledEngine "3.32.0" p →
        p.moduleName ∈ (loadPluginsForStartup bundledEngine none "3.32.0" (fun loaded info => loaded ++ [info.moduleName])
          (fun _ => true) ⟨[], []⟩).loaded) ∧
      (p.moduleName ∈ (loadPluginsForStartup bundledEngine none "3.32.0" (fun loaded info => loaded ++ [info.moduleName])
          (fun _ => true) ⟨[], []⟩).loaded →
        Loadable bundledEngine "3.32.0" p)) ∧
    ∀ p ∈ diamondEngine.plugins,
      p.moduleName ∈ (loadPlugins diamondEngine none "3.32.0" (fun loaded info => loaded ++ [info.moduleName])
        (loadPluginsForStartup bundledEngine none "3.32.0" (fun loaded info => loaded ++ [info.moduleName])
          (fun _ => true) ⟨[], []⟩)).loaded ↔
      Loadable diamondEngine "3.32.0" p :=
  loadPlugins_loaded_iff bundledEngine diamondEngine "3.32.0" (fun _ => true) _ _ (peasLoad_append _) (peasLoad_append _)
    (fun _ _ _ => List.mem_append_right _ (List.mem_singleton_self _))
    (fun _ _ _ => List.mem_append_right _ (List.mem_singleton_self _))
    ((by decide : ∀ p ∈ bundledEngine.plugins, p ∈ diamondEngine.plugins))

end Libide.Gui
