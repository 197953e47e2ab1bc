import Libide.Core.Settings

/-! # Settings as actions

`IdeSettings` (`ide-settings.c`) is a `GActionGroup` with one stateful action for each key of its
schema: the action's state is the key's value, and changing the state writes the key. A key's value comes
from the layers `ide_settings_constructed` appended (`Settings.lean`): the first layer holding a value for
the key gives it, and otherwise the schema's default; a write goes to the first layer. This is how the
section comment of `ide-settings.c` describes `IdeLayeredSettings`, which is not among the sources: "If a
setting has been set for the current project, it will be returned. If not, the users preference will be
returned." The comment goes on: "Setting a preference via #IdeSettings will always modify the projects
setting". That holds exactly when a project layer was made, for a relocatable schema and a project id;
otherwise the first layer is the application's own path and a write changes the user's value.

`ide_settings_change_action_state` writes a value only when it has the key's type and lies in its range,
and then announces it; `ide_settings_activate_action` toggles a boolean key, ignoring any parameter, and
passes any other key's parameter on. A name that is not a key of the schema makes
`g_settings_schema_get_key` abort, which is `none` here.

`ide_settings_constructed` connects the layered settings' `changed` to
`ide_settings_layered_settings_changed_cb`, which emits `changed` and `action-state-changed`. A write
makes the first layer's `GSettings` emit `changed` before the write returns, so a value that
`change_action_state` writes is announced twice: once through that callback, then by
`change_action_state` itself. -/

namespace Libide.Core

/-! ### Values and keys -/

/-- A `GVariant` as a key holds it: a boolean, which the action group reads, or a value of another type,
    by its type string and its text. -/
inductive Value
  | boolean (b : Bool)
  | other (type text : String) (notBoolean : type ≠ "b")
  deriving DecidableEq, Repr

namespace Value

/-- `g_variant_get_type_string`. -/
def type : Value → String
  | boolean _ => "b"
  | other type _ _ => type

/-- `g_variant_get_boolean`, whose type check returns `FALSE` on a value of another type. -/
def getBoolean : Value → Bool
  | boolean b => b
  | other .. => false

theorem type_eq_b {v : Value} : v.type = "b" ↔ ∃ b, v = boolean b := by
  cases v with
  | boolean b => simp [type]
  | other t x h => simp [type, h]

end Value

/-- A `GSettingsSchemaKey`: its name, value type, default value and range check
    (`g_settings_schema_key_range_check`). The schema compiler makes the default fit the type and the
    range, and takes a range only for numbers and strings, so a boolean key accepts both booleans. -/
structure SchemaKey where
  name : String
  valueType : String
  defaultValue : Value
  rangeCheck : Value → Bool
  default_type : defaultValue.type = valueType
  default_range : rangeCheck defaultValue = true
  boolean_range : valueType = "b" → ∀ b, rangeCheck (.boolean b) = true

/-- The value is of the key's type (`g_variant_is_of_type`) and in its range. -/
def SchemaKey.accepts (key : SchemaKey) (value : Value) : Bool :=
  decide (value.type = key.valueType) && key.rangeCheck value

/-- Modelled from the spec: `ide_layered_settings_get_key`, which by the section comment of
    `ide-settings.c` reads the one schema all layers share: `g_settings_schema_get_key`, `none` where it
    aborts on a name the schema lacks. -/
def getKey (keys : List SchemaKey) (name : String) : Option SchemaKey := keys.find? (·.name = name)

/-- `g_settings_set_value` on the settings at `path`: a value the key does not accept is refused, by a
    precondition or a critical, and nothing is written. -/
def gSettingsSetValue (backend : String × String → Option Value) (path : String) (key : SchemaKey)
    (value : Value) : String × String → Option Value :=
  if key.accepts value then Function.update backend (path, key.name) (some value) else backend

/-- Modelled from the spec: `ide_layered_settings_get_value`, whose source (`ide-layered-settings.c`) is
    not among the sources and which the spec does not describe, as the section comment of
    `ide-settings.c` describes it: the value of the first layer that holds one, else the default. -/
def layeredGetValue (backend : String × String → Option Value) (layers : List String) (key : SchemaKey) :
    Value :=
  (layers.findSome? fun path => backend (path, key.name)).getD key.defaultValue

/-! ### The object -/

/-- A signal of `IdeSettings`: `changed` with the key as its detail, or `action-state-changed`. -/
inductive Signal
  | changed (key : String)
  | actionStateChanged (name : String) (value : Value)
  deriving DecidableEq, Repr

/-- An `IdeSettings` with the backend it writes: the layered settings `ide_settings_constructed` built,
    the keys of its schema, the user values by path and key, and the signals it has emitted. -/
structure Settings where
  layered : LayeredSettings
  keys : List SchemaKey
  backend : String × String → Option Value
  emitted : List Signal

namespace Settings
variable (s : Settings)

/-- Modelled from the spec: the settings `ide_layered_settings_set_value` writes, by the section comment
    of `ide-settings.c` ("Setting a preference via #IdeSettings will always modify the projects
    setting"): the first layer; with none it aborts. -/
def primary : Option String := s.layered.layers.head?

/-- `ide_settings_get_value`. -/
def getValue (key : String) : Option Value := (getKey s.keys key).map (layeredGetValue s.backend s.layered.layers)

/-- `ide_settings_get_default_value`, through `ide_layered_settings_get_default_value`, modelled from the
    spec as the schema's default. -/
def getDefaultValue (key : String) : Option Value := (getKey s.keys key).map (·.defaultValue)

/-- What `ide_settings_layered_settings_changed_cb` emits for a key: `changed`, with the key as its
    detail, then `action-state-changed` with the key's value. -/
def changedSignals (key : SchemaKey) : List Signal :=
  [.changed key.name, .actionStateChanged key.name (layeredGetValue s.backend s.layered.layers key)]

/-- `ide_settings_layered_settings_changed_cb`, for a key the layered settings report changed. -/
def layeredSettingsChangedCb (key : String) : Option Settings :=
  (getKey s.keys key).map fun k => { s with emitted := s.emitted ++ s.changedSignals k }

/-- Modelled from the spec: `ide_layered_settings_set_value`, by the section comment of `ide-settings.c`,
    writing the first layer. The `GSettings` there emits `changed` for a value it takes, and the layered
    settings pass it on to `ide_settings_layered_settings_changed_cb` before the write returns. -/
def layeredSetValue (key : SchemaKey) (value : Value) : Option Settings :=
  s.primary.map fun path =>
    let s' := { s with backend := gSettingsSetValue s.backend path key value }
    if key.accepts value then { s' with emitted := s'.emitted ++ s'.changedSignals key } else s'

/-- `ide_settings_set_value`. -/
def setValue (key : String) (value : Value) : Option Settings :=
  (getKey s.keys key).bind fun k => s.layeredSetValue k value

/-- `ide_settings_get_boolean`, through `ide_layered_settings_get_boolean`, modelled from the spec as
    `ide_layered_settings_get_value` read as a boolean. -/
def getBoolean (key : String) : Option Bool := (s.getValue key).map Value.getBoolean

/-- `ide_settings_set_boolean`, through `ide_layered_settings_set_boolean`, modelled from the spec as
    `ide_layered_settings_set_value` of a boolean. -/
def setBoolean (key : String) (val : Bool) : Option Settings := s.setValue key (.boolean val)

/-- `ide_settings_has_action`: the name is among `ide_layered_settings_list_keys`, modelled from the spec
    as the keys of the schema. -/
def hasAction (name : String) : Bool := (s.keys.map (·.name)).contains name

/-- `ide_settings_list_actions`: `ide_layered_settings_list_keys`, modelled from the spec as the keys of
    the schema. -/
def listActions : List String := s.keys.map (·.name)

/-- `ide_settings_get_action_enabled`. -/
def getActionEnabled (_name : String) : Bool := true

/-- `ide_settings_get_action_state`. -/
def getActionState (name : String) : Option Value := s.getValue name

/-- `ide_settings_get_action_state_type`: the type of the key's default value. -/
def getActionStateType (name : String) : Option String := (getKey s.keys name).map (·.defaultValue.type)

/-- `ide_settings_get_action_parameter_type`: none for a boolean key, else the default value's type. -/
def getActionParameterType (name : String) : Option (Option String) :=
  (getKey s.keys name).map fun k => if k.defaultValue.type = "b" then none else some k.defaultValue.type

/-- `ide_settings_change_action_state`: a value of the key's type and in its range is written (which
    announces it through `ide_settings_layered_settings_changed_cb`) and announced; any other changes
    nothing. -/
def changeActionState (name : String) (value : Value) : Option Settings :=
  (getKey s.keys name).bind fun k =>
    if k.accepts value then
      (s.layeredSetValue k value).map fun s' => { s' with emitted := s'.emitted ++ [.actionStateChanged name value] }
    else some s

/-- `g_action_group_change_action_state`, whose precondition refuses a `NULL` value. -/
def gActionGroupChangeActionState (name : String) : Option Value → Option Settings
  | some value => s.changeActionState name value
  | none => some s

/-- `ide_settings_activate_action`: a boolean key with no parameter toggles, a boolean key with one is
    left alone, and any other key's parameter goes to `g_action_group_change_action_state`. -/
def activateAction (name : String) (parameter : Option Value) : Option Settings :=
  (getKey s.keys name).bind fun k =>
    if k.defaultValue.type = "b" then
      match parameter with
      | some _ => some s
      | none =>
        s.gActionGroupChangeActionState name (some (.boolean !(layeredGetValue s.backend s.layered.layers k).getBoolean))
    else s.gActionGroupChangeActionState name parameter

end Settings

/-- A call on the action group, a write through `ide_settings_set_value`, or a change the layered
    settings report. -/
inductive Op
  | changeActionState (name : String) (value : Value)
  | activateAction (name : String) (parameter : Option Value)
  | setValue (key : String) (value : Value)
  | layeredChanged (key : String)

/-- One call; `none` where it aborts. -/
def Settings.step (s : Settings) : Op → Option Settings
  | .changeActionState name value => s.changeActionState name value
  | .activateAction name parameter => s.activateAction name parameter
  | .setValue key value => s.setValue key value
  | .layeredChanged key => s.layeredSettingsChangedCb key

/-- A run of calls; `none` where one aborts. -/
def Settings.run (s : Settings) : List Op → Option Settings
  | [] => some s
  | op :: ops => (s.step op).bind fun s' => s'.run ops

/-! ### Keys and layers -/

section Lemmas
variable {keys : List SchemaKey} {name : String} {k : SchemaKey} {v : Value}
  {backend : String × String → Option Value}

theorem getKey_name (h : getKey keys name = some k) : k.name = name := by
  simpa using List.find?_some h

theorem getKey_self (h : getKey keys name = some k) : getKey keys k.name = some k := by
  rwa [getKey_name h]

theorem SchemaKey.accepts_default (k : SchemaKey) : k.accepts k.defaultValue = true := by
  simp [SchemaKey.accepts, k.default_type, k.default_range]

theorem SchemaKey.accepts_boolean (k : SchemaKey) (h : k.defaultValue.type = "b") (b : Bool) :
    k.accepts (.boolean b) = true := by
  have hv : k.valueType = "b" := k.default_type ▸ h
  simp [SchemaKey.accepts, Value.type, hv, k.boolean_range hv b]

theorem gSettingsSetValue_of_accepts (h : k.accepts v = true) (path : String) :
    gSettingsSetValue backend path k v = Function.update backend (path, k.name) (some v) := by
  simp [gSettingsSetValue, h]

theorem gSettingsSetValue_of_refused (h : k.accepts v = false) (path : String) :
    gSettingsSetValue backend path k v = backend := by
  simp [gSettingsSetValue, h]

/-- A value written in the first layer is the value read. -/
theorem layeredGetValue_update_head (path : String) (layers : List String) :
    layeredGetValue (Function.update backend (path, k.name) (some v)) (path :: layers) k = v := by
  simp [layeredGetValue, List.findSome?_cons]

/-- A key's value reads only that key's entries. -/
theorem layeredGetValue_congr {backend' : String × String → Option Value} (layers : List String)
    (h : ∀ path, backend' (path, k.name) = backend (path, k.name)) :
    layeredGetValue backend' layers k = layeredGetValue backend layers k := by
  simp only [layeredGetValue, funext h]

/-- Every user value the backend holds for a key of the schema has the key's type and lies in its
    range. -/
def Fits (keys : List SchemaKey) (backend : String × String → Option Value) : Prop :=
  ∀ name k path v, getKey keys name = some k → backend (path, name) = some v → k.accepts v = true

/-- Over a backend that fits the schema, a key's value has the key's type and lies in its range. -/
theorem layeredGetValue_accepts (hf : Fits keys backend) (hk : getKey keys name = some k) (layers : List String) :
    k.accepts (layeredGetValue backend layers k) = true := by
  unfold layeredGetValue
  cases h : layers.findSome? fun path => backend (path, k.name) with
  | none => exact k.accepts_default
  | some v =>
    obtain ⟨path, -, hv⟩ := List.exists_of_findSome?_eq_some h
    exact hf _ _ path v (getKey_self hk) hv

end Lemmas

/-! ### What a call can do -/

namespace Settings
variable {s s' : Settings}

/-- What a call may do to the object: keep its layers and keys, and leave the backend as it was or
    write, in the first layer, one value its key accepts. -/
def Writes (s s' : Settings) : Prop :=
  s'.layered = s.layered ∧ s'.keys = s.keys ∧
    (s'.backend = s.backend ∨ ∃ k path v, getKey s.keys k.name = some k ∧ s.primary = some path ∧
      k.accepts v = true ∧ s'.backend = Function.update s.backend (path, k.name) (some v))

theorem writes_emit (sigs : List Signal) : Writes s { s with emitted := s.emitted ++ sigs } :=
  ⟨rfl, rfl, .inl rfl⟩

theorem layeredSetValue_writes {k : SchemaKey} {v : Value} (hk : getKey s.keys k.name = some k)
    (h : s.layeredSetValue k v = some s') : Writes s s' := by
  obtain ⟨path, hp, rfl⟩ := Option.map_eq_some'.1 h
  cases hv : k.accepts v
  · exact ⟨by simp [hv], by simp [hv], .inl (by simp [hv, gSettingsSetValue_of_refused hv path])⟩
  · exact ⟨by simp [hv], by simp [hv], .inr ⟨k, path, v, hk, hp, hv, by simp [hv, gSettingsSetValue_of_accepts hv path]⟩⟩

theorem changeActionState_writes {name : String} {v : Value} (h : s.changeActionState name v = some s') :
    Writes s s' := by
  obtain ⟨k, hk, h⟩ := Option.bind_eq_some.1 h
  split at h
  · obtain ⟨s₁, h₁, rfl⟩ := Option.map_eq_some'.1 h
    obtain ⟨hl, hks, hb⟩ := layeredSetValue_writes (getKey_self hk) h₁
    exact ⟨hl, hks, hb⟩
  · cases h
    exact ⟨rfl, rfl, .inl rfl⟩

theorem activateAction_writes {name : String} {p : Option Value} (h : s.activateAction name p = some s') :
    Writes s s' := by
  obtain ⟨k, -, h⟩ := Option.bind_eq_some.1 h
  have hg : ∀ p, s.gActionGroupChangeActionState name p = some s' → Writes s s'
    | some _, h => changeActionState_writes h
    | none, h => by cases h; exact ⟨rfl, rfl, .inl rfl⟩
  split at h
  · split at h
    · cases h
      exact ⟨rfl, rfl, .inl rfl⟩
    · exact hg _ h
  · exact hg _ h

/-- One step writes at most one accepted value, in the first layer. -/
theorem step_writes {op : Op} (h : s.step op = some s') : Writes s s' := by
  cases op with
  | changeActionState name v => exact changeActionState_writes h
  | activateAction name p => exact activateAction_writes h
  | setValue key v =>
    obtain ⟨k, hk, h⟩ := Option.bind_eq_some.1 h
    exact layeredSetValue_writes (getKey_self hk) h
  | layeredChanged key =>
    obtain ⟨k, -, rfl⟩ := Option.map_eq_some'.1 h
    exact writes_emit _

theorem Writes.fits (hw : Writes s s') (hf : Fits s.keys s.backend) : Fits s'.keys s'.backend := by
  obtain ⟨-, hks, hb | ⟨k, path, v, hk, -, hv, hb⟩⟩ := hw
  · rwa [hks, hb]
  · intro n k' p v' hk' hv'
    rw [hks] at hk'
    rw [hb] at hv'
    by_cases he : (p, n) = (path, k.name)
    · obtain ⟨rfl, rfl⟩ := Prod.mk.inj he
      obtain rfl : k' = k := Option.some_injective _ (hk'.symm.trans hk)
      simp only [Function.update_same, Option.some.injEq] at hv'
      exact hv' ▸ hv
    · rw [Function.update_noteq he] at hv'
      exact hf n k' p v' hk' hv'

theorem Writes.frame (hw : Writes s s') {path : String} (hp : s.primary ≠ some path) (key : String) :
    s'.backend (path, key) = s.backend (path, key) := by
  obtain ⟨-, -, hb | ⟨k, p, v, -, hpp, -, hb⟩⟩ := hw
  · rw [hb]
  · rw [hb, Function.update_noteq]
    rintro ⟨⟩
    exact hp hpp

/-- Along a run the layers and keys stay, a backend that fits the schema keeps fitting it, and no
    layer but the first is written. -/
theorem run_writes : ∀ {s s' : Settings} (ops : List Op), s.run ops = some s' →
    s'.layered = s.layered ∧ s'.keys = s.keys ∧ (Fits s.keys s.backend → Fits s'.keys s'.backend) ∧
      ∀ path, s.primary ≠ some path → ∀ key, s'.backend (path, key) = s.backend (path, key)
  | s, s', [], h => by cases h; exact ⟨rfl, rfl, id, fun _ _ _ => rfl⟩
  | s, s', op :: ops, h => by
    obtain ⟨s₁, h₁, h⟩ := Option.bind_eq_some.1 h
    have hw := step_writes h₁
    obtain ⟨hl, hks, hf, hfr⟩ := run_writes ops h
    have hprim : s₁.primary = s.primary := by simp only [primary, hw.1]
    refine ⟨hl.trans hw.1, hks.trans hw.2.1, fun h => hf (hw.fits h), fun path hp key => ?_⟩
    rw [hfr path (hprim ▸ hp) key, hw.frame hp key]


/-! ### Changing and activating an action -/

variable {name path : String} {k : SchemaKey}

theorem primary_eq (hp : s.primary = some path) : ∃ rest, s.layered.layers = path :: rest := by
  unfold primary at hp
  cases h : s.layered.layers with
  | nil => simp [h] at hp
  | cons p rest =>
    rw [h] at hp
    exact ⟨rest, by rw [Option.some_injective _ hp]⟩

/-- After a write of `v` for `name` in the first layer, `name` reads `v` and every other action reads as
    before. -/
theorem getActionState_write (hk : getKey s.keys name = some k) (hp : s.primary = some path) (v : Value)
    (e : List Signal) (n : String) :
    ({ s with backend := Function.update s.backend (path, name) (some v), emitted := e } : Settings).getActionState n =
      if n = name then some v else s.getActionState n := by
  obtain ⟨rest, hl⟩ := primary_eq hp
  simp only [getActionState, getValue]
  split
  · subst n
    rw [hk, Option.map_some', hl, ← getKey_name hk, layeredGetValue_update_head]
  next hn =>
    cases hk' : getKey s.keys n with
    | none => rfl
    | some k' =>
      simp only [Option.map_some']
      refine congrArg some (layeredGetValue_congr _ fun p => Function.update_noteq ?_ _ _)
      rintro ⟨⟩
      exact hn (getKey_name hk').symm

/-- An accepted value is written in the first layer and announced three times over: `changed` and
    `action-state-changed` from the write's `changed`, then `action-state-changed` again. -/
theorem changeActionState_accepted (hk : getKey s.keys name = some k) (hp : s.primary = some path) {v : Value}
    (hv : k.accepts v = true) :
    s.changeActionState name v = some
      { s with
        backend := Function.update s.backend (path, name) (some v)
        emitted := s.emitted ++ [.changed name, .actionStateChanged name v, .actionStateChanged name v] } := by
  obtain ⟨rest, hl⟩ := primary_eq hp
  obtain rfl := getKey_name hk
  simp [changeActionState, hk, hv, layeredSetValue, hp, gSettingsSetValue_of_accepts hv, changedSignals, hl,
    layeredGetValue_update_head]

theorem changeActionState_refused (hk : getKey s.keys name = some k) {v : Value} (hv : k.accepts v = false) :
    s.changeActionState name v = some s := by
  simp [changeActionState, hk, hv]

/-- A key's value, over a backend that fits the schema, of a boolean key is a boolean. -/
theorem layeredGetValue_boolean (hf : Fits s.keys s.backend) (hk : getKey s.keys name = some k)
    (hb : k.defaultValue.type = "b") : ∃ b, layeredGetValue s.backend s.layered.layers k = .boolean b := by
  have h := layeredGetValue_accepts hf hk s.layered.layers
  simp only [SchemaKey.accepts, Bool.and_eq_true, decide_eq_true_eq] at h
  exact Value.type_eq_b.1 (h.1.trans (k.default_type.symm.trans hb))

/-- Activating a boolean action with no parameter writes the negation of its state in the first layer. -/
theorem activateAction_none (hf : Fits s.keys s.backend) (hk : getKey s.keys name = some k)
    (hp : s.primary = some path) (hb : k.defaultValue.type = "b") :
    ∃ b, s.getActionState name = some (.boolean b) ∧
      s.activateAction name none = some
        { s with
          backend := Function.update s.backend (path, name) (some (.boolean !b))
          emitted := s.emitted ++
            [.changed name, .actionStateChanged name (.boolean !b), .actionStateChanged name (.boolean !b)] } := by
  obtain ⟨b, hv⟩ := layeredGetValue_boolean hf hk hb
  refine ⟨b, by simp [getActionState, getValue, hk, hv], ?_⟩
  simp only [activateAction, hk, Option.some_bind, hb, if_true, hv, Value.getBoolean, gActionGroupChangeActionState]
  exact changeActionState_accepted hk hp (k.accepts_boolean hb _)

end Settings

/-! ### The layers a construction makes -/

/-- The boolean key `show-line-numbers`, off by default. -/
def showLineNumbers : SchemaKey := ⟨"show-line-numbers", "b", .boolean false, fun _ => true, rfl, rfl, fun _ _ => rfl⟩

/-- The settings of `org.gnome.builder.editor` in the project `proj`, with no value set. -/
def editorSettings : Settings :=
  ⟨⟨"org.gnome.builder.editor", "/org/gnome/builder/editor/",
    ["/org/gnome/builder/projects/proj/editor/", "/org/gnome/builder/editor/"]⟩, [showLineNumbers], fun _ => none, []⟩

theorem editorSettings_fits : Fits editorSettings.keys editorSettings.backend :=
  fun _ _ _ _ _ h => nomatch h

/-- From a backend that fits the schema, whatever calls are made, the state of every action has the
    action's state type and lies in its key's range. -/
theorem run_getActionState (s : Settings) (hf : Fits s.keys s.backend) (ops : List Op) (s' : Settings)
    (h : s.run ops = some s') (name : String) (v : Value) (hv : s'.getActionState name = some v) :
    s'.getActionStateType name = some v.type ∧ ∃ k, getKey s'.keys name = some k ∧ k.rangeCheck v = true := by
  obtain ⟨-, -, hfits, -⟩ := Settings.run_writes ops h
  obtain ⟨k, hk, rfl⟩ := Option.map_eq_some'.1 hv
  have ha := layeredGetValue_accepts (hfits hf) hk s'.layered.layers
  simp only [SchemaKey.accepts, Bool.and_eq_true, decide_eq_true_eq] at ha
  exact ⟨by simp [Settings.getActionStateType, hk, ha.1, k.default_type], k, hk, ha.2⟩

theorem run_getActionState_showLineNumbers :
    ∃ s', editorSettings.run [.activateAction "show-line-numbers" none] = some s' ∧
      s'.getActionStateType "show-line-numbers" = some (Value.boolean true).type ∧
      ∃ k, getKey s'.keys "show-line-numbers" = some k ∧ k.rangeCheck (.boolean true) = true :=
  ⟨_, rfl, run_getActionState editorSettings editorSettings_fits [.activateAction "show-line-numbers" none] _ rfl
    "show-line-numbers" (.boolean true) rfl⟩

/-- `change_action_state` on a key of the schema: a value the key accepts is written in the first
    layer and read back as the action's state, and no other action's state moves; it is announced twice,
    by `ide_settings_layered_settings_changed_cb` on the write's `changed` (`changed`, then
    `action-state-changed`) and then by `change_action_state` itself. Any other value changes nothing
    and announces nothing. -/
theorem changeActionState_spec (s : Settings) (name : String) (k : SchemaKey) (hk : getKey s.keys name = some k)
    (path : String) (hp : s.primary = some path) (v : Value) :
    ∃ s', s.changeActionState name v = some s' ∧
      (k.accepts v = true → s'.backend = Function.update s.backend (path, name) (some v) ∧
        s'.getActionState name = some v ∧
        s'.emitted = s.emitted ++ [.changed name, .actionStateChanged name v, .actionStateChanged name v] ∧
        ∀ n, n ≠ name → s'.getActionState n = s.getActionState n) ∧
      (k.accepts v = false → s' = s) := by
  cases hv : k.accepts v
  · exact ⟨s, Settings.changeActionState_refused hk hv, by simp, fun _ => rfl⟩
  · refine ⟨_, Settings.changeActionState_accepted hk hp hv, fun _ => ⟨rfl, ?_, rfl, fun n hn => ?_⟩, by simp⟩
    · rw [Settings.getActionState_write hk hp, if_pos rfl]
    · rw [Settings.getActionState_write hk hp, if_neg hn]

theorem changeActionState_spec_showLineNumbers :
    ∃ s', editorSettings.changeActionState "show-line-numbers" (.boolean true) = some s' ∧
      (showLineNumbers.accepts (.boolean true) = true →
        s'.backend = Function.update editorSettings.backend
          ("/org/gnome/builder/projects/proj/editor/", "show-line-numbers") (some (.boolean true)) ∧
        s'.getActionState "show-line-numbers" = some (.boolean true) ∧
        s'.emitted = editorSettings.emitted ++ [.changed "show-line-numbers",
          .actionStateChanged "show-line-numbers" (.boolean true), .actionStateChanged "show-line-numbers" (.boolean true)] ∧
        ∀ n, n ≠ "show-line-numbers" → s'.getActionState n = editorSettings.getActionState n) ∧
      (showLineNumbers.accepts (.boolean true) = false → s' = editorSettings) :=
  changeActionState_spec editorSettings "show-line-numbers" showLineNumbers rfl
    "/org/gnome/builder/projects/proj/editor/" rfl (.boolean true)

/-- Activating a boolean action with no parameter negates its state, writing the negation in the first
    layer, so a second activation gives the state back, now held in the first layer; with a parameter
    activation does nothing. Activating any other action does what `change_action_state` does with the
    parameter, and nothing without one. -/
theorem activateAction_toggle (s : Settings) (hf : Fits s.keys s.backend) (name : String) (k : SchemaKey)
    (hk : getKey s.keys name = some k) (path : String) (hp : s.primary = some path) :
    (k.defaultValue.type = "b" →
      (∀ p, s.activateAction name (some p) = some s) ∧
      ∃ b s₁ s₂, s.getActionState name = some (.boolean b) ∧
        s.activateAction name none = some s₁ ∧ s₁.getActionState name = some (.boolean !b) ∧
        s₁.activateAction name none = some s₂ ∧ s₂.getActionState name = some (.boolean b) ∧
        s₂.backend (path, name) = some (.boolean b)) ∧
    (k.defaultValue.type ≠ "b" →
      s.activateAction name none = some s ∧ ∀ p, s.activateAction name (some p) = s.changeActionState name p) := by
  refine ⟨fun hb => ⟨fun p => by simp [Settings.activateAction, hk, hb], ?_⟩, fun hb => ?_⟩
  · obtain ⟨b, hv, h₁⟩ := Settings.activateAction_none hf hk hp hb
    have hv₁ := Settings.getActionState_write hk hp (.boolean !b) (s.emitted ++
      [.changed name, .actionStateChanged name (.boolean !b), .actionStateChanged name (.boolean !b)]) name
    rw [if_pos rfl] at hv₁
    obtain ⟨b', hv', h₂⟩ := Settings.activateAction_none ((Settings.activateAction_writes h₁).fits hf) hk hp hb
    obtain rfl : b' = !b := by simpa [hv₁] using hv'.symm
    refine ⟨b, _, _, hv, h₁, hv₁, h₂, ?_, by simp⟩
    exact (Settings.getActionState_write (s := { s with
      backend := Function.update s.backend (path, name) (some (.boolean !b))
      emitted := s.emitted ++
        [.changed name, .actionStateChanged name (.boolean !b), .actionStateChanged name (.boolean !b)] })
        hk hp _ _ name).trans (by simp)
  · simp [Settings.activateAction, hk, hb, Settings.gActionGroupChangeActionState]

theorem activateAction_toggle_showLineNumbers :
    (showLineNumbers.defaultValue.type = "b" →
      (∀ p, editorSettings.activateAction "show-line-numbers" (some p) = some editorSettings) ∧
      ∃ b s₁ s₂, editorSettings.getActionState "show-line-numbers" = some (.boolean b) ∧
        editorSettings.activateAction "show-line-numbers" none = some s₁ ∧
        s₁.getActionState "show-line-numbers" = some (.boolean !b) ∧
        s₁.activateAction "show-line-numbers" none = some s₂ ∧
        s₂.getActionState "show-line-numbers" = some (.boolean b) ∧
        s₂.backend ("/org/gnome/builder/projects/proj/editor/", "show-line-numbers") = some (.boolean b)) ∧
    (showLineNumbers.defaultValue.type ≠ "b" →
      editorSettings.activateAction "show-line-numbers" none = some editorSettings ∧
      ∀ p, editorSettings.activateAction "show-line-numbers" (some p) =
        editorSettings.changeActionState "show-line-numbers" p) :=
  activateAction_toggle editorSettings editorSettings_fits "show-line-numbers" showLineNumbers rfl
    "/org/gnome/builder/projects/proj/editor/" rfl

end Libide.Core
