import Mathlib.Data.List.Range
import Mathlib.Tactic.Ring

/-! # The terminal's preferences

`gbp_terminal_preferences_addin_load` and `gbp_terminal_preferences_addin_unload`
(`gbp-terminal-preferences-addin.c`) add the terminal's rows to a `DzlPreferences` and take them away
again. Each `dzl_preferences_add_*` call returns the id of the widget it made, which the addin keeps in
one of its seven fields, and `unload` hands six of them to `dzl_preferences_remove_id`: the id of the
`allow-hyperlink` switch is kept at load and never removed. So every load-unload cycle on the same
preferences leaves one more "Show hyperlinks" switch behind.

`DzlPreferences` is libdazzle's and not among the sources. It is modelled as its table of widgets by id
and its counter of ids: an added widget gets the counter plus one, and `remove_id` removes the widget of
that id if there is one. The pages and groups `load` adds are not modelled: they get no id, and `unload`
removes neither. Ids are `guint`s; they are modelled as numbers, as the counter does not wrap within
`2^32` widgets. -/

namespace Libide.Terminal

/-- The kind of row a widget is. -/
inductive Kind
  | fontButton
  | switch
  | spinButton
  deriving DecidableEq, Repr

/-- A preferences widget: its page and group, the settings schema and key it is bound to, its kind, its
    title and its priority. -/
structure Widget where
  page : String
  group : String
  schemaId : String
  key : String
  kind : Kind
  title : String
  priority : Int
  deriving DecidableEq, Repr

/-- A `DzlPreferences`: its widgets by id, and the last id it gave out, which no widget's id exceeds. -/
structure Preferences where
  widgets : List (Nat × Widget)
  lastWidgetId : Nat
  ids_le : ∀ e ∈ widgets, e.1 ≤ lastWidgetId

namespace Preferences

/-- A widget added under the next id; its id is returned. -/
def addWidget (p : Preferences) (w : Widget) : Nat × Preferences :=
  (p.lastWidgetId + 1, ⟨p.widgets ++ [(p.lastWidgetId + 1, w)], p.lastWidgetId + 1, fun e he => by
    rcases List.mem_append.1 he with he | he
    · exact Nat.le_succ_of_le (p.ids_le e he)
    · rw [List.mem_singleton.1 he]⟩)

/-- `dzl_preferences_add_font_button`. -/
def addFontButton (p : Preferences) (page group schemaId key title : String) (priority : Int) :
    Nat × Preferences :=
  p.addWidget ⟨page, group, schemaId, key, .fontButton, title, priority⟩

/-- `dzl_preferences_add_switch`, with no path and no target variant. -/
def addSwitch (p : Preferences) (page group schemaId key title : String) (priority : Int) :
    Nat × Preferences :=
  p.addWidget ⟨page, group, schemaId, key, .switch, title, priority⟩

/-- `dzl_preferences_add_spin_button`, with no path. -/
def addSpinButton (p : Preferences) (page group schemaId key title : String) (priority : Int) :
    Nat × Preferences :=
  p.addWidget ⟨page, group, schemaId, key, .spinButton, title, priority⟩

/-- `dzl_preferences_remove_id`: the widget of that id goes, if there is one. -/
def removeId (p : Preferences) (widgetId : Nat) : Preferences :=
  ⟨p.widgets.filter (·.1 ≠ widgetId), p.lastWidgetId, fun e he => p.ids_le e (List.mem_of_mem_filter he)⟩

end Preferences

/-- `GbpTerminalPreferencesAddin`: the ids of the widgets it added. -/
structure Addin where
  limitId : Nat
  linesId : Nat
  scrollOnOutputId : Nat
  scrollOnKeystrokeId : Nat
  fontId : Nat
  allowBoldId : Nat
  allowHyperlinkId : Nat
  deriving DecidableEq, Repr

/-- `gbp_terminal_preferences_addin_load`, from the first widget on. -/
def load (self : Addin) (p : Preferences) : Addin × Preferences :=
  let (fontId, p) := p.addFontButton "terminal" "general" "org.alusus.alwarsha.terminal" "font-name"
    "Terminal Font" 1
  let (allowBoldId, p) := p.addSwitch "terminal" "general" "org.alusus.alwarsha.terminal" "allow-bold"
    "Bold text in terminals" 2
  let (allowHyperlinkId, p) := p.addSwitch "terminal" "general" "org.alusus.alwarsha.terminal"
    "allow-hyperlink" "Show hyperlinks" 3
  let (scrollOnOutputId, p) := p.addSwitch "terminal" "scrollback" "org.alusus.alwarsha.terminal"
    "scroll-on-output" "Scroll on output" 0
  let (scrollOnKeystrokeId, p) := p.addSwitch "terminal" "scrollback" "org.alusus.alwarsha.terminal"
    "scroll-on-keystroke" "Scroll on keystroke" 10
  let (limitId, p) := p.addSwitch "terminal" "scrollback" "org.alusus.alwarsha.terminal" "limit-scrollback"
    "Limit Scrollback" 20
  let (linesId, p) := p.addSpinButton "terminal" "scrollback" "org.alusus.alwarsha.terminal"
    "scrollback-lines" "Scrollback Lines" 30
  ({ self with fontId, allowBoldId, allowHyperlinkId, scrollOnOutputId, scrollOnKeystrokeId, limitId, linesId }, p)

/-- `gbp_terminal_preferences_addin_unload`. -/
def unload (self : Addin) (p : Preferences) : Preferences :=
  ((((((p.removeId self.limitId).removeId self.linesId).removeId self.scrollOnKeystrokeId).removeId
    self.scrollOnOutputId).removeId self.allowBoldId).removeId self.fontId)

/-- The addin loaded on the preferences and unloaded from them again. -/
def cycle (st : Addin × Preferences) : Addin × Preferences :=
  let (self, p) := load st.1 st.2
  (self, unload self p)

/-- `n` cycles. -/
def cycles : Nat → Addin × Preferences → Addin × Preferences
  | 0, st => st
  | n + 1, st => cycles n (cycle st)

/-- The switch `load` adds for `allow-hyperlink`. -/
def allowHyperlinkSwitch : Widget :=
  ⟨"terminal", "general", "org.alusus.alwarsha.terminal", "allow-hyperlink", .switch, "Show hyperlinks", 3⟩

/-! ### Load and unload -/

/-- A `remove_id` of an id above the counter removes nothing. -/
theorem filter_widgets_of_lt (p : Preferences) {n : Nat} (hn : p.lastWidgetId < n) :
    p.widgets.filter (fun e => decide (e.1 ≠ n)) = p.widgets :=
  List.filter_eq_self.2 fun e he => by simpa using Nat.ne_of_lt (Nat.lt_of_le_of_lt (p.ids_le e he) hn)

theorem filter_cons_of_ne {k n : Nat} {w : Widget} {l : List (Nat × Widget)} (h : k ≠ n) :
    ((k, w) :: l).filter (fun e => decide (e.1 ≠ n)) = (k, w) :: l.filter (fun e => decide (e.1 ≠ n)) := by
  simp [h]

theorem filter_cons_of_eq {k n : Nat} {w : Widget} {l : List (Nat × Widget)} (h : k = n) :
    ((k, w) :: l).filter (fun e => decide (e.1 ≠ n)) = l.filter (fun e => decide (e.1 ≠ n)) := by
  simp [h]

/-- One cycle takes away every widget the load added but the `allow-hyperlink` switch, and moves the
    counter past the seven ids the load gave out. -/
theorem cycle_preferences (st : Addin × Preferences) :
    (cycle st).2.widgets = st.2.widgets ++ [(st.2.lastWidgetId + 3, allowHyperlinkSwitch)] ∧
    (cycle st).2.lastWidgetId = st.2.lastWidgetId + 7 := by
  obtain ⟨self, p⟩ := st
  refine ⟨?_, rfl⟩
  simp (disch := omega) only [cycle, load, unload, Preferences.addFontButton, Preferences.addSwitch,
    Preferences.addSpinButton, Preferences.addWidget, Preferences.removeId, List.filter_append, List.append_assoc,
    List.singleton_append, filter_widgets_of_lt, filter_cons_of_ne, filter_cons_of_eq, List.filter_nil]
  rfl

/-- Unloading the addin takes away every widget loading it added but the `allow-hyperlink` switch:
    after `n` load-unload cycles on the same preferences, they hold what they held before and `n`
    "Show hyperlinks" switches, under the ids the `n` loads gave them. -/
theorem cycles_widgets (n : Nat) : ∀ st : Addin × Preferences,
    (cycles n st).2.widgets =
      st.2.widgets ++ (List.range n).map fun i => (st.2.lastWidgetId + 7 * i + 3, allowHyperlinkSwitch) := by
  induction n with
  | zero => simp [cycles]
  | succ n ih =>
    intro st
    obtain ⟨hw, hc⟩ := cycle_preferences st
    have hid : ∀ i, st.2.lastWidgetId + 7 + 7 * i + 3 = st.2.lastWidgetId + 7 * (i + 1) + 3 := fun i => by ring
    rw [cycles, ih, hw, hc, List.range_succ_eq_map]
    simp [Function.comp_def, hid]

end Libide.Terminal
