import Mathlib.Logic.Function.Basic
import Mathlib.Order.Basic

/-! # The tweaks objects' properties

`IdeTweaksDirectory` (`ide-tweaks-directory.c`) and `IdeTweaksWindow` (`ide-tweaks-window.c`) declare
their properties `G_PARAM_EXPLICIT_NOTIFY`: GObject sends no `notify` on a set, and each setter notifies
itself, only when the value changes. The string setters compare with `ide_set_string`, which answers
`FALSE` for an equal string (`g_strcmp0`, so also for two `NULL`s); the object setters with
`g_set_object`, which answers `FALSE` for the object already held. `set_is_directory` first makes its
`gboolean` `0` or `1` with `!!`, then compares with the one-bit field and stores it there.

So a listener that rereads a property on each of its `notify` signals always holds the object's values,
and a signal comes only with a change. Objects are held by reference: `g_set_object` takes a reference
to the new object and drops one on the old, and `g_clear_object` drops the one held, so each object
holds exactly one reference to the object in its property. `ide_set_string` is libide's, and the
references are GLib's; neither is among the sources.

The window also keeps its panel list stack in step with its tweaks: setting other tweaks clears both
stacks and adds one panel list, named by the tweaks' id. -/

namespace Libide.Tweaks

/-! ### References -/

/-- `g_object_ref`, on the reference counts of the objects by address. -/
def ref (refs : Nat → Nat) (o : Nat) : Nat → Nat := Function.update refs o (refs o + 1)

/-- `g_object_unref`. -/
def unref (refs : Nat → Nat) (o : Nat) : Nat → Nat := Function.update refs o (refs o - 1)

/-- `g_set_object (&held, new)`: whether it changed, what is held after, and the reference counts. -/
def gSetObject (refs : Nat → Nat) (held new : Option Nat) : Bool × Option Nat × (Nat → Nat) :=
  if held = new then (false, held, refs)
  else
    let refs := match new with
      | some o => ref refs o
      | none => refs
    (true, new, match held with
      | some o => unref refs o
      | none => refs)

/-- `g_clear_object (&held)`. -/
def gClearObject (refs : Nat → Nat) (held : Option Nat) : Option Nat × (Nat → Nat) :=
  (none, match held with
    | some o => unref refs o
    | none => refs)

/-- The reference counts are those the rest of the program holds, `others`, and one for the object
    `held`. -/
def Holds (others refs : Nat → Nat) (held : Option Nat) : Prop :=
  ∀ o, refs o = others o + if held = some o then 1 else 0

theorem holds_ref {others refs : Nat → Nat} (h : Holds others refs none) (o : Nat) :
    Holds others (ref refs o) (some o) := by
  intro x
  by_cases hx : x = o
  · subst hx
    simp [ref, h x]
  · simp [ref, Function.update_noteq hx, h x, Ne.symm hx]

theorem holds_unref {others refs : Nat → Nat} {o : Nat} (h : Holds others refs (some o)) :
    Holds others (unref refs o) none := by
  intro x
  by_cases hx : x = o
  · subst hx
    simp [unref, h x]
  · simp [unref, Function.update_noteq hx, h x, Ne.symm hx]

theorem gClearObject_holds {others refs : Nat → Nat} {held : Option Nat} (h : Holds others refs held) :
    Holds others (gClearObject refs held).2 none := by
  cases held with
  | none => exact h
  | some o => exact holds_unref h

/-- `g_set_object` keeps one reference for what is held: the new object's is taken before the old
    object's is dropped. -/
theorem gSetObject_holds {others refs : Nat → Nat} {held : Option Nat} (h : Holds others refs held)
    (new : Option Nat) : Holds others (gSetObject refs held new).2.2 (gSetObject refs held new).2.1 := by
  unfold gSetObject
  split
  · exact h
  next hne =>
    cases held with
    | none =>
      cases new with
      | none => exact absurd rfl hne
      | some n => exact holds_ref h n
    | some o =>
      cases new with
      | none => exact holds_unref h
      | some n =>
        intro x
        have hon : o ≠ n := fun e => hne (congrArg some e)
        simp only [unref, ref]
        by_cases hxo : x = o
        · subst hxo
          simp [Function.update_noteq hon, h x, Ne.symm hon]
        · by_cases hxn : x = n
          · subst hxn
            simp [Function.update_noteq hxo, h x, hon]
          · simp [Function.update_noteq hxo, Function.update_noteq hxn, h x, Ne.symm hxo, Ne.symm hxn]

/-! ### `IdeTweaksDirectory` -/

/-- The properties of `IdeTweaksDirectory`. -/
inductive Property
  | title
  | subtitle
  | key
  | settings
  | isDirectory
  deriving DecidableEq, Repr

/-- An `IdeTweaksDirectory`: its properties, `is_directory` in its one-bit field, the reference counts
    of the objects, and the `notify` signals it has sent. -/
structure Directory where
  title : Option String
  subtitle : Option String
  key : Option String
  settings : Option Nat
  isDirectory : Bool
  refs : Nat → Nat
  notified : List Property

/-- `ide_set_string`: `FALSE` for an equal string, else the field takes a copy. -/
def ideSetString (field value : Option String) : Bool × Option String :=
  if field = value then (false, field) else (true, value)

/-- What a one-bit unsigned field stores of an `int`: the value modulo 2. -/
def bit (x : Int) : Bool := x % 2 = 1

/-- The values `ide_tweaks_directory_get_property` reads. -/
structure Snapshot where
  title : Option String
  subtitle : Option String
  key : Option String
  settings : Option Nat
  isDirectory : Bool
  deriving DecidableEq, Repr

/-- A setter call of `IdeTweaksDirectory`, as `ide_tweaks_directory_set_property` makes them. -/
inductive Assignment
  | title (value : Option String)
  | subtitle (value : Option String)
  | key (value : Option String)
  | settings (value : Option Nat)
  | isDirectory (value : Int)

/-- The property a setter sets. -/
def Assignment.property : Assignment → Property
  | .title _ => .title
  | .subtitle _ => .subtitle
  | .key _ => .key
  | .settings _ => .settings
  | .isDirectory _ => .isDirectory

namespace Directory

/-- `ide_tweaks_directory_init`: `is_directory` is `TRUE`, the rest `NULL`. -/
def init (refs : Nat → Nat) : Directory := ⟨none, none, none, none, true, refs, []⟩

/-- The string setters: `ide_set_string`, then `notify` when it answers `TRUE`. -/
def setString (get : Directory → Option String) (put : Directory → Option String → Directory)
    (prop : Property) (self : Directory) (value : Option String) : Directory :=
  match ideSetString (get self) value with
  | (true, v) => { put self v with notified := self.notified ++ [prop] }
  | (false, _) => self

/-- `ide_tweaks_directory_set_title`. -/
def setTitle (self : Directory) (title : Option String) : Directory :=
  setString Directory.title (fun d v => { d with title := v }) .title self title

/-- `ide_tweaks_directory_set_subtitle`. -/
def setSubtitle (self : Directory) (subtitle : Option String) : Directory :=
  setString Directory.subtitle (fun d v => { d with subtitle := v }) .subtitle self subtitle

/-- `ide_tweaks_directory_set_key`. -/
def setKey (self : Directory) (key : Option String) : Directory :=
  setString Directory.key (fun d v => { d with key := v }) .key self key

/-- `ide_tweaks_directory_set_settings`: `g_set_object`, then `notify` when it answers `TRUE`. -/
def setSettings (self : Directory) (settings : Option Nat) : Directory :=
  match gSetObject self.refs self.settings settings with
  | (true, held, refs) => { self with settings := held, refs, notified := self.notified ++ [.settings] }
  | (false, _, _) => self

/-- `ide_tweaks_directory_set_is_directory`: `!!`, then the comparison with the field, widened to `int`. -/
def setIsDirectory (self : Directory) (isDirectory : Int) : Directory :=
  let isDirectory : Int := if isDirectory ≠ 0 then 1 else 0
  if isDirectory ≠ (if self.isDirectory then 1 else 0) then
    { self with isDirectory := bit isDirectory, notified := self.notified ++ [.isDirectory] }
  else self

/-- `ide_tweaks_directory_set_property`. -/
def setProperty (self : Directory) : Assignment → Directory
  | .title v => self.setTitle v
  | .subtitle v => self.setSubtitle v
  | .key v => self.setKey v
  | .settings v => self.setSettings v
  | .isDirectory v => self.setIsDirectory v

/-- `ide_tweaks_directory_dispose`. -/
def dispose (self : Directory) : Directory :=
  let (settings, refs) := gClearObject self.refs self.settings
  { self with title := none, subtitle := none, key := none, settings, refs }

/-- What the getters read. -/
def snapshot (self : Directory) : Snapshot := ⟨self.title, self.subtitle, self.key, self.settings, self.isDirectory⟩

/-- Setter calls, one after another. -/
def run (self : Directory) (calls : List Assignment) : Directory := calls.foldl setProperty self

end Directory

/-- A listener's copy after a `notify`: the property notified reread from the object. -/
def Snapshot.reread (copy : Snapshot) (self : Directory) : Property → Snapshot
  | .title => { copy with title := self.title }
  | .subtitle => { copy with subtitle := self.subtitle }
  | .key => { copy with key := self.key }
  | .settings => { copy with settings := self.settings }
  | .isDirectory => { copy with isDirectory := self.isDirectory }

/-- A listener's copy after the signals `ps`. -/
def Snapshot.listen (copy : Snapshot) (self : Directory) (ps : List Property) : Snapshot :=
  ps.foldl (fun c p => c.reread self p) copy

namespace Directory
variable (self : Directory)

/-- `set_is_directory` stores whether its `gboolean` was nonzero; without the `!!`, the one-bit field
    would keep only the lowest bit. -/
theorem setIsDirectory_isDirectory (x : Int) : (self.setIsDirectory x).isDirectory = decide (x ≠ 0) := by
  by_cases hx : x = 0 <;> cases h : self.isDirectory <;> simp [setIsDirectory, hx, h, bit]

/-- One setter call: when it changes the value it sets, only that property changes and it is notified
    once; otherwise nothing changes and nothing is notified. -/
theorem setProperty_step (a : Assignment) :
    ((self.setProperty a).snapshot = self.snapshot ∧ (self.setProperty a).notified = self.notified) ∨
    ((self.setProperty a).snapshot ≠ self.snapshot ∧
      (self.setProperty a).notified = self.notified ++ [a.property] ∧
      (self.setProperty a).snapshot = self.snapshot.reread (self.setProperty a) a.property) := by
  cases a with
  | title v =>
    by_cases h : self.title = v
    · simp [setProperty, setTitle, setString, ideSetString, h]
    · simp [setProperty, setTitle, setString, ideSetString, h, snapshot, Snapshot.reread, Assignment.property, Ne.symm h]
  | subtitle v =>
    by_cases h : self.subtitle = v
    · simp [setProperty, setSubtitle, setString, ideSetString, h]
    · simp [setProperty, setSubtitle, setString, ideSetString, h, snapshot, Snapshot.reread, Assignment.property, Ne.symm h]
  | key v =>
    by_cases h : self.key = v
    · simp [setProperty, setKey, setString, ideSetString, h]
    · simp [setProperty, setKey, setString, ideSetString, h, snapshot, Snapshot.reread, Assignment.property, Ne.symm h]
  | settings v =>
    by_cases h : self.settings = v
    · simp [setProperty, setSettings, gSetObject, h]
    · simp [setProperty, setSettings, gSetObject, h, snapshot, Snapshot.reread, Assignment.property, Ne.symm h]
  | isDirectory x =>
    by_cases hx : x = 0 <;> cases hd : self.isDirectory <;>
      simp [setProperty, setIsDirectory, hx, hd, bit, snapshot, Snapshot.reread, Assignment.property]

end Directory

/-- The directory after a setter call, and a listener's copy that rereads, from the directory as the
    call left it, each property the call notified. -/
def follow (st : Directory × Snapshot) (a : Assignment) : Directory × Snapshot :=
  (st.1.setProperty a, st.2.listen (st.1.setProperty a) ((st.1.setProperty a).notified.drop st.1.notified.length))

/-- How many calls of a run change a value. -/
def Directory.changes (self : Directory) : List Assignment → Nat
  | [] => 0
  | a :: as => (if (self.setProperty a).snapshot = self.snapshot then 0 else 1) + (self.setProperty a).changes as

/-- Over any run of setter calls, a listener that starts with the directory's values and rereads a
    property on each of its `notify` signals holds the directory's values after every call, and the
    directory sends one `notify` for each call that changes a value and none for the others. -/
theorem run_follow (calls : List Assignment) : ∀ self : Directory,
    (calls.foldl follow (self, self.snapshot)).1 = self.run calls ∧
    (calls.foldl follow (self, self.snapshot)).2 = (self.run calls).snapshot ∧
    (self.run calls).notified.length = self.notified.length + self.changes calls := by
  induction calls with
  | nil => simp [Directory.run, Directory.changes]
  | cons a calls ih =>
    intro self
    have hstep : follow (self, self.snapshot) a = (self.setProperty a, (self.setProperty a).snapshot) := by
      rcases self.setProperty_step a with ⟨hs, hn⟩ | ⟨-, hn, hs⟩
      · simp [follow, hn, hs, Snapshot.listen]
      · simp [follow, hn, ← hs, Snapshot.listen]
    obtain ⟨h₁, h₂, h₃⟩ := ih (self.setProperty a)
    refine ⟨by rw [List.foldl_cons, hstep, h₁]; rfl, by rw [List.foldl_cons, hstep, h₂]; rfl, ?_⟩
    show ((self.setProperty a).run calls).notified.length = _
    rw [h₃, Directory.changes]
    rcases self.setProperty_step a with ⟨hs, hn⟩ | ⟨hs, hn, -⟩
    · simp [hn, hs]
    · simp [hn, hs]
      omega

/-- A setter call keeps one reference for the settings object the directory holds. -/
theorem Directory.setProperty_holds {others : Nat → Nat} {self : Directory} (h : Holds others self.refs self.settings)
    (a : Assignment) : Holds others (self.setProperty a).refs (self.setProperty a).settings := by
  cases a with
  | settings v =>
    have hs := gSetObject_holds h v
    simp only [setProperty, setSettings]
    split
    next held refs he => simpa [he] using hs
    · exact h
  | title v => simp only [setProperty, setTitle, setString]; split <;> exact h
  | subtitle v => simp only [setProperty, setSubtitle, setString]; split <;> exact h
  | key v => simp only [setProperty, setKey, setString]; split <;> exact h
  | isDirectory x => simp only [setProperty, setIsDirectory]; split_ifs <;> exact h

theorem Directory.run_holds {others : Nat → Nat} (calls : List Assignment) :
    ∀ {self : Directory}, Holds others self.refs self.settings →
      Holds others (self.run calls).refs (self.run calls).settings := by
  induction calls with
  | nil => exact id
  | cons a calls ih => exact fun h => ih (Directory.setProperty_holds h a)

theorem Directory.dispose_refs {others : Nat → Nat} {self : Directory} (h : Holds others self.refs self.settings) :
    self.dispose.refs = others :=
  funext fun o => by simpa using gClearObject_holds h o

/-- Over any run of setter calls on a new directory, the directory holds exactly one reference, on the
    settings object it holds, and none on any other object; disposing of it then leaves every object
    with the references the rest of the program holds, so nothing leaks and nothing is released twice. -/
theorem run_dispose_refs (refs : Nat → Nat) (calls : List Assignment) :
    Holds refs ((Directory.init refs).run calls).refs ((Directory.init refs).run calls).settings ∧
      ((Directory.init refs).run calls).dispose.refs = refs := by
  have h : Holds refs ((Directory.init refs).run calls).refs ((Directory.init refs).run calls).settings :=
    Directory.run_holds calls fun o => by simp [Directory.init]
  exact ⟨h, Directory.dispose_refs h⟩

/-! ### `IdeTweaksWindow` -/

/-- An `IdeTweaksWindow`: its tweaks, the pages of its panel list stack (name, and the tweaks the panel
    list shows) and of its panel stack, the reference counts, and how many `notify::tweaks` it sent. -/
structure Window where
  tweaks : Option Nat
  panelListStack : List (String × Nat)
  panelStack : List String
  refs : Nat → Nat
  notified : Nat

namespace Window
variable (itemId : Nat → String)

/-- `ide_tweaks_window_clear`: both stacks emptied. -/
def clear (self : Window) : Window := { self with panelListStack := [], panelStack := [] }

/-- `ide_tweaks_window_rebuild`: a panel list for the tweaks, named by `ide_tweaks_item_get_id`. -/
def rebuild (self : Window) : Window :=
  match self.tweaks with
  | some t => { self with panelListStack := self.panelListStack ++ [(itemId t, t)] }
  | none => self

/-- `ide_tweaks_window_set_tweaks`. -/
def setTweaks (self : Window) (tweaks : Option Nat) : Window :=
  if self.tweaks = tweaks then self
  else
    let self := match self.tweaks with
      | some _ =>
        let (held, refs) := gClearObject self.refs self.tweaks
        { self.clear with tweaks := held, refs }
      | none => self
    let self := match tweaks with
      | some _ =>
        let (_, held, refs) := gSetObject self.refs self.tweaks tweaks
        rebuild itemId { self with tweaks := held, refs }
      | none => self
    { self with notified := self.notified + 1 }

/-- `ide_tweaks_window_dispose`. -/
def dispose (self : Window) : Window :=
  match self.tweaks with
  | some _ =>
    let (held, refs) := gClearObject self.refs self.tweaks
    { self.clear with tweaks := held, refs }
  | none => self

/-- The window shows its tweaks: one panel list, named by the tweaks' id, when it has tweaks and none
    otherwise; and it holds one reference to them. -/
structure Shows (others : Nat → Nat) (w : Window) : Prop where
  panels : w.panelListStack = w.tweaks.toList.map fun t => (itemId t, t)
  holds : Holds others w.refs w.tweaks

/-- Calls of `set_tweaks`, one after another. -/
def run (w : Window) (calls : List (Option Nat)) : Window := calls.foldl (setTweaks itemId) w

/-- How many calls of a run change the tweaks. -/
def changes (w : Window) : List (Option Nat) → Nat
  | [] => 0
  | t :: ts => (if w.tweaks = t then 0 else 1) + (w.setTweaks itemId t).changes ts

variable {itemId} {others : Nat → Nat}

theorem setTweaks_shows {w : Window} (h : Shows itemId others w) (tweaks : Option Nat) :
    Shows itemId others (w.setTweaks itemId tweaks) ∧ (w.setTweaks itemId tweaks).tweaks = tweaks ∧
    (w.setTweaks itemId tweaks).notified = w.notified + if w.tweaks = tweaks then 0 else 1 := by
  obtain ⟨hp, hh⟩ := h
  by_cases he : w.tweaks = tweaks
  · rw [setTweaks, if_pos he]
    exact ⟨⟨hp, hh⟩, he, by simp [he]⟩
  -- the old tweaks are cleared and released, then the new ones held and shown
  cases ht : w.tweaks with
  | none =>
    cases tweaks with
    | none => exact absurd ht he
    | some t =>
      refine ⟨⟨?_, ?_⟩, ?_, ?_⟩ <;> simp [setTweaks, ht, rebuild, gSetObject, hp]
      exact holds_ref (ht ▸ hh) t
  | some o =>
    have hcl := holds_unref (ht ▸ hh)
    cases tweaks with
    | none => refine ⟨⟨?_, ?_⟩, ?_, ?_⟩ <;> simp [setTweaks, ht, clear, gClearObject, hcl]
    | some t =>
      have hot : o ≠ t := fun e => he (ht.trans (congrArg some e))
      refine ⟨⟨?_, ?_⟩, ?_, ?_⟩ <;> simp [setTweaks, ht, clear, gClearObject, gSetObject, rebuild, hot]
      exact holds_ref hcl t

/-- Over any run of `set_tweaks` calls, the window shows its tweaks, holds one reference to them, and
    sends one `notify::tweaks` for each call that changes them and none for the others; disposing of it
    then empties both stacks and drops the reference. -/
theorem run_shows (calls : List (Option Nat)) : ∀ w : Window, Shows itemId others w →
    Shows itemId others (w.run itemId calls) ∧
    (w.run itemId calls).notified = w.notified + w.changes itemId calls ∧
    ((w.run itemId calls).dispose.panelListStack = [] ∧ Holds others (w.run itemId calls).dispose.refs none) := by
  induction calls with
  | nil =>
    intro w h
    refine ⟨h, rfl, ?_⟩
    cases ht : w.tweaks with
    | none => exact ⟨by simp [run, dispose, ht, h.panels], by simpa [run, dispose, ht] using h.holds⟩
    | some t => exact ⟨by simp [run, dispose, ht, clear], by simpa [run, dispose, ht] using gClearObject_holds (ht ▸ h.holds)⟩
  | cons t calls ih =>
    intro w h
    obtain ⟨h₁, -, hn⟩ := setTweaks_shows h t
    obtain ⟨h₂, hn₂, hd⟩ := ih _ h₁
    refine ⟨h₂, ?_, hd⟩
    simp only [run, List.foldl_cons] at hn₂ ⊢
    rw [hn₂, hn, changes]
    omega

theorem run_shows_three :
    Shows (fun _ => "tweaks") (fun _ => 0) ((⟨none, [], [], fun _ => 0, 0⟩ : Window).run (fun _ => "tweaks") [some 1, some 2, none]) ∧
    ((⟨none, [], [], fun _ => 0, 0⟩ : Window).run (fun _ => "tweaks") [some 1, some 2, none]).notified =
      (⟨none, [], [], fun _ => 0, 0⟩ : Window).notified +
        (⟨none, [], [], fun _ => 0, 0⟩ : Window).changes (fun _ => "tweaks") [some 1, some 2, none] ∧
    (((⟨none, [], [], fun _ => 0, 0⟩ : Window).run (fun _ => "tweaks") [some 1, some 2, none]).dispose.panelListStack = [] ∧
      Holds (fun _ => 0) ((⟨none, [], [], fun _ => 0, 0⟩ : Window).run (fun _ => "tweaks") [some 1, some 2, none]).dispose.refs
        none) :=
  run_shows [some 1, some 2, none] _ ⟨rfl, fun _ => rfl⟩

end Window

end Libide.Tweaks
