import Mathlib.Tactic.IntervalCases
import Mathlib.Data.List.Nodup

/-! # Cancel actions of the application

`ide_application_create_cancel_action` and `cancellable_weak_notify` (`ide-application-actions.c`).
Each call numbers a new action `cancel_N` from the `static guint cancel_count`, connects its
`activate` to `g_cancellable_cancel` on the cancellable, adds it to the application's action map,
which replaces an action of the same name, and puts a weak reference on the cancellable that removes
the action of that name from the map when the cancellable is finalized.

`cancel_count` wraps at `2 ^ 32`, and the count of an action comes round again after `2 ^ 32` calls.
While no cancellable outlives `2 ^ 32` calls after its own (`App.Timely`), the names of live
cancellables are distinct, each action cancels its own cancellable and a finalization removes only
its own actions. A cancellable that lives longer loses its action to the one that takes its name, and
its finalization removes that one. -/

namespace Libide.Gui

/-! ### Action names -/

/-- The value of the decimal digits `ds` read after `acc`. -/
def decimalValue (acc : Nat) (ds : List Char) : Nat := ds.foldl (fun a c => a * 10 + (c.toNat - 48)) acc

theorem digitChar_value {d : Nat} (h : d < 10) : (Nat.digitChar d).toNat - 48 = d := by
  interval_cases d <;> rfl

theorem decimalValue_toDigitsCore : ∀ (f n : Nat) (ds : List Char), n < f →
    decimalValue 0 (Nat.toDigitsCore 10 f n ds) = decimalValue n ds
  | 0, n, ds, h => absurd h (Nat.not_lt_zero _)
  | f + 1, n, ds, h => by
    have hstep : Nat.toDigitsCore 10 (f + 1) n ds = if n / 10 = 0 then Nat.digitChar (n % 10) :: ds
        else Nat.toDigitsCore 10 f (n / 10) (Nat.digitChar (n % 10) :: ds) := rfl
    rw [hstep]
    split
    next h0 =>
      have : n < 10 := by omega
      simp only [decimalValue, List.foldl_cons, Nat.zero_mul, Nat.zero_add, Nat.mod_eq_of_lt this,
        digitChar_value this]
    next h0 =>
      rw [decimalValue_toDigitsCore f (n / 10) _ (by omega)]
      simp only [decimalValue, List.foldl_cons, digitChar_value (Nat.mod_lt n (by decide : 10 > 0))]
      rw [Nat.div_add_mod']

/-- `%u` prints distinct numbers as distinct strings. -/
theorem toString_injective : Function.Injective (toString : Nat → String) := fun n m h => by
  have key : ∀ k : Nat, decimalValue 0 (toString k).data = k := fun k =>
    (decimalValue_toDigitsCore (k + 1) k [] (Nat.lt_succ_self k)).trans rfl
  rw [← key n, ← key m, h]

/-- The action name `cancel_%u` of a count. -/
def actionName (count : Nat) : String := "cancel_" ++ toString count

theorem actionName_injective : Function.Injective actionName := fun n m h => by
  have := congrArg String.data h
  simp only [actionName, String.data_append, List.append_cancel_left_eq] at this
  exact toString_injective (String.ext this)

/-! ### The application -/

/-- A call of `ide_application_create_cancel_action`: the action name it made, the cancellable, and
    the number of calls made so far, this one included. -/
structure Created where
  name : String
  cancellable : Nat
  call : Nat
  deriving DecidableEq, Repr

/-- The static `cancel_count`, the application's action map (each action cancels one cancellable),
    the weak references on the cancellables, the cancellables cancelled, the cancellables finalized
    with the number of calls made by then, and the calls made. -/
structure App where
  cancelCount : Nat
  actions : List (String × Nat)
  weakRefs : List (Nat × String)
  cancelled : List Nat
  finalized : List (Nat × Nat)
  created : List Created
  deriving DecidableEq, Repr

namespace App

def init : App := ⟨0, [], [], [], [], []⟩

/-- `g_action_map_add_action`: an action of the same name is replaced. -/
def addAction (actions : List (String × Nat)) (name : String) (c : Nat) : List (String × Nat) :=
  actions.filter (·.1 ≠ name) ++ [(name, c)]

/-- `g_action_map_remove_action`. -/
def removeAction (actions : List (String × Nat)) (name : String) : List (String × Nat) :=
  actions.filter (·.1 ≠ name)

/-- The cancellable `c` is not finalized. -/
def IsLive (s : App) (c : Nat) : Prop := c ∉ s.finalized.map Prod.fst

instance (s : App) (c : Nat) : Decidable (s.IsLive c) := inferInstanceAs (Decidable (_ ∉ _))

/-- `ide_application_create_cancel_action (self, cancellable)`: the state after, and the detailed
    action name it returns. -/
def createCancelAction (s : App) (c : Nat) : App × String :=
  let count := (s.cancelCount + 1) % 2 ^ 32
  let name := actionName count
  ({ s with
      cancelCount := count
      actions := addAction s.actions name c
      weakRefs := s.weakRefs ++ [(c, name)]
      created := s.created ++ [⟨name, c, s.created.length + 1⟩] },
    "app." ++ name)

/-- The cancellable `c` is finalized: `cancellable_weak_notify` runs for each of its weak references
    and removes the action that it names. -/
def finalize (s : App) (c : Nat) : App :=
  { s with
    actions := (s.weakRefs.filter (·.1 = c)).foldl (fun acts w => removeAction acts w.2) s.actions
    weakRefs := s.weakRefs.filter (·.1 ≠ c)
    finalized := s.finalized ++ [(c, s.created.length)] }

/-- `app.<name>` is activated: `g_cancellable_cancel` on the cancellable of the action of that name,
    unless that cancellable is finalized, which disconnects the handler
    (`g_signal_connect_object`). -/
def activate (s : App) (name : String) : App :=
  { s with
    cancelled := s.cancelled ++
      match s.actions.lookup name with
      | some c => if s.IsLive c then [c] else []
      | none => [] }

end App

/-- A call on a live cancellable, a finalization, or an activation. -/
inductive Action
  | create (c : Nat)
  | finalize (c : Nat)
  | activate (name : String)
  deriving DecidableEq, Repr

namespace App

def step (s : App) : Action → Option App
  | .create c => if s.IsLive c then some (s.createCancelAction c).1 else none
  | .finalize c => if s.IsLive c then some (s.finalize c) else none
  | .activate name => some (s.activate name)

def run (s : App) : List Action → Option App
  | [] => some s
  | a :: as => (s.step a).bind (run · as)

theorem run_cons {s t : App} {a : Action} {as : List Action} :
    s.run (a :: as) = some t ↔ ∃ s', s.step a = some s' ∧ s'.run as = some t := by
  simp [run, Option.bind_eq_some]

theorem run_append (s : App) (xs ys : List Action) : s.run (xs ++ ys) = (s.run xs).bind (·.run ys) := by
  induction xs generalizing s <;> simp [run, Option.bind_assoc, *]

/-! ### The action map -/

/-- An action map whose entries of name `m` all cancel `v` finds `v` under `m` if it has one. -/
theorem lookup_eq_of_mem {acts : List (String × Nat)} {m : String} {v : Nat} (hm : (m, v) ∈ acts)
    (h : ∀ x ∈ acts, x.1 = m → x.2 = v) : acts.lookup m = some v := by
  induction acts with
  | nil => cases hm
  | cons x acts ih =>
    obtain ⟨n, w⟩ := x
    by_cases hx : n = m
    · subst hx
      simpa using h _ (List.mem_cons_self _ acts) rfl
    · have hm : (m, v) ∈ acts :=
        (List.mem_cons.1 hm).resolve_left fun he => hx (congrArg Prod.fst he).symm
      simp [List.lookup_cons, beq_false_of_ne (Ne.symm hx),
        ih hm fun y hy => h y (List.mem_cons_of_mem _ hy)]

theorem lookup_addAction_self (acts : List (String × Nat)) (name : String) (c : Nat) :
    (addAction acts name c).lookup name = some c := by
  have : (acts.filter (·.1 ≠ name)).lookup name = none := List.lookup_eq_none_iff.2 fun x hx => by
    simpa using Ne.symm (of_decide_eq_true (List.mem_filter.1 hx).2)
  rw [addAction, List.lookup_append, this]
  simp

theorem foldl_removeAction (ws : List (Nat × String)) (acts : List (String × Nat)) :
    ws.foldl (fun acts w => removeAction acts w.2) acts = acts.filter (·.1 ∉ ws.map Prod.snd) := by
  induction ws generalizing acts with
  | nil => simp
  | cons w ws ih =>
    rw [List.foldl_cons, ih, removeAction, List.filter_filter]
    exact List.filter_congr fun x _ => by simp only [List.map_cons, List.mem_cons, not_or,
      decide_not, Bool.decide_and, Bool.and_comm, ne_eq]

/-! ### What one step does -/

variable {s s' t : App} {a : Action} {as : List Action} {c c' : Nat} {e e' : Created}

@[simp] theorem createCancelAction_created :
    (s.createCancelAction c).1.created =
      s.created ++ [⟨actionName ((s.cancelCount + 1) % 2 ^ 32), c, s.created.length + 1⟩] := rfl

@[simp] theorem createCancelAction_finalized : (s.createCancelAction c).1.finalized = s.finalized := rfl

@[simp] theorem isLive_createCancelAction : (s.createCancelAction c).1.IsLive c' ↔ s.IsLive c' := Iff.rfl

@[simp] theorem finalize_created : (s.finalize c).created = s.created := rfl

@[simp] theorem isLive_finalize : (s.finalize c).IsLive c' ↔ s.IsLive c' ∧ c' ≠ c := by
  simp [IsLive, finalize, and_comm]

theorem finalize_actions_eq :
    (s.finalize c).actions = s.actions.filter (·.1 ∉ (s.weakRefs.filter (·.1 = c)).map Prod.snd) :=
  foldl_removeAction _ _

/-- What a step can do: a creation or a finalization on a live cancellable, or an activation. -/
theorem step_eq_some : s.step a = some s' ↔
    (∃ c, a = .create c ∧ s.IsLive c ∧ (s.createCancelAction c).1 = s') ∨
    (∃ c, a = .finalize c ∧ s.IsLive c ∧ s.finalize c = s') ∨
    (∃ name, a = .activate name ∧ s.activate name = s') := by
  cases a <;> simp [step]

theorem created_step (h : s.step a = some s') : s.created <+: s'.created := by
  obtain ⟨c, rfl, -, rfl⟩ | ⟨c, rfl, -, rfl⟩ | ⟨n, rfl, rfl⟩ := step_eq_some.1 h
  · exact List.prefix_append _ _
  · exact List.prefix_refl _
  · exact List.prefix_refl _

/-! ### Lifetimes -/

/-- The number of calls made when `c` was finalized, or made so far if it is live. -/
def lifetime (s : App) (c : Nat) : Nat :=
  ((s.finalized.find? (·.1 = c)).map Prod.snd).getD s.created.length

/-- Every cancellable is finalized, or the run ends, before the count of each of its calls comes round
    again: within `2 ^ 32` calls of it. -/
def Timely (s : App) : Prop := ∀ e ∈ s.created, s.lifetime e.cancellable < e.call + 2 ^ 32

instance (s : App) : Decidable s.Timely := inferInstanceAs (Decidable (∀ e ∈ s.created, _))

theorem find?_finalized_of_isLive (h : s.IsLive c) : s.finalized.find? (·.1 = c) = none :=
  List.find?_eq_none.2 fun x hx hxc => h (List.mem_map.2 ⟨x, hx, of_decide_eq_true hxc⟩)

theorem lifetime_of_isLive (h : s.IsLive c) : s.lifetime c = s.created.length := by
  simp [lifetime, find?_finalized_of_isLive h]

theorem lifetime_le_step (h : s.step a = some s') : s.lifetime c' ≤ s'.lifetime c' := by
  obtain ⟨c, rfl, -, rfl⟩ | ⟨c, rfl, -, rfl⟩ | ⟨n, rfl, rfl⟩ := step_eq_some.1 h
  · simp only [lifetime, createCancelAction_finalized, createCancelAction_created, List.length_append]
    cases s.finalized.find? (·.1 = c') <;> simp
  · simp only [lifetime, finalize, List.find?_append]
    cases s.finalized.find? (·.1 = c') <;> simp [List.find?_cons]
    split <;> simp
  · exact le_rfl

theorem Timely.of_step (h : s.step a = some s') (ht : s'.Timely) : s.Timely := fun e he =>
  (lifetime_le_step h).trans_lt (ht e ((created_step h).subset he))

theorem Timely.of_run (h : s.run as = some t) (ht : t.Timely) : s.Timely := by
  induction as generalizing s with
  | nil => cases h; exact ht
  | cons a as ih =>
    obtain ⟨s', hs, hr⟩ := run_cons.1 h
    exact Timely.of_step hs (ih hr)

/-! ### The bookkeeping every run keeps -/

/-- What holds of every reachable state, however long the run: `cancel_count` counts the calls modulo
    `2 ^ 32`, the calls are numbered `1, 2, …`, each action is named after its call's count, each weak
    reference is on a live cancellable and names one of its actions, and each action in the map has
    its weak reference. -/
structure Books (s : App) : Prop where
  count : s.cancelCount = s.created.length % 2 ^ 32
  calls : s.created.map Created.call = List.range' 1 s.created.length
  names : ∀ e ∈ s.created, e.name = actionName (e.call % 2 ^ 32)
  refs : ∀ w ∈ s.weakRefs, s.IsLive w.1 ∧ ∃ e ∈ s.created, e.cancellable = w.1 ∧ e.name = w.2
  actions : ∀ x ∈ s.actions, (x.2, x.1) ∈ s.weakRefs

theorem books_init : init.Books := ⟨rfl, rfl, by simp [init], by simp [init], by simp [init]⟩

theorem Books.call_le (hb : s.Books) (he : e ∈ s.created) : 1 ≤ e.call ∧ e.call ≤ s.created.length := by
  have := hb.calls ▸ List.mem_map_of_mem Created.call he
  simp only [List.mem_range'_1] at this
  omega

theorem Books.eq_of_call_eq (hb : s.Books) (he : e ∈ s.created) (he' : e' ∈ s.created)
    (h : e.call = e'.call) : e = e' :=
  List.inj_on_of_nodup_map (hb.calls ▸ List.nodup_range' _ _) he he' h

/-- Two calls of one name lie `2 ^ 32` calls apart. -/
theorem Books.eq_of_name_eq (hb : s.Books) (he : e ∈ s.created) (he' : e' ∈ s.created)
    (h : s.created.length < e.call + 2 ^ 32) (h' : s.created.length < e'.call + 2 ^ 32)
    (hn : e.name = e'.name) : e = e' := by
  rw [hb.names e he, hb.names e' he'] at hn
  have := actionName_injective hn
  have := hb.call_le he
  have := hb.call_le he'
  exact hb.eq_of_call_eq he he' (by omega)

/-- In a timely state, no two calls on live cancellables made one name. -/
theorem Books.eq_of_isLive (hb : s.Books) (ht : s.Timely) (he : e ∈ s.created) (he' : e' ∈ s.created)
    (hl : s.IsLive e.cancellable) (hl' : s.IsLive e'.cancellable) (hn : e.name = e'.name) : e = e' :=
  hb.eq_of_name_eq he he' (lifetime_of_isLive hl ▸ ht e he) (lifetime_of_isLive hl' ▸ ht e' he') hn

theorem Books.step (hb : s.Books) (h : s.step a = some s') : s'.Books := by
  obtain ⟨c, rfl, hc, rfl⟩ | ⟨c, rfl, hc, rfl⟩ | ⟨n, rfl, rfl⟩ := step_eq_some.1 h
  · refine ⟨?_, ?_, ?_, ?_, ?_⟩
    · simp only [createCancelAction, hb.count, List.length_append, List.length_singleton]
      exact Nat.mod_add_mod _ _ _
    · simp [hb.calls, List.range'_concat, Nat.add_comm]
    · simp only [createCancelAction_created, List.mem_append, List.mem_singleton]
      rintro e (he | rfl)
      · exact hb.names e he
      · rw [hb.count, Nat.mod_add_mod]
    · simp only [createCancelAction, List.mem_append, List.mem_singleton]
      rintro w (hw | rfl)
      · obtain ⟨hl, e, he, h1, h2⟩ := hb.refs w hw
        exact ⟨hl, e, .inl he, h1, h2⟩
      · exact ⟨hc, _, .inr rfl, rfl, rfl⟩
    · simp only [createCancelAction, addAction, List.mem_append, List.mem_filter, List.mem_singleton]
      rintro x (⟨hx, -⟩ | rfl)
      · exact .inl (hb.actions x hx)
      · exact .inr rfl
  · refine ⟨hb.count, hb.calls, hb.names, ?_, ?_⟩
    · simp only [finalize, List.mem_filter, decide_eq_true_eq]
      rintro w ⟨hw, hwc⟩
      exact ⟨(isLive_finalize).2 ⟨(hb.refs w hw).1, hwc⟩, (hb.refs w hw).2⟩
    · rw [finalize_actions_eq]
      simp only [finalize, List.mem_filter, List.mem_map, decide_eq_true_eq, not_exists, not_and]
      rintro x ⟨hx, hn⟩
      refine ⟨hb.actions x hx, fun hxc => hn _ ⟨hb.actions x hx, hxc⟩ rfl⟩
  · exact ⟨hb.count, hb.calls, hb.names, hb.refs, hb.actions⟩

theorem Books.run (hb : s.Books) (h : s.run as = some t) : t.Books := by
  induction as generalizing s with
  | nil => cases h; exact hb
  | cons a as ih =>
    obtain ⟨s', hs, hr⟩ := run_cons.1 h
    exact ih (hb.step hs) hr

/-! ### Timely states -/

/-- In a timely state, an action names the cancellable of every live call of its name. -/
theorem Books.action_eq (hb : s.Books) (ht : s.Timely) {x : String × Nat} (hx : x ∈ s.actions)
    (he : e ∈ s.created) (hl : s.IsLive e.cancellable) (hn : x.1 = e.name) : x.2 = e.cancellable := by
  obtain ⟨hl', e', he', h1, h2⟩ := hb.refs _ (hb.actions x hx)
  dsimp only at hl' h1 h2
  rw [← h1, hb.eq_of_isLive ht he' he (h1 ▸ hl') hl (h2.trans hn)]

/-- In a timely state, finalizing a live cancellable removes exactly its actions. -/
theorem Books.finalize_actions (hb : s.Books) (ht : s.Timely) (hc : s.IsLive c) :
    (s.finalize c).actions = s.actions.filter (·.2 ≠ c) := by
  rw [finalize_actions_eq]
  refine List.filter_congr fun x hx => ?_
  simp only [List.mem_map, List.mem_filter, decide_eq_true_eq, decide_eq_decide, not_iff_not]
  constructor
  · rintro ⟨w, ⟨hw, rfl⟩, hwx⟩
    obtain ⟨-, e, he, h1, h2⟩ := hb.refs w hw
    exact (hb.action_eq ht hx he (h1 ▸ hc) (h2.trans hwx).symm).trans h1
  · exact fun hxc => ⟨(x.2, x.1), ⟨hb.actions x hx, hxc⟩, rfl⟩

/-- Every live call's action is in the map. -/
def Sound (s : App) : Prop := ∀ e ∈ s.created, s.IsLive e.cancellable → (e.name, e.cancellable) ∈ s.actions

theorem sound_init : init.Sound := by simp [Sound, init]

/-- A step keeps the actions of the live calls, if the state it reaches is timely. -/
theorem Sound.step (hb : s.Books) (hs : s.Sound) (h : s.step a = some s') (ht : s'.Timely) : s'.Sound := by
  obtain ⟨c, rfl, hc, rfl⟩ | ⟨c, rfl, hc, rfl⟩ | ⟨n, rfl, rfl⟩ := step_eq_some.1 h
  · simp only [Sound, createCancelAction_created, List.mem_append, List.mem_singleton,
      isLive_createCancelAction]
    rintro e (he | rfl) hl
    · -- the new call's name is not that of a live call, which would be `2 ^ 32` calls older
      have hne : e.name ≠ actionName ((s.cancelCount + 1) % 2 ^ 32) := fun hn => by
        have heq := (hb.step h).eq_of_isLive ht (List.mem_append_left _ he)
          (List.mem_append_right _ (List.mem_singleton_self _)) hl hc hn
        have hcall := (hb.call_le he).2
        rw [heq] at hcall
        exact Nat.not_succ_le_self _ hcall
      simp only [createCancelAction, addAction, List.mem_append, List.mem_filter, decide_eq_true_eq]
      exact .inl ⟨hs e he hl, hne⟩
    · simp [createCancelAction, addAction]
  · intro e he hl
    rw [isLive_finalize] at hl
    rw [hb.finalize_actions (ht.of_step h) hc]
    exact List.mem_filter.2 ⟨hs e he hl.1, decide_eq_true hl.2⟩
  · exact hs

theorem Sound.run (hb : s.Books) (hs : s.Sound) (h : s.run as = some t) (ht : t.Timely) : t.Sound := by
  induction as generalizing s with
  | nil => cases h; exact hs
  | cons a as ih =>
    obtain ⟨s', hs', hr⟩ := run_cons.1 h
    exact ih (hb.step hs') (hs.step hb hs' ((ht.of_run hr))) hr

/-! ### The guarantees of the cancel actions -/

/-- Distinct live cancellables have distinct action names, activating the action of a live call
    cancels that call's cancellable, and finalizing a live cancellable removes exactly its actions. -/
structure Guarantees (t : App) : Prop where
  names_ne : ∀ e ∈ t.created, ∀ e' ∈ t.created, t.IsLive e.cancellable → t.IsLive e'.cancellable →
    e.cancellable ≠ e'.cancellable → e.name ≠ e'.name
  activate_eq : ∀ e ∈ t.created, t.IsLive e.cancellable →
    t.activate e.name = { t with cancelled := t.cancelled ++ [e.cancellable] }
  finalize_actions : ∀ c, t.IsLive c → (t.finalize c).actions = t.actions.filter (·.2 ≠ c)

/-- The guarantees hold at the end of every timely run. -/
theorem run_actions_of_timely (h : init.run as = some t) (ht : t.Timely) : t.Guarantees := by
  have hb := books_init.run h
  have hs := sound_init.run books_init h ht
  refine ⟨fun e he e' he' hl hl' hne hn => hne (congrArg Created.cancellable
    (hb.eq_of_isLive ht he he' hl hl' hn)), fun e he hl => ?_, fun c => hb.finalize_actions ht⟩
  have : t.actions.lookup e.name = some e.cancellable :=
    lookup_eq_of_mem (hs e he hl) fun x hx hn => hb.action_eq ht hx he hl hn
  simp [activate, this, hl]

theorem run_actions_of_timely_twoCancellables :
    ∃ t, init.run [.create 5, .create 6, .finalize 5, .create 6] = some t ∧ t.Timely ∧ t.Guarantees := by
  have h : init.run [.create 5, .create 6, .finalize 5, .create 6] = some _ := rfl
  exact ⟨_, h, by decide, run_actions_of_timely h (by decide)⟩

/-! ### When `cancel_count` comes round -/

/-- `n` more calls on one live cancellable. -/
theorem run_replicate_create (hc : s.IsLive c) (n : Nat) :
    ∃ t, s.run (List.replicate n (.create c)) = some t ∧ t.finalized = s.finalized ∧
      s.created <+: t.created ∧ t.created.length = s.created.length + n := by
  induction n generalizing s with
  | zero => exact ⟨s, rfl, rfl, List.prefix_refl _, rfl⟩
  | succ n ih =>
    obtain ⟨t, ht, hf, hp, hl⟩ := ih (show (s.createCancelAction c).1.IsLive c from hc)
    refine ⟨t, ?_, hf, (List.prefix_append _ _).trans hp, ?_⟩
    · simp [List.replicate_succ, run, step, hc, ht]
    · simp only [hl, createCancelAction_created, List.length_append, List.length_singleton]
      omega

/-- The `2 ^ 32 + 1`-th call names its action `cancel_1` again while the cancellable of the first call
    is live: both cancellables have the name, and `app.cancel_1` cancels the new one. -/
theorem cancelName_wraps :
    ∃ t, init.run (.create 0 :: List.replicate (2 ^ 32 - 1) (.create 1) ++ [.create 2]) = some t ∧
      ⟨"cancel_1", 0, 1⟩ ∈ t.created ∧ ⟨"cancel_1", 2, 2 ^ 32 + 1⟩ ∈ t.created ∧
      t.IsLive 0 ∧ t.IsLive 2 ∧ t.activate "cancel_1" = { t with cancelled := t.cancelled ++ [2] } := by
  obtain ⟨s, hs, hf, hp, hl⟩ :=
    run_replicate_create (by decide : (init.createCancelAction 0).1.IsLive 1) (2 ^ 32 - 1)
  have hrun : init.run (.create 0 :: List.replicate (2 ^ 32 - 1) (.create 1)) = some s :=
    run_cons.2 ⟨_, rfl, hs⟩
  have hcount : s.cancelCount = 0 := by rw [(books_init.run hrun).count, hl]; rfl
  have hf : s.finalized = [] := hf
  have hname : actionName ((s.cancelCount + 1) % 2 ^ 32) = "cancel_1" := by rw [hcount]; rfl
  refine ⟨(s.createCancelAction 2).1, ?_, ?_, ?_, ?_, ?_, ?_⟩
  · rw [run_append, hrun]
    simp [run, step, IsLive, hf]
  · exact List.mem_append_left _ (hp.subset (by decide))
  · simp only [createCancelAction_created, hname, hl]
    exact List.mem_append_right _ (List.mem_singleton.2 rfl)
  · simp [IsLive, hf]
  · simp [IsLive, hf]
  · have : (s.createCancelAction 2).1.actions.lookup "cancel_1" = some 2 := by
      simp only [createCancelAction, hname, lookup_addAction_self]
    simp [activate, this, IsLive, hf]

end App

end Libide.Gui
