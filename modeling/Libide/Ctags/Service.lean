import Libide.Ctags.Walk

/-! # The ctags service

`IdeCtagsService` (`ide-ctags-service.c`) as a state machine. Its callers call
`ide_ctags_service_get_provider` and `ide_ctags_service_stop`; the miner thread calls
`ide_ctags_service_load_tags`, which queues `do_load` on the main loop (`g_timeout_add (0, ...)`); the
main loop dispatches the queued sources in any order; the cache finishes its builds.

The `GCancellable`s are numbered in the order `g_cancellable_new` makes them. `do_load` reads
`self->cancellable` when it runs, not when it was queued: a `do_load` queued before `stop ()` and
dispatched after it asks the cache for an index with no cancellable at all, so the `stop ()` that ran
before it does not reach that build. -/

namespace Libide.Ctags

/-- The service with the objects it drives: the cancellables, the miner threads, the main loop's
    queued sources, the `EggTaskCache` `indexes` and the completion provider's `add_index` calls. -/
structure Service where
  minerRan : Bool
  cancellable : Option Nat
  created : Nat
  cancelled : List Nat
  miners : List Nat
  sources : List Path
  requests : List (Path × Option Nat)
  building : List (Path × List (Option Nat))
  ready : List Path
  builds : List Path
  added : List Path
  deriving DecidableEq, Repr

namespace Service

/-- `ide_ctags_service_init`: an empty cache and provider, no cancellable, `miner_ran` unset. -/
def init : Service := ⟨false, none, 0, [], [], [], [], [], [], [], []⟩

/-- `g_cancellable_is_cancelled`; `NULL` is never cancelled. -/
def isCancelled (s : Service) : Option Nat → Bool
  | some c => decide (c ∈ s.cancelled)
  | none => false

/-- `ide_ctags_service_mine`: a new cancellable, and the miner thread run in a task that holds it. -/
def mine (s : Service) : Service :=
  { s with cancellable := some s.created, created := s.created + 1, miners := s.miners ++ [s.created] }

/-- `ide_ctags_service_get_provider`: the first call starts the miner. -/
def getProvider (s : Service) : Service :=
  if !s.minerRan then { s with minerRan := true }.mine else s

/-- `ide_ctags_service_stop`: cancel the cancellable if it is not already, then clear it. -/
def stop (s : Service) : Service :=
  match s.cancellable with
  | some c =>
    if s.isCancelled (some c) then { s with cancellable := none }
    else { s with cancelled := s.cancelled ++ [c], cancellable := none }
  | none => { s with cancellable := none }

/-- `ide_ctags_service_load_tags`: queue `do_load` for `file` on the main loop. -/
def loadTags (s : Service) (file : Path) : Service := { s with sources := s.sources ++ [file] }

/-- `ide_ctags_service_tags_loaded_cb`: an index that came back goes to the provider
    (`ide_ctags_completion_provider_add_index`). -/
def tagsLoadedCb (added : List Path) (key : Path) (index : Bool) : List Path :=
  if index then added ++ [key] else added

/-- Modelled from the spec: `egg_task_cache_get_async`, whose source (egg-task-cache.c) is not among
    the sources, as §4.3 describes `get_or_build`: a ready key answers at once, a caller for a key being
    built waits for that build, and any other key starts one build, `ide_ctags_service_build_index_cb`,
    which parses the tags file. Its third argument, `force_update`, which the spec does not name, skips
    the ready answer (`if (!force_update && (ret = egg_task_cache_peek (self, key))) ...`), so a
    forced request for a ready key starts a new build unless one is in flight. -/
def getAsync (s : Service) (key : Path) (forceUpdate : Bool) (cancellable : Option Nat) : Service :=
  let isReady := !forceUpdate && decide (key ∈ s.ready)
  let inFlight := decide (key ∈ s.building.map Prod.fst)
  { s with
    requests := s.requests ++ [(key, cancellable)]
    added := if isReady then tagsLoadedCb s.added key !(s.isCancelled cancellable) else s.added
    building :=
      if isReady then s.building
      else if inFlight then s.building.map fun w => if w.1 = key then (w.1, w.2 ++ [cancellable]) else w
      else s.building ++ [(key, [cancellable])]
    builds := if isReady || inFlight then s.builds else s.builds ++ [key] }

/-- Modelled from the spec: the end of the build of `key` in the cache. Every caller waiting on it gets
    the index, unless its cancellable was cancelled or the build failed; a failed key is dropped, so
    that a later request builds it again (§4.3, §7). -/
def built (s : Service) (key : Path) (ok : Bool) : Service :=
  let waiters := ((s.building.find? (·.1 = key)).map (·.2)).getD []
  { s with
    building := s.building.filter (·.1 ≠ key)
    ready := if ok then s.ready ++ [key] else s.ready
    added := waiters.foldl (fun added c => tagsLoadedCb added key (ok && !s.isCancelled c)) s.added }

/-- `do_load`: the `i`-th queued source runs and asks the cache for its file, forcing an update
    (`TRUE`), with the cancellable the service holds when it runs. -/
def doLoad (s : Service) (i : Nat) : Option Service :=
  s.sources[i]?.map fun file => { s with sources := s.sources.eraseIdx i }.getAsync file true s.cancellable

end Service

/-- What happens next to the service: a call from its callers, from the miner thread, a dispatch of
    the main loop, or the end of a build in the cache. -/
inductive Action
  | getProvider
  | stop
  | loadTags (file : Path)
  | dispatch (i : Nat)
  | built (key : Path) (ok : Bool)
  deriving DecidableEq, Repr

namespace Service

/-- One step; `none` where the action cannot happen: the miner thread loads only once it runs, the
    main loop dispatches a queued source, the cache finishes a build it started. -/
def step (s : Service) : Action → Option Service
  | .getProvider => some s.getProvider
  | .stop => some s.stop
  | .loadTags file => if s.miners = [] then none else some (s.loadTags file)
  | .dispatch i => s.doLoad i
  | .built key ok => if key ∈ s.building.map Prod.fst then some (s.built key ok) else none

def run (s : Service) : List Action → Option Service
  | [] => some s
  | a :: as => (s.step a).bind (run · as)

@[simp] theorem run_nil (s : Service) : s.run [] = some s := rfl

theorem run_cons {s t : Service} {a : Action} {as : List Action} :
    s.run (a :: as) = some t ↔ ∃ s', s.step a = some s' ∧ s'.run as = some t := by
  simp [run, Option.bind_eq_some]

theorem run_append {s t : Service} {as bs : List Action} :
    s.run (as ++ bs) = some t ↔ ∃ u, s.run as = some u ∧ u.run bs = some t := by
  induction as generalizing s with
  | nil => simp
  | cons a as ih =>
    simp only [List.cons_append, run_cons, ih]
    constructor
    · rintro ⟨s', hs, u, hu, ht⟩
      exact ⟨u, ⟨s', hs, hu⟩, ht⟩
    · rintro ⟨u, ⟨s', hs, hu⟩, ht⟩
      exact ⟨s', hs, u, hu, ht⟩

theorem stop_fields (s : Service) : s.stop.minerRan = s.minerRan ∧ s.stop.created = s.created ∧
    s.stop.miners = s.miners ∧ s.stop.sources = s.sources ∧ s.stop.requests = s.requests ∧
    s.stop.cancellable = none := by
  unfold stop
  split <;> (try split) <;> simp

/-- What a step can do, with the guard of each action. -/
theorem step_eq_some {s t : Service} {a : Action} : s.step a = some t ↔
    (a = .getProvider ∧ s.getProvider = t) ∨ (a = .stop ∧ s.stop = t) ∨
    (∃ file, a = .loadTags file ∧ s.miners ≠ [] ∧ s.loadTags file = t) ∨
    (∃ i f, a = .dispatch i ∧ s.sources[i]? = some f ∧
      { s with sources := s.sources.eraseIdx i }.getAsync f true s.cancellable = t) ∨
    (∃ key ok, a = .built key ok ∧ key ∈ s.building.map Prod.fst ∧ s.built key ok = t) := by
  cases a <;> simp [step, doLoad, -Bool.exists_bool, and_assoc]

/-! ### The miner starts once -/

theorem step_lifecycle {s t : Service} {a : Action} (h : s.step a = some t) :
    t.minerRan = (s.minerRan || decide (a = .getProvider)) ∧
      (a = .getProvider ∧ s.minerRan = false → t.miners = s.miners ++ [s.created]) ∧
      (¬(a = .getProvider ∧ s.minerRan = false) → t.miners = s.miners ∧ t.created = s.created) := by
  obtain ⟨rfl, rfl⟩ | ⟨rfl, rfl⟩ | ⟨file, rfl, -, rfl⟩ | ⟨i, f, rfl, -, rfl⟩ | ⟨key, ok, rfl, -, rfl⟩ :=
    step_eq_some.1 h
  · cases hr : s.minerRan <;> simp [getProvider, mine, hr]
  · simp [stop_fields]
  · simp [loadTags]
  · simp [getAsync]
  · simp [built]

/-- `miner_ran` is set by the first `get_provider`, which alone starts a miner, with the next
    cancellable; `stop` has no part in it. -/
theorem run_lifecycle {s t : Service} {as : List Action} (h : s.run as = some t) :
    t.minerRan = (s.minerRan || decide (.getProvider ∈ as)) ∧
      t.miners = if s.minerRan = false ∧ .getProvider ∈ as then s.miners ++ [s.created] else s.miners := by
  induction as generalizing s with
  | nil => cases h; simp
  | cons a as ih =>
    obtain ⟨s', hs, ht⟩ := run_cons.mp h
    obtain ⟨hr, hfirst, hother⟩ := step_lifecycle hs
    obtain ⟨ih₁, ih₂⟩ := ih ht
    by_cases hg : a = .getProvider ∧ s.minerRan = false
    · obtain ⟨rfl, hs₀⟩ := hg
      simp_all
    · obtain ⟨hm, hc⟩ := hother hg
      by_cases ha : a = .getProvider
      · subst ha
        simp_all
      · simp_all [Ne.symm ha]

/-- Over every run of the service, one miner has run, with the first cancellable, exactly when
    `get_provider` has been called, whether `stop` ran before it or not. -/
theorem run_init_miners {as : List Action} {t : Service} (h : init.run as = some t) :
    t.miners = if .getProvider ∈ as then [0] else [] := by
  simp [(run_lifecycle h).2, init]

theorem run_init_miners_stopFirst :
    ∃ t, init.run [.stop, .getProvider, .getProvider] = some t ∧ t.miners = [0] := by
  have h : init.run [.stop, .getProvider, .getProvider] = some _ := rfl
  exact ⟨_, h, (run_init_miners h).trans (by decide)⟩

theorem getProvider_after_stop_mines :
    (init.run [.stop]).map (·.miners) = some [] ∧ (init.run [.stop, .getProvider]).map (·.miners) = some [0] :=
  ⟨rfl, rfl⟩

/-! ### The cancellable of a build -/

theorem stop_then_dispatch_builds :
    (init.run [.getProvider, .loadTags ["tags"], .stop, .dispatch 0, .built ["tags"] true]).map
      (fun t => (t.cancelled, t.requests, t.added)) = some ([0], [(["tags"], none)], [["tags"]]) := by
  decide

end Service

end Libide.Ctags
