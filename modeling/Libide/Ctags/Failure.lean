import Libide.Ctags.Preorder

/-! # Calls that fail

`g_file_enumerate_children` is called with a `NULL` error and its result is never checked: where it
fails (the directory cannot be read, is gone, or the cancellable is cancelled) the `NULL` enumerator
goes to `g_file_enumerator_next_file`, `g_file_enumerator_close` and `g_object_unref`, whose
preconditions reject it and which return at once. The walk of that directory loads nothing below it
and returns, and its parent goes on with the next entry.

Once the cancellable is cancelled, every call fails: the walk unwinds without probing or listing
anything, and loads at most the file whose probe returned just before. -/

namespace Libide.Ctags

/-- A call that found the cancellable cancelled: it failed, or it only releases. -/
def Event.quiet : Event → Bool
  | .isCancelled b => b
  | .queryFileType _ t => t = .unknown
  | .loadTags _ => false
  | .enumerateChildren _ e => e.isNone
  | .nextFile _ i => i.isNone
  | .enumeratorClose _ | .unref _ => true

/-- A call that found something: a probe that saw a file, a listing, or an entry of one. -/
def Event.visits : Event → Bool
  | .queryFileType _ t => t ≠ .unknown
  | .enumerateChildren _ e => e.isSome
  | .nextFile _ i => i.isSome
  | _ => false

theorem Event.not_visits_of_quiet {e : Event} (h : e.quiet = true) : e.visits = false := by
  cases e <;> simp_all [quiet, visits]

theorem loads_eq_nil_of_quiet : ∀ {X : List Event}, (∀ e ∈ X, e.quiet = true) → loads X = [] := fun h =>
  List.filterMap_eq_nil_iff.2 fun e he => by
    cases e with
    | loadTags f => exact absurd (h _ he) Bool.false_ne_true
    | _ => rfl

section Walk
variable {fs : Fs} {c : Cancellable}

/-! ### The walk only appends -/

theorem probeTags_extends (p : Path) (tr : List Event) : tr <+: probeTags fs c p tr := by
  unfold probeTags
  dsimp only
  split_ifs <;> simp

theorem mineEntries_extends {walk : Path → List Event → Option (List Event)} {p : Path} {e : Option Path}
    (hw : ∀ name tr T, walk (p ++ [name]) tr = some T → tr <+: T) :
    ∀ {es : List (String × FileType)} {tr T : List Event}, mineEntries c walk p e es tr = some T → tr <+: T
  | [], tr, T, h => by
    cases h
    exact List.prefix_append _ _
  | (name, t) :: rest, tr, T, h => by
    simp only [mineEntries] at h
    have hn : tr <+: tr ++ [.nextFile e (some (name, t))] := List.prefix_append _ _
    split at h
    · cases h
      exact List.prefix_append _ _
    split at h
    · obtain ⟨T₁, h₁, h₂⟩ := Option.bind_eq_some.mp h
      exact hn.trans ((hw _ _ _ h₁).trans (mineEntries_extends hw h₂))
    · exact hn.trans (mineEntries_extends hw h)

theorem mineDirectory_extends : ∀ {n : Nat} {p : Path} {r : Bool} {tr T : List Event},
    mineDirectory fs c n p r tr = some T → tr <+: T
  | 0, _, _, _, _, h => by cases h
  | n + 1, p, r, tr, T, h => by
    cases hc : c.isCancelled tr
    · have hp : tr <+: probeTags fs c p (tr ++ [.isCancelled false]) :=
        (List.prefix_append _ _).trans (probeTags_extends p _)
      cases r
      · rw [mineDirectory_of_not_recurse hc, Option.some.injEq] at h
        exact h ▸ hp
      · rw [mineDirectory_of_recurse hc] at h
        obtain ⟨T₁, h₁, rfl⟩ := Option.map_eq_some'.mp h
        exact (hp.trans (List.prefix_append _ _)).trans
          ((mineEntries_extends (fun _ _ _ => mineDirectory_extends) h₁).trans (List.prefix_append _ _))
    · rw [mineDirectory_of_isCancelled hc, Option.some.injEq] at h
      exact h ▸ List.prefix_append _ _

theorem mineEntries_of_isCancelled {walk : Path → List Event → Option (List Event)} {p : Path}
    {e : Option Path} {es : List (String × FileType)} {tr : List Event} (h : c.isCancelled tr = true) :
    mineEntries c walk p e es tr = some (tr ++ [.nextFile e none]) := by
  cases es with
  | nil => rfl
  | cons x rest => simp [mineEntries, h]

/-! ### A failed enumeration -/

/-- Where `g_file_enumerate_children` fails, the `NULL` enumerator is passed to
    `g_file_enumerator_next_file`, `g_file_enumerator_close` and `g_object_unref`; nothing below the
    directory is loaded and the walk returns to its caller. -/
theorem mineDirectory_of_enumerate_fails {n : Nat} {p : Path} {tr : List Event} (hc : c.isCancelled tr = false)
    (hl : enumerateChildren fs c p (probeTags fs c p (tr ++ [.isCancelled false])) = none) :
    mineDirectory fs c (n + 1) p true tr = some (probeTags fs c p (tr ++ [.isCancelled false]) ++
      [.enumerateChildren p none, .nextFile none none, .enumeratorClose none, .unref none]) := by
  simp [mineDirectory_of_recurse hc, hl, mineEntries]

end Walk

/-- `/` holding a directory `private` that cannot be read. -/
def lockedFs : Fs := ⟨[.directory [("private", 1)] true, .directory [] false], by decide, fun _ _ => 0, by decide⟩

theorem mineDirectory_lockedFs :
    mineDirectory lockedFs .never 2 [] true [] = some
      [.isCancelled false, .queryFileType ["tags"] .unknown, .enumerateChildren [] (some []),
        .nextFile (some []) (some ("private", .directory)),
        .isCancelled false, .queryFileType ["private", "tags"] .unknown,
        .enumerateChildren ["private"] none, .nextFile none none, .enumeratorClose none, .unref none,
        .nextFile (some []) none, .enumeratorClose (some []), .unref (some [])] := by
  decide

/-! ### Cancellation -/

/-- From position `k` on, every call of `T` failed or only released, but for a load at `k` itself of a
    file whose probe, at `k - 1`, returned before. -/
def Hushed (k : Nat) (T : List Event) : Prop :=
  ∀ i e, k ≤ i → T[i]? = some e →
    e.quiet = true ∨ (i = k ∧ 0 < k ∧ ∃ f, e = .loadTags f ∧ T[k - 1]? = some (.queryFileType f .regular))

theorem hushed_nil (k : Nat) : Hushed k [] := fun _ _ _ h => by simp at h

theorem Hushed.append {k : Nat} {T : List Event} {e : Event} (h : Hushed k T)
    (he : k ≤ T.length → e.quiet = true ∨
      (T.length = k ∧ 0 < k ∧ ∃ f, e = .loadTags f ∧ T[k - 1]? = some (.queryFileType f .regular))) :
    Hushed k (T ++ [e]) := by
  intro i e' hi hget
  rcases Nat.lt_trichotomy i T.length with hlt | rfl | hgt
  · rw [List.getElem?_append_left hlt] at hget
    rcases h i e' hi hget with hq | ⟨rfl, hk, f, rfl, hq⟩
    · exact .inl hq
    · exact .inr ⟨rfl, hk, f, rfl, by rw [List.getElem?_append_left (by omega)]; exact hq⟩
  · simp only [List.getElem?_append_right (Nat.le_refl _), Nat.sub_self, List.getElem?_cons_zero,
      Option.some.injEq] at hget
    subst hget
    rcases he hi with hq | ⟨hl, hk, f, rfl, hq⟩
    · exact .inl hq
    · exact .inr ⟨hl, hk, f, rfl, by rw [List.getElem?_append_left (by omega)]; exact hq⟩
  · rw [List.getElem?_append_right (by omega), show i - T.length = (i - T.length - 1) + 1 by omega] at hget
    cases hget

theorem Hushed.append_quiet {k : Nat} {T : List Event} {e : Event} (h : Hushed k T)
    (he : k ≤ T.length → e.quiet = true) : Hushed k (T ++ [e]) :=
  h.append fun hk => .inl (he hk)

theorem Hushed.append_released {k : Nat} {T : List Event} {e : Option Path} (h : Hushed k T) :
    Hushed k (T ++ [.enumeratorClose e, .unref e]) := by
  have := (h.append_quiet (e := .enumeratorClose e) fun _ => rfl).append_quiet (e := .unref e) fun _ => rfl
  simpa using this

section Cancelled
variable {fs : Fs} {k : Nat}

@[simp] theorem isCancelled_at (T : List Event) : (⟨some k⟩ : Cancellable).isCancelled T = decide (k ≤ T.length) :=
  rfl

theorem Hushed.probeTags {p : Path} {T : List Event} (h : Hushed k T) : Hushed k (probeTags fs ⟨some k⟩ p T) := by
  unfold Ctags.probeTags
  by_cases hk : k ≤ T.length
  · simp only [isCancelled_at, hk, decide_True, if_true, reduceCtorEq, if_false]
    exact h.append_quiet fun _ => rfl
  · simp only [isCancelled_at, hk, decide_False, Bool.false_eq_true, if_false]
    have h₁ := h.append_quiet (e := .queryFileType (p ++ ["tags"]) (fs.fileType (p ++ ["tags"])))
      fun hk' => absurd hk' hk
    split
    next ht =>
      refine h₁.append fun hk' => .inr ⟨by simp at hk' ⊢; omega, by omega, _, rfl, ?_⟩
      rw [List.getElem?_append_right (by simp at hk' ⊢; omega)]
      simp [show k - 1 - T.length = 0 by simp at hk'; omega, ht]
    next => exact h₁

theorem Hushed.mineEntries {walk : Path → List Event → Option (List Event)} {p : Path} {e : Option Path}
    (hw : ∀ name tr T, Hushed k tr → walk (p ++ [name]) tr = some T → Hushed k T) :
    ∀ {es : List (String × FileType)} {tr T : List Event}, Hushed k tr →
      Ctags.mineEntries ⟨some k⟩ walk p e es tr = some T → Hushed k T
  | [], tr, T, h, hT => by
    cases hT
    exact h.append_quiet fun _ => rfl
  | (name, t) :: rest, tr, T, h, hT => by
    simp only [Ctags.mineEntries, isCancelled_at] at hT
    split at hT
    · cases hT
      exact h.append_quiet fun _ => rfl
    next hk =>
      have h₁ := h.append_quiet (e := .nextFile e (some (name, t))) fun hk' => absurd (decide_eq_true hk') hk
      split at hT
      · obtain ⟨T₁, h₂, h₃⟩ := Option.bind_eq_some.mp hT
        exact Hushed.mineEntries hw (hw _ _ _ h₁ h₂) h₃
      · exact Hushed.mineEntries hw h₁ hT

theorem Hushed.mineDirectory : ∀ {n : Nat} {p : Path} {r : Bool} {tr T : List Event}, Hushed k tr →
    Ctags.mineDirectory fs ⟨some k⟩ n p r tr = some T → Hushed k T
  | 0, _, _, _, _, _, hT => by cases hT
  | n + 1, p, r, tr, T, h, hT => by
    by_cases hk : k ≤ tr.length
    · rw [mineDirectory_of_isCancelled (by simpa using hk), Option.some.injEq] at hT
      exact hT ▸ h.append_quiet fun _ => rfl
    have hc : (⟨some k⟩ : Cancellable).isCancelled tr = false := by simpa using hk
    have h₁ : Hushed k (Ctags.probeTags fs ⟨some k⟩ p (tr ++ [.isCancelled false])) :=
      (h.append_quiet fun hk' => absurd hk' hk).probeTags
    cases r
    · rw [mineDirectory_of_not_recurse hc, Option.some.injEq] at hT
      exact hT ▸ h₁
    · rw [mineDirectory_of_recurse hc] at hT
      obtain ⟨T₁, h₂, rfl⟩ := Option.map_eq_some'.mp hT
      refine (Hushed.mineEntries (fun _ _ _ => Hushed.mineDirectory) (h₁.append_quiet fun hk' => ?_) h₂).append_released
      simp [Event.quiet, enumerateChildren, hk']

/-! ### The cancelled walk against the uncancelled one -/

/-- Both traces are past `k`, agree before it, and where `T'` loads a file at `k`, so does `T`. -/
def Past (k : Nat) (T T' : List Event) : Prop :=
  k ≤ T.length ∧ k ≤ T'.length ∧ T'.take k = T.take k ∧
    ∀ f, T'[k]? = some (.loadTags f) → T[k]? = some (.loadTags f)

/-- The trace `T'` of the walk cancelled at `k` follows the trace `T` of the uncancelled walk. -/
def Sim (k : Nat) (T T' : List Event) : Prop := T' = T ∨ Past k T T'

theorem Past.extend {T T' U : List Event} {X : List Event} (h : Past k T T') (hU : T <+: U)
    (hX : ∀ f, .loadTags f ∉ X) : Past k U (T' ++ X) := by
  obtain ⟨hT, hT', htake, hload⟩ := h
  obtain ⟨Y, rfl⟩ := hU
  refine ⟨by simp; omega, by simp; omega, ?_, fun f hf => ?_⟩
  · rw [List.take_append_of_le_length hT', List.take_append_of_le_length hT, htake]
  · rcases Nat.lt_or_ge k T'.length with hlt | hge
    · rw [List.getElem?_append_left hlt] at hf
      rw [List.getElem?_append_left (Nat.lt_of_lt_of_le (List.getElem?_eq_some_iff.mp (hload f hf)).1
        (Nat.le_refl _)), hload f hf]
    · rw [List.getElem?_append_right hge, show k - T'.length = 0 by omega] at hf
      exact absurd (List.getElem?_mem hf) (hX f)

theorem Sim.past {T T' : List Event} (h : Sim k T T') (hk : k ≤ T'.length) : Past k T T' := by
  rcases h with rfl | h
  · exact ⟨hk, hk, rfl, fun _ hf => hf⟩
  · exact h

theorem Sim.eq {T T' : List Event} (h : Sim k T T') (hk : T'.length < k) : T' = T :=
  h.resolve_right fun hp => absurd hp.2.1 (Nat.not_le_of_lt hk)

theorem Sim.append {T T' X : List Event} (h : Sim k T T') (hX : ∀ f, .loadTags f ∉ X) : Sim k (T ++ X) (T' ++ X) := by
  rcases h with rfl | h
  · exact .inl rfl
  · exact .inr (h.extend (List.prefix_append _ _) hX)

theorem sim_probeTags {p : Path} {T T' : List Event} (h : Sim k T T') :
    Sim k (probeTags fs .never p T) (probeTags fs ⟨some k⟩ p T') := by
  by_cases hk : k ≤ T'.length
  · have hp : probeTags fs ⟨some k⟩ p T' = T' ++ [.queryFileType (p ++ ["tags"]) .unknown] := by
      simp [probeTags, hk]
    rw [hp]
    exact .inr ((h.past hk).extend (probeTags_extends p T) (by simp))
  · obtain rfl := h.eq (Nat.lt_of_not_le hk)
    left
    simp [probeTags, hk]

theorem sim_mineEntries {walk w : Path → List Event → Option (List Event)} {p : Path} {e : Option Path}
    (hpre : ∀ name tr T, walk (p ++ [name]) tr = some T → tr <+: T)
    (hw : ∀ name tr T, walk (p ++ [name]) tr = some T →
      ∀ tr', Sim k tr tr' → ∃ T', w (p ++ [name]) tr' = some T' ∧ Sim k T T') :
    ∀ {es : List (String × FileType)} {tr T : List Event}, Ctags.mineEntries .never walk p e es tr = some T →
      ∀ tr', Sim k tr tr' → ∃ T', Ctags.mineEntries ⟨some k⟩ w p e es tr' = some T' ∧ Sim k T T'
  | es, tr, T, hT, tr', hs => by
    by_cases hk : k ≤ tr'.length
    · refine ⟨_, mineEntries_of_isCancelled (by simpa using hk), .inr ?_⟩
      exact (hs.past hk).extend (mineEntries_extends hpre hT) (by simp)
    obtain rfl := hs.eq (Nat.lt_of_not_le hk)
    match es, hT with
    | [], hT => exact ⟨_, rfl, by cases hT; exact .inl rfl⟩
    | (name, t) :: rest, hT =>
      simp only [Ctags.mineEntries, Cancellable.never_isCancelled, Bool.false_eq_true, if_false,
        isCancelled_at, hk, decide_False] at hT ⊢
      by_cases ht : t = .directory
      · simp only [ht, if_true] at hT ⊢
        obtain ⟨T₁, h₁, h₂⟩ := Option.bind_eq_some.mp hT
        obtain ⟨T₁', h₁', hs₁⟩ := hw _ _ _ h₁ _ (.inl rfl)
        obtain ⟨T', h₂', hs₂⟩ := sim_mineEntries hpre hw h₂ _ hs₁
        exact ⟨T', by rw [h₁', Option.some_bind]; exact h₂', hs₂⟩
      · simp only [ht, if_false] at hT ⊢
        exact sim_mineEntries hpre hw hT _ (.inl rfl)

theorem sim_mineDirectory : ∀ {n : Nat} {p : Path} {r : Bool} {tr T : List Event},
    Ctags.mineDirectory fs .never n p r tr = some T → ∀ tr', Sim k tr tr' →
      ∃ T', Ctags.mineDirectory fs ⟨some k⟩ n p r tr' = some T' ∧ Sim k T T'
  | 0, _, _, _, _, hT, _, _ => by cases hT
  | n + 1, p, r, tr, T, hT, tr', hs => by
    by_cases hk : k ≤ tr'.length
    · refine ⟨_, mineDirectory_of_isCancelled (by simpa using hk), .inr ?_⟩
      exact (hs.past hk).extend (mineDirectory_extends hT) (by simp)
    obtain rfl := hs.eq (Nat.lt_of_not_le hk)
    have hc : (⟨some k⟩ : Cancellable).isCancelled tr' = false := by simpa using hk
    have hp : Sim k (probeTags fs .never p (tr' ++ [.isCancelled false]))
        (probeTags fs ⟨some k⟩ p (tr' ++ [.isCancelled false])) := sim_probeTags (.inl rfl)
    cases r
    · rw [mineDirectory_of_not_recurse (Cancellable.never_isCancelled tr'), Option.some.injEq] at hT
      exact ⟨_, mineDirectory_of_not_recurse hc, hT ▸ hp⟩
    rw [mineDirectory_of_recurse (Cancellable.never_isCancelled tr')] at hT
    obtain ⟨L, hL, rfl⟩ := Option.map_eq_some'.mp hT
    rw [mineDirectory_of_recurse hc]
    dsimp only at hL ⊢
    set P := probeTags fs .never p (tr' ++ [.isCancelled false])
    set P' := probeTags fs ⟨some k⟩ p (tr' ++ [.isCancelled false])
    by_cases hk' : k ≤ P'.length
    · have hl : enumerateChildren fs ⟨some k⟩ p P' = none := by simp [enumerateChildren, hk']
      refine ⟨_, by rw [hl]; rfl, .inr ?_⟩
      set en := Option.map (fun _ => p) (enumerateChildren fs .never p P)
      have hpre : P <+: L ++ [.enumeratorClose en, .unref en] := (List.prefix_append _ _).trans
        ((mineEntries_extends (fun _ _ _ => mineDirectory_extends) hL).trans (List.prefix_append _ _))
      have := (hp.past hk').extend hpre
        (X := [.enumerateChildren p none, .nextFile none none, .enumeratorClose none, .unref none]) (by simp)
      simpa using this
    · obtain hPP := hp.eq (Nat.lt_of_not_le hk')
      have hl : enumerateChildren fs ⟨some k⟩ p P' = enumerateChildren fs .never p P := by
        rw [← hPP]
        simp [enumerateChildren, hk']
      rw [hl, hPP]
      obtain ⟨L', hL', hsL⟩ := sim_mineEntries (k := k) (w := fun x => Ctags.mineDirectory fs ⟨some k⟩ n x true)
        (fun _ _ _ => mineDirectory_extends)
        (fun _ _ _ h => sim_mineDirectory h) hL _ (.inl rfl)
      exact ⟨_, by rw [hL']; rfl, hsL.append (by simp)⟩

end Cancelled

theorem Hushed.loadTags {k : Nat} {T : List Event} (h : Hushed k T) {i : Nat} {f : Path} (hi : k ≤ i)
    (hf : T[i]? = some (.loadTags f)) : i = k ∧ 0 < k ∧ T[k - 1]? = some (.queryFileType f .regular) := by
  rcases h i _ hi hf with hq | ⟨rfl, hk, f', hf', hq⟩
  · simp [Event.quiet] at hq
  · cases hf'
    exact ⟨rfl, hk, hq⟩

theorem Hushed.not_visits {k : Nat} {T : List Event} (h : Hushed k T) {i : Nat} {e : Event} (hi : k ≤ i)
    (he : T[i]? = some e) : e.visits = false := by
  rcases h i e hi he with hq | ⟨-, -, f, rfl, -⟩
  · exact Event.not_visits_of_quiet hq
  · rfl

/-- What the cancelled walk loads from `k` on is at most the file it loads at `k`, which the
    uncancelled walk loads there too. -/
theorem isPrefix_loads_drop {k : Nat} {T T' : List Event} (hh : Hushed k T')
    (hload : ∀ f, T'[k]? = some (.loadTags f) → T[k]? = some (.loadTags f)) :
    loads (T'.drop k) <+: loads (T.drop k) := by
  have hrest : ∀ e ∈ T'.drop (k + 1), e.quiet = true := by
    intro e he
    obtain ⟨j, hj⟩ := List.getElem?_of_mem he
    rw [List.getElem?_drop] at hj
    rcases hh _ e (by omega) hj with hq | ⟨h1, -⟩
    · exact hq
    · omega
  cases hk : T'[k]? with
  | none =>
    rw [List.drop_eq_nil_of_le (List.getElem?_eq_none_iff.mp hk)]
    exact ⟨_, rfl⟩
  | some e =>
    obtain ⟨hlt, rfl⟩ := List.getElem?_eq_some_iff.mp hk
    rw [List.drop_eq_getElem_cons hlt]
    rcases hh k _ (Nat.le_refl k) hk with hq | ⟨-, -, f, hf, -⟩
    · rw [loads_eq_nil_of_quiet (X := T'[k] :: T'.drop (k + 1)) fun e he => (List.mem_cons.mp he).elim
        (fun h => h ▸ hq) (hrest e)]
      exact ⟨_, rfl⟩
    · obtain ⟨hlt', hT⟩ := List.getElem?_eq_some_iff.mp (hload f (hk.trans (congrArg some hf)))
      rw [List.drop_eq_getElem_cons hlt', hT, hf, loads_loadTags, loads_loadTags, loads_eq_nil_of_quiet hrest]
      exact List.cons_prefix_cons.mpr ⟨rfl, ⟨_, rfl⟩⟩

theorem loads_prefix_of_sim {k : Nat} {T T' : List Event} (hs : Sim k T T') (hh : Hushed k T') :
    loads T' <+: loads T := by
  rcases hs with rfl | ⟨-, -, htake, hload⟩
  · exact List.prefix_refl _
  · rw [← List.take_append_drop k T', ← List.take_append_drop k T, htake, loads_append, loads_append]
    exact (List.prefix_append_right_inj _).mpr (isPrefix_loads_drop hh hload)

/-- Cancelling the session at any call `k` of the walk of an acyclic structure: what it loads is a
    prefix of what the uncancelled walk loads, a load from `k` on is the one at `k` itself, whose probe
    returned at `k - 1`, and no call from `k` on finds anything. -/
theorem mineDirectory_cancelled_at (fs : Fs) (d : Path) (recurse : Bool) (k : Nat) (hacyc : fs.Acyclic d) :
    ∃ T T', mineDirectory fs .never (fs.inodes.length + 1) d recurse [] = some T ∧
      mineDirectory fs ⟨some k⟩ (fs.inodes.length + 1) d recurse [] = some T' ∧
      loads T' <+: loads T ∧
      (∀ i f, k ≤ i → T'[i]? = some (.loadTags f) →
        i = k ∧ 0 < k ∧ T'[k - 1]? = some (.queryFileType f .regular)) ∧
      ∀ i e, k ≤ i → T'[i]? = some e → e.visits = false := by
  obtain ⟨T, hT⟩ := Option.ne_none_iff_exists'.mp (mineDirectory_ne_none hacyc recurse [])
  obtain ⟨T', hT', hs⟩ := sim_mineDirectory hT [] (.inl rfl)
  have hh := Hushed.mineDirectory (hushed_nil k) hT'
  exact ⟨T, T', hT, hT', loads_prefix_of_sim hs hh, fun _ _ hi hf => hh.loadTags hi hf,
    fun _ _ hi he => hh.not_visits hi he⟩

theorem mineDirectory_cancelled_at_aliasFs : aliasFs.Acyclic ["proj"] ∧
    ∃ T T', mineDirectory aliasFs .never (aliasFs.inodes.length + 1) ["proj"] true [] = some T ∧
      mineDirectory aliasFs ⟨some 5⟩ (aliasFs.inodes.length + 1) ["proj"] true [] = some T' ∧
      loads T' <+: loads T ∧
      (∀ i f, 5 ≤ i → T'[i]? = some (.loadTags f) →
        i = 5 ∧ 0 < 5 ∧ T'[5 - 1]? = some (.queryFileType f .regular)) ∧
      ∀ i e, 5 ≤ i → T'[i]? = some e → e.visits = false :=
  have hacyc := Fs.acyclic_of_descends_lt aliasFs_descends_lt ["proj"]
  ⟨hacyc, mineDirectory_cancelled_at aliasFs ["proj"] true 5 hacyc⟩

end Libide.Ctags
