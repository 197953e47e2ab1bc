import Libide.Ctags.Walk
import Mathlib.Data.Finset.Card

/-! # When the walk terminates

The walk recurses into every entry of type `DIRECTORY` of a directory it can enumerate, following
symbolic links, and keeps no set of visited directories. It still ends on every filesystem: each
descent either goes down the tree of entries that are not links, or follows a link and spends some of
the kernel's budget of `maxSymlinks` links for the lookup, past which the entry reads as a broken link.
A rank of the lookup state drops at every descent, so the recursion is at most
`(maxSymlinks + 1) * (number of inodes + 1)` deep. Where no directory the walk reaches is reachable from
itself, a recursion one deeper than the number of inodes is enough. -/

namespace Libide.Ctags

/-! ### Lists -/

theorem lookup_eq_of_mem {α β : Type} [BEq α] [LawfulBEq α] {a : α} {b : β} :
    ∀ {l : List (α × β)}, (l.map Prod.fst).Nodup → (a, b) ∈ l → l.lookup a = some b
  | [], _, h => by simp at h
  | (a', b') :: l, hl, h => by
    simp only [List.map_cons, List.nodup_cons, List.mem_map] at hl
    rcases List.mem_cons.mp h with h | h
    · simp_all
    · have hne : a ≠ a' := fun he => hl.1 ⟨(a, b), h, he⟩
      simp [List.lookup_cons, beq_false_of_ne hne, lookup_eq_of_mem hl.2 h]

/-! ### The graph the walk descends -/

namespace Fs
variable (fs : Fs)

/-- The walk descends from directory `i` into `j`: `i` can be enumerated and has an entry that resolves
    to the directory `j`. -/
def Descends (i j : Nat) : Prop :=
  ∃ es name, fs.inode? i = some (.directory es true) ∧ (name, j) ∈ es ∧ fs.typeOf j = .directory

/-- No directory that the walk can reach from `p` is reachable from itself. -/
def Acyclic (p : Path) : Prop :=
  ∀ i j, fs.resolve p = some i → Relation.ReflTransGen fs.Descends i j → ¬Relation.TransGen fs.Descends j j

/-- How far a lookup state is from the end of any descent: the links the kernel will still follow,
    each worth more than any stretch down the tree, then the inodes below it. -/
def rank (s : Nat × Nat) : Nat :=
  (maxSymlinks - s.2) * (fs.inodes.length + 1) + (fs.inodes.length - s.1)

variable {fs}

theorem child?_of_mem {i j : Nat} {es : List (String × Nat)} {r : Bool} {name : String}
    (hi : fs.inode? i = some (.directory es r)) (hj : (name, j) ∈ es) : fs.child? i name = some j := by
  have hw := fs.wellNamed _ (List.getElem?_mem hi)
  simp only [child?, hi]
  exact lookup_eq_of_mem hw hj

/-- An entry that is not a symbolic link names an inode of higher number. -/
theorem lt_of_plain {i j : Nat} {es : List (String × Nat)} {r : Bool} {name : String}
    (hi : fs.inode? i = some (.directory es r)) (hj : (name, j) ∈ es) (h0 : fs.links i name = 0) : i < j := by
  obtain ⟨hlt, heq⟩ := List.getElem?_eq_some_iff.mp hi
  have hp := fs.plainBelow i hlt
  rw [heq] at hp
  exact hp _ hj h0

theorem lt_of_typeOf {j : Nat} (h : fs.typeOf j = .directory) : j < fs.inodes.length := by
  by_contra hj
  simp [typeOf, inode?, List.getElem?_eq_none (Nat.le_of_not_lt hj)] at h

theorem lt_of_descends {i j : Nat} (h : fs.Descends i j) : i < fs.inodes.length := by
  obtain ⟨es, -, hi, -⟩ := h
  exact (List.getElem?_eq_some_iff.mp hi).1

/-- Directories that only hold directories of higher number form no cycle. -/
theorem acyclic_of_descends_lt (h : ∀ i j, fs.Descends i j → i < j) (p : Path) : fs.Acyclic p := by
  have lt : ∀ {i j}, Relation.TransGen fs.Descends i j → i < j := fun hij => by
    induction hij with
    | single hd => exact h _ _ hd
    | tail _ hd ih => exact ih.trans (h _ _ hd)
  exact fun _ j _ _ hj => Nat.lt_irrefl j (lt hj)

theorem resolve_eq_some {p : Path} {i : Nat} : fs.resolve p = some i ↔ ∃ n, fs.lookup p = some (i, n) := by
  simp [resolve]

theorem lookup_append_of_mem {p : Path} {s : Nat × Nat} {es : List (String × Nat)} {r : Bool} {name : String}
    {j : Nat} (hp : fs.lookup p = some s) (hi : fs.inode? s.1 = some (.directory es r)) (hj : (name, j) ∈ es)
    (hk : s.2 + fs.links s.1 name ≤ maxSymlinks) : fs.lookup (p ++ [name]) = some (j, s.2 + fs.links s.1 name) := by
  simp [hp, step, child?_of_mem hi hj, hk]

/-- What `g_file_query_file_type` reports of a path the kernel resolves is the type of its inode. -/
theorem fileType_of_lookup {p : Path} {s : Nat × Nat} (h : fs.lookup p = some s) : fs.fileType p = fs.typeOf s.1 := by
  obtain rfl | ⟨q, name, rfl⟩ := p.eq_nil_or_concat
  · cases h
    rfl
  · rw [List.concat_eq_append, lookup_append_singleton] at h
    obtain ⟨s₀, hq, hs⟩ := Option.bind_eq_some.mp h
    obtain ⟨j, hj, hs⟩ := Option.bind_eq_some.mp hs
    split_ifs at hs with hk
    cases hs
    simp [List.concat_eq_append, fileType_append_singleton, hq, hj, entryType, hk]

/-- A path whose type is neither `UNKNOWN` nor a broken link resolves, to an inode of that type. -/
theorem lookup_of_fileType {p : Path} (hu : fs.fileType p ≠ .unknown) (hl : fs.fileType p ≠ .symbolicLink) :
    ∃ s, fs.lookup p = some s ∧ fs.typeOf s.1 = fs.fileType p := by
  obtain rfl | ⟨q, name, rfl⟩ := p.eq_nil_or_concat
  · exact ⟨(0, 0), rfl, rfl⟩
  · rw [List.concat_eq_append, fileType_append_singleton] at hu hl ⊢
    cases hq : fs.lookup q with
    | none => simp [hq] at hu
    | some s₀ =>
      cases hj : fs.child? s₀.1 name with
      | none => simp [hq, hj] at hu
      | some j =>
        simp only [hq, hj, Option.some_bind, Option.map_some', Option.getD_some, entryType] at hl ⊢
        split_ifs at hl ⊢ with hk
        · exact ⟨(j, s₀.2 + fs.links s₀.1 name), by simp [hq, step, hj, hk], rfl⟩
        · exact absurd rfl hl

theorem children_eq_some {p : Path} {entries : List (String × FileType)} :
    fs.children p = some entries ↔ ∃ s es, fs.lookup p = some s ∧ fs.inode? s.1 = some (.directory es true) ∧
      entries = es.map fun e => (e.1, fs.entryType s e.1 e.2) := by
  unfold children
  constructor
  · intro h
    obtain ⟨s, hp, hs⟩ := Option.bind_eq_some.mp h
    split at hs
    next es hi => exact ⟨s, es, hp, hi, (Option.some_injective _ hs).symm⟩
    next => cases hs
  · rintro ⟨s, es, hp, hi, rfl⟩
    simp [hp, hi]

/-- A subdirectory in a listing is an entry of the directory reached whose link the kernel follows: the
    walk descends into it, and the rank of the lookup drops, by going down the tree or by a link. -/
theorem children_mem {p : Path} {entries : List (String × FileType)} {name : String}
    (h : fs.children p = some entries) (he : (name, .directory) ∈ entries) :
    ∃ s s', fs.lookup p = some s ∧ fs.lookup (p ++ [name]) = some s' ∧ fs.typeOf s'.1 = .directory ∧
      fs.Descends s.1 s'.1 ∧ fs.rank s' < fs.rank s := by
  obtain ⟨s, es, hp, hi, rfl⟩ := children_eq_some.mp h
  obtain ⟨⟨name', j⟩, hj, he'⟩ := List.mem_map.mp he
  obtain ⟨rfl, ht⟩ := Prod.mk.inj he'
  simp only [entryType] at ht
  split_ifs at ht with hk
  refine ⟨s, _, hp, lookup_append_of_mem hp hi hj hk, ht, ⟨es, name', hi, hj, ht⟩, ?_⟩
  have hjN := lt_of_typeOf ht
  unfold rank
  dsimp only
  by_cases h0 : fs.links s.1 name' = 0
  · have := lt_of_plain hi hj h0
    simp only [h0, Nat.add_zero]
    omega
  · have hmul := Nat.mul_le_mul_right (fs.inodes.length + 1)
      (show maxSymlinks - (s.2 + fs.links s.1 name') + 1 ≤ maxSymlinks - s.2 by omega)
    rw [Nat.succ_mul] at hmul
    omega

end Fs

/-! ### What one level of the walk does -/

section Walk
variable {fs : Fs} {c : Cancellable}

@[simp] theorem mineDirectory_zero (p : Path) (r : Bool) (tr : List Event) :
    mineDirectory fs c 0 p r tr = none := rfl

theorem mineDirectory_of_isCancelled {n : Nat} {p : Path} {r : Bool} {tr : List Event}
    (h : c.isCancelled tr = true) : mineDirectory fs c (n + 1) p r tr = some (tr ++ [.isCancelled true]) := by
  simp [mineDirectory, h]

theorem mineDirectory_of_not_recurse {n : Nat} {p : Path} {tr : List Event} (h : c.isCancelled tr = false) :
    mineDirectory fs c (n + 1) p false tr = some (probeTags fs c p (tr ++ [.isCancelled false])) := by
  simp [mineDirectory, h]

theorem mineDirectory_of_recurse {n : Nat} {p : Path} {tr : List Event} (h : c.isCancelled tr = false) :
    mineDirectory fs c (n + 1) p true tr =
      let tr := probeTags fs c p (tr ++ [.isCancelled false])
      let listing := enumerateChildren fs c p tr
      let enumerator := listing.map fun _ => p
      (mineEntries c (mineDirectory fs c n · true) p enumerator (listing.getD [])
          (tr ++ [.enumerateChildren p enumerator])).map
        (· ++ [.enumeratorClose enumerator, .unref enumerator]) := by
  simp [mineDirectory, h]

/-- The loop runs out of fuel only inside the walk of a subdirectory it lists. -/
theorem mineEntries_eq_none {walk : Path → List Event → Option (List Event)} {p : Path}
    {e : Option Path} : ∀ {es : List (String × FileType)} {tr : List Event},
    mineEntries c walk p e es tr = none → ∃ name tr', (name, .directory) ∈ es ∧ walk (p ++ [name]) tr' = none
  | [], _, h => by simp [mineEntries] at h
  | (name, t) :: rest, tr, h => by
    simp only [mineEntries] at h
    split at h
    · cases h
    split at h
    next ht =>
      cases hw : walk (p ++ [name]) (tr ++ [.nextFile e (some (name, t))]) with
      | none => exact ⟨name, _, by simp [ht], hw⟩
      | some tr' =>
        rw [hw, Option.some_bind] at h
        obtain ⟨n', tr'', hm, hn⟩ := mineEntries_eq_none h
        exact ⟨n', tr'', List.mem_cons_of_mem _ hm, hn⟩
    next =>
      obtain ⟨n', tr'', hm, hn⟩ := mineEntries_eq_none h
      exact ⟨n', tr'', List.mem_cons_of_mem _ hm, hn⟩

/-- The walk runs out of fuel only in the walk of a subdirectory that its directory's listing names. -/
theorem mineDirectory_succ_eq_none {n : Nat} {p : Path} {r : Bool} {tr : List Event}
    (h : mineDirectory fs c (n + 1) p r tr = none) :
    ∃ entries name tr', fs.children p = some entries ∧ (name, .directory) ∈ entries ∧
      mineDirectory fs c n (p ++ [name]) r tr' = none := by
  cases hc : c.isCancelled tr
  · cases r
    · simp [mineDirectory_of_not_recurse hc] at h
    rw [mineDirectory_of_recurse hc] at h
    simp only [Option.map_eq_none'] at h
    obtain ⟨name, tr', hm, hn⟩ := mineEntries_eq_none h
    cases hl : enumerateChildren fs c p (probeTags fs c p (tr ++ [.isCancelled false])) with
    | none => simp [hl] at hm
    | some entries =>
      rw [hl, Option.getD_some] at hm
      refine ⟨entries, name, tr', ?_, hm, hn⟩
      unfold enumerateChildren at hl
      split at hl
      · cases hl
      · exact hl
  · simp [mineDirectory_of_isCancelled hc] at h

/-- Where the walk runs out of fuel `n`, it has descended a chain of `n` directories. -/
theorem chain_of_mineDirectory_eq_none : ∀ {n : Nat} {p : Path} {r : Bool} {tr : List Event} {i : Nat},
    mineDirectory fs c n p r tr = none → fs.resolve p = some i →
    ∃ f : Nat → Nat, f 0 = i ∧ ∀ m < n, fs.Descends (f m) (f (m + 1))
  | 0, _, _, _, i, _, _ => ⟨fun _ => i, rfl, fun _ h => absurd h (Nat.not_lt_zero _)⟩
  | n + 1, p, r, tr, i, h, hp => by
    obtain ⟨entries, name, tr', hch, hm, hn⟩ := mineDirectory_succ_eq_none h
    obtain ⟨s, s', hs, hs', -, hd, -⟩ := Fs.children_mem hch hm
    have hi : s.1 = i := by simpa [Fs.resolve, hs] using hp
    obtain ⟨f, hf0, hf⟩ := chain_of_mineDirectory_eq_none hn (Fs.resolve_eq_some.mpr ⟨_, hs'⟩)
    refine ⟨fun m => Nat.casesOn m i f, rfl, fun m hm' => ?_⟩
    cases m with
    | zero => simpa [hf0, ← hi] using hd
    | succ m => exact hf m (by omega)

/-- Every descent lowers the rank of the lookup, so fuel above the rank of every state the start can be
    looked up in is enough, whatever the cancellable does. -/
theorem mineDirectory_ne_none_of_rank : ∀ {k : Nat} {p : Path} {r : Bool} {tr : List Event},
    (∀ s, fs.lookup p = some s → fs.rank s < k) → 0 < k → mineDirectory fs c k p r tr ≠ none
  | 0, _, _, _, _, hk => absurd hk (Nat.lt_irrefl 0)
  | k + 1, p, r, tr, hr, _ => fun h => by
    obtain ⟨entries, name, tr', hch, hm, hn⟩ := mineDirectory_succ_eq_none h
    obtain ⟨s, s', hs, hs', -, -, hlt⟩ := Fs.children_mem hch hm
    have hsk := hr s hs
    exact mineDirectory_ne_none_of_rank (fun s'' h'' => by rw [hs'] at h''; cases h''; omega) (by omega) hn

end Walk

/-! ### Termination -/

theorem Fs.rank_lt (fs : Fs) (s : Nat × Nat) : fs.rank s < (maxSymlinks + 1) * (fs.inodes.length + 1) := by
  have hmul := Nat.mul_le_mul_right (fs.inodes.length + 1) (Nat.sub_le maxSymlinks s.2)
  rw [Fs.rank, Nat.succ_mul]
  omega

/-- Whatever the filesystem, its symbolic links and the cancellable, the walk terminates: at most
    `(maxSymlinks + 1) * (number of inodes + 1)` levels of recursion are enough. -/
theorem mineDirectory_terminates (fs : Fs) (c : Cancellable) (p : Path) (recurse : Bool) (tr : List Event) :
    ∃ T, mineDirectory fs c ((maxSymlinks + 1) * (fs.inodes.length + 1)) p recurse tr = some T :=
  Option.ne_none_iff_exists'.mp
    (mineDirectory_ne_none_of_rank (fun s _ => fs.rank_lt s) (Nat.mul_pos (Nat.succ_pos _) (Nat.succ_pos _)))

/-- `/` holding a symbolic link `loop` to `/`: the directory is reachable from itself, and the kernel
    follows `loop` 40 times in one lookup, no more. -/
def loopFs : Fs := ⟨[.directory [("loop", 0)] true], by decide, fun _ _ => 1, by decide⟩

example : loopFs.fileType (List.replicate 40 "loop") = .directory ∧
    loopFs.fileType (List.replicate 41 "loop") = .symbolicLink := by decide

/-! ### Chains -/

section Chains
variable {α : Type} {R : α → α → Prop} {f : Nat → α} {n : Nat}

theorem reflTransGen_of_chain (h : ∀ m < n, R (f m) (f (m + 1))) :
    ∀ {b}, b ≤ n → Relation.ReflTransGen R (f 0) (f b)
  | 0, _ => .refl
  | b + 1, hb => (reflTransGen_of_chain h (by omega)).tail (h b (by omega))

theorem transGen_of_chain (h : ∀ m < n, R (f m) (f (m + 1))) {a : Nat} :
    ∀ {b}, a < b → b ≤ n → Relation.TransGen R (f a) (f b)
  | b + 1, hab, hb => by
    rcases Nat.lt_succ_iff_lt_or_eq.mp hab with hab | rfl
    · exact (transGen_of_chain h hab (by omega)).tail (h b (by omega))
    · exact .single (h a (by omega))

end Chains

/-! ### Acyclic structures -/

/-- A chain of more steps than there are inodes passes some directory twice. -/
theorem not_acyclic_of_chain {fs : Fs} {p : Path} {f : Nat → Nat} (hp : fs.resolve p = some (f 0))
    (h : ∀ m < fs.inodes.length + 1, fs.Descends (f m) (f (m + 1))) : ¬fs.Acyclic p := by
  intro hacyc
  have hmaps : ∀ m ∈ Finset.range (fs.inodes.length + 2), f m ∈ Finset.range fs.inodes.length := by
    intro m hm
    rw [Finset.mem_range] at hm ⊢
    cases m with
    | zero => exact Fs.lt_of_descends (h 0 (by omega))
    | succ m => exact Fs.lt_of_typeOf (h m (by omega)).choose_spec.choose_spec.2.2
  obtain ⟨a, ha, b, hb, hne, heq⟩ :=
    Finset.exists_ne_map_eq_of_card_lt_of_maps_to (by simp) hmaps
  rw [Finset.mem_range] at ha hb
  rcases Nat.lt_or_gt_of_ne hne with hab | hab <;>
    exact hacyc _ _ hp (reflTransGen_of_chain h (by omega)) (heq ▸ transGen_of_chain h hab (by omega))

/-- Without a reachable cycle, fuel one above the number of inodes is enough, whatever the
    cancellable does. -/
theorem mineDirectory_ne_none {fs : Fs} {c : Cancellable} {p : Path} (hacyc : fs.Acyclic p) (r : Bool)
    (tr : List Event) : mineDirectory fs c (fs.inodes.length + 1) p r tr ≠ none := by
  intro h
  cases hp : fs.resolve p with
  | some i =>
    obtain ⟨f, rfl, hf⟩ := chain_of_mineDirectory_eq_none h hp
    exact not_acyclic_of_chain hp hf hacyc
  | none =>
    obtain ⟨entries, -, -, hch, -⟩ := mineDirectory_succ_eq_none h
    obtain ⟨s, es, hs, -⟩ := Fs.children_eq_some.mp hch
    simp [Fs.resolve, hs] at hp

/-- `/proj/inc` is a symbolic link to `/usr/include`, which holds a tags file; `/home` is empty. -/
def aliasFs : Fs :=
  ⟨[.directory [("proj", 1), ("usr", 2), ("home", 4)] true, .directory [("inc", 3)] true,
    .directory [("include", 3)] true, .directory [("tags", 5)] true, .directory [] true, .regular],
    by decide, fun i name => if i = 1 ∧ name = "inc" then 1 else 0, by decide⟩

theorem aliasFs_descends_lt (i j : Nat) (h : aliasFs.Descends i j) : i < j := by
  obtain ⟨es, name, hi, hj, -⟩ := h
  rcases i with _ | _ | _ | _ | _ | _ | i <;> simp [Fs.inode?, aliasFs] at hi <;> subst hi <;>
    simp at hj <;> omega

end Libide.Ctags
