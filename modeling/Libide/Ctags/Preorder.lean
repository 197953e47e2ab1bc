import Libide.Ctags.Termination

/-! # What an uncancelled walk loads

Without cancellation the walk probes `x/tags` for `x` the directory it starts from and, when it
recurses, every directory reachable from there in enumeration pre-order (`Fs.preorder`), and passes
to `ide_ctags_service_load_tags` those that resolve to regular files (`Fs.tagsOf`). Names within a
directory are distinct, so no path comes twice. With every directory enumerable, the pre-order lists
exactly the directories reachable from the start (`Fs.Reaches`), once the depth bound exceeds the
number of inodes and no cycle is reachable. -/

namespace Libide.Ctags

namespace Fs
variable (fs : Fs)

/-- Directory paths from `d`: `d`, then for each entry of type `DIRECTORY` of its listing, in order, the
    paths from that entry; `n` bounds the depth. -/
def preorder : Nat → Path → List Path
  | 0, _ => []
  | n + 1, d => d :: ((fs.children d).getD []).flatMap fun e =>
      if e.2 = .directory then preorder n (d ++ [e.1]) else []

/-- The paths `x/tags` that resolve to regular files, in the order of `xs`. -/
def tagsOf (xs : List Path) : List Path :=
  xs.filterMap fun x => if fs.fileType (x ++ ["tags"]) = .regular then some (x ++ ["tags"]) else none

/-- `x` is `d`, or reached from it through entries that resolve to directories. -/
inductive Reaches : Path → Path → Prop
  | refl (d : Path) : Reaches d d
  | child {d x : Path} (name : String) : fs.fileType (d ++ [name]) = .directory → Reaches (d ++ [name]) x →
      Reaches d x

/-- Every directory reachable from `d` can be enumerated. -/
def NoIoErrors (d : Path) : Prop := ∀ x, fs.Reaches d x → fs.fileType x = .directory → (fs.children x).isSome

variable {fs}

@[simp] theorem tagsOf_nil : fs.tagsOf [] = [] := rfl

@[simp] theorem tagsOf_append (xs ys : List Path) : fs.tagsOf (xs ++ ys) = fs.tagsOf xs ++ fs.tagsOf ys :=
  List.filterMap_append _ _ _

theorem tagsOf_cons (x : Path) (xs : List Path) : fs.tagsOf (x :: xs) = fs.tagsOf [x] ++ fs.tagsOf xs :=
  tagsOf_append [x] xs

/-! ### Reachability -/

theorem Reaches.trans {d y x : Path} (h₁ : fs.Reaches d y) (h₂ : fs.Reaches y x) : fs.Reaches d x := by
  induction h₁ with
  | refl => exact h₂
  | child name hd _ ih => exact .child name hd (ih h₂)

theorem Reaches.startsWith {d x : Path} (h : fs.Reaches d x) : d <+: x := by
  induction h with
  | refl => exact List.prefix_refl _
  | child name _ _ ih => exact (List.prefix_append _ _).trans ih

theorem NoIoErrors.child {d : Path} {name : String} (h : fs.NoIoErrors d)
    (hd : fs.fileType (d ++ [name]) = .directory) : fs.NoIoErrors (d ++ [name]) :=
  fun x hx => h x (.child name hd hx)

theorem lookup_of_directory {p : Path} (h : fs.fileType p = .directory) :
    ∃ s, fs.lookup p = some s ∧ fs.typeOf s.1 = .directory := by
  have hs : ∃ s, fs.lookup p = some s ∧ fs.typeOf s.1 = fs.fileType p :=
    lookup_of_fileType (by simp [h]) (by simp [h])
  simpa [h] using hs

theorem mem_of_lookup {α β : Type} [BEq α] [LawfulBEq α] {a : α} {b : β} :
    ∀ {l : List (α × β)}, l.lookup a = some b → (a, b) ∈ l
  | [], h => by simp at h
  | (a', b') :: l, h => by
    by_cases ha : a = a'
    · subst ha
      simp only [List.lookup_cons, beq_self_eq_true, Option.some.injEq] at h
      simp [h]
    · simp only [List.lookup_cons, beq_false_of_ne ha] at h
      exact List.mem_cons_of_mem _ (mem_of_lookup h)

/-- A subdirectory is an entry of its parent's listing, when that can be enumerated: the listing
    reports each entry as `g_file_query_file_type` does. -/
theorem mem_children {d : Path} {name : String} {entries : List (String × FileType)}
    (hd : fs.fileType (d ++ [name]) = .directory) (hc : fs.children d = some entries) :
    (name, .directory) ∈ entries := by
  obtain ⟨s, es, hp, hi, rfl⟩ := children_eq_some.mp hc
  rw [fileType_append_singleton, hp] at hd
  simp only [Option.some_bind, child?, hi] at hd
  cases hj : es.lookup name with
  | none => simp [hj] at hd
  | some j =>
    simp only [hj, Option.map_some', Option.getD_some] at hd
    exact List.mem_map.mpr ⟨(name, j), mem_of_lookup hj, by simp [hd]⟩

theorem fileType_parent {d : Path} {name : String} (hd : fs.fileType (d ++ [name]) = .directory) :
    fs.fileType d = .directory := by
  rw [fileType_append_singleton] at hd
  cases hp : fs.lookup d with
  | none => simp [hp] at hd
  | some s =>
    rw [fileType_of_lookup hp]
    simp only [hp, Option.some_bind] at hd
    unfold child? at hd
    split at hd
    next es r hn => simp [typeOf, hn, Inode.fileType]
    next => simp at hd

theorem children_names_nodup {d : Path} {entries : List (String × FileType)} (h : fs.children d = some entries) :
    (entries.map Prod.fst).Nodup := by
  obtain ⟨i, es, -, hi, rfl⟩ := children_eq_some.mp h
  have hw : (es.map Prod.fst).Nodup := fs.wellNamed _ (List.getElem?_mem hi)
  simpa [List.map_map, Function.comp_def] using hw

/-! ### The pre-order -/

theorem mem_preorder_succ {n : Nat} {d x : Path} : x ∈ fs.preorder (n + 1) d ↔
    x = d ∨ ∃ name, (name, .directory) ∈ (fs.children d).getD [] ∧ x ∈ fs.preorder n (d ++ [name]) := by
  simp only [preorder, List.mem_cons, List.mem_flatMap]
  refine or_congr Iff.rfl ⟨fun ⟨e, he, hx⟩ => ?_, fun ⟨name, hm, hx⟩ => ⟨_, hm, by simpa using hx⟩⟩
  split at hx
  next ht => exact ⟨e.1, by simpa [← ht] using he, hx⟩
  next => cases hx

theorem reaches_of_mem_preorder : ∀ {n : Nat} {d x : Path}, x ∈ fs.preorder n d → fs.Reaches d x
  | 0, _, _, h => by simp [preorder] at h
  | n + 1, d, x, h => by
    rcases mem_preorder_succ.mp h with rfl | ⟨name, hm, hx⟩
    · exact .refl x
    · cases hc : fs.children d with
      | none => simp [hc] at hm
      | some entries =>
        rw [hc, Option.getD_some] at hm
        obtain ⟨-, s', -, hs', ht, -⟩ := children_mem hc hm
        exact .child name ((fileType_of_lookup hs').trans ht) (reaches_of_mem_preorder hx)

theorem mem_preorder_of_reaches {d x : Path} (h : fs.Reaches d x) :
    ∀ {n : Nat}, fs.NoIoErrors d → x.length < d.length + n → x ∈ fs.preorder n d := by
  induction h with
  | refl d =>
    intro n _ hn
    cases n with
    | zero => omega
    | succ n => simp [preorder]
  | @child d x name hd hr ih =>
    intro n hio hn
    have hlen := hr.startsWith.length_le
    simp only [List.length_append, List.length_singleton] at hlen
    obtain ⟨m, rfl⟩ : ∃ m, n = m + 1 := ⟨n - 1, by omega⟩
    obtain ⟨entries, hc⟩ := Option.isSome_iff_exists.mp (hio d (.refl d) (fileType_parent hd))
    refine mem_preorder_succ.mpr (.inr ⟨name, by simpa [hc] using mem_children hd hc, ?_⟩)
    exact ih (hio.child hd) (by simp only [List.length_append, List.length_singleton]; omega)

/-- A path reached from `d` through `k` directories is a chain of `k` descents from `d`'s inode. -/
theorem chain_of_reaches {d x : Path} (h : fs.Reaches d x) :
    fs.NoIoErrors d → ∀ {i : Nat}, fs.resolve d = some i →
      ∃ f : Nat → Nat, f 0 = i ∧ ∀ m < x.length - d.length, fs.Descends (f m) (f (m + 1)) := by
  induction h with
  | refl d => exact fun _ {i} _ => ⟨fun _ => i, rfl, fun m hm => by omega⟩
  | @child d x name hd hr ih =>
    intro hio i hp
    obtain ⟨entries, hc⟩ := Option.isSome_iff_exists.mp (hio d (.refl d) (fileType_parent hd))
    obtain ⟨s, s', hs, hs', -, hdesc, -⟩ := children_mem hc (mem_children hd hc)
    have hi : s.1 = i := by simpa [resolve, hs] using hp
    rw [hi] at hdesc
    obtain ⟨f, hf0, hf⟩ := ih (hio.child hd) (resolve_eq_some.mpr ⟨_, hs'⟩)
    have hlen := hr.startsWith.length_le
    simp only [List.length_append, List.length_singleton] at hlen hf
    refine ⟨fun m => Nat.casesOn m i f, rfl, fun m hm => ?_⟩
    cases m with
    | zero => simpa [hf0] using hdesc
    | succ m => exact hf m (by omega)

theorem length_lt_of_reaches {d x : Path} (hacyc : fs.Acyclic d) (hio : fs.NoIoErrors d) (h : fs.Reaches d x) :
    x.length < d.length + (fs.inodes.length + 1) := by
  by_contra hlt
  cases h with
  | refl => omega
  | child name hd hr =>
    obtain ⟨s, hs, -⟩ := lookup_of_directory (fileType_parent hd)
    have hp : fs.resolve d = some s.1 := resolve_eq_some.mpr ⟨_, hs⟩
    obtain ⟨f, hf0, hf⟩ := chain_of_reaches (.child name hd hr) hio hp
    exact not_acyclic_of_chain (hf0 ▸ hp) (fun m hm => hf m (by omega)) hacyc

/-- Past the depth of the deepest directory, the pre-order lists exactly the reachable directories. -/
theorem mem_preorder_iff {d x : Path} (hacyc : fs.Acyclic d) (hio : fs.NoIoErrors d) :
    x ∈ fs.preorder (fs.inodes.length + 1) d ↔ fs.Reaches d x :=
  ⟨reaches_of_mem_preorder, fun h => mem_preorder_of_reaches h hio (length_lt_of_reaches hacyc hio h)⟩

theorem prefix_of_mem_preorder {n : Nat} {d x : Path} (h : x ∈ fs.preorder n d) : d <+: x :=
  (reaches_of_mem_preorder h).startsWith

theorem preorder_nodup : ∀ (n : Nat) (d : Path), (fs.preorder n d).Nodup
  | 0, _ => List.nodup_nil
  | n + 1, d => by
    have hsub : ∀ e ∈ (fs.children d).getD [], ∀ x ∈ (if e.2 = .directory then fs.preorder n (d ++ [e.1]) else []),
        d ++ [e.1] <+: x := by
      intro e _ x hx
      split at hx
      · exact prefix_of_mem_preorder hx
      · cases hx
    rw [preorder, List.nodup_cons, List.nodup_flatMap]
    refine ⟨fun hd => ?_, fun e _ => ?_, ?_⟩
    · obtain ⟨e, he, hx⟩ := List.mem_flatMap.mp hd
      have := (hsub e he d hx).length_le
      simp only [List.length_append, List.length_singleton] at this
      omega
    · split
      · exact preorder_nodup n _
      · exact List.nodup_nil
    · have hnames : ((fs.children d).getD []).Pairwise fun a b => a.1 ≠ b.1 := by
        cases hc : fs.children d with
        | none => exact List.Pairwise.nil
        | some entries => exact List.pairwise_map.mp (children_names_nodup hc)
      refine (List.pairwise_iff_forall_sublist.mpr fun {a b} hab => ?_)
      have hne := List.pairwise_iff_forall_sublist.mp hnames hab
      intro x ha hb
      have hpa := hsub a (hab.subset (by simp)) x ha
      have hpb := hsub b (hab.subset (by simp)) x hb
      have heq := (List.prefix_of_prefix_length_le hpa hpb (by simp)).eq_of_length (by simp)
      exact hne (by simpa using heq)

theorem tagsOf_nodup {xs : List Path} (h : xs.Nodup) : (fs.tagsOf xs).Nodup := by
  refine List.Nodup.filterMap (fun a a' b ha ha' => ?_) h
  split at ha <;> split at ha' <;> simp only [Option.mem_def, Option.some.injEq, reduceCtorEq] at ha ha'
  exact List.append_cancel_right (ha.trans ha'.symm)

end Fs

/-! ### The loads of an uncancelled walk -/

section Loads
variable {fs : Fs}

theorem loads_probeTags_never (p : Path) (tr : List Event) :
    loads (probeTags fs .never p tr) = loads tr ++ fs.tagsOf [p] := by
  simp only [probeTags, Cancellable.never_isCancelled, Bool.false_eq_true, if_false, Fs.tagsOf,
    List.filterMap_cons, List.filterMap_nil]
  split <;> simp [*]

theorem loads_mineEntries_never {walk : Path → List Event → Option (List Event)} {p : Path} {e : Option Path}
    {n : Nat} (hw : ∀ name tr T, walk (p ++ [name]) tr = some T →
      loads T = loads tr ++ fs.tagsOf (fs.preorder n (p ++ [name]))) :
    ∀ {es : List (String × FileType)} {tr T : List Event}, mineEntries .never walk p e es tr = some T →
      loads T = loads tr ++ fs.tagsOf (es.flatMap fun e => if e.2 = .directory then fs.preorder n (p ++ [e.1]) else [])
  | [], tr, T, h => by
    simp only [mineEntries, Option.some.injEq] at h
    simp [← h]
  | (name, t) :: rest, tr, T, h => by
    simp only [mineEntries, Cancellable.never_isCancelled, Bool.false_eq_true, if_false] at h
    split at h
    next ht =>
      obtain ⟨T₁, h₁, h₂⟩ := Option.bind_eq_some.mp h
      rw [loads_mineEntries_never hw h₂, hw _ _ _ h₁]
      simp [ht]
    next ht =>
      rw [loads_mineEntries_never hw h]
      simp [ht]

theorem loads_mineDirectory_never : ∀ {n : Nat} {p : Path} {r : Bool} {tr T : List Event},
    mineDirectory fs .never n p r tr = some T →
      loads T = loads tr ++ fs.tagsOf (if r then fs.preorder n p else [p])
  | 0, _, _, _, _, h => by cases h
  | n + 1, p, false, tr, T, h => by
    rw [mineDirectory_of_not_recurse (Cancellable.never_isCancelled tr), Option.some.injEq] at h
    simp [← h, loads_probeTags_never]
  | n + 1, p, true, tr, T, h => by
    rw [mineDirectory_of_recurse (Cancellable.never_isCancelled tr)] at h
    obtain ⟨T₁, h₁, rfl⟩ := Option.map_eq_some'.mp h
    rw [loads_append, loads_mineEntries_never (fun _ _ _ hw => loads_mineDirectory_never hw) h₁, Fs.preorder,
      if_pos rfl, Fs.tagsOf_cons]
    simp [loads_probeTags_never, enumerateChildren]

end Loads

/-- Uncancelled and with every directory enumerable, the walk of an acyclic structure terminates and
    loads `x/tags` for `x` the start alone, or when it recurses every directory reachable from it in
    enumeration pre-order, exactly where that resolves to a regular file, each once. -/
theorem mineDirectory_loads (fs : Fs) (d : Path) (recurse : Bool) (tr : List Event) (hacyc : fs.Acyclic d)
    (hio : fs.NoIoErrors d) :
    ∃ T, mineDirectory fs .never (fs.inodes.length + 1) d recurse tr = some T ∧
      loads T = loads tr ++ fs.tagsOf (if recurse then fs.preorder (fs.inodes.length + 1) d else [d]) ∧
      (fs.tagsOf (if recurse then fs.preorder (fs.inodes.length + 1) d else [d])).Nodup ∧
      ∀ x, x ∈ (if recurse then fs.preorder (fs.inodes.length + 1) d else [d]) ↔
        (if recurse then fs.Reaches d x else x = d) := by
  obtain ⟨T, hT⟩ := Option.ne_none_iff_exists'.mp (mineDirectory_ne_none hacyc recurse tr)
  refine ⟨T, hT, loads_mineDirectory_never hT, Fs.tagsOf_nodup ?_, fun x => ?_⟩ <;> cases recurse
  · exact List.nodup_singleton d
  · exact Fs.preorder_nodup _ d
  · simp
  · exact Fs.mem_preorder_iff hacyc hio

/-- Where every directory can be read, every directory the walk reaches can be enumerated. -/
theorem Fs.noIoErrors_of_readable {fs : Fs} (h : ∀ i es r, fs.inode? i = some (.directory es r) → r = true)
    (d : Path) : fs.NoIoErrors d := by
  intro x _ hx
  obtain ⟨s, hs, ht⟩ := Fs.lookup_of_directory hx
  cases hi : fs.inode? s.1 with
  | none => simp [Fs.typeOf, hi] at ht
  | some n =>
    cases n with
    | directory es r =>
      obtain rfl := h _ _ _ hi
      simp [Fs.children, hs, hi]
    | _ => simp [Fs.typeOf, hi, Inode.fileType] at ht

theorem aliasFs_readable (i : Nat) (es : List (String × Nat)) (r : Bool)
    (h : aliasFs.inode? i = some (.directory es r)) : r = true := by
  rcases i with _ | _ | _ | _ | _ | _ | i <;> simp [Fs.inode?, aliasFs] at h <;> exact h.2

theorem mineDirectory_loads_aliasFs : aliasFs.Acyclic ["proj"] ∧ aliasFs.NoIoErrors ["proj"] ∧
    ∃ T, mineDirectory aliasFs .never (aliasFs.inodes.length + 1) ["proj"] true [] = some T ∧
      loads T = loads [] ++ aliasFs.tagsOf (if true then aliasFs.preorder (aliasFs.inodes.length + 1) ["proj"]
        else [["proj"]]) ∧
      (aliasFs.tagsOf (if true then aliasFs.preorder (aliasFs.inodes.length + 1) ["proj"] else [["proj"]])).Nodup ∧
      ∀ x, x ∈ (if true then aliasFs.preorder (aliasFs.inodes.length + 1) ["proj"] else [["proj"]]) ↔
        (if true then aliasFs.Reaches ["proj"] x else x = ["proj"]) :=
  have hacyc := Fs.acyclic_of_descends_lt aliasFs_descends_lt ["proj"]
  have hio := Fs.noIoErrors_of_readable aliasFs_readable ["proj"]
  ⟨hacyc, hio, mineDirectory_loads aliasFs ["proj"] true [] hacyc hio⟩

end Libide.Ctags
