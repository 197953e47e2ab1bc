import Libide.Symbols.Variant
import Mathlib.Logic.Function.Basic
import Mathlib.Algebra.Order.Ring.Nat

/-! # Symbols' references

`ide_symbol_new`, `ide_symbol_ref` and `ide_symbol_unref` (`ide-symbol.c`). A new symbol is a block with
`ref_count` one that holds a reference to each location it is given, and the counter `instances` goes
up. `ref` adds one to the count and `unref` takes one away; the `unref` that takes the count to zero
drops the locations' references, frees the block and takes the counter down. `ref` refuses a count that
is not positive and `unref` a count of zero (`g_return_val_if_fail`), and both read the count of whatever
the pointer points at: on a freed block that is a read after free, `none` here.

The count is a `volatile gint`, kept as its 32 bits. `g_atomic_int_inc` on `G_MAXINT` wraps it to
`G_MININT`, which `ref` refuses from then on, and `g_atomic_int_dec_and_test` counts down from there as
from `2^31`.

The blocks are kept by address, and an address is not given out twice. A location is its address, and
its reference count is a number; the rest of `IdeSourceLocation` is not read.

When the program makes its calls as a holder of references (a new symbol comes with one, and `ref` and
`unref` are made only on a symbol it holds one on) and never holds more than `G_MAXINT` on one symbol,
no call reads a freed block, each symbol's count is the number of references held on it, a symbol is
freed exactly when the last one is released, and the counter and the locations' counts follow the live
symbols. Past `G_MAXINT` this fails: a new symbol on which `2^31` more references are taken is freed by
the `2^31`-th `unref`, with references still held. -/

namespace Libide.Symbols

/-- `G_MAXINT`, the largest count a `gint` holds. -/
def gMaxint : Nat := 2 ^ 31 - 1

/-- A symbol's block: its `ref_count`, a `volatile gint` as its 32 bits, and its fields, a location by
    its address. -/
structure Block where
  refCount : BitVec 32
  symbol : Symbol Nat
  deriving DecidableEq, Repr

/-- The live symbols' blocks by address, the locations' reference counts, the counter `instances`,
    and the address the next `g_slice_new0` gives. -/
structure Heap where
  blocks : List (Nat × Block)
  locationRefs : Nat → Nat
  instances : Nat
  next : Nat

/-- `ide_source_location_ref` on a location that is there. -/
def locationRef (refs : Nat → Nat) : Option Nat → Nat → Nat
  | some l => Function.update refs l (refs l + 1)
  | none => refs

/-- `g_clear_pointer (&location, ide_source_location_unref)`. -/
def locationUnref (refs : Nat → Nat) : Option Nat → Nat → Nat
  | some l => Function.update refs l (refs l - 1)
  | none => refs

/-- How many of the symbol's location fields hold the location `l`. -/
def Symbol.holds (s : Symbol Nat) (l : Nat) : Nat :=
  [s.declarationLocation, s.definitionLocation, s.canonicalLocation].count (some l)

/-- The block at `self` with its count changed by `f`. -/
def setRefCount (blocks : List (Nat × Block)) (self : Nat) (f : BitVec 32 → BitVec 32) : List (Nat × Block) :=
  blocks.map fun e => (e.1, if e.1 = self then { e.2 with refCount := f e.2.refCount } else e.2)

namespace Heap

/-- `ide_symbol_new`: a block with one reference, holding a reference to each location given; its
    address is returned. -/
def new (h : Heap) (name : Option String) (kind flags : BitVec 32) (declaration definition canonical : Option Nat) :
    Nat × Heap :=
  (h.next,
    { blocks := h.blocks ++ [(h.next, ⟨1, Symbol.new name kind flags declaration definition canonical⟩)]
      locationRefs := locationRef (locationRef (locationRef h.locationRefs declaration) definition) canonical
      instances := h.instances + 1
      next := h.next + 1 })

/-- `ide_symbol_ref`, whose `g_atomic_int_inc` wraps past `G_MAXINT`; `none` where the address holds
    no live block. -/
def ref (h : Heap) (self : Nat) : Option Heap :=
  (h.blocks.lookup self).map fun b =>
    if b.refCount.toInt > 0 then { h with blocks := setRefCount h.blocks self (· + 1) } else h

/-- `ide_symbol_unref`; `none` where the address holds no live block. -/
def unref (h : Heap) (self : Nat) : Option Heap :=
  (h.blocks.lookup self).map fun b =>
    if b.refCount = 0 then h
    else if b.refCount - 1 = 0 then
      { h with
        blocks := h.blocks.filter (·.1 ≠ self)
        locationRefs := locationUnref (locationUnref (locationUnref h.locationRefs b.symbol.declarationLocation)
          b.symbol.definitionLocation) b.symbol.canonicalLocation
        instances := h.instances - 1 }
    else { h with blocks := setRefCount h.blocks self (· - 1) }

end Heap

/-- A call on symbols. -/
inductive Call
  | new (name : Option String) (kind flags : BitVec 32) (declaration definition canonical : Option Nat)
  | ref (self : Nat)
  | unref (self : Nat)

/-- One call; `none` where it reads a freed block. -/
def Heap.step (h : Heap) : Call → Option Heap
  | .new name kind flags declaration definition canonical =>
    some (h.new name kind flags declaration definition canonical).2
  | .ref self => h.ref self
  | .unref self => h.unref self

/-- Calls one after another; `none` where one reads a freed block. -/
def Heap.run (h : Heap) : List Call → Option Heap
  | [] => some h
  | c :: cs => (h.step c).bind fun h' => h'.run cs

/-- What the program holds: its references by address, and the address the next `ide_symbol_new`
    returns. -/
structure Holder where
  held : Nat → Nat
  next : Nat

namespace Holder

/-- The references held after a call. -/
def after (p : Holder) : Call → Holder
  | .new .. => ⟨Function.update p.held p.next 1, p.next + 1⟩
  | .ref self => { p with held := Function.update p.held self (p.held self + 1) }
  | .unref self => { p with held := Function.update p.held self (p.held self - 1) }

/-- A holder makes the call: `ref` and `unref` only on a symbol it holds a reference to, and `ref` only
    below `G_MAXINT` references. -/
def Allows (p : Holder) : Call → Prop
  | .new .. => True
  | .ref self => 0 < p.held self ∧ p.held self < gMaxint
  | .unref self => 0 < p.held self

/-- Every call of the run is made by a holder. -/
def Runs (p : Holder) : List Call → Prop
  | [] => True
  | c :: cs => p.Allows c ∧ (p.after c).Runs cs

/-- The references held after a run. -/
def afterAll (p : Holder) (cs : List Call) : Holder := cs.foldl after p

end Holder

/-! ### Blocks by address -/

section Blocks
variable {bs : List (Nat × Block)} {a x k : Nat} {b c : Block}

theorem lookup_cons_ne (h : x ≠ k) : ((k, c) :: bs).lookup x = bs.lookup x := by
  rw [List.lookup_cons, beq_false_of_ne h]

/-- Changing the blocks in place, each by its address, changes what a lookup finds the same way. -/
theorem lookup_map_snd (g : Nat → Block → Block) (bs : List (Nat × Block)) :
    (bs.map fun e => (e.1, g e.1 e.2)).lookup x = (bs.lookup x).map (g x) := by
  induction bs with
  | nil => rfl
  | cons e bs ih =>
    obtain ⟨k, c⟩ := e
    by_cases hxk : x = k
    · subst hxk
      simp
    · simp only [List.map_cons, lookup_cons_ne hxk, ih]

theorem lookup_setRefCount (bs : List (Nat × Block)) (f : BitVec 32 → BitVec 32) :
    (setRefCount bs a f).lookup x =
      if x = a then (bs.lookup a).map fun b => { b with refCount := f b.refCount } else bs.lookup x := by
  rw [setRefCount, lookup_map_snd (fun k b => if k = a then { b with refCount := f b.refCount } else b)]
  by_cases hx : x = a
  · subst hx
    simp
  · simp [hx]

theorem keys_setRefCount (bs : List (Nat × Block)) (f : BitVec 32 → BitVec 32) :
    (setRefCount bs a f).map Prod.fst = bs.map Prod.fst := by
  simp [setRefCount, Function.comp_def]

theorem holds_setRefCount (bs : List (Nat × Block)) (f : BitVec 32 → BitVec 32) (l : Nat) :
    (setRefCount bs a f).map (fun e => e.2.symbol.holds l) = bs.map fun e => e.2.symbol.holds l := by
  simp only [setRefCount, List.map_map]
  exact List.map_congr_left fun e _ => by dsimp only [Function.comp_apply]; split <;> rfl

theorem lookup_filter_ne (bs : List (Nat × Block)) :
    (bs.filter (·.1 ≠ a)).lookup x = if x = a then none else bs.lookup x := by
  induction bs with
  | nil => split <;> rfl
  | cons e bs ih =>
    obtain ⟨k, c⟩ := e
    by_cases hk : k = a
    · subst hk
      rw [List.filter_cons_of_neg (by simp), ih]
      by_cases hx : x = k
      · simp [hx]
      · simp [hx, lookup_cons_ne hx]
    · rw [List.filter_cons_of_pos (by simpa using hk)]
      by_cases hxk : x = k
      · subst hxk
        simp [hk]
      · rw [lookup_cons_ne hxk, ih, lookup_cons_ne hxk]

/-- Removing the one block at an address takes its share out of any sum over the blocks. -/
theorem sum_filter_ne (hn : (bs.map Prod.fst).Nodup) (hb : bs.lookup a = some b) (g : Nat × Block → Nat) :
    ((bs.filter (·.1 ≠ a)).map g).sum + g (a, b) = (bs.map g).sum := by
  induction bs with
  | nil => cases hb
  | cons e bs ih =>
    obtain ⟨k, c⟩ := e
    simp only [List.map_cons, List.nodup_cons] at hn
    by_cases hk : a = k
    · subst hk
      have hbc : c = b := by simpa using hb
      have hnil : bs.filter (·.1 ≠ a) = bs := List.filter_eq_self.2 fun e he => by
        have hea : e.1 ≠ a := fun h => hn.1 (h ▸ List.mem_map_of_mem Prod.fst he)
        simpa using hea
      rw [List.filter_cons_of_neg (by simp), hnil, hbc, List.map_cons, List.sum_cons, Nat.add_comm]
    · rw [lookup_cons_ne hk] at hb
      rw [List.filter_cons_of_pos (by simpa using Ne.symm hk), List.map_cons, List.sum_cons, List.map_cons,
        List.sum_cons, Nat.add_assoc, ih hn.2 hb]

theorem lookup_append_fresh (hx : bs.lookup a = none) (y : Nat) :
    (bs ++ [(a, b)]).lookup y = if y = a then some b else bs.lookup y := by
  rw [List.lookup_append]
  by_cases hy : y = a
  · subst hy
    simp [hx]
  · simp [hy, lookup_cons_ne hy]

theorem not_mem_keys (hx : bs.lookup a = none) : a ∉ bs.map Prod.fst := by
  intro h
  obtain ⟨e, he, rfl⟩ := List.mem_map.1 h
  simpa using List.lookup_eq_none_iff.1 hx e he

end Blocks

theorem locationRef_apply (refs : Nat → Nat) (o : Option Nat) (l : Nat) :
    locationRef refs o l = refs l + if o = some l then 1 else 0 := by
  cases o with
  | none => simp [locationRef]
  | some m =>
    by_cases h : l = m
    · subst h
      simp [locationRef]
    · simp [locationRef, Function.update_noteq h, Ne.symm h]

theorem locationUnref_apply (refs : Nat → Nat) (o : Option Nat) (l : Nat) :
    locationUnref refs o l = refs l - if o = some l then 1 else 0 := by
  cases o with
  | none => simp [locationUnref]
  | some m =>
    by_cases h : l = m
    · subst h
      simp [locationUnref]
    · simp [locationUnref, Function.update_noteq h, Ne.symm h]

theorem Symbol.holds_eq (s : Symbol Nat) (l : Nat) :
    s.holds l = (if s.declarationLocation = some l then 1 else 0) + (if s.definitionLocation = some l then 1 else 0) +
      (if s.canonicalLocation = some l then 1 else 0) := by
  simp only [Symbol.holds, List.count_cons, List.count_nil, beq_iff_eq]
  omega

/-! ### Counts as `gint` -/

/-- A `gint` is positive exactly when its bits read as a number below `2^31` other than zero. -/
theorem gint_pos_iff (x : BitVec 32) : 0 < x.toInt ↔ 0 < x.toNat ∧ x.toNat < 2 ^ 31 := by
  rw [BitVec.toInt_eq_toNat_cond]
  split <;> omega

theorem toNat_add_one (x : BitVec 32) (h : x.toNat < 2 ^ 32 - 1) : (x + 1).toNat = x.toNat + 1 := by
  bv_omega

theorem toNat_sub_one (x : BitVec 32) (h : 0 < x.toNat) : (x - 1).toNat = x.toNat - 1 := by
  bv_omega

/-! ### The heap agrees with the references held -/

theorem update_le {f : Nat → Nat} {n : Nat} (hf : ∀ x, f x ≤ n) {a m : Nat} (hm : m ≤ n) (x : Nat) :
    Function.update f a m x ≤ n := by
  rw [Function.update_apply]
  split
  exacts [hm, hf x]

/-- The heap agrees with what the program holds: a live block at each address it holds references on,
    whose count reads as that many references, at most `G_MAXINT`, and none elsewhere; nothing at or
    past the next address; the counter counts the live blocks, and each location's count is what is held
    elsewhere (`others`) and by the live symbols' fields. -/
structure Agrees (others : Nat → Nat) (p : Holder) (h : Heap) : Prop where
  next : h.next = p.next
  nodup : (h.blocks.map Prod.fst).Nodup
  refCount : ∀ a, (h.blocks.lookup a).map (·.refCount.toNat) = if 0 < p.held a then some (p.held a) else none
  bounded : ∀ a, p.held a ≤ gMaxint
  fresh : ∀ a, p.next ≤ a → p.held a = 0
  instances : h.instances = h.blocks.length
  locations : ∀ l, h.locationRefs l = others l + (h.blocks.map fun e => e.2.symbol.holds l).sum

namespace Agrees
variable {others : Nat → Nat} {p : Holder} {h : Heap} {a : Nat}

theorem lookup_of_pos (hA : Agrees others p h) (hp : 0 < p.held a) :
    ∃ b, h.blocks.lookup a = some b ∧ b.refCount.toNat = p.held a := by
  have hr := hA.refCount a
  rw [if_pos hp] at hr
  exact Option.map_eq_some'.1 hr

theorem lookup_of_zero (hA : Agrees others p h) (hp : p.held a = 0) : h.blocks.lookup a = none := by
  have hr := hA.refCount a
  rw [if_neg (by omega)] at hr
  exact Option.map_eq_none'.1 hr

theorem lt_next (hA : Agrees others p h) (hp : 0 < p.held a) : a < p.next :=
  Nat.lt_of_not_le fun ha => by simp [hA.fresh a ha] at hp

theorem empty (others : Nat → Nat) (n : Nat) : Agrees others ⟨fun _ => 0, n⟩ ⟨[], others, 0, n⟩ :=
  ⟨rfl, List.nodup_nil, fun _ => rfl, fun _ => Nat.zero_le _, fun _ _ => rfl, rfl, fun _ => rfl⟩

/-- Changing the count of a held symbol to the `m` references then held keeps the agreement. -/
theorem changeCount (hA : Agrees others p h) (hp : 0 < p.held a) (f : BitVec 32 → BitVec 32) {m : Nat}
    (hm : 0 < m) (hmax : m ≤ gMaxint) (hf : ∀ x : BitVec 32, x.toNat = p.held a → (f x).toNat = m) :
    Agrees others { p with held := Function.update p.held a m }
      { h with blocks := setRefCount h.blocks a f } := by
  obtain ⟨b, hb, hr⟩ := hA.lookup_of_pos hp
  refine ⟨hA.next, (keys_setRefCount _ f).symm ▸ hA.nodup, fun x => ?_, update_le hA.bounded hmax,
    fun x hx => ?_, ?_, fun l => ?_⟩
  · rw [lookup_setRefCount]
    by_cases hx : x = a
    · subst hx
      simp [hb, hf _ hr, hm]
    · simp [hx, hA.refCount x]
  · dsimp only at hx ⊢
    rw [Function.update_noteq (by have := hA.lt_next hp; omega)]
    exact hA.fresh x hx
  · simp [setRefCount, hA.instances]
  · rw [holds_setRefCount]
    exact hA.locations l

theorem new (hA : Agrees others p h) (name : Option String) (kind flags : BitVec 32)
    (declaration definition canonical : Option Nat) :
    Agrees others (p.after (.new name kind flags declaration definition canonical))
      (h.new name kind flags declaration definition canonical).2 := by
  have hfree : h.blocks.lookup h.next = none := hA.lookup_of_zero (hA.fresh _ hA.next.ge)
  refine ⟨by simp [Heap.new, Holder.after, hA.next], ?_, fun x => ?_, update_le hA.bounded (by decide),
    fun x hx => ?_, ?_, fun l => ?_⟩
  · rw [Heap.new, List.map_append, List.map_singleton]
    exact hA.nodup.append (List.nodup_singleton _) (List.disjoint_singleton.2 (not_mem_keys hfree))
  · rw [Heap.new, lookup_append_fresh hfree]
    by_cases hx : x = h.next
    · simp [hx, Holder.after, hA.next]
    · simp [hx, Holder.after, ← hA.next, Function.update_noteq hx, hA.refCount x]
  · simp only [Holder.after] at hx ⊢
    rw [Function.update_noteq (by omega)]
    exact hA.fresh x (by omega)
  · simp [Heap.new, hA.instances]
  · simp only [Heap.new, locationRef_apply, List.map_append, List.sum_append, hA.locations l]
    simp only [List.map_cons, List.map_nil, List.sum_cons, List.sum_nil, Symbol.holds_eq, Symbol.new]
    omega

theorem ref (hA : Agrees others p h) (hp : 0 < p.held a) (hmax : p.held a < gMaxint) :
    ∃ h', h.ref a = some h' ∧ Agrees others (p.after (.ref a)) h' := by
  obtain ⟨b, hb, hr⟩ := hA.lookup_of_pos hp
  have hpos : 0 < b.refCount.toInt := (gint_pos_iff _).2 ⟨hr ▸ hp, by unfold gMaxint at hmax; omega⟩
  exact ⟨_, by simp [Heap.ref, hb, hpos], hA.changeCount hp (· + 1) (Nat.succ_pos _) hmax
    fun x hx => by rw [toNat_add_one x (by unfold gMaxint at hmax; omega), hx]⟩

/-- The last reference released frees the block, drops its locations and takes the counter down. -/
theorem free (hA : Agrees others p h) (hp : p.held a = 1) {b : Block} (hb : h.blocks.lookup a = some b) :
    Agrees others (p.after (.unref a))
      { h with
        blocks := h.blocks.filter (·.1 ≠ a)
        locationRefs := locationUnref (locationUnref (locationUnref h.locationRefs b.symbol.declarationLocation)
          b.symbol.definitionLocation) b.symbol.canonicalLocation
        instances := h.instances - 1 } := by
  have hsum := sum_filter_ne hA.nodup hb
  refine ⟨hA.next, hA.nodup.sublist ((List.filter_sublist _).map Prod.fst), fun x => ?_,
    update_le hA.bounded ((Nat.sub_le _ _).trans (hA.bounded a)), fun x hx => ?_, ?_, fun l => ?_⟩
  · rw [lookup_filter_ne]
    by_cases hx : x = a
    · simp [hx, Holder.after, hp]
    · simp [hx, Holder.after, hA.refCount x]
  · simp only [Holder.after] at hx ⊢
    rw [Function.update_noteq (by have := hA.lt_next (a := a) (by omega); omega)]
    exact hA.fresh x hx
  · have := hsum fun _ => 1
    simp only [List.map_const', List.sum_replicate, Nat.nsmul_eq_mul, Nat.mul_one] at this
    simp only [hA.instances]
    omega
  · have hl := hsum fun e => e.2.symbol.holds l
    simp only [locationUnref_apply, hA.locations l, ← hl, Symbol.holds_eq] at hl ⊢
    omega

theorem unref (hA : Agrees others p h) (hp : 0 < p.held a) :
    ∃ h', h.unref a = some h' ∧ Agrees others (p.after (.unref a)) h' := by
  obtain ⟨b, hb, hr⟩ := hA.lookup_of_pos hp
  have h0 : b.refCount ≠ 0 := by bv_omega
  by_cases h1 : p.held a = 1
  · have h1' : b.refCount - 1 = 0 := by bv_omega
    exact ⟨_, by rw [Heap.unref, hb, Option.map_some', if_neg h0, if_pos h1'], hA.free h1 hb⟩
  · have h1' : b.refCount - 1 ≠ 0 := by bv_omega
    exact ⟨_, by rw [Heap.unref, hb, Option.map_some', if_neg h0, if_neg h1'],
      hA.changeCount hp (· - 1) (by omega) ((Nat.sub_le _ _).trans (hA.bounded a))
        fun x hx => by rw [toNat_sub_one x (by omega), hx]⟩

/-- One call the holder makes keeps the agreement, and reads no freed block. -/
theorem step (hA : Agrees others p h) {c : Call} (hc : p.Allows c) :
    ∃ h', h.step c = some h' ∧ Agrees others (p.after c) h' := by
  cases c with
  | new name kind flags declaration definition canonical => exact ⟨_, rfl, hA.new ..⟩
  | ref a => exact hA.ref hc.1 hc.2
  | unref a => exact hA.unref hc

theorem run (hA : Agrees others p h) {cs : List Call} (hr : p.Runs cs) :
    ∃ h', h.run cs = some h' ∧ Agrees others (p.afterAll cs) h' := by
  induction cs generalizing p h with
  | nil => exact ⟨h, rfl, hA⟩
  | cons c cs ih =>
    obtain ⟨h₁, hs, hA₁⟩ := hA.step hr.1
    obtain ⟨h', hr', hA'⟩ := ih hA₁ hr.2
    exact ⟨h', by simp [Heap.run, hs, hr'], hA'⟩

end Agrees

/-- Where nothing is held there is no block. -/
theorem Agrees.blocks_eq_nil {others : Nat → Nat} {p : Holder} {h : Heap} (hA : Agrees others p h)
    (hall : ∀ a, p.held a = 0) : h.blocks = [] := by
  cases hb : h.blocks with
  | nil => rfl
  | cons e es =>
    have hnone := hA.lookup_of_zero (hall e.1)
    rw [hb, List.lookup_cons, beq_self_eq_true] at hnone
    cases hnone

/-! ### Runs from no symbols -/

/-- From no symbols, a run in which the program calls `ref` and `unref` only on symbols it holds a
    reference to reads no freed block, and ends agreeing with the references then held: each symbol's
    count is the number held on it, a symbol is freed exactly when its last one is released, the counter
    is the number of live symbols, and each location's count is what others hold plus what the live
    symbols' fields hold. -/
theorem run_agrees (others : Nat → Nat) (n : Nat) (cs : List Call) (hr : Holder.Runs ⟨fun _ => 0, n⟩ cs) :
    ∃ h', Heap.run ⟨[], others, 0, n⟩ cs = some h' ∧ Agrees others (Holder.afterAll ⟨fun _ => 0, n⟩ cs) h' :=
  (Agrees.empty others n).run hr

theorem run_agrees_refTwice :
    Holder.Runs ⟨fun _ => 0, 0⟩ [.new (some "main") 12 0 (some 7) none (some 7), .ref 0, .unref 0] ∧
      ∃ h', Heap.run ⟨[], fun _ => 0, 0, 0⟩ [.new (some "main") 12 0 (some 7) none (some 7), .ref 0, .unref 0] =
        some h' ∧ Agrees (fun _ => 0)
          (Holder.afterAll ⟨fun _ => 0, 0⟩ [.new (some "main") 12 0 (some 7) none (some 7), .ref 0, .unref 0]) h' :=
  have hr : Holder.Runs ⟨fun _ => 0, 0⟩ [.new (some "main") 12 0 (some 7) none (some 7), .ref 0, .unref 0] := by
    simp [Holder.Runs, Holder.Allows, Holder.after, gMaxint]
  ⟨hr, run_agrees _ _ _ hr⟩

/-- A run that releases every reference it took leaves no symbol: no block, the counter back at zero,
    and every location's count back to what others hold. -/
theorem run_releases_all (others : Nat → Nat) (n : Nat) (cs : List Call) (hr : Holder.Runs ⟨fun _ => 0, n⟩ cs)
    (hall : ∀ a, (Holder.afterAll ⟨fun _ => 0, n⟩ cs).held a = 0) :
    Heap.run ⟨[], others, 0, n⟩ cs = some ⟨[], others, 0, (Holder.afterAll ⟨fun _ => 0, n⟩ cs).next⟩ := by
  obtain ⟨⟨blocks, refs, instances, next⟩, hrun, hA⟩ := (Agrees.empty others n).run hr
  have hnil : blocks = [] := hA.blocks_eq_nil hall
  subst hnil
  have hrefs : refs = others := funext fun l => by simpa using hA.locations l
  rw [hrun, hrefs, show instances = 0 from hA.instances, show next = _ from hA.next]

theorem run_releases_all_refTwice :
    (Holder.Runs ⟨fun _ => 0, 0⟩ [.new (some "main") 12 0 (some 7) none (some 7), .ref 0, .unref 0, .unref 0] ∧
      ∀ a, (Holder.afterAll ⟨fun _ => 0, 0⟩
        [.new (some "main") 12 0 (some 7) none (some 7), .ref 0, .unref 0, .unref 0]).held a = 0) ∧
      Heap.run ⟨[], fun _ => 0, 0, 0⟩ [.new (some "main") 12 0 (some 7) none (some 7), .ref 0, .unref 0, .unref 0] =
        some ⟨[], fun _ => 0, 0, 1⟩ :=
  have hr : Holder.Runs ⟨fun _ => 0, 0⟩
      [.new (some "main") 12 0 (some 7) none (some 7), .ref 0, .unref 0, .unref 0] := by
    simp [Holder.Runs, Holder.Allows, Holder.after, gMaxint]
  have hall : ∀ a, (Holder.afterAll ⟨fun _ => 0, 0⟩
      [.new (some "main") 12 0 (some 7) none (some 7), .ref 0, .unref 0, .unref 0]).held a = 0 := by
    intro a
    simp [Holder.afterAll, Holder.after, Function.update_apply]
  ⟨⟨hr, hall⟩, run_releases_all _ _ _ hr hall⟩

/-! ### Past `G_MAXINT` -/

section Wrap
variable {h : Heap} {a : Nat} {b : Block}

theorem Heap.ref_of_lookup (hb : h.blocks.lookup a = some b) :
    ∃ h', h.ref a = some h' ∧
      h'.blocks.lookup a = some (if 0 < b.refCount.toInt then { b with refCount := b.refCount + 1 } else b) := by
  by_cases hpos : 0 < b.refCount.toInt
  · exact ⟨{ h with blocks := setRefCount h.blocks a (· + 1) }, by simp [Heap.ref, hb, hpos],
      by simp [lookup_setRefCount, hb, hpos]⟩
  · exact ⟨h, by simp [Heap.ref, hb, hpos], by simp [hb, hpos]⟩

theorem Heap.unref_of_lookup (hb : h.blocks.lookup a = some b) (h0 : b.refCount ≠ 0) :
    ∃ h', h.unref a = some h' ∧
      h'.blocks.lookup a = if b.refCount - 1 = 0 then none else some { b with refCount := b.refCount - 1 } := by
  by_cases h1 : b.refCount - 1 = 0
  · refine ⟨_, by rw [Heap.unref, hb, Option.map_some', if_neg h0, if_pos h1], ?_⟩
    rw [if_pos h1]
    exact (lookup_filter_ne h.blocks).trans (if_pos rfl)
  · refine ⟨_, by rw [Heap.unref, hb, Option.map_some', if_neg h0, if_neg h1], ?_⟩
    rw [if_neg h1]
    exact (lookup_setRefCount h.blocks (· - 1)).trans (by simp [hb])

theorem Heap.run_cons_of_step {c : Call} {cs : List Call} {h₁ : Heap} (hs : h.step c = some h₁) :
    h.run (c :: cs) = h₁.run cs := by
  simp [Heap.run, hs]

theorem Heap.run_append (h : Heap) (cs cs' : List Call) : h.run (cs ++ cs') = (h.run cs).bind (·.run cs') := by
  induction cs generalizing h with
  | nil => rfl
  | cons c cs ih =>
    rw [List.cons_append, Heap.run, Heap.run, Option.bind_assoc]
    simp only [ih]

/-- Calls of `ref` count a positive symbol up to `G_MININT`, read as `2^31`, where they stop. -/
theorem Heap.run_refs (m : Nat) : ∀ {h : Heap} {b : Block}, h.blocks.lookup a = some b → 0 < b.refCount.toNat →
    b.refCount.toNat ≤ 2 ^ 31 → ∃ h' b', h.run (List.replicate m (.ref a)) = some h' ∧
      h'.blocks.lookup a = some b' ∧ b'.refCount.toNat = min (b.refCount.toNat + m) (2 ^ 31) := by
  induction m with
  | zero => exact fun hb _ _ => ⟨_, _, rfl, hb, by omega⟩
  | succ m ih =>
    intro h b hb h0 hmax
    obtain ⟨h₁, hr₁, hb₁⟩ := Heap.ref_of_lookup hb
    by_cases hpos : 0 < b.refCount.toInt
    · have hlt := ((gint_pos_iff _).1 hpos).2
      have hadd := toNat_add_one b.refCount (by omega)
      rw [if_pos hpos] at hb₁
      obtain ⟨h', b', hrun, hb', hc⟩ := ih hb₁ (by simp only [hadd]; omega) (by simp only [hadd]; omega)
      refine ⟨h', b', by rw [List.replicate_succ, Heap.run_cons_of_step (c := .ref a) hr₁, hrun], hb', ?_⟩
      simp only [hadd] at hc
      omega
    · have hmin : b.refCount.toNat = 2 ^ 31 := by
        have := mt (gint_pos_iff _).2 hpos
        omega
      rw [if_neg hpos] at hb₁
      obtain ⟨h', b', hrun, hb', hc⟩ := ih hb₁ h0 hmax
      exact ⟨h', b', by rw [List.replicate_succ, Heap.run_cons_of_step (c := .ref a) hr₁, hrun], hb', by omega⟩

/-- Calls of `unref` below the count take one each. -/
theorem Heap.run_unrefs (m : Nat) : ∀ {h : Heap} {b : Block}, h.blocks.lookup a = some b → m < b.refCount.toNat →
    ∃ h' b', h.run (List.replicate m (.unref a)) = some h' ∧ h'.blocks.lookup a = some b' ∧
      b'.refCount.toNat = b.refCount.toNat - m := by
  induction m with
  | zero => exact fun hb _ => ⟨_, _, rfl, hb, rfl⟩
  | succ m ih =>
    intro h b hb hm
    have hsub := toNat_sub_one b.refCount (by omega)
    obtain ⟨h₁, hr₁, hb₁⟩ := Heap.unref_of_lookup hb (by bv_omega)
    rw [if_neg (by bv_omega)] at hb₁
    obtain ⟨h', b', hrun, hb', hc⟩ := ih hb₁ (by simp only [hsub]; omega)
    refine ⟨h', b', by rw [List.replicate_succ, Heap.run_cons_of_step (c := .unref a) hr₁, hrun], hb', ?_⟩
    simp only [hsub] at hc
    omega

/-- The `unref` that takes the count to zero frees the symbol, and the next one reads the freed
    block. -/
theorem Heap.run_unrefs_frees {k : Nat} (hb : h.blocks.lookup a = some b) (hk : b.refCount.toNat = k + 1) :
    (h.run (List.replicate (k + 1) (.unref a))).map (·.blocks.lookup a) = some none ∧
      h.run (List.replicate (k + 2) (.unref a)) = none := by
  obtain ⟨h₁, b₁, hr₁, hb₁, hc₁⟩ := Heap.run_unrefs k hb (by omega)
  obtain ⟨h₂, hr₂, hb₂⟩ := Heap.unref_of_lookup hb₁ (by bv_omega)
  rw [if_pos (by bv_omega)] at hb₂
  have hfreed : h₂.unref a = none := by simp [Heap.unref, hb₂]
  have hrun : h.run (List.replicate (k + 1) (.unref a)) = some h₂ := by
    rw [List.replicate_succ', Heap.run_append, hr₁]
    simp [Heap.run, Heap.step, hr₂]
  refine ⟨by simp [hrun, hb₂], ?_⟩
  rw [show k + 2 = k + 1 + 1 from rfl, List.replicate_succ', Heap.run_append, hrun]
  simp [Heap.run, Heap.step, hfreed]

end Wrap

/-- From no symbols: once `ide_symbol_new` and `m ≥ 2^31` calls of `ref` have taken `1 + m` references on
    a symbol, its count stands at `G_MININT`, so the `2^31`-th `unref` frees it and the next `unref`
    reads the freed block. -/
theorem run_refs_past_gMaxint (others : Nat → Nat) (n : Nat) (name : Option String) (kind flags : BitVec 32)
    (declaration definition canonical : Option Nat) (m : Nat) (hm : 2 ^ 31 ≤ m) :
    (Heap.run ⟨[], others, 0, n⟩ (.new name kind flags declaration definition canonical :: List.replicate m (.ref n) ++
      List.replicate (2 ^ 31) (.unref n))).map (·.blocks.lookup n) = some none ∧
    Heap.run ⟨[], others, 0, n⟩ (.new name kind flags declaration definition canonical :: List.replicate m (.ref n) ++
      List.replicate (2 ^ 31 + 1) (.unref n)) = none := by
  have hb₁ : (Heap.new ⟨[], others, 0, n⟩ name kind flags declaration definition canonical).2.blocks.lookup n =
      some ⟨1, Symbol.new name kind flags declaration definition canonical⟩ := by
    simp [Heap.new]
  obtain ⟨h₂, b₂, hr₂, hb₂, hc₂⟩ := Heap.run_refs m hb₁ (by simp) (by simp)
  have hnew : Heap.run ⟨[], others, 0, n⟩ (.new name kind flags declaration definition canonical ::
      List.replicate m (.ref n)) = some h₂ := hr₂
  rw [Heap.run_append, Heap.run_append, hnew, Option.some_bind, Option.some_bind]
  exact Heap.run_unrefs_frees (k := 2 ^ 31 - 1) hb₂ (by simp at hc₂; omega)

theorem run_refs_past_gMaxint_main :
    2 ^ 31 ≤ 2 ^ 31 ∧
    (Heap.run ⟨[], fun _ => 0, 0, 0⟩ (.new (some "main") 12 0 (some 7) none (some 7) ::
      List.replicate (2 ^ 31) (.ref 0) ++ List.replicate (2 ^ 31) (.unref 0))).map (·.blocks.lookup 0) = some none ∧
    Heap.run ⟨[], fun _ => 0, 0, 0⟩ (.new (some "main") 12 0 (some 7) none (some 7) ::
      List.replicate (2 ^ 31) (.ref 0) ++ List.replicate (2 ^ 31 + 1) (.unref 0)) = none :=
  ⟨le_rfl, run_refs_past_gMaxint _ _ _ _ _ _ _ _ _ le_rfl⟩

end Libide.Symbols
