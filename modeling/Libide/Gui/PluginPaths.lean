import Mathlib.Data.BitVec

/-! # Where the plugins are installed

`_ide_application_load_plugins` (`ide-application-plugins.c`) works out where Builder is installed from
`/proc/self/exe`, by hand: it reads the link into the 256-byte `pBuf`, drops the last 17 bytes
(`bin/gnome-builder`) and builds five paths in variable-length arrays, one byte at a time. An array is a
list of cells, each a byte or indeterminate. Declaring a variable-length array of size at most `0`, an
access outside an array and a read of an indeterminate byte are undefined behaviour: faults here, and
the function stops at the first.

For a target of 18 to 255 bytes without `NUL` every write lands in its array, the last writes of
`plugin_lib_dir` and `plugin_data_dir` in their last cells, and the arrays hold the paths. `MIN`
compares readlink's `ssize_t` with a `size_t`, so a failed call's `-1` turns into `2 ^ 64 - 1`, `bytes`
is `255` and passes `bytes >= 0`, and `strlen` reads bytes readlink never wrote. A target under 18
bytes declares `real_prefix_path` with a size of at most `0`, and one of 256 bytes or more is cut to
255 before the 17 bytes are dropped. -/

namespace Libide.Gui

/-! ### Arrays -/

/-- Undefined behaviour, where it happens: a variable-length array declared with a size at most `0`,
    an access outside an array, a read of a byte nothing wrote. -/
inductive Fault
  | vlaSize (array : String) (size : Int)
  | outOfBounds (array : String) (index : Int)
  | indeterminate (array : String) (index : Nat)
  deriving DecidableEq, Repr

/-- A `char` array: its name and its cells, `none` where nothing was written. -/
structure Buf where
  name : String
  cells : List (Option Char)
  deriving DecidableEq, Repr

namespace Buf

/-- `char name[size]` of a constant size. -/
def fixed (name : String) (size : Nat) : Buf := ⟨name, List.replicate size none⟩

/-- `char name[size]` of a variable size. -/
def declare (name : String) (size : Int) : Except Fault Buf :=
  if size ≤ 0 then .error (.vlaSize name size) else .ok (fixed name size.toNat)

/-- `b[i] = c`. -/
def write (b : Buf) (i : Int) (c : Char) : Except Fault Buf :=
  if 0 ≤ i ∧ i < b.cells.length then .ok { b with cells := b.cells.set i.toNat (some c) }
  else .error (.outOfBounds b.name i)

/-- `b[i]`. -/
def read (b : Buf) (i : Int) : Except Fault Char :=
  if 0 ≤ i then
    match b.cells[i.toNat]? with
    | some (some c) => .ok c
    | some none => .error (.indeterminate b.name i.toNat)
    | none => .error (.outOfBounds b.name i)
  else .error (.outOfBounds b.name i)

/-- `b[i] = s[0]; b[i + 1] = s[1]; ...`: a literal written out one index at a time. -/
def writeChars : Buf → Int → List Char → Except Fault Buf
  | b, _, [] => .ok b
  | b, i, c :: cs => (b.write i c).bind fun b => writeChars b (i + 1) cs

/-- `strlen` over the cells from index `i` on. -/
def strlenFrom (name : String) : List (Option Char) → Nat → Except Fault Nat
  | [], i => .error (.outOfBounds name i)
  | none :: _, i => .error (.indeterminate name i)
  | some c :: cs, i => if c = '\x00' then .ok i else strlenFrom name cs (i + 1)

/-- `strlen (b)`. -/
def strlen (b : Buf) : Except Fault Nat := strlenFrom b.name b.cells 0

end Buf

/-- The loops that copy `n` bytes of `src` into `dst` from index `start`: `dst[i] = src[i]` for
    `i < n` (`start = 0`), and `dst[j] = lib_gnome_dir[z]` for `j` from `i + 1` on. -/
def copyRange (src dst : Buf) (start : Int) (n : Nat) : Except Fault Buf :=
  (List.range n).foldlM (fun dst (k : Nat) => (src.read k).bind (dst.write (start + k))) dst

/-- `package_datadir[k] = real_prefix_path[k]; pachage_libdir[k] = real_prefix_path[k];` -/
def copyBoth (src : Buf) (d : Buf × Buf) (k : Nat) : Except Fault (Buf × Buf) := do
  let d₁ ← d.1.write k (← src.read k)
  let d₂ ← d.2.write k (← src.read k)
  pure (d₁, d₂)

/-- The loop that copies `real_prefix_path` into `package_datadir` and `pachage_libdir` together. -/
def copyLoop₂ (src dst₁ dst₂ : Buf) (n : Int) : Except Fault (Buf × Buf) :=
  (List.range n.toNat).foldlM (copyBoth src) (dst₁, dst₂)

/-- `i` after `for (i = 0; i < n; i++)`. -/
def loopEnd (n : Int) : Int := max n 0

/-! ### The function -/

/-- `readlink ("/proc/self/exe", buf, bufsiz)` where the link's target is `target`, `none` when the
    call fails: `-1` and nothing written, or else the target's first `bufsiz` bytes at most, not
    followed by a `NUL`, and their number. -/
def readlink (target : Option (List Char)) (buf : Buf) (bufsiz : Nat) : Int × Buf :=
  match target with
  | none => (-1, buf)
  | some p =>
    ((min p.length bufsiz : Nat), { buf with cells := (p.take bufsiz).map some ++ buf.cells.drop (min p.length bufsiz) })

/-- `int bytes = MIN (r, bound)` for an `ssize_t` `r` and a `size_t` `bound`: the comparison and the
    result are in `size_t`, 64 bits wide, and the result is stored in a 32-bit `int`. -/
def minToInt (r : Int) (bound : Nat) : Int :=
  let a := BitVec.ofInt 64 r
  let b := BitVec.ofNat 64 bound
  ((if a.ult b then a else b).setWidth 32).toInt

/-- `pBuf` once read, bounded with `MIN` and terminated. -/
def readExe (target : Option (List Char)) : Except Fault Buf :=
  let len := 256
  let (r, pBuf) := readlink target (.fixed "pBuf" 256) len
  let bytes := minToInt r (len - 1)
  if bytes ≥ 0 then pBuf.write bytes '\x00' else .ok pBuf

/-- `girepositorydir`, `plugin_lib_dir` and `plugin_data_dir`: an array of `size` that receives the
    `baseLen` bytes of `base`, then the 14 bytes of `lib_gnome_dir` after index `i = baseLen - 1`, then
    the bytes of `tail` from `i + 15`. -/
def gnomeBuilderDir (name : String) (size : Int) (base : Buf) (baseLen : Int) (gnome : Buf)
    (tail : List Char) : Except Fault Buf := do
  let dir ← Buf.declare name size
  let dir ← copyRange base dir 0 baseLen.toNat
  let i := loopEnd baseLen - 1
  let dir ← copyRange gnome dir (i + 1) 14
  dir.writeChars (i + 15) tail

/-- The paths, as their arrays hold them at the end. -/
structure Dirs where
  packageDatadir : Buf
  pachageLibdir : Buf
  girepositorydir : Buf
  pluginLibDir : Buf
  pluginDataDir : Buf
  deriving DecidableEq, Repr

/-- The construction from `pBuf` on. -/
def buildDirs (pBuf : Buf) : Except Fault Dirs := do
  let pathlen ← pBuf.strlen
  let totalPrifexLength : Int := pathlen - 17
  let realPrefixPath ← Buf.declare "real_prefix_path" totalPrifexLength
  let realPrefixPath ← copyRange pBuf realPrefixPath 0 totalPrifexLength.toNat
  let packageDatadir ← Buf.declare "package_datadir" (10 + totalPrifexLength)
  let pachageLibdir ← Buf.declare "pachage_libdir" (totalPrifexLength + 27)
  let libGnomeDir ← (Buf.fixed "lib_gnome_dir" 15).writeChars 0 "/gnome-builder\x00".data
  let copied ← copyLoop₂ realPrefixPath packageDatadir pachageLibdir totalPrifexLength
  let i := loopEnd totalPrifexLength - 1
  let packageDatadir ← copied.1.writeChars (i + 1) "share\x00".data
  let pachageLibdir ← copied.2.writeChars (i + 1) "lib/x86_64-linux-gnu\x00".data
  let _ ← pachageLibdir.strlen
  let libdirLin ← pachageLibdir.strlen
  let datadirLin ← packageDatadir.strlen
  let girepositorydir ← gnomeBuilderDir "girepositorydir" (libdirLin + 35) pachageLibdir libdirLin
    libGnomeDir "/girepository-1.0\x00".data
  let pluginLibDir ← gnomeBuilderDir "plugin_lib_dir" (libdirLin + 14 + 9) pachageLibdir libdirLin
    libGnomeDir "/plugins\x00".data
  let pluginDataDir ← gnomeBuilderDir "plugin_data_dir" (datadirLin + 14 + 9) packageDatadir datadirLin
    libGnomeDir "/plugins\x00".data
  pure ⟨packageDatadir, pachageLibdir, girepositorydir, pluginLibDir, pluginDataDir⟩

/-- The first part of `_ide_application_load_plugins`, up to the five paths. -/
def loadPluginsDirs (target : Option (List Char)) : Except Fault Dirs := readExe target >>= buildDirs

/-! ### Arrays as written -/

namespace Buf

/-- The array `name` whose first cells hold `w` and whose `m` cells after them were never written. -/
def filled (name : String) (w : List Char) (m : Nat) : Buf := ⟨name, w.map some ++ List.replicate m none⟩

variable {name : String} {w s : List Char} {m : Nat}

theorem declare_pos {size : Int} (h : 0 < size) : declare name size = .ok (filled name [] size.toNat) := by
  rw [declare, if_neg (by omega)]
  rfl

theorem filled_cells_append (name : String) (v t : List Char) (k : Nat) :
    (filled name (v ++ t) k).cells = v.map some ++ (t.map some ++ List.replicate k none) := by
  simp [filled]

theorem write_append {i : Int} {c : Char} {x : Option Char} {rest : List (Option Char)} (hi : i = w.length) :
    Buf.write ⟨name, w.map some ++ x :: rest⟩ i c = .ok ⟨name, w.map some ++ some c :: rest⟩ := by
  subst hi
  simp [write, List.set_append_right, Int.natCast_nonneg]

/-- A write just past the written cells extends them. -/
theorem write_filled {i : Int} {c : Char} (hi : i = w.length) (hm : 0 < m) :
    (filled name w m).write i c = .ok (filled name (w ++ [c]) (m - 1)) := by
  obtain ⟨m, rfl⟩ : ∃ k, m = k + 1 := ⟨m - 1, by omega⟩
  rw [filled, List.replicate_succ, write_append hi]
  simp [filled]

theorem writeChars_filled {i : Int} (hi : i = w.length) (hs : s.length ≤ m) :
    (filled name w m).writeChars i s = .ok (filled name (w ++ s) (m - s.length)) := by
  induction s generalizing w m i with
  | nil => simp [writeChars]
  | cons c cs ih =>
    simp only [List.length_cons] at hs
    rw [writeChars, write_filled hi (by omega), Except.bind, ih (by simp [hi]) (by omega)]
    simp [Nat.sub_sub, Nat.add_comm]

theorem read_prefix {b : Buf} {rest : List (Option Char)} (hb : b.cells = w.map some ++ rest) {k : Nat}
    (hk : k < w.length) : b.read k = .ok w[k] := by
  simp [read, hb, List.getElem?_append_left, hk, Int.natCast_nonneg]

theorem strlenFrom_append (hw : '\x00' ∉ w) (rest : List (Option Char)) (i : Nat) :
    strlenFrom name (w.map some ++ rest) i = strlenFrom name rest (i + w.length) := by
  induction w generalizing i with
  | nil => rfl
  | cons c cs ih =>
    simp only [List.mem_cons, not_or] at hw
    rw [List.map_cons, List.cons_append, strlenFrom, if_neg (Ne.symm hw.1), ih hw.2]
    congr 1
    simp only [List.length_cons]
    omega

/-- `strlen` of an array that holds a string without `NUL`, then a `NUL`. -/
theorem strlen_cstring {b : Buf} {rest : List (Option Char)} (hb : b.cells = w.map some ++ some '\x00' :: rest)
    (hw : '\x00' ∉ w) : b.strlen = .ok w.length := by
  simp [strlen, hb, strlenFrom_append hw, strlenFrom]

theorem strlen_filled {t : List Char} (h : '\x00' ∉ w) :
    (filled name (w ++ '\x00' :: t) m).strlen = .ok w.length :=
  strlen_cstring (filled_cells_append name w ('\x00' :: t) m) h

end Buf

/-! ### Loops -/

open Buf

@[simp] theorem ok_bind {ε α β : Type} (a : α) (f : α → Except ε β) : (Except.ok a >>= f) = f a := rfl

variable {name name₁ name₂ : String} {w v : List Char} {m m₁ m₂ n : Nat}

theorem copyRange_succ (src dst : Buf) (start : Int) (n : Nat) :
    copyRange src dst start (n + 1) =
      copyRange src dst start n >>= fun d => src.read n >>= d.write (start + n) := by
  simp only [copyRange, List.range_succ, List.foldlM_append, List.foldlM_cons, List.foldlM_nil, bind_pure]
  rfl

/-- Copying `n` bytes of `v` just past the written cells of an array with room for them. -/
theorem copyRange_filled {src : Buf} {rest : List (Option Char)} (hsrc : src.cells = v.map some ++ rest)
    {start : Int} (hstart : start = w.length) (hn : n ≤ v.length) (hm : n ≤ m) :
    copyRange src (filled name w m) start n = .ok (filled name (w ++ v.take n) (m - n)) := by
  induction n with
  | zero =>
    simp only [copyRange, List.range_zero, List.foldlM_nil, List.take_zero, List.append_nil, Nat.sub_zero]
    rfl
  | succ n ih =>
    have htake : v.take n ++ [v[n]] = v.take (n + 1) := by
      rw [← List.concat_eq_append, List.take_concat_get]
    rw [copyRange_succ, ih (by omega) (by omega), ok_bind, read_prefix hsrc (by omega), ok_bind,
      write_filled (by simp [hstart]; omega) (by omega)]
    simp only [List.append_assoc, htake, Nat.sub_sub]

theorem copyLoop₂_succ (src dst₁ dst₂ : Buf) (n : Nat) :
    copyLoop₂ src dst₁ dst₂ (n + 1 : Nat) = copyLoop₂ src dst₁ dst₂ n >>= fun d => copyBoth src d n := by
  simp only [copyLoop₂, Int.toNat_ofNat, List.range_succ, List.foldlM_append, List.foldlM_cons,
    List.foldlM_nil, bind_pure]

theorem copyLoop₂_filled {src : Buf} {rest : List (Option Char)} (hsrc : src.cells = v.map some ++ rest)
    (hn : n ≤ v.length) (hm₁ : n ≤ m₁) (hm₂ : n ≤ m₂) :
    copyLoop₂ src (filled name₁ [] m₁) (filled name₂ [] m₂) n =
      .ok (filled name₁ (v.take n) (m₁ - n), filled name₂ (v.take n) (m₂ - n)) := by
  induction n with
  | zero => rfl
  | succ n ih =>
    have hread := read_prefix hsrc (by omega : n < v.length)
    have hat : (n : Int) = (v.take n).length := by rw [List.length_take]; omega
    rw [copyLoop₂_succ, ih (by omega) (by omega) (by omega)]
    simp only [copyBoth, ok_bind, hread, write_filled hat (by omega : 0 < m₁ - n),
      write_filled hat (by omega : 0 < m₂ - n)]
    have htake : v.take n ++ [v[n]] = v.take (n + 1) := by
      rw [← List.concat_eq_append, List.take_concat_get]
    simp only [htake, Nat.sub_sub]
    rfl

@[simp] theorem loopEnd_natCast (n : Nat) : loopEnd n = n := by simp [loopEnd]

theorem libGnomeDir_eq :
    (Buf.fixed "lib_gnome_dir" 15).writeChars 0 "/gnome-builder\x00".data =
      .ok ⟨"lib_gnome_dir", "/gnome-builder".data.map some ++ [some '\x00']⟩ := rfl

/-- The three arrays built on a path `v`: `v`, `/gnome-builder`, the tail, then `extra` cells never
    written, when `size` leaves exactly `extra` cells of room. -/
theorem gnomeBuilderDir_eq {size : Int} {base gnome : Buf} {tail : List Char} (extra : Nat)
    {rest rest' : List (Option Char)} (hbase : base.cells = v.map some ++ rest)
    (hgnome : gnome.cells = "/gnome-builder".data.map some ++ rest')
    (hsize : size = v.length + 14 + tail.length + extra) :
    gnomeBuilderDir name size base v.length gnome tail =
      .ok (filled name (v ++ "/gnome-builder".data ++ tail) extra) := by
  have hpos : 0 < size := by omega
  have hg : "/gnome-builder".data.length = 14 := rfl
  simp only [gnomeBuilderDir, declare_pos hpos, ok_bind, Int.toNat_ofNat, loopEnd_natCast]
  rw [copyRange_filled hbase (show (0 : Int) = ([] : List Char).length from rfl) le_rfl (by omega), ok_bind,
    List.nil_append, List.take_length, copyRange_filled hgnome (by omega) (by omega) (by omega), ok_bind,
    List.take_of_length_le (by omega), writeChars_filled (by rw [List.length_append]; omega) (by omega),
    show size.toNat - v.length - 14 - tail.length = extra by omega]

/-! ### The paths -/

/-- The arrays as `_ide_application_load_plugins` fills them from the prefix `q`: each path, its
    `NUL`, then the cells nothing wrote. -/
def installDirs (q : List Char) : Dirs :=
  let datadir := q ++ "share".data
  let libdir := q ++ "lib/x86_64-linux-gnu".data
  { packageDatadir := filled "package_datadir" (datadir ++ ['\x00']) 4
    pachageLibdir := filled "pachage_libdir" (libdir ++ ['\x00']) 6
    girepositorydir := filled "girepositorydir" (libdir ++ "/gnome-builder/girepository-1.0\x00".data) 3
    pluginLibDir := filled "plugin_lib_dir" (libdir ++ "/gnome-builder/plugins\x00".data) 0
    pluginDataDir := filled "plugin_data_dir" (datadir ++ "/gnome-builder/plugins\x00".data) 0 }

/-- From a `pBuf` that holds a path `s` of at least 18 bytes, the construction keeps every access in
    bounds and builds the paths on `s` without its last 17 bytes. -/
theorem buildDirs_eq {pBuf : Buf} {s : List Char} {rest : List (Option Char)}
    (hp : pBuf.cells = s.map some ++ some '\x00' :: rest) (hs : '\x00' ∉ s) (hlen : 18 ≤ s.length) :
    buildDirs pBuf = .ok (installDirs (s.take (s.length - 17))) := by
  obtain ⟨n, hn⟩ : ∃ n, s.length = n + 17 := ⟨s.length - 17, by omega⟩
  have ht : (s.length : Int) - 17 = n := by omega
  have hq : (s.take n).length = n := by rw [List.length_take]; omega
  have hq0 : '\x00' ∉ s.take n := fun h => hs (List.mem_of_mem_take h)
  have hshare : ("share".data ++ ['\x00']).length = 6 := rfl
  have hlib : ("lib/x86_64-linux-gnu".data ++ ['\x00']).length = 21 := rfl
  have hgir : "/girepository-1.0\x00".data.length = 18 := rfl
  have hplugins : "/plugins\x00".data.length = 9 := rfl
  unfold buildDirs
  rw [strlen_cstring hp hs, ok_bind]
  dsimp -proj only
  -- `real_prefix_path`, and the declarations up to `lib_gnome_dir`
  rw [ht, declare_pos (by omega), ok_bind, Int.toNat_ofNat,
    copyRange_filled hp (show (0 : Int) = ([] : List Char).length from rfl) (by omega) le_rfl, ok_bind,
    declare_pos (by omega), ok_bind, declare_pos (by omega), ok_bind, libGnomeDir_eq, ok_bind]
  -- `package_datadir` and `pachage_libdir`: the prefix, then `share` or `lib/x86_64-linux-gnu`
  rw [List.nil_append, Nat.sub_self, copyLoop₂_filled (n := n) rfl (by omega) (by omega) (by omega), ok_bind,
    List.take_take, min_self, loopEnd_natCast,
    show "share\x00".data = "share".data ++ ['\x00'] from rfl,
    show "lib/x86_64-linux-gnu\x00".data = "lib/x86_64-linux-gnu".data ++ ['\x00'] from rfl,
    writeChars_filled (by omega) (by omega), ok_bind, writeChars_filled (by omega) (by omega), ok_bind,
    ← List.append_assoc, ← List.append_assoc]
  -- their lengths, and the three paths built on them
  rw [strlen_filled (List.not_mem_append hq0 (by decide)), ok_bind, ok_bind,
    strlen_filled (List.not_mem_append hq0 (by decide)), ok_bind,
    gnomeBuilderDir_eq 3 (filled_cells_append _ _ _ _) rfl (by omega), ok_bind,
    gnomeBuilderDir_eq 0 (filled_cells_append _ _ _ _) rfl (by omega), ok_bind,
    gnomeBuilderDir_eq 0 (filled_cells_append _ _ _ _) rfl (by omega), ok_bind, hn, Nat.add_sub_cancel,
    show (10 + (n : Int)).toNat - n - ("share".data ++ ['\x00']).length = 4 by omega,
    show ((n : Int) + 27).toNat - n - ("lib/x86_64-linux-gnu".data ++ ['\x00']).length = 6 by omega]
  simp only [installDirs, List.append_assoc]
  rfl

/-- A path under 18 bytes gives `real_prefix_path` a size of at most `0`. -/
theorem buildDirs_short {pBuf : Buf} {s : List Char} {rest : List (Option Char)}
    (hp : pBuf.cells = s.map some ++ some '\x00' :: rest) (hs : '\x00' ∉ s) (hlen : s.length < 18) :
    buildDirs pBuf = .error (.vlaSize "real_prefix_path" (s.length - 17)) := by
  unfold buildDirs
  rw [strlen_cstring hp hs, ok_bind]
  dsimp -proj only
  rw [Buf.declare, if_pos (by omega)]
  rfl

theorem minToInt_natCast {n bound : Nat} (hn : n < 2 ^ 31) (hb : bound < 2 ^ 31) :
    minToInt n bound = (min n bound : Nat) := by
  have hofInt : BitVec.ofInt 64 (n : Int) = BitVec.ofNat 64 n := by
    apply BitVec.eq_of_toNat_eq
    simp
  have hmin : (if (BitVec.ofNat 64 n).ult (BitVec.ofNat 64 bound) then BitVec.ofNat 64 n else BitVec.ofNat 64 bound)
      = BitVec.ofNat 64 (min n bound) := by
    by_cases h : n < bound
    · rw [if_pos (by simp [BitVec.ult]; omega), min_eq_left (by omega)]
    · rw [if_neg (by simp [BitVec.ult]; omega), min_eq_right (by omega)]
  simp only [minToInt, hofInt, hmin, BitVec.toInt_eq_toNat_cond, BitVec.toNat_setWidth, BitVec.toNat_ofNat]
  rw [Nat.mod_eq_of_lt (by omega), Nat.mod_eq_of_lt (by omega), if_pos (by omega)]

/-- After a successful readlink, `pBuf` holds the target's first 255 bytes at most and a `NUL`. -/
theorem readExe_some (p : List Char) :
    readExe (some p) =
      .ok ⟨"pBuf", (p.take 255).map some ++ some '\x00' :: List.replicate (255 - p.length) none⟩ := by
  have hbytes : minToInt (min p.length 256 : Nat) (256 - 1) = (min p.length 255 : Nat) := by
    rw [minToInt_natCast (by omega) (by omega)]
    omega
  simp only [readExe, readlink, fixed, hbytes, List.drop_replicate]
  clear hbytes
  rw [if_pos (Int.natCast_nonneg _)]
  by_cases h : p.length ≤ 255
  · rw [min_eq_left (by omega : p.length ≤ 256), min_eq_left h, List.take_of_length_le (by omega),
      List.take_of_length_le h, show 256 - p.length = (255 - p.length) + 1 by omega, List.replicate_succ,
      write_append rfl]
  · have hbound : 255 < p.length := by omega
    have hfull : List.take 256 p = List.take 255 p ++ [p[255]] := by
      rw [← List.concat_eq_append, List.take_concat_get]
    rw [min_eq_right (by omega : 256 ≤ p.length), min_eq_right (by omega : 255 ≤ p.length), hfull,
      List.map_append, List.append_assoc, List.map_cons, List.map_nil, List.cons_append, List.nil_append,
      write_append (by rw [List.length_take]; omega), Nat.sub_self, show 255 - p.length = 0 by omega]

/-- After a failed readlink `MIN` gives `255`, and only `pBuf[255]` is written. -/
theorem readExe_none :
    readExe none = .ok ⟨"pBuf", none :: (List.replicate 255 none).set 254 (some '\x00')⟩ := by
  have hmin : minToInt (-1) (256 - 1) = 255 := by decide
  simp only [readExe, readlink, hmin]
  rw [if_pos (by decide), Buf.write, if_pos (by simp only [Buf.fixed, List.length_replicate]; omega), Buf.fixed,
    List.replicate_succ]
  rfl

theorem loadPluginsDirs_eq_installDirs (p : List Char) (hlen : 18 ≤ p.length) (hmax : p.length ≤ 255)
    (hnul : '\x00' ∉ p) : loadPluginsDirs (some p) = .ok (installDirs (p.take (p.length - 17))) := by
  rw [loadPluginsDirs, readExe_some, ok_bind, List.take_of_length_le hmax]
  exact buildDirs_eq rfl hnul hlen

theorem loadPluginsDirs_usr :
    loadPluginsDirs (some "/usr/bin/gnome-builder".data) = .ok (installDirs "/usr/".data) :=
  loadPluginsDirs_eq_installDirs _ (by decide) (by decide) (by decide)

theorem loadPluginsDirs_readlink_faults :
    (minToInt (-1) 255 = 255 ∧ loadPluginsDirs none = .error (.indeterminate "pBuf" 0)) ∧
    (∀ p : List Char, p.length < 18 → '\x00' ∉ p →
      loadPluginsDirs (some p) = .error (.vlaSize "real_prefix_path" (p.length - 17))) ∧
    (∀ p : List Char, 256 ≤ p.length → '\x00' ∉ p →
      loadPluginsDirs (some p) = .ok (installDirs (p.take 238))) := by
  refine ⟨⟨by decide, by rw [loadPluginsDirs, readExe_none]; rfl⟩, fun p hlen hnul => ?_, fun p hlen hnul => ?_⟩
  · rw [loadPluginsDirs, readExe_some, ok_bind, List.take_of_length_le (by omega)]
    exact buildDirs_short rfl hnul hlen
  · have h255 : (p.take 255).length = 255 := by simp; omega
    rw [loadPluginsDirs, readExe_some, ok_bind, show 255 - p.length = 0 by omega,
      buildDirs_eq rfl (fun h => hnul (List.mem_of_mem_take h)) (by omega), h255, List.take_take]
    rfl

theorem loadPluginsDirs_readlink_faults_short_long :
    loadPluginsDirs (some "/gnome-builder".data) = .error (.vlaSize "real_prefix_path" (-3)) ∧
      loadPluginsDirs (some (List.replicate 256 'a')) = .ok (installDirs ((List.replicate 256 'a').take 238)) :=
  ⟨loadPluginsDirs_readlink_faults.2.1 _ (by decide) (by decide),
    loadPluginsDirs_readlink_faults.2.2 _ (List.length_replicate 256 'a').ge
      (by simp only [List.mem_replicate]; decide)⟩

end Libide.Gui
