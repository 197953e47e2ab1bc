import Mathlib.Logic.Relation
import Mathlib.Data.List.Basic

/-! # The ctags miner's directory walk

`ide_ctags_service_mine_directory` (`ide-ctags-service.c`) as a function of the filesystem, the
session's cancellable and the calls made so far. GIO follows symbolic links (`G_FILE_QUERY_INFO_NONE`),
so a filesystem is a graph of inodes whose directory entries name the inode they resolve to: a link to
a directory is an edge like any other, and a directory may be reachable from itself.

The kernel follows at most `MAXSYMLINKS` (40) symbolic links in one path lookup and fails the next one
with `ELOOP`. GIO `lstat`s an entry and then follows it, so an entry whose link would pass the limit
reads as a broken link (`G_FILE_TYPE_SYMBOLIC_LINK`), and a path below it does not resolve at all.

Every call the walk makes to GIO, and every `ide_ctags_service_load_tags`, is an event of the trace,
with what it returned. A call made once the cancellable is cancelled fails. The source recurses without
bound; here `fuel` bounds the depth of the recursion, and running out of it is `none`. -/

namespace Libide.Ctags

/-- `GFileType`, the values the walk can see. -/
inductive FileType
  | unknown
  | regular
  | directory
  | symbolicLink
  | special
  deriving DecidableEq, Repr

/-- An inode once its symbolic links are followed: an entry names the inode it resolves to, and a link
    that resolves to nothing is `dangling`. A directory that cannot be listed is not `readable`. -/
inductive Inode
  | regular
  | directory (entries : List (String × Nat)) (readable : Bool)
  | special
  | dangling
  deriving DecidableEq, Repr

def Inode.fileType : Inode → FileType
  | .regular => .regular
  | .directory .. => .directory
  | .special => .special
  | .dangling => .symbolicLink

/-- The names of a directory are distinct. -/
def Inode.WellNamed : Inode → Prop
  | .directory es _ => (es.map Prod.fst).Nodup
  | _ => True

instance : DecidablePred Inode.WellNamed
  | .directory es _ => inferInstanceAs (Decidable (es.map Prod.fst).Nodup)
  | .regular | .special | .dangling => inferInstanceAs (Decidable True)

/-- `MAXSYMLINKS`: the symbolic links the kernel follows in one path lookup. -/
def maxSymlinks : Nat := 40

/-- The entries of directory `i` that are not symbolic links (`links name = 0`) name inodes of higher
    number. -/
def Inode.PlainBelow (links : String → Nat) (i : Nat) : Inode → Prop
  | .directory es _ => ∀ e ∈ es, links e.1 = 0 → i < e.2
  | _ => True

instance (links : String → Nat) (i : Nat) : DecidablePred (Inode.PlainBelow links i)
  | .directory es _ => inferInstanceAs (Decidable (∀ e ∈ es, links e.1 = 0 → i < e.2))
  | .regular | .special | .dangling => inferInstanceAs (Decidable True)

/-- A finite filesystem; inode `0` is `/`. `links i name` counts the symbolic links the kernel follows
    to resolve the entry `name` of directory `i`: none for an entry that is not a link; for a link, the
    link and those its target's lookup follows. There are no hard links to directories, so the entries
    that are not links form a tree below `/`, whose inodes are numbered down the tree. -/
structure Fs where
  inodes : List Inode
  wellNamed : ∀ n ∈ inodes, n.WellNamed
  links : Nat → String → Nat
  plainBelow : ∀ i (h : i < inodes.length), inodes[i].PlainBelow (links i) i

/-- A `GFile`: a path from `/`, never canonicalised. -/
abbrev Path := List String

namespace Fs
variable (fs : Fs)

def inode? (i : Nat) : Option Inode := fs.inodes[i]?

/-- The inode that the entry `name` of directory `i` resolves to. -/
def child? (i : Nat) (name : String) : Option Nat :=
  match fs.inode? i with
  | some (.directory es _) => es.lookup name
  | _ => none

/-- One component of the kernel's path lookup, from the inode reached and the links followed so far:
    `ENOENT` where there is no such entry, `ELOOP` where its links would pass `maxSymlinks`. -/
def step (s : Nat × Nat) (name : String) : Option (Nat × Nat) :=
  (fs.child? s.1 name).bind fun j =>
    if s.2 + fs.links s.1 name ≤ maxSymlinks then some (j, s.2 + fs.links s.1 name) else none

/-- The kernel's lookup of a path from `/`: the inode reached and the symbolic links followed. -/
def lookup (p : Path) : Option (Nat × Nat) := p.foldl (fun o name => o.bind (fs.step · name)) (some (0, 0))

/-- The inode a path resolves to. -/
def resolve (p : Path) : Option Nat := (fs.lookup p).map Prod.fst

def typeOf (i : Nat) : FileType := ((fs.inode? i).map Inode.fileType).getD .unknown

/-- What GIO reports of the entry `name`, naming inode `j`, of the directory reached as `s`: it
    `lstat`s the entry, then follows it, and a link the kernel will not follow is a broken link. -/
def entryType (s : Nat × Nat) (name : String) (j : Nat) : FileType :=
  if s.2 + fs.links s.1 name ≤ maxSymlinks then fs.typeOf j else .symbolicLink

/-- `g_file_query_file_type (file, G_FILE_QUERY_INFO_NONE, ...)` on a live cancellable: `UNKNOWN` where
    the lookup of the file's directory, or its entry there, fails. -/
def fileType (p : Path) : FileType :=
  match p.getLast? with
  | none => fs.typeOf 0
  | some name => ((fs.lookup p.dropLast).bind fun s => (fs.child? s.1 name).map (fs.entryType s name)).getD .unknown

/-- What `g_file_enumerate_children` lists of a directory on a live cancellable: each entry's name and
    the type `g_file_query_info` gives it; `none` where it fails (no lookup, not a directory, or not
    readable). -/
def children (p : Path) : Option (List (String × FileType)) :=
  (fs.lookup p).bind fun s =>
    match fs.inode? s.1 with
    | some (.directory es true) => some (es.map fun e => (e.1, fs.entryType s e.1 e.2))
    | _ => none

@[simp] theorem lookup_nil : fs.lookup [] = some (0, 0) := rfl

@[simp] theorem lookup_append_singleton (p : Path) (name : String) :
    fs.lookup (p ++ [name]) = (fs.lookup p).bind (fs.step · name) := by
  simp [lookup]

theorem fileType_append_singleton (p : Path) (name : String) :
    fs.fileType (p ++ [name]) =
      ((fs.lookup p).bind fun s => (fs.child? s.1 name).map (fs.entryType s name)).getD .unknown := by
  simp [fileType]

end Fs

/-- A call of the walk, with what it returned. An enumerator is named by its directory, `none` being
    `NULL`. -/
inductive Event
  | isCancelled (cancelled : Bool)
  | queryFileType (file : Path) (type : FileType)
  | loadTags (file : Path)
  | enumerateChildren (directory : Path) (enumerator : Option Path)
  | nextFile (enumerator : Option Path) (info : Option (String × FileType))
  | enumeratorClose (enumerator : Option Path)
  | unref (enumerator : Option Path)
  deriving DecidableEq, Repr

/-- The session's `GCancellable` as the walk sees it: cancelled from the call at position `k` of the
    trace on, or never. -/
structure Cancellable where
  cancelledAt : Option Nat
  deriving DecidableEq, Repr

namespace Cancellable

def never : Cancellable := ⟨none⟩

/-- `g_cancellable_is_cancelled`, asked after the calls of `tr`. -/
def isCancelled (c : Cancellable) (tr : List Event) : Bool :=
  match c.cancelledAt with
  | some k => decide (k ≤ tr.length)
  | none => false

@[simp] theorem never_isCancelled (tr : List Event) : never.isCancelled tr = false := rfl

theorem isCancelled_mono {c : Cancellable} {tr tr' : List Event} (h : c.isCancelled tr = true)
    (hl : tr.length ≤ tr'.length) : c.isCancelled tr' = true := by
  unfold isCancelled at *
  split at h <;> simp_all only [decide_eq_true_eq, Bool.false_eq_true]
  omega

end Cancellable

/-- The files passed to `ide_ctags_service_load_tags`, in order. -/
def loads : List Event → List Path :=
  List.filterMap fun
    | .loadTags f => some f
    | _ => none

@[simp] theorem loads_nil : loads [] = [] := rfl

@[simp] theorem loads_append (tr tr' : List Event) : loads (tr ++ tr') = loads tr ++ loads tr' :=
  List.filterMap_append _ _ _

@[simp] theorem loads_loadTags (f : Path) (tr : List Event) : loads (.loadTags f :: tr) = f :: loads tr := rfl

@[simp] theorem loads_isCancelled (b : Bool) (tr : List Event) : loads (.isCancelled b :: tr) = loads tr := rfl

@[simp] theorem loads_queryFileType (f : Path) (t : FileType) (tr : List Event) :
    loads (.queryFileType f t :: tr) = loads tr := rfl

@[simp] theorem loads_enumerateChildren (d : Path) (e : Option Path) (tr : List Event) :
    loads (.enumerateChildren d e :: tr) = loads tr := rfl

@[simp] theorem loads_nextFile (e : Option Path) (i : Option (String × FileType)) (tr : List Event) :
    loads (.nextFile e i :: tr) = loads tr := rfl

@[simp] theorem loads_enumeratorClose (e : Option Path) (tr : List Event) :
    loads (.enumeratorClose e :: tr) = loads tr := rfl

@[simp] theorem loads_unref (e : Option Path) (tr : List Event) : loads (.unref e :: tr) = loads tr := rfl

/-! ### The walk -/

section Walk
variable (fs : Fs) (c : Cancellable)

/-- `g_file_query_file_type` of `directory/tags`, then `ide_ctags_service_load_tags` when it is a
    regular file. -/
def probeTags (directory : Path) (tr : List Event) : List Event :=
  let child := directory ++ ["tags"]
  let type := if c.isCancelled tr then .unknown else fs.fileType child
  let tr := tr ++ [.queryFileType child type]
  if type = .regular then tr ++ [.loadTags child] else tr

/-- `g_file_enumerate_children`: the listing, `none` when the call fails. -/
def enumerateChildren (directory : Path) (tr : List Event) : Option (List (String × FileType)) :=
  if c.isCancelled tr then none else fs.children directory

/-- The `while` loop over `g_file_enumerator_next_file`, which returns `NULL` at the end of the listing,
    on a `NULL` enumerator (whose listing is empty) and once the cancellable is cancelled; `walk` is the
    recursive call on a subdirectory. -/
def mineEntries (walk : Path → List Event → Option (List Event)) (directory : Path)
    (enumerator : Option Path) : List (String × FileType) → List Event → Option (List Event)
  | [], tr => some (tr ++ [.nextFile enumerator none])
  | (name, type) :: rest, tr =>
    if c.isCancelled tr then some (tr ++ [.nextFile enumerator none])
    else
      let tr := tr ++ [.nextFile enumerator (some (name, type))]
      if type = .directory then (walk (directory ++ [name]) tr).bind (mineEntries walk directory enumerator rest)
      else mineEntries walk directory enumerator rest tr

/-- `ide_ctags_service_mine_directory (self, directory, recurse, cancellable)`. -/
def mineDirectory : Nat → Path → Bool → List Event → Option (List Event)
  | 0, _, _, _ => none
  | fuel + 1, directory, recurse, tr =>
    if c.isCancelled tr then some (tr ++ [.isCancelled true])
    else
      let tr := probeTags fs c directory (tr ++ [.isCancelled false])
      if !recurse then some tr
      else
        let listing := enumerateChildren fs c directory tr
        let enumerator := listing.map fun _ => directory
        (mineEntries c (mineDirectory fuel · recurse) directory enumerator (listing.getD [])
            (tr ++ [.enumerateChildren directory enumerator])).map
          (· ++ [.enumeratorClose enumerator, .unref enumerator])

end Walk

end Libide.Ctags
