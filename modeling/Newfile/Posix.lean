import Newfile.Program

/-!
The system under the program: files by inode, directories as a map from entries
to inodes, descriptors, and what each call may answer. A call that fails changes
nothing (a descriptor is closed all the same). An inode stands for a pair of
device and inode number and is not used twice.
-/
namespace Newfile.Posix
open Newfile.Program

/-- The error numbers that the program tells apart. -/
inductive Errno where
  | EEXIST | ENOENT | EACCES | EPERM | EINVAL | EOPNOTSUPP | ENOSYS | EISDIR | ENOTDIR | EXDEV | EBADF | ETXTBSY
  | ESPIPE | ENXIO | EFBIG | EIO | ENOMEM | EINTR
  | other (n : Nat)
  deriving DecidableEq, Repr

/-- The two names have one value. -/
abbrev Errno.ENOTSUP : Errno := .EOPNOTSUPP

abbrev Path := List Char
abbrev Ino := Nat
/-- The permission, set-ID and sticky bits. -/
abbrev Mode := BitVec 12
abbrev Byte := UInt8
/-- A directory, and a name in it. -/
abbrev Entry := Ino × Path

/-! ## The two parts of a path -/

/-- The suffix of a string from the last occurrence of a character. -/
def strrchr : Path → Char → Option Path
  | [], _ => none
  | c :: s, sought =>
    match strrchr s sought with
    | some rest => some rest
    | none => if c = sought then some (c :: s) else none

def path_dir_len (path : Path) : Nat :=
  match strrchr path '/' with
  | some slash => path.length-slash.length+1
  | none => 0

/-- The string that `path_dir` builds. -/
def dirText (path : Path) : Path :=
  let dirlen := path_dir_len path
  let dirlen := if 1 < dirlen then dirlen-1 else dirlen
  if dirlen = 0 then ".".toList else path.take dirlen

def baseText (path : Path) : Path := path.drop (path_dir_len path)

/-- The entry that a path names, when directories resolve as `res` says. -/
def entry (res : Path → Ino) (path : Path) : Entry := (res (dirText path),baseText path)

/-! ## Names -/

abbrev Names := List (Entry × Ino)

def Names.get (ns : Names) (e : Entry) : Option Ino := (ns.find? fun x => x.1 == e).map (·.2)
def Names.drop (ns : Names) (e : Entry) : Names := ns.filter fun x => x.1 != e
def Names.put (ns : Names) (e : Entry) (i : Ino) : Names := (e,i) :: Names.drop ns e

@[simp] theorem Names.get_nil (e : Entry) : Names.get [] e = none := rfl

theorem Names.get_cons (x : Entry × Ino) (ns : Names) (e : Entry) :
    Names.get (x :: ns) e = if x.1 = e then some x.2 else Names.get ns e := by
  by_cases same : x.1 = e
  · simp [Names.get,same]
  · simp [Names.get,same]

theorem Names.get_drop (ns : Names) (e e' : Entry) :
    (Names.drop ns e).get e' = if e' = e then none else Names.get ns e' := by
  induction ns with
  | nil => simp [Names.drop]
  | cons x ns ih =>
    rw [Names.drop] at ih ⊢
    by_cases same : x.1 = e
    · rw [List.filter_cons_of_neg (by simp [same]),ih,Names.get_cons,same]
      by_cases sought : e' = e
      · simp [sought]
      · simp [sought,Ne.symm sought]
    · rw [List.filter_cons_of_pos (by simp [same]),Names.get_cons,ih,Names.get_cons]
      by_cases sought : x.1 = e'
      · simp [← sought,same]
      · simp [sought]

theorem Names.get_put (ns : Names) (e : Entry) (i : Ino) (e' : Entry) :
    (Names.put ns e i).get e' = if e' = e then some i else Names.get ns e' := by
  rw [Names.put,Names.get_cons,Names.get_drop]
  by_cases same : e' = e
  · simp [same]
  · simp [same,Ne.symm same]

/-- Assignments to names that take effect together. -/
abbrev Group := List (Entry × Option Ino)

def Names.assign (ns : Names) : Entry × Option Ino → Names
  | (e,some i) => ns.put e i
  | (e,none) => ns.drop e

def Names.apply (ns : Names) (g : Group) : Names := g.foldl Names.assign ns

/-! ## Calls -/

/-- A descriptor, with the inode it was opened on. -/
structure Fd where
  num : Nat
  ino : Ino
  deriving DecidableEq, Repr

inductive Kind where
  | regular
  | directory
  | other
  deriving DecidableEq, Repr

structure Stat where
  ino : Ino
  kind : Kind
  mode : Mode
  size : Nat
  blocks : Nat
  blksize : Nat
  deriving DecidableEq, Repr

inductive Call where
  /-- `malloc`, `calloc`, `realloc`, `strdup` and the like. -/
  | alloc
  | getentropy (length : Nat)
  | getrlimit_nofile
  | getrlimit_fsize
  | open_excl (path : Path) (mode : Mode)
  | open_tmpfile (dir : Path) (mode : Mode)
  | open_dir (dir : Path)
  | open_read (path : Path)
  | memfd_create
  | mkstemp (path : Path)
  | close (fd : Fd)
  | fstat (fd : Fd)
  | lstat (path : Path)
  | stat (path : Path)
  | unlink (path : Path)
  | link (src dst : Path)
  | linkat (fd : Fd) (path : Path)
  | rename (src dst : Path)
  | rename_noreplace (src dst : Path)
  | rename_exchange (a b : Path)
  | mkdir (path : Path)
  | list (dir : Path)
  | fchmod (fd : Fd) (mode : Mode)
  | fchown (fd : Fd) (uid gid : Option Nat)
  | fsync (fd : Fd)
  | sync_file_range (fd : Fd)
  | ftruncate (fd : Fd) (len : Nat)
  | fallocate (fd : Fd) (off len : Nat)
  | lseek_set (fd : Fd) (off : Nat)
  | lseek_cur (fd : Fd)
  | lseek_data (fd : Fd) (off : Nat)
  | lseek_hole (fd : Fd) (off : Nat)
  | copy_file_range (src : Fd) (src_off : Nat) (dst : Fd) (dst_off len : Nat)
  | sendfile (dst src : Fd) (src_off len : Nat)
  | splice (src dst : Fd) (len : Nat)
  | read (fd : Fd) (len : Nat)
  | pread (fd : Fd) (len off : Nat)
  | write (fd : Fd) (bytes : List Byte)
  | pwrite (fd : Fd) (bytes : List Byte) (off : Nat)

/-- What a call answers when it succeeds. -/
abbrev Call.Val : Call → Type
  | getentropy _ => List Nat
  | getrlimit_nofile | getrlimit_fsize => Option Nat
  | open_excl _ _ | open_tmpfile _ _ | open_dir _ | open_read _ | memfd_create => Fd
  | mkstemp _ => Fd × Path
  | fstat _ | lstat _ | stat _ => Stat
  | list _ => List Path
  | lseek_cur _ | lseek_data _ _ | lseek_hole _ _ => Nat
  | copy_file_range _ _ _ _ _ | sendfile _ _ _ _ | splice _ _ _ | write _ _ | pwrite _ _ _ => Nat
  | read _ _ | pread _ _ _ => List Byte
  | _ => Unit

/-- The calls, each answered by a value or an error number. -/
abbrev posix : Interface := ⟨Call,fun c => Except Errno c.Val⟩

/-! ## The state of the system -/

structure File where
  kind : Kind := .regular
  data : List Byte := []
  /-- How far the size that `fstat` tells lies beyond the end of the data. -/
  excess : Nat := 0
  mode : Mode := 0
  uid : Nat := 0
  gid : Nat := 0
  /-- Unchanged since an `fsync` that succeeded. -/
  synced : Bool := false

structure Kernel where
  names : Names
  files : Ino → File
  /-- The inodes from here on are unused. -/
  next : Ino
  nfds : Nat
  opened : List Nat
  /-- The file offsets, by descriptor number. -/
  offset : Nat → Nat
  /-- The names as they are on the disk for certain. -/
  safe : Names
  /-- The changes to names not known to be on the disk, the oldest first. -/
  journal : List Group

/-- What a call leaves to the system: the error it fails with, or details of its success. -/
inductive Choice where
  | fail (e : Errno)
  | ok (hints : List Nat)
  deriving DecidableEq

/-- The details of a success of which the system makes no use. -/
abbrev Choice.done : Choice := .ok []

/-! ## Effects -/

/-- Nothing is written by a write of no bytes, and a gap in front is filled with NUL. -/
def writeAt (data : List Byte) (off : Nat) (bytes : List Byte) : List Byte :=
  if bytes = [] then data
  else data.take off ++ List.replicate (off-data.length) 0 ++ bytes ++ data.drop (off+bytes.length)

def resize (data : List Byte) (len : Nat) : List Byte := data.take len ++ List.replicate (len-data.length) 0

/-- The bits that a change of content or owner may clear. -/
def dropIds (mode : Mode) : Mode := mode &&& 0o1777

namespace Kernel

def alter (k : Kernel) (i : Ino) (f : File → File) : Kernel :=
  { k with files := fun j => if j = i then { f (k.files i) with synced := false } else k.files j }

def edit (k : Kernel) (i : Ino) (f : List Byte → List Byte) : Kernel :=
  k.alter i fun file => { file with data := f file.data, mode := dropIds file.mode }

/-- New names, all in one directory. -/
def assign (k : Kernel) (g : Group) : Kernel := { k with names := k.names.apply g, journal := k.journal ++ [g] }

/-- A descriptor that was not in use. -/
def newFd (k : Kernel) (i : Ino) : Fd × Kernel :=
  (⟨k.nfds,i⟩,{ k with
    nfds := k.nfds+1, opened := k.nfds :: k.opened,
    offset := fun n => if n = k.nfds then 0 else k.offset n })

/-- An inode that was not in use, open. -/
def newFile (k : Kernel) (file : File) : Fd × Kernel :=
  { k with files := fun j => if j = k.next then file else k.files j, next := k.next+1 }.newFd k.next

def closeFd (k : Kernel) (fd : Fd) : Kernel := { k with opened := k.opened.filter (· != fd.num) }

def seek (k : Kernel) (fd : Fd) (off : Nat) : Kernel :=
  { k with offset := fun n => if n = fd.num then off else k.offset n }

def data (k : Kernel) (fd : Fd) : List Byte := (k.files fd.ino).data
def size (k : Kernel) (fd : Fd) : Nat := (k.data fd).length+(k.files fd.ino).excess

def statOf (k : Kernel) (i : Ino) (hints : List Nat) : Stat :=
  let file := k.files i
  ⟨i,file.kind,file.mode,file.data.length+file.excess,hints.getD 0 0,hints.getD 1 0⟩

/-- The file that an entry holds, unless it is a directory. -/
def fileAt (k : Kernel) (e : Entry) : Option Ino := (k.names.get e).filter fun i => (k.files i).kind != .directory

/-- The directory that a group of assignments is about. -/
def groupDir (g : Group) : Option Ino := g.head?.map (·.1.1)

/-- An `fsync` that succeeds: the file is on the disk, and of a directory all names are. -/
def flushed (k : Kernel) (i : Ino) : Kernel :=
  { k with
    files := fun j => if j = i then { k.files i with synced := true } else k.files j
    safe := (k.journal.filter fun g => groupDir g == some i).foldl Names.apply k.safe
    journal := k.journal.filter fun g => groupDir g != some i }

end Kernel

/-! ## Answers -/

variable (res : Path → Ino)

/-- The failures that a state rules out: the errors by which the program learns
    what is there are true. -/
def mayFail (k : Kernel) : Call → Errno → Bool
  | .lstat path, .ENOENT | .unlink path, .ENOENT => (k.names.get (entry res path)).isNone
  | .open_excl path _, .EEXIST | .link _ path, .EEXIST | .linkat _ path, .EEXIST
  | .rename_noreplace _ path, .EEXIST | .mkdir path, .EEXIST => (k.names.get (entry res path)).isSome
  | .lseek_data fd off, Errno.ENXIO => (k.files fd.ino).excess == 0 && ((k.data fd).drop off).all (· == 0)
  | _, _ => true

/-- A successful call. The hints give the mode that a new file is granted, its
    owner and group, how many bytes are moved, or where data begins and ends. -/
def answer (k : Kernel) (hints : List Nat) : (c : Call) → Option (c.Val × Kernel)
  | .alloc => some ((),k)
  | .getentropy length => if hints.length = length ∧ ∀ b ∈ hints, b < 256 then some (hints,k) else none
  | .getrlimit_nofile | .getrlimit_fsize => some (hints.head?,k)
  | .open_excl path mode =>
    let e := entry res path
    if k.names.get e = none then
      let granted := mode &&& BitVec.ofNat 12 (hints.getD 0 0)
      let (fd,k) := k.newFile { mode := granted, uid := hints.getD 1 0, gid := hints.getD 2 0 }
      some (fd,k.assign [(e,some fd.ino)])
    else none
  | .open_tmpfile _ mode =>
    let granted := mode &&& BitVec.ofNat 12 (hints.getD 0 0)
    some (k.newFile { mode := granted, uid := hints.getD 1 0, gid := hints.getD 2 0 })
  | .open_dir dir => some (k.newFd (res dir))
  | .open_read path =>
    match k.names.get (entry res path) with
    | some i => some (k.newFd i)
    | none => none
  | .memfd_create => some (k.newFile {})
  | .mkstemp path =>
    let path := path.take (path.length-6) ++ (hints.take 6).map Char.ofNat
    let e := entry res path
    if k.names.get e = none then
      let (fd,k) := k.newFile { mode := 0o600 }
      some ((fd,path),k.assign [(e,some fd.ino)])
    else none
  | .close fd => some ((),k.closeFd fd)
  | .fstat fd => some (k.statOf fd.ino hints,k)
  | .lstat path =>
    match k.names.get (entry res path) with
    | some i => some (k.statOf i hints,k)
    | none => none
  | .stat path => some (⟨res path,if hints.getD 2 0 = 0 then .directory else .regular,0,0,0,0⟩,k)
  | .unlink path =>
    let e := entry res path
    if (k.fileAt e).isSome then some ((),k.assign [(e,none)]) else none
  | .link src dst =>
    let e := entry res dst
    match k.fileAt (entry res src), k.names.get e with
    | some i, none => some ((),k.assign [(e,some i)])
    | _, _ => none
  | .linkat fd path =>
    let e := entry res path
    if k.names.get e = none then some ((),k.assign [(e,some fd.ino)]) else none
  | .rename src dst =>
    match k.fileAt (entry res src) with
    | some i =>
      -- Nothing happens between two names of one file.
      if k.names.get (entry res dst) = some i then some ((),k)
      else if k.names.get (entry res dst) ≠ k.fileAt (entry res dst) then none
      else some ((),k.assign [(entry res dst,some i),(entry res src,none)])
    | none => none
  | .rename_noreplace src dst =>
    match k.fileAt (entry res src), k.names.get (entry res dst) with
    | some i, none => some ((),k.assign [(entry res dst,some i),(entry res src,none)])
    | _, _ => none
  | .rename_exchange a b =>
    match k.names.get (entry res a), k.names.get (entry res b) with
    | some i, some j => some ((),k.assign [(entry res a,some j),(entry res b,some i)])
    | _, _ => none
  | .mkdir path =>
    let e := entry res path
    if k.names.get e = none then
      let k := k.alter (res path) fun _ => { kind := .directory }
      some ((),k.assign [(e,some (res path))])
    else none
  | .list dir => some ((k.names.filter fun x => x.1.1 == res dir).map (·.1.2),k)
  | .fchmod fd mode => some ((),k.alter fd.ino fun file => { file with mode })
  | .fchown fd uid gid =>
    some ((),k.alter fd.ino fun file =>
      { file with uid := uid.getD file.uid, gid := gid.getD file.gid, mode := dropIds file.mode })
  | .fsync fd => some ((),k.flushed fd.ino)
  | .sync_file_range _ => some ((),k)
  | .ftruncate fd len => some ((),k.edit fd.ino (resize · len))
  | .fallocate fd off len => some ((),k.edit fd.ino fun data => if data.length < off+len then resize data (off+len) else data)
  | .lseek_set fd off => some ((),k.seek fd off)
  | .lseek_cur fd => some (k.offset fd.num,k)
  | .lseek_data fd off =>
    let at_ := hints.getD 0 0
    if off ≤ at_ ∧ at_ < k.size fd ∧ (((k.data fd).take at_).drop off).all (· == 0)
        ∧ ((k.files fd.ino).excess = 0 ∨ at_ = off) then some (at_,k)
    else none
  | .lseek_hole fd off =>
    let at_ := hints.getD 0 0
    if off < at_ ∧ at_ ≤ k.size fd ∧ ((k.files fd.ino).excess = 0 ∨ at_ = k.size fd) then some (at_,k) else none
  | .copy_file_range src src_off dst dst_off len =>
    let n := hints.getD 0 0
    if n = 0 then some (0,k)
    else if n ≤ len ∧ src_off+n ≤ (k.data src).length then
      some (n,k.edit dst.ino (writeAt · dst_off (((k.data src).drop src_off).take n)))
    else none
  | .sendfile dst src src_off len =>
    let n := hints.getD 0 0
    if n = 0 then some (0,k)
    else if n ≤ len ∧ src_off+n ≤ (k.data src).length then
      some (n,(k.edit dst.ino (writeAt · (k.offset dst.num) (((k.data src).drop src_off).take n))).seek dst
        (k.offset dst.num+n))
    else none
  | .splice src dst len =>
    let n := hints.getD 0 0
    let bytes := ((k.data src).drop (k.offset src.num)).take n
    if n ≤ len ∧ bytes.length = n ∧ (n = 0 → (k.data src).length ≤ k.offset src.num) then
      some (n,((k.edit dst.ino (writeAt · (k.offset dst.num) bytes)).seek src (k.offset src.num+n)).seek dst
        (k.offset dst.num+n))
    else none
  | .read fd len =>
    let n := hints.getD 0 0
    let bytes := ((k.data fd).drop (k.offset fd.num)).take n
    if n ≤ len ∧ bytes.length = n ∧ (n = 0 → len = 0 ∨ (k.data fd).length ≤ k.offset fd.num) then
      some (bytes,k.seek fd (k.offset fd.num+n))
    else none
  | .pread fd len off =>
    let n := hints.getD 0 0
    let bytes := ((k.data fd).drop off).take n
    if n ≤ len ∧ bytes.length = n ∧ (n = 0 → len = 0 ∨ (k.data fd).length ≤ off) then some (bytes,k) else none
  | .write fd bytes =>
    let n := hints.getD 0 0
    if n ≤ bytes.length then
      some (n,(k.edit fd.ino (writeAt · (k.offset fd.num) (bytes.take n))).seek fd (k.offset fd.num+n))
    else none
  | .pwrite fd bytes off =>
    let n := hints.getD 0 0
    if n ≤ bytes.length then some (n,k.edit fd.ino (writeAt · off (bytes.take n))) else none

/-- A call that failed: only `close` has an effect. -/
def afterFailure (k : Kernel) : Call → Kernel
  | .close fd => k.closeFd fd
  | _ => k

def step (k : Kernel) (c : Call) : Choice → Option (posix.Res c × Kernel)
  | .fail e => if mayFail res k c e then some (.error e,afterFailure k c) else none
  | .ok hints => (answer res k hints c).map fun x => (.ok x.1,x.2)

/-- The system that answers as some choice lets it. -/
def exec : System posix Kernel := fun k c r k' => ∃ ch, step res k c ch = some (r,k')

/-- A call fails as it may, or it has an answer. -/
theorem exec_cases {res : Path → Ino} {k k' : Kernel} {c : Call} {r : posix.Res c} (answered : exec res k c r k') :
    (∃ e, mayFail res k c e = true ∧ r = .error e ∧ k' = afterFailure k c) ∨
      ∃ hints x, answer res k hints c = some x ∧ r = .ok x.1 ∧ k' = x.2 := by
  obtain ⟨ch,picked⟩ := answered
  cases ch with
  | fail e =>
    simp only [step,Option.ite_none_right_eq_some,Option.some.injEq,Prod.mk.injEq] at picked
    obtain ⟨may,failed,same⟩ := picked
    exact .inl ⟨e,may,failed.symm,same.symm⟩
  | ok hints =>
    simp only [step,Option.map_eq_some_iff,Prod.mk.injEq] at picked
    obtain ⟨x,found,value,after⟩ := picked
    exact .inr ⟨hints,x,found,value.symm,after.symm⟩

end Newfile.Posix
