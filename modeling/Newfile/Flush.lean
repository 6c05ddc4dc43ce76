import Newfile.Process

/-!
`flush.c` and `paths.c`: making files, and the directories that name them,
durable, and making the directories of a path. The descriptors of one call are
flushed one after the other.
-/
namespace Newfile.Flush
open Newfile.Program Newfile.Posix Newfile.Process

/-- `path_dir`. -/
def path_dir (path : Path) : P (Except Errno Path) := do
  match ← allocate with
  | .error e => return .error e
  | .ok () => return .ok (dirText path)

/-! ## flush.c -/

/-- No error for a directory that cannot be flushed. -/
def sync_err (e : Errno) (dir : Bool) : Option Errno :=
  if dir ∧ (e = .EINVAL ∨ e = .ENOTSUP) then none else some e

def sync_one : Nat → Fd → Bool → P (Option Errno)
  | 0, _, _ => .spin
  | fuel+1, fd, dir => do
    match ← perform (.fsync fd) with
    | .ok () => return none
    | .error e => if e = .EINTR then sync_one fuel fd dir else return sync_err e dir

def flush_fds (fuel : Nat) (dir : Bool) : List Fd → P (List (Option Errno))
  | [] => return []
  | fd :: fds => do
    let err ← sync_one fuel fd dir
    let errs ← flush_fds fuel dir fds
    return err :: errs

def flush_dir (fuel : Nat) (dir : Path) : P (Except Errno Unit) := do
  match ← perform (.open_dir dir) with
  | .error e => return if e = .EACCES ∨ e = .EPERM then .ok () else .error e
  | .ok fd =>
    let err ← sync_one fuel fd true
    let _ ← perform (.close fd)
    match err with
    | some e => return .error e
    | none => return .ok ()

def flush_set_init (max : Nat) : P Unit := modify fun m => { m with dirs_max := min max NEWFILE_BATCH }

def dir_failed (name : Path) (e : Errno) (known : Option Ino) : P Unit := do
  say (.cannot_flush name e)
  modify fun m => { m with dirs_nfailed := m.dirs_nfailed+1 }
  let m ← get
  if m.failures.length = NEWFILE_BATCH then modify fun m => { m with failures_lost := true }
  else
    match ← allocate with
    | .error _ => modify fun m => { m with failures_lost := true }
    | .ok () => modify fun m => { m with failures := m.failures ++ [⟨name,known⟩] }

/-- A directory that `flush_set_run` has opened. -/
structure OpenDir where
  name : Path
  fd : Fd
  known : Option Ino

/-- The first loop of `flush_set_run`, with the directories opened so far. -/
def openDirs : List Path → List OpenDir → P (List OpenDir)
  | [], opened => return opened
  | dir :: dirs, opened => do
    match ← perform (.open_dir dir) with
    | .error e =>
      if e ≠ .EACCES ∧ e ≠ .EPERM then
        dir_failed dir e none
        openDirs dirs opened
      else openDirs dirs opened
    | .ok fd =>
      match ← perform (.fstat fd) with
      | .ok st =>
        if opened.any fun o => o.known = some st.ino then
          let _ ← perform (.close fd)
          openDirs dirs opened
        else openDirs dirs (opened ++ [⟨dir,fd,some st.ino⟩])
      | .error _ => openDirs dirs (opened ++ [⟨dir,fd,none⟩])

/-- The last loop of `flush_set_run`. -/
def closeDirs : List (OpenDir × Option Errno) → P Unit
  | [] => pure ()
  | (o,err) :: rest => do
    match err with
    | some e =>
      dir_failed o.name e o.known
      let _ ← perform (.close o.fd)
      closeDirs rest
    | none =>
      let _ ← perform (.close o.fd)
      closeDirs rest

def flush_set_run (fuel : Nat) : P Unit := do
  let m ← get
  let opened ← openDirs m.dirs []
  modify fun m => { m with dirs := [] }
  let errs ← flush_fds fuel true (opened.map (·.fd))
  closeDirs (opened.zip errs)

/-- `flush_set_add` once there is room. -/
def addDir (fuel : Nat) (dir : Path) : P Unit := do
  match ← allocate with
  | .ok () => modify fun m => { m with dirs := m.dirs ++ [dir] }
  | .error _ =>
    match ← flush_dir fuel dir with
    | .error e => dir_failed dir e none
    | .ok () => pure ()

def flush_set_add (fuel : Nat) (dir : Path) : P Unit := do
  let m ← get
  if dir ∈ m.dirs then pure ()
  else if m.dirs.length = m.dirs_max then
    flush_set_run fuel
    addDir fuel dir
  else addDir fuel dir

/-- The loop of `flush_set_failed`, with the inode of the directory once it is known. -/
def failedLoop (dir : Path) : List DirFailure → Option Ino → P Bool
  | [], _ => return false
  | f :: failures, stated => do
    if f.name = dir then return true
    else
      match f.known, stated with
      | none, _ => failedLoop dir failures stated
      | some ino, some st => if st = ino then return true else failedLoop dir failures (some st)
      | some ino, none =>
        match ← perform (.stat dir) with
        | .error _ => return true
        | .ok st => if st.ino = ino then return true else failedLoop dir failures (some st.ino)

def flush_set_failed (dir : Path) : P Bool := do
  let m ← get
  if m.failures_lost then return true else failedLoop dir m.failures none

def flush_set_forget : P Unit := modify fun m => { m with failures := [], failures_lost := false }

def flush_set_failures : P Nat := do
  let m ← get
  return m.dirs_nfailed

/-! ## paths.c -/

def ensure_directory (path : Path) : P (Except Errno Unit) := do
  match ← perform (.stat path) with
  | .error e => return .error e
  | .ok st => return if st.kind = .directory then .ok () else .error .ENOTDIR

/-- One round of the loop of `path_make_parents`, for the directory `buf`. -/
def makeParent (fuel : Nat) (buf : Path) : P (Except Errno Unit) := do
  match ← perform (.mkdir buf) with
  | .ok () =>
    match ← path_dir buf with
    | .error e => return .error e
    | .ok parent =>
      flush_set_add fuel parent
      return .ok ()
  | .error e => if e = .EEXIST then ensure_directory buf else return .error e

/-- The loop of `path_make_parents`, with so many characters of `buf` behind `p`. -/
def parentsLoop (fuel : Nat) (buf : Path) : Nat → P (Except Errno Unit)
  | 0 => makeParent fuel buf
  | behind+1 => do
    if (buf.getD (buf.length-(behind+1)) '/') = '/' then
      match ← makeParent fuel (buf.take (buf.length-(behind+1))) with
      | .error e => return .error e
      | .ok () => parentsLoop fuel buf behind
    else parentsLoop fuel buf behind

def path_make_parents (fuel : Nat) (path : Path) : P (Except Errno Unit) := do
  match ← allocate with
  | .error e => return .error e
  | .ok () =>
    match strrchr path '/' with
    | none => return .ok ()
    | some slash =>
      if slash.length = path.length then return .ok ()
      else
        let buf := path.take (path.length-slash.length)
        parentsLoop fuel buf (buf.length-1)

end Newfile.Flush
