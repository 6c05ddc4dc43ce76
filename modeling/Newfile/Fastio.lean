import Newfile.Process

/-!
`fastio.c` and `io.c`: kernel fast paths that fall back to portable code, whole
writes, and filling a range with NUL. A loop that has no bound of its own gets
`fuel` rounds.
-/
namespace Newfile.Fastio
open Newfile.Program Newfile.Posix Newfile.Process

/-- What a fast path returns when it did not fail: 0 when it did its work, 1 when it cannot. -/
inductive Fast where
  | done
  | cannot
  deriving DecidableEq, Repr

def SSIZE_MAX : Nat := 2^63-1
def SPLICE_MAX : Nat := 2^30

/-- `size_limit`, read once. -/
def sizeLimit : P (Option Nat) := do
  let m ← get
  match m.size_limit with
  | some limit => return limit
  | none =>
    match ← perform .getrlimit_fsize with
    | .ok limit =>
      modify fun m => { m with size_limit := some limit }
      return limit
    | .error _ =>
      modify fun m => { m with size_limit := some none }
      return none

def fast_alloc (fd : Fd) (off len : Nat) : P (Except Errno Fast) := do
  if len = 0 then return .ok .cannot
  else
    match ← sizeLimit with
    | some limit =>
      if limit < off+len then return .error .EFBIG else allocated
    | none => allocated
where
  allocated : P (Except Errno Fast) := do
    match ← perform (.fallocate fd off len) with
    | .ok () => return .ok .done
    | .error e => return if e = .EOPNOTSUPP ∨ e = .ENOSYS ∨ e = .EINVAL then .ok .cannot else .error e

def clamp_len (len : Nat) : Nat := min len SSIZE_MAX

/-- The offsets reached are returned, `dst_off` first. -/
def sendLoop (dst_fd src_fd : Fd) : Nat → Nat → Nat → Nat → P (Except Errno (Fast × Nat × Nat))
  | 0, _, _, _ => .spin
  | fuel+1, dst_off, src_off, len => do
    if len = 0 then return .ok (.done,dst_off,src_off)
    else
      match ← perform (.sendfile dst_fd src_fd src_off (clamp_len len)) with
      | .error e =>
        return if e = .EINVAL ∨ e = .ENOSYS ∨ e = .EOPNOTSUPP ∨ e = .EBADF ∨ e = .ESPIPE then
          .ok (.cannot,dst_off,src_off) else .error e
      | .ok nsent =>
        if nsent = 0 then return .ok (.cannot,dst_off,src_off)
        else sendLoop dst_fd src_fd fuel (dst_off+nsent) (src_off+nsent) (len-nsent)

def fast_sendfile (fuel : Nat) (dst_fd : Fd) (dst_off : Nat) (src_fd : Fd) (src_off len : Nat) :
    P (Except Errno (Fast × Nat × Nat)) := do
  match ← perform (.lseek_set dst_fd dst_off) with
  | .error _ => return .ok (.cannot,dst_off,src_off)
  | .ok () => sendLoop dst_fd src_fd fuel dst_off src_off len

/-- The errors of `copy_file_range` after which `sendfile` is tried. -/
def copyFallsBack (e : Errno) : Bool :=
  e = .EXDEV || e = .EINVAL || e = .ENOSYS || e = .EOPNOTSUPP || e = .EBADF || e = .EPERM || e = .ETXTBSY

def copyLoop (sends : Nat) (dst_fd src_fd : Fd) : Nat → Nat → Nat → Nat → P (Except Errno (Fast × Nat × Nat))
  | 0, _, _, _ => .spin
  | fuel+1, dst_off, src_off, len => do
    if len = 0 then return .ok (.done,dst_off,src_off)
    else
      match ← perform (.copy_file_range src_fd src_off dst_fd dst_off (clamp_len len)) with
      | .error e =>
        if copyFallsBack e then fast_sendfile sends dst_fd dst_off src_fd src_off len else return .error e
      | .ok ncopied =>
        if ncopied = 0 then fast_sendfile sends dst_fd dst_off src_fd src_off len
        else copyLoop sends dst_fd src_fd fuel (dst_off+ncopied) (src_off+ncopied) (len-ncopied)

/-- Both offsets advance and are returned, `dst_off` first. -/
def fast_copy (fuel : Nat) (dst_fd : Fd) (dst_off : Nat) (src_fd : Fd) (src_off len : Nat) :
    P (Except Errno (Fast × Nat × Nat)) :=
  copyLoop fuel dst_fd src_fd fuel dst_off src_off len

/-- The errors of `renameat2` that say that the filesystem cannot. -/
def renameCannot (e : Errno) : Bool := e = .EINVAL || e = .ENOSYS || e = .EOPNOTSUPP

/-- `proc_usable`, found out once. -/
def procUsable : P Bool := do
  let m ← get
  match m.proc_usable with
  | some usable => return usable
  | none =>
    match ← perform (.stat "/proc/self/fd".toList) with
    | .ok st =>
      modify fun m => { m with proc_usable := some (st.kind = .directory) }
      return st.kind = .directory
    | .error _ =>
      modify fun m => { m with proc_usable := some false }
      return false

/-- No descriptor when unnamed files are unusable. -/
def fast_tmpfile (dir : Path) (mode : Mode) : P (Except Errno (Option Fd)) := do
  if ← procUsable then
    match ← perform (.open_tmpfile dir mode) with
    | .ok fd => return .ok (some fd)
    | .error e => return if e = .EOPNOTSUPP ∨ e = .EISDIR then .ok none else .error e
  else return .ok none

def fast_link (fd : Fd) (path : Path) : P (Except Errno Unit) := perform (.linkat fd path)

def fast_rename_noreplace (src dst : Path) : P (Except Errno Fast) := do
  match ← perform (.rename_noreplace src dst) with
  | .ok () => return .ok .done
  | .error e => return if renameCannot e then .ok .cannot else .error e

def fast_exchange (a b : Path) : P (Except Errno Fast) := do
  match ← perform (.rename_exchange a b) with
  | .ok () => return .ok .done
  | .error e => return if renameCannot e then .ok .cannot else .error e

def fast_writeback (fd : Fd) : P Unit := do
  let _ ← perform (.sync_file_range fd)
  return ()

/-- No descriptor when there are no memory files. -/
def fast_spool : P (Except Errno (Option Fd)) := do
  match ← perform .memfd_create with
  | .ok fd => return .ok (some fd)
  | .error e => return if e = .ENOSYS ∨ e = .EPERM ∨ e = .EINVAL then .ok none else .error e

def spliceLoop (dst_fd src_fd : Fd) : Nat → Bool → P (Except Errno Fast)
  | 0, _ => .spin
  | fuel+1, moved => do
    match ← perform (.splice src_fd dst_fd SPLICE_MAX) with
    | .error e => return if !moved ∧ (e = .EINVAL ∨ e = .ENOSYS) then .ok .cannot else .error e
    | .ok nmoved => if nmoved = 0 then return .ok .done else spliceLoop dst_fd src_fd fuel true

def fast_splice (fuel : Nat) (dst_fd src_fd : Fd) : P (Except Errno Fast) := spliceLoop dst_fd src_fd fuel false

/-! ## io.c -/

def IO_BUFSIZE_MIN : Nat := 131072
def IO_BUFSIZE_MAX : Nat := 1048576

def writeLoop (fd : Fd) (buf : List Byte) : Nat → Nat → P (Except Errno Unit)
  | 0, _ => .spin
  | fuel+1, off => do
    if off < buf.length then
      match ← perform (.write fd (buf.drop off)) with
      | .error e => return .error e
      | .ok nwritten => if nwritten = 0 then return .error Errno.EIO else writeLoop fd buf fuel (off+nwritten)
    else return .ok ()

def io_write (fuel : Nat) (fd : Fd) (buf : List Byte) : P (Except Errno Unit) := writeLoop fd buf fuel 0

def pwriteLoop (fd : Fd) (buf : List Byte) (off : Nat) : Nat → Nat → P (Except Errno Unit)
  | 0, _ => .spin
  | fuel+1, done => do
    if done < buf.length then
      match ← perform (.pwrite fd (buf.drop done) (off+done)) with
      | .error e => return .error e
      | .ok nwritten => if nwritten = 0 then return .error Errno.EIO else pwriteLoop fd buf off fuel (done+nwritten)
    else return .ok ()

def io_pwrite (fuel : Nat) (fd : Fd) (buf : List Byte) (off : Nat) : P (Except Errno Unit) :=
  pwriteLoop fd buf off fuel 0

def io_bufsize (fd : Fd) : P Nat := do
  match ← perform (.fstat fd) with
  | .ok st => return if IO_BUFSIZE_MIN < st.blksize then min st.blksize IO_BUFSIZE_MAX else IO_BUFSIZE_MIN
  | .error _ => return IO_BUFSIZE_MIN

/-- `posix_memalign`, or else `malloc`. -/
def io_bufalloc : P (Except Errno Unit) := do
  match ← allocate with
  | .ok () => return .ok ()
  | .error _ => allocate

def fillLoop (pwrites : Nat) (fd : Fd) (bufsize : Nat) : Nat → Nat → Nat → P (Except Errno Unit)
  | 0, _, _ => .spin
  | fuel+1, pos, remaining => do
    if remaining = 0 then return .ok ()
    else
      let chunk := min remaining bufsize
      match ← io_pwrite pwrites fd (List.replicate chunk 0) pos with
      | .error e => return .error e
      | .ok () => fillLoop pwrites fd bufsize fuel (pos+chunk) (remaining-chunk)

def io_fill (fuel : Nat) (fd : Fd) (off len : Nat) : P (Except Errno Unit) := do
  if len = 0 then return .ok ()
  else
    match ← fast_alloc fd off len with
    | .error e => return .error e
    | .ok .done => return .ok ()
    | .ok .cannot =>
      let bufsize := min len (← io_bufsize fd)
      match ← allocate with
      | .error e => return .error e
      | .ok () => fillLoop fuel fd bufsize fuel off len

end Newfile.Fastio
