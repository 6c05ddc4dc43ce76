import Newfile.Fastio
import Newfile.Pending

/-!
`template.c` and `holes.c`: what a new file starts out holding, and where the
data of the template sits.
-/
namespace Newfile.Template
open Newfile.Program Newfile.Posix Newfile.Process Newfile.Pending Newfile.Fastio

def ST_NBLOCKSIZE : Nat := 512
def ZERO_BLOCK : Nat := 4096

/-! ## holes.c -/

inductive Extent where
  | data (start end_ : Nat)
  | past

def hole_next_data (fd : Fd) (start size : Nat) : P (Except Errno Extent) := do
  if size ≤ start then return .ok .past
  else
    match ← perform (.lseek_data fd start) with
    | .error e =>
      return if e = Errno.ENXIO then .ok .past
        else if e = .EINVAL ∨ e = .ENOTSUP then .ok (.data start size)
        else .error e
    | .ok data =>
      match ← perform (.lseek_hole fd data) with
      | .error _ => return .ok (.data data size)
      | .ok gap => return .ok (.data data (min gap size))

def hole_tail (fd : Fd) (size : Nat) : P Bool := do
  if size = 0 then return false
  else
    match ← perform (.lseek_data fd (size-1)) with
    | .error e => return e = Errno.ENXIO
    | .ok _ => return false

def hole_unknown (fd : Fd) : P Bool := do
  match ← perform (.lseek_data fd 0) with
  | .error e => return e = .EINVAL ∨ e = .ENOTSUP
  | .ok _ => return false

/-! ## template.c -/

inductive Kind where
  | TMPL_EXTENTS
  | TMPL_ZEROS
  | TMPL_STREAM
  deriving DecidableEq, Repr

structure Tmpl where
  size : Nat
  kind : Kind
  fd : Fd
  own_fd : Bool
  tail_hole : Bool
  deriving DecidableEq, Repr

def streamLoop (writes : Nat) (dst_fd src_fd : Fd) (bufsize : Nat) : Nat → P (Except Errno Unit)
  | 0 => .spin
  | fuel+1 => do
    match ← perform (.read src_fd bufsize) with
    | .error e => return .error e
    | .ok bytes =>
      if bytes = [] then return .ok ()
      else
        match ← io_write writes dst_fd bytes with
        | .error e => return .error e
        | .ok () => streamLoop writes dst_fd src_fd bufsize fuel

def copy_stream (fuel : Nat) (dst_fd src_fd : Fd) : P (Except Errno Unit) := do
  let bufsize ← io_bufsize dst_fd
  match ← io_bufalloc with
  | .error e => return .error e
  | .ok () => streamLoop fuel dst_fd src_fd bufsize fuel

/-- The size of the buffer of a `copy_buf`, which is allocated when it is first needed. -/
def copyBuf (dst_fd src_fd : Fd) : Option Nat → P (Except Errno Nat)
  | some size => return .ok size
  | none => do
    let size ← io_bufsize src_fd
    let dstsize ← io_bufsize dst_fd
    match ← io_bufalloc with
    | .error e => return .error e
    | .ok () => return .ok (max size dstsize)

/-- How `copy_slow` ends: with all copied, or at the end of the source. It leaves
    the offset in the destination and the buffer. -/
structure Slow where
  early : Bool
  dst_off : Nat
  buf : Option Nat

def slowLoop (pwrites : Nat) (dst_fd src_fd : Fd) (end_ : Nat) :
    Nat → Nat → Nat → Option Nat → P (Except Errno Slow)
  | 0, _, _, _ => .spin
  | fuel+1, src_off, dst_off, buf => do
    if src_off < end_ then
      match ← copyBuf dst_fd src_fd buf with
      | .error e => return .error e
      | .ok size =>
        match ← perform (.pread src_fd (min (end_-src_off) size) src_off) with
        | .error e => return .error e
        | .ok bytes =>
          if bytes = [] then return .ok ⟨true,dst_off,some size⟩
          else
            match ← io_pwrite pwrites dst_fd bytes dst_off with
            | .error e => return .error e
            | .ok () =>
              slowLoop pwrites dst_fd src_fd end_ fuel (src_off+bytes.length) (dst_off+bytes.length) (some size)
    else return .ok ⟨false,dst_off,buf⟩

def copy_slow (fuel : Nat) (dst_fd src_fd : Fd) (src_off dst_off end_ : Nat) (buf : Option Nat) :
    P (Except Errno Slow) :=
  slowLoop fuel dst_fd src_fd end_ fuel src_off dst_off buf

/-- The loop of `copy_extents` ends with the offset written up to, and whether
    the source ended early. -/
def extentsLoop (copies : Nat) (dst_fd src_fd : Fd) (size : Nat) :
    Nat → Nat → Nat → Option Nat → P (Except Errno (Nat × Bool))
  | 0, _, _, _ => .spin
  | fuel+1, start, written, buf => do
    match ← hole_next_data src_fd start size with
    | .error e => return .error e
    | .ok .past => return .ok (written,false)
    | .ok (.data start end_) =>
      match ← fast_copy copies dst_fd start src_fd start (end_-start) with
      | .error e => return .error e
      | .ok (_,dst_off,src_off) =>
        match ← copy_slow copies dst_fd src_fd src_off dst_off end_ buf with
        | .error e => return .error e
        | .ok slow =>
          if slow.early then return .ok (slow.dst_off,true)
          else extentsLoop copies dst_fd src_fd size fuel end_ slow.dst_off slow.buf

def copy_extents (fuel : Nat) (dst_fd src_fd : Fd) (size : Nat) : P (Except Errno Unit) := do
  match ← extentsLoop fuel dst_fd src_fd size fuel 0 0 none with
  | .error e => return .error e
  | .ok (written,overstated) =>
    if written < size ∧ !overstated then perform (.ftruncate dst_fd size) else return .ok ()

def all_zero (buf : List Byte) : Bool := buf.all (· == 0)

def tail_zero (fd : Fd) (size : Nat) : P Bool := do
  let len := min size ZERO_BLOCK
  match ← perform (.pread fd len (size-len)) with
  | .ok buf => return buf.length = len ∧ all_zero buf
  | .error _ => return false

/-- The loop over the blocks of what was read at `off`. -/
def blocksLoop (pwrites : Nat) (dst_fd : Fd) (blksize : Nat) (buf : List Byte) (off : Nat) :
    Nat → Nat → P (Except Errno Unit)
  | 0, _ => .spin
  | fuel+1, i => do
    if i < buf.length then
      let len := min (buf.length-i) blksize
      let block := (buf.drop i).take len
      if all_zero block then blocksLoop pwrites dst_fd blksize buf off fuel (i+len)
      else
        match ← io_pwrite pwrites dst_fd block (off+i) with
        | .error e => return .error e
        | .ok () => blocksLoop pwrites dst_fd blksize buf off fuel (i+len)
    else return .ok ()

def zerosLoop (blocks : Nat) (dst_fd src_fd : Fd) (size bufsize blksize : Nat) :
    Nat → Nat → P (Except Errno Nat)
  | 0, _ => .spin
  | fuel+1, off => do
    if off < size then
      match ← perform (.pread src_fd (min (size-off) bufsize) off) with
      | .error e => return .error e
      | .ok bytes =>
        if bytes = [] then return .ok off
        else
          match ← blocksLoop blocks dst_fd blksize bytes off blocks 0 with
          | .error e => return .error e
          | .ok () => zerosLoop blocks dst_fd src_fd size bufsize blksize fuel (off+bytes.length)
    else return .ok off

/-- The block size to look for zeros by. -/
def zeroBlock (dst_fd : Fd) (bufsize : Nat) : P Nat := do
  match ← perform (.fstat dst_fd) with
  | .ok st => return if 0 < st.blksize ∧ st.blksize ≤ bufsize then st.blksize else ZERO_BLOCK
  | .error _ => return ZERO_BLOCK

def copy_zeros (fuel : Nat) (dst_fd src_fd : Fd) (size : Nat) : P (Except Errno Unit) := do
  let bufsize ← io_bufsize src_fd
  let blksize ← zeroBlock dst_fd bufsize
  match ← io_bufalloc with
  | .error e => return .error e
  | .ok () =>
    match ← zerosLoop fuel dst_fd src_fd size bufsize blksize fuel 0 with
    | .error e => return .error e
    | .ok off => perform (.ftruncate dst_fd off)

/-- The directory to spool into, from what `getenv` finds under TMPDIR. -/
def spoolDir : Option Path → Path
  | some (c :: dir) => c :: dir
  | _ => "/tmp".toList

def spool_open (tmpdir : Option Path) : P (Except Errno Fd) := do
  match ← fast_spool with
  | .error e => return .error e
  | .ok (some fd) => return .ok fd
  | .ok none =>
    match ← allocate with
    | .error e => return .error e
    | .ok () =>
      let old ← pending_hold
      match ← perform (.mkstemp (spoolDir tmpdir ++ "/newfile.XXXXXX".toList)) with
      | .error e =>
        pending_release old
        return .error e
      | .ok (fd,path) =>
        match ← perform (.unlink path) with
        | .error e =>
          say (.cannot_remove_spool path e)
          pending_release old
          return .ok fd
        | .ok () =>
          pending_release old
          return .ok fd

/-- `spool` after the bytes are moved or are not. -/
def spoolEnd (fd : Fd) : Except Errno Unit → P (Except Errno (Fd × Nat))
  | .error e => do
    let _ ← perform (.close fd)
    return .error e
  | .ok () => do
    match ← perform (.fstat fd) with
    | .error e =>
      let _ ← perform (.close fd)
      return .error e
    | .ok st => return .ok (fd,st.size)

/-- The descriptor and the size of the spooled file. -/
def spool (fuel : Nat) (tmpdir : Option Path) (src_fd : Fd) : P (Except Errno (Fd × Nat)) := do
  match ← spool_open tmpdir with
  | .error e => return .error e
  | .ok fd =>
    match ← fast_splice fuel fd src_fd with
    | .error e => spoolEnd fd (.error e)
    | .ok .done => spoolEnd fd (.ok ())
    | .ok .cannot => spoolEnd fd (← copy_stream fuel fd src_fd)

/-- After `fail:`. -/
def openFail (fd : Fd) (owned : Bool) (e : Errno) : P (Except Errno Tmpl) := do
  if owned then
    let _ ← perform (.close fd)
    return .error e
  else return .error e

/-- A template with data of its own, whose gaps are known or have to be searched for. -/
def openData (fd : Fd) (owned : Bool) (size : Nat) (sparse : Bool) : P (Except Errno Tmpl) := do
  if sparse then
    let tail_hole ← tail_zero fd size
    return .ok ⟨size,.TMPL_ZEROS,fd,owned,tail_hole⟩
  else
    let tail_hole ← hole_tail fd size
    return .ok ⟨size,.TMPL_EXTENTS,fd,owned,tail_hole⟩

/-- `tmpl_open` from the `fstat` on. -/
def openTmpl (fuel : Nat) (tmpdir : Option Path) (repeat_ : Bool) (fd : Fd) (owned at_start : Bool) :
    P (Except Errno Tmpl) := do
  match ← perform (.fstat fd) with
  | .error e => openFail fd owned e
  | .ok st =>
    if st.kind = .directory then openFail fd owned .EISDIR
    else if at_start ∧ st.kind = .regular ∧ 0 < st.size then
      let sparse ← if st.blocks < st.size/ST_NBLOCKSIZE then hole_unknown fd else pure false
      openData fd owned st.size sparse
    else if repeat_ then
      match ← spool fuel tmpdir fd with
      | .error e => openFail fd owned e
      | .ok (spool_fd,size) =>
        if owned then
          let _ ← perform (.close fd)
          return .ok ⟨size,.TMPL_EXTENTS,spool_fd,true,false⟩
        else return .ok ⟨size,.TMPL_EXTENTS,spool_fd,true,false⟩
    else return .ok ⟨0,.TMPL_STREAM,fd,owned,false⟩

/-- `stdin` is the descriptor `STDIN_FILENO`. -/
def tmpl_open (fuel : Nat) (stdin : Fd) (tmpdir : Option Path) (path : Path) (repeat_ : Bool) :
    P (Except Errno Tmpl) := do
  match ← allocate with
  | .error e => return .error e
  | .ok () =>
    if path = "-".toList then
      let at_start ← match ← perform (.lseek_cur stdin) with
        | .ok off => pure (decide (off = 0))
        | .error _ => pure false
      openTmpl fuel tmpdir repeat_ stdin false at_start
    else
      match ← perform (.open_read path) with
      | .error e => return .error e
      | .ok fd => openTmpl fuel tmpdir repeat_ fd true true

def tmpl_apply (fuel : Nat) (tmpl : Tmpl) (dst_fd : Fd) : P (Except Errno Unit) :=
  match tmpl.kind with
  | .TMPL_EXTENTS => copy_extents fuel dst_fd tmpl.fd tmpl.size
  | .TMPL_ZEROS => copy_zeros fuel dst_fd tmpl.fd tmpl.size
  | .TMPL_STREAM => copy_stream fuel dst_fd tmpl.fd

def tmpl_tail_hole : Option Tmpl → Bool
  | some tmpl => tmpl.tail_hole
  | none => false

end Newfile.Template
