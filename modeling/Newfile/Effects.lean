import Newfile.Calls
import Newfile.Batch

/-!
What the copies and fills of one file do: calls on which no name depends, that open
and close nothing, and calls that change this one file.
-/
namespace Newfile.Effects
open Newfile.Program Newfile.Posix Newfile.Process Newfile.Fastio Newfile.Template Newfile.Batch Newfile.Calls

/-- The descriptor of a file whose content or owner a call changes. -/
def altered : Call → Option Fd
  | .fchown fd _ _ | .ftruncate fd _ | .fallocate fd _ _ | .copy_file_range _ _ fd _ _ | .sendfile fd _ _ _
  | .write fd _ | .pwrite fd _ _ => some fd
  | _ => none

/-- The calls that only ask, or move an offset. -/
def idle : Call → Bool
  | .alloc | .getrlimit_fsize | .fstat _ | .lseek_set _ _ | .lseek_data _ _ | .lseek_hole _ _ | .read _ _
  | .pread _ _ _ => true
  | _ => false

/-- Calls that only ask are among those of `C`, and what is only looked at or noted of the
    file size limit is among the steps of `R`. -/
structure Idles (C : Call → Prop) (R : Memory → Memory → Prop) : Prop where
  idle : ∀ {c}, idle c = true → C c
  same : ∀ m, R m m
  limit : ∀ (m : Memory) limit, R m { m with size_limit := some limit }

variable {C : Call → Prop} {R : Memory → Memory → Prop} (free : Idles C R)
include free

theorem sizeLimit_uses : uses C R sizeLimit := by
  refine uses_bind (uses_get free.same) fun m => ?_
  split
  · exact uses_pure _
  · exact uses_try (uses_sys (free.idle rfl))
      (fun _ => uses_bind (uses_modify fun _ => free.limit _ _) fun _ => uses_pure _)
      fun _ => uses_bind (uses_modify fun _ => free.limit _ _) fun _ => uses_pure _

section
variable {fd : Fd} (mine : ∀ {c}, altered c = some fd → C c)
include mine

theorem fast_alloc_uses (off len : Nat) : uses C R (fast_alloc fd off len) := by
  have tried : uses C R (fast_alloc.allocated fd off len) :=
    uses_try (uses_sys (mine rfl)) (fun _ => uses_pure _) fun _ => uses_pure _
  rw [fast_alloc]
  refine uses_ite (uses_pure _) (uses_bind (sizeLimit_uses free) fun limit => ?_)
  cases limit with
  | none => exact tried
  | some limit => exact uses_ite (uses_pure _) tried

omit free in
theorem pwriteLoop_uses (buf : List Byte) (off : Nat) : ∀ fuel done, uses C R (pwriteLoop fd buf off fuel done) := by
  intro fuel
  induction fuel with
  | zero => exact fun _ => uses_spin
  | succ fuel ih =>
    intro done
    rw [pwriteLoop]
    exact uses_ite (uses_try (uses_sys (mine rfl)) (fun _ => uses_pure _) fun n => uses_ite (uses_pure _) (ih _))
      (uses_pure _)

omit free in
theorem writeLoop_uses (buf : List Byte) : ∀ fuel off, uses C R (writeLoop fd buf fuel off) := by
  intro fuel
  induction fuel with
  | zero => exact fun _ => uses_spin
  | succ fuel ih =>
    intro off
    rw [writeLoop]
    exact uses_ite (uses_try (uses_sys (mine rfl)) (fun _ => uses_pure _) fun n => uses_ite (uses_pure _) (ih _))
      (uses_pure _)

omit mine in
theorem io_bufsize_uses (fd : Fd) : uses C R (io_bufsize fd) :=
  uses_try (uses_sys (free.idle rfl)) (fun _ => uses_pure _) fun _ => uses_pure _

omit mine in
theorem io_bufalloc_uses : uses C R io_bufalloc :=
  uses_try (uses_sys (free.idle rfl)) (fun _ => uses_sys (free.idle rfl)) fun _ => uses_pure _

omit free in
theorem fillLoop_uses (pwrites bufsize : Nat) :
    ∀ fuel pos remaining, uses C R (fillLoop pwrites fd bufsize fuel pos remaining) := by
  intro fuel
  induction fuel with
  | zero => exact fun _ _ => uses_spin
  | succ fuel ih =>
    intro pos remaining
    rw [fillLoop]
    exact uses_ite (uses_pure _)
      (uses_try (pwriteLoop_uses mine _ _ _ _) (fun _ => uses_pure _) fun _ => ih _ _)

theorem io_fill_uses (fuel off len : Nat) : uses C R (io_fill fuel fd off len) := by
  rw [io_fill]
  refine uses_ite (uses_pure _) (uses_try (fast_alloc_uses free mine off len) (fun _ => uses_pure _) fun fast => ?_)
  cases fast with
  | done => exact uses_pure _
  | cannot =>
    exact uses_bind (io_bufsize_uses free fd) fun _ => uses_try (uses_sys (free.idle rfl)) (fun _ => uses_pure _) fun _ =>
      fillLoop_uses mine _ _ _ _ _

variable (src_fd : Fd)

omit free in
theorem sendLoop_uses : ∀ fuel dst_off src_off len, uses C R (sendLoop fd src_fd fuel dst_off src_off len) := by
  intro fuel
  induction fuel with
  | zero => exact fun _ _ _ => uses_spin
  | succ fuel ih =>
    intro dst_off src_off len
    rw [sendLoop]
    exact uses_ite (uses_pure _)
      (uses_try (uses_sys (mine rfl)) (fun _ => uses_pure _) fun n => uses_ite (uses_pure _) (ih _ _ _))

theorem fast_sendfile_uses (fuel dst_off src_off len : Nat) :
    uses C R (fast_sendfile fuel fd dst_off src_fd src_off len) :=
  uses_try (uses_sys (free.idle rfl)) (fun _ => uses_pure _) fun _ => sendLoop_uses mine src_fd _ _ _ _

theorem copyLoop_uses (sends : Nat) :
    ∀ fuel dst_off src_off len, uses C R (copyLoop sends fd src_fd fuel dst_off src_off len) := by
  intro fuel
  induction fuel with
  | zero => exact fun _ _ _ => uses_spin
  | succ fuel ih =>
    intro dst_off src_off len
    rw [copyLoop]
    exact uses_ite (uses_pure _) (uses_try (uses_sys (mine rfl))
      (fun _ => uses_ite (fast_sendfile_uses free mine src_fd _ _ _ _) (uses_pure _))
      fun n => uses_ite (fast_sendfile_uses free mine src_fd _ _ _ _) (ih _ _ _))

omit mine in
theorem copyBuf_uses (dst : Fd) (buf : Option Nat) : uses C R (copyBuf dst src_fd buf) := by
  cases buf with
  | some size => exact uses_pure _
  | none =>
    exact uses_bind (io_bufsize_uses free _) fun _ => uses_bind (io_bufsize_uses free _) fun _ =>
      uses_try (io_bufalloc_uses free) (fun _ => uses_pure _) fun _ => uses_pure _

theorem slowLoop_uses (pwrites end_ : Nat) :
    ∀ fuel src_off dst_off buf, uses C R (slowLoop pwrites fd src_fd end_ fuel src_off dst_off buf) := by
  intro fuel
  induction fuel with
  | zero => exact fun _ _ _ => uses_spin
  | succ fuel ih =>
    intro src_off dst_off buf
    rw [slowLoop]
    refine uses_ite (uses_try (copyBuf_uses free src_fd fd buf) (fun _ => uses_pure _) fun size => ?_) (uses_pure _)
    refine uses_try (uses_sys (free.idle rfl)) (fun _ => uses_pure _) fun bytes => ?_
    exact uses_ite (uses_pure _) (uses_try (pwriteLoop_uses mine _ _ _ _) (fun _ => uses_pure _) fun _ => ih _ _ _)

omit mine in
theorem hole_next_data_uses (start size : Nat) : uses C R (hole_next_data src_fd start size) := by
  rw [hole_next_data]
  exact uses_ite (uses_pure _) (uses_try (uses_sys (free.idle rfl)) (fun _ => uses_pure _) fun data =>
    uses_try (uses_sys (free.idle rfl)) (fun _ => uses_pure _) fun _ => uses_pure _)

theorem extentsLoop_uses (copies size : Nat) :
    ∀ fuel start written buf, uses C R (extentsLoop copies fd src_fd size fuel start written buf) := by
  intro fuel
  induction fuel with
  | zero => exact fun _ _ _ => uses_spin
  | succ fuel ih =>
    intro start written buf
    rw [extentsLoop]
    refine uses_try (hole_next_data_uses free src_fd start size) (fun _ => uses_pure _) fun extent => ?_
    cases extent with
    | past => exact uses_pure _
    | data begin_ end_ =>
      refine uses_try (copyLoop_uses free mine src_fd _ _ _ _ _) (fun _ => uses_pure _) fun x => ?_
      exact uses_try (slowLoop_uses free mine src_fd _ _ _ _ _ _) (fun _ => uses_pure _) fun slow =>
        uses_ite (uses_pure _) (ih _ _ _)

theorem copy_extents_uses (fuel size : Nat) : uses C R (copy_extents fuel fd src_fd size) :=
  uses_try (extentsLoop_uses free mine src_fd _ _ _ _ _ _) (fun _ => uses_pure _) fun _ =>
    uses_ite (uses_sys (mine rfl)) (uses_pure _)

omit free in
theorem blocksLoop_uses (pwrites blksize : Nat) (buf : List Byte) (off : Nat) :
    ∀ fuel i, uses C R (blocksLoop pwrites fd blksize buf off fuel i) := by
  intro fuel
  induction fuel with
  | zero => exact fun _ => uses_spin
  | succ fuel ih =>
    intro i
    rw [blocksLoop]
    exact uses_ite (uses_ite (ih _) (uses_try (pwriteLoop_uses mine _ _ _ _) (fun _ => uses_pure _) fun _ => ih _))
      (uses_pure _)

theorem zerosLoop_uses (blocks size bufsize blksize : Nat) :
    ∀ fuel off, uses C R (zerosLoop blocks fd src_fd size bufsize blksize fuel off) := by
  intro fuel
  induction fuel with
  | zero => exact fun _ => uses_spin
  | succ fuel ih =>
    intro off
    rw [zerosLoop]
    exact uses_ite (uses_try (uses_sys (free.idle rfl)) (fun _ => uses_pure _) fun bytes =>
      uses_ite (uses_pure _) (uses_try (blocksLoop_uses mine _ _ _ _ _ _) (fun _ => uses_pure _) fun _ => ih _))
      (uses_pure _)

theorem copy_zeros_uses (fuel size : Nat) : uses C R (copy_zeros fuel fd src_fd size) :=
  uses_bind (io_bufsize_uses free _) fun _ =>
    uses_bind (uses_try (uses_sys (free.idle rfl)) (fun _ => uses_pure _) fun _ => uses_pure _) fun _ =>
      uses_try (io_bufalloc_uses free) (fun _ => uses_pure _) fun _ =>
        uses_try (zerosLoop_uses free mine src_fd _ _ _ _ _ _) (fun _ => uses_pure _) fun _ => uses_sys (mine rfl)

theorem copy_stream_uses (fuel : Nat) : uses C R (copy_stream fuel fd src_fd) := by
  refine uses_bind (io_bufsize_uses free _) fun bufsize =>
    uses_try (io_bufalloc_uses free) (fun _ => uses_pure _) fun _ => ?_
  suffices loop : ∀ rounds, uses C R (streamLoop fuel fd src_fd bufsize rounds) from loop fuel
  intro rounds
  induction rounds with
  | zero => exact uses_spin
  | succ rounds ih =>
    rw [streamLoop]
    exact uses_try (uses_sys (free.idle rfl)) (fun _ => uses_pure _) fun bytes =>
      uses_ite (uses_pure _) (uses_try (writeLoop_uses mine _ _ _) (fun _ => uses_pure _) fun _ => ih)

omit src_fd in
theorem tmpl_apply_uses (fuel : Nat) (tmpl : Tmpl) : uses C R (tmpl_apply fuel tmpl fd) := by
  rw [tmpl_apply]
  split
  · exact copy_extents_uses free mine _ _ _
  · exact copy_zeros_uses free mine _ _ _
  · exact copy_stream_uses free mine _ _

omit src_fd in
theorem apply_size_uses (fuel target : Nat) (sparse tail_hole filled : Bool) :
    uses C R (apply_size fuel fd target sparse tail_hole filled) := by
  have sized : ∀ size, uses C R (apply_size.sized fuel fd target sparse tail_hole size) := fun size =>
    uses_ite (uses_sys (mine rfl)) (io_fill_uses free mine _ _ _)
  exact uses_ite (uses_try (uses_sys (free.idle rfl)) (fun _ => uses_pure _) fun st => sized st.size) (sized 0)

omit src_fd in
theorem fill_one_uses (fuel : Nat) (spec : FileSpec) : uses C R (fill_one fuel fd spec) := by
  have sized : uses C R (fill_one.sized fuel fd spec) :=
    uses_ite (uses_try (apply_size_uses free mine _ _ _ _ _) (fun _ => uses_pure _) fun _ => uses_pure _) (uses_pure _)
  rw [fill_one]
  split
  · exact uses_try (tmpl_apply_uses free mine _ _) (fun _ => uses_pure _) fun _ => sized
  · exact sized

end

end Newfile.Effects
