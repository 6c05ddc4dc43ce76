import Newfile.Calls
import Newfile.Copies
import Newfile.Batch

/-!
The offsets and lengths of a fill: every call that it makes names a range that
is not empty and ends at the largest `off_t` or before, so that no difference of
two offsets is negative and no sum overflows.
-/
namespace Newfile.Ranges
open Newfile.Program Newfile.Posix Newfile.Process Newfile.Pending Newfile.Fastio Newfile.Template Newfile.Batch
open Newfile.Calls

/-- The largest `off_t`. -/
def OFF_MAX : Nat := 2^63-1

/-- The range of a call is not empty and lies among the offsets. -/
def InRange : Call → Prop
  | .ftruncate _ len => len ≤ OFF_MAX
  | .fallocate _ off len => 0 < len ∧ off+len ≤ OFF_MAX
  | .lseek_set _ off | .lseek_data _ off | .lseek_hole _ off => off ≤ OFF_MAX
  | .copy_file_range _ src_off _ dst_off len => 0 < len ∧ src_off+len ≤ OFF_MAX ∧ dst_off+len ≤ OFF_MAX
  | .sendfile _ _ src_off len => 0 < len ∧ src_off+len ≤ OFF_MAX
  | .read _ len => 0 < len ∧ len ≤ OFF_MAX
  | .pread _ len off => 0 < len ∧ off+len ≤ OFF_MAX
  | .write _ bytes => 0 < bytes.length ∧ bytes.length ≤ OFF_MAX
  | .pwrite _ bytes off => 0 < bytes.length ∧ off+bytes.length ≤ OFF_MAX
  | _ => True

/-- The system, in which no file grows beyond the largest `off_t`. -/
def limited (res : Path → Ino) : System posix Kernel :=
  fun k c r k' => exec res k c r k' ∧ ∀ fd, k'.size fd ≤ OFF_MAX

/-- The calls of a fill, none of which changes the file `src`. -/
def Aside (src : Ino) : Call → Prop
  | .alloc | .getrlimit_fsize | .fstat _ | .lseek_set _ _ | .lseek_data _ _ | .lseek_hole _ _
  | .read _ _ | .pread _ _ _ => True
  | .ftruncate fd _ | .fallocate fd _ _ | .write fd _ | .pwrite fd _ _ => fd.ino ≠ src
  | .copy_file_range _ _ dst _ _ | .sendfile dst _ _ _ => dst.ino ≠ src
  | _ => False

def Allowed (src : Ino) (c : Call) : Prop := InRange c ∧ Aside src c

/-- What the answers have in common while the file `src` has so many bytes. -/
def Sane (src : Ino) (size : Nat) : (c : Call) → posix.Res c → Prop
  | .fstat _, .ok st => st.size ≤ OFF_MAX
  | .lseek_data fd off, .ok at_ => fd.ino = src → off ≤ at_ ∧ at_ < size
  | .lseek_hole _ off, .ok at_ => off < at_
  | .copy_file_range _ _ _ _ len, .ok n => n ≤ len
  | .sendfile _ _ _ len, .ok n => n ≤ len
  | .read _ len, .ok bytes => bytes.length ≤ len
  | .pread _ len _, .ok bytes => bytes.length ≤ len
  | _, _ => True

/-- What a fill relies on. -/
structure Steady (src : Ino) (size : Nat) (k : Kernel) : Prop where
  same : (k.files src).data.length+(k.files src).excess = size
  small : ∀ fd, k.size fd ≤ OFF_MAX

private theorem size_edit {src ino : Ino} (other : ino ≠ src) (k : Kernel) (f : List Byte → List Byte) :
    (k.edit ino f).files src = k.files src := by
  simp [Kernel.edit,Kernel.alter,Ne.symm other]

@[simp] private theorem files_seek (k : Kernel) (fd : Fd) (off : Nat) : (k.seek fd off).files = k.files := rfl

theorem limited_steady {res : Path → Ino} {src : Ino} {size : Nat} (k : Kernel) (c : Call) (r : posix.Res c) (k' : Kernel)
    (steady : Steady src size k) (allowed : Allowed src c) (answered : limited res k c r k') :
    Sane src size c r ∧ Steady src size k' := by
  obtain ⟨answered,small⟩ := answered
  have aside := allowed.2
  suffices both : Sane src size c r ∧ k'.files src = k.files src by
    refine ⟨both.1,?_,small⟩
    rw [both.2]
    exact steady.same
  rcases exec_cases answered with ⟨e,_,rfl,rfl⟩ | ⟨hints,x,found,rfl,rfl⟩
  · cases c <;> exact ⟨trivial,rfl⟩
  · cases c with
    | fstat fd =>
      cases found
      exact ⟨steady.small fd,rfl⟩
    | lseek_data fd off =>
      simp only [answer,Option.ite_none_right_eq_some,Option.some.injEq] at found
      obtain ⟨⟨onward,inside,_⟩,rfl⟩ := found
      refine ⟨fun here => ⟨onward,?_⟩,rfl⟩
      have same := steady.same
      rw [← here] at same
      exact same ▸ inside
    | lseek_hole fd off =>
      simp only [answer,Option.ite_none_right_eq_some,Option.some.injEq] at found
      obtain ⟨⟨onward,_⟩,rfl⟩ := found
      exact ⟨onward,rfl⟩
    | lseek_set fd off =>
      cases found
      exact ⟨trivial,rfl⟩
    | read fd len =>
      simp only [answer,Option.ite_none_right_eq_some,Option.some.injEq] at found
      obtain ⟨⟨fits,exact_,_⟩,rfl⟩ := found
      exact ⟨by simp only [Sane]; omega,rfl⟩
    | pread fd len off =>
      simp only [answer,Option.ite_none_right_eq_some,Option.some.injEq] at found
      obtain ⟨⟨fits,exact_,_⟩,rfl⟩ := found
      exact ⟨by simp only [Sane]; omega,rfl⟩
    | ftruncate fd len =>
      cases found
      exact ⟨trivial,by simp [size_edit aside]⟩
    | fallocate fd off len =>
      cases found
      exact ⟨trivial,by simp [size_edit aside]⟩
    | write fd bytes =>
      simp only [answer,Option.ite_none_right_eq_some,Option.some.injEq] at found
      obtain ⟨_,rfl⟩ := found
      exact ⟨trivial,by simp [size_edit aside]⟩
    | pwrite fd bytes off =>
      simp only [answer,Option.ite_none_right_eq_some,Option.some.injEq] at found
      obtain ⟨_,rfl⟩ := found
      exact ⟨trivial,by simp [size_edit aside]⟩
    | copy_file_range from_ src_off dst dst_off len =>
      simp only [answer] at found
      split at found
      · cases found
        exact ⟨Nat.zero_le _,rfl⟩
      · simp only [Option.ite_none_right_eq_some,Option.some.injEq] at found
        obtain ⟨⟨fits,_⟩,rfl⟩ := found
        exact ⟨fits,by simp [size_edit aside]⟩
    | sendfile dst from_ src_off len =>
      simp only [answer] at found
      split at found
      · cases found
        exact ⟨Nat.zero_le _,rfl⟩
      · simp only [Option.ite_none_right_eq_some,Option.some.injEq] at found
        obtain ⟨⟨fits,_⟩,rfl⟩ := found
        exact ⟨fits,by simp [size_edit aside]⟩
    | alloc =>
      cases found
      exact ⟨trivial,rfl⟩
    | getrlimit_fsize =>
      cases found
      exact ⟨trivial,rfl⟩
    | _ => exact aside.elim

variable {src : Ino} {size : Nat} {dst : Fd}

/-- The rule for a call. -/
theorem asks_perform {c : Call} {Q : posix.Res c → Prop} (allowed : Allowed src c) (failed : ∀ e, Q (.error e))
    (fine : ∀ x, Sane src size c (.ok x) → Q (.ok x)) : asks (Sane src size) (Allowed src) (perform c) Q := by
  refine asks_sys allowed fun r sane => ?_
  cases r with
  | error e => exact failed e
  | ok x => exact fine x sane

theorem asks_allocate {Q : Except Errno Unit → Prop} (failed : ∀ e, Q (.error e)) (fine : Q (.ok ())) :
    asks (Sane src size) (Allowed src) allocate Q :=
  asks_perform ⟨trivial,trivial⟩ failed fun _ _ => fine

/-! ## Buffers -/

theorem io_bufsize_asks (fd : Fd) :
    asks (Sane src size) (Allowed src) (io_bufsize fd) fun bufsize => 0 < bufsize ∧ bufsize ≤ IO_BUFSIZE_MAX := by
  have least : 0 < IO_BUFSIZE_MIN ∧ IO_BUFSIZE_MIN ≤ IO_BUFSIZE_MAX := by decide
  rw [io_bufsize,asks_bind]
  refine asks_perform ⟨trivial,trivial⟩ (fun e => least) fun st _ => ?_
  dsimp only
  split
  · simp only [asks_pure]
    omega
  · exact least

theorem io_bufalloc_asks {Q : Except Errno Unit → Prop} (failed : ∀ e, Q (.error e)) (fine : Q (.ok ())) :
    asks (Sane src size) (Allowed src) io_bufalloc Q := by
  rw [io_bufalloc,asks_bind]
  exact asks_allocate (fun _ => asks_allocate failed fine) fine

theorem copyBuf_asks (dst src_fd : Fd) {buf : Option Nat} (known : ∀ size, buf = some size → 0 < size) :
    asks (Sane src size) (Allowed src) (copyBuf dst src_fd buf) fun r => ∀ bufsize, r = .ok bufsize → 0 < bufsize := by
  cases buf with
  | some bufsize =>
    rintro _ ⟨⟩
    exact known bufsize rfl
  | none =>
    rw [copyBuf,asks_bind]
    refine asks_mono (io_bufsize_asks src_fd) fun one first => ?_
    rw [asks_bind]
    refine asks_mono (io_bufsize_asks dst) fun two _ => ?_
    rw [asks_bind]
    refine io_bufalloc_asks (fun e => by simp) ?_
    rintro _ ⟨⟩
    omega

/-! ## Whole writes -/

theorem pwriteLoop_asks {buf : List Byte} {off : Nat} (aside : dst.ino ≠ src) (fits : off+buf.length ≤ OFF_MAX) :
    ∀ fuel done, asks (Sane src size) (Allowed src) (pwriteLoop dst buf off fuel done) fun _ => True := by
  intro fuel
  induction fuel with
  | zero => exact fun _ => trivial
  | succ fuel ih =>
    intro done
    rw [pwriteLoop]
    by_cases more : done < buf.length
    · rw [if_pos more,asks_bind]
      have length : (buf.drop done).length = buf.length-done := List.length_drop
      refine asks_perform ⟨⟨by omega,by omega⟩,aside⟩ (fun e => trivial) fun n _ => ?_
      dsimp only
      split
      · trivial
      · exact ih _
    · rw [if_neg more]
      trivial

theorem io_pwrite_asks {buf : List Byte} {off : Nat} (aside : dst.ino ≠ src) (fits : off+buf.length ≤ OFF_MAX)
    (fuel : Nat) : asks (Sane src size) (Allowed src) (io_pwrite fuel dst buf off) fun _ => True :=
  pwriteLoop_asks aside fits fuel 0

theorem io_write_asks {buf : List Byte} (aside : dst.ino ≠ src) (fits : buf.length ≤ OFF_MAX) (fuel : Nat) :
    asks (Sane src size) (Allowed src) (io_write fuel dst buf) fun _ => True := by
  suffices loop : ∀ fuel off, asks (Sane src size) (Allowed src) (writeLoop dst buf fuel off) fun _ => True from loop fuel 0
  intro fuel
  induction fuel with
  | zero => exact fun _ => trivial
  | succ fuel ih =>
    intro off
    rw [writeLoop]
    by_cases more : off < buf.length
    · rw [if_pos more,asks_bind]
      have length : (buf.drop off).length = buf.length-off := List.length_drop
      refine asks_perform ⟨⟨by omega,by omega⟩,aside⟩ (fun e => trivial) fun n _ => ?_
      dsimp only
      split
      · trivial
      · exact ih _
    · rw [if_neg more]
      trivial

/-! ## Filling with NUL -/

theorem sizeLimit_asks : asks (Sane src size) (Allowed src) sizeLimit fun _ => True := by
  rw [sizeLimit,asks_bind]
  refine asks_get fun m => ?_
  split
  · trivial
  · rw [asks_bind]
    refine asks_perform ⟨trivial,trivial⟩ (fun e => ?_) fun limit _ => ?_ <;>
      · rw [asks_bind]
        exact asks_modify trivial

theorem fast_alloc_asks {off len : Nat} (aside : dst.ino ≠ src) (fits : off+len ≤ OFF_MAX) :
    asks (Sane src size) (Allowed src) (fast_alloc dst off len) fun _ => True := by
  rw [fast_alloc]
  by_cases zero : len = 0
  · rw [if_pos zero]
    trivial
  · rw [if_neg zero,asks_bind]
    have tried : asks (Sane src size) (Allowed src) (fast_alloc.allocated dst off len) fun _ => True := by
      rw [fast_alloc.allocated,asks_bind]
      exact asks_perform ⟨⟨Nat.pos_of_ne_zero zero,fits⟩,aside⟩ (fun e => trivial) fun _ _ => trivial
    refine asks_mono sizeLimit_asks fun limit _ => ?_
    cases limit with
    | none => exact tried
    | some limit =>
      dsimp only
      split
      · trivial
      · exact tried

theorem fillLoop_asks {pwrites bufsize : Nat} (aside : dst.ino ≠ src) :
    ∀ fuel pos remaining, pos+remaining ≤ OFF_MAX →
      asks (Sane src size) (Allowed src) (fillLoop pwrites dst bufsize fuel pos remaining) fun _ => True := by
  intro fuel
  induction fuel with
  | zero => exact fun _ _ _ => trivial
  | succ fuel ih =>
    intro pos remaining fits
    rw [fillLoop]
    by_cases done : remaining = 0
    · rw [if_pos done]
      trivial
    · rw [if_neg done]
      dsimp only
      rw [asks_bind]
      refine asks_mono (io_pwrite_asks aside (by rw [List.length_replicate]; omega) pwrites) fun r _ => ?_
      cases r with
      | error e => trivial
      | ok _ => exact ih _ _ (by omega)

theorem io_fill_asks {fuel off len : Nat} (aside : dst.ino ≠ src) (fits : off+len ≤ OFF_MAX) :
    asks (Sane src size) (Allowed src) (io_fill fuel dst off len) fun _ => True := by
  rw [io_fill]
  split
  · trivial
  · rw [asks_bind]
    refine asks_mono (fast_alloc_asks aside fits) fun r _ => ?_
    cases r with
    | error e => trivial
    | ok fast =>
      cases fast with
      | done => trivial
      | cannot =>
        dsimp only
        rw [asks_bind]
        refine asks_mono (io_bufsize_asks dst) fun bufsize _ => ?_
        rw [asks_bind]
        exact asks_allocate (fun e => trivial) (fillLoop_asks aside fuel off len fits)

theorem apply_size_asks {fuel target : Nat} {sparse tail_hole filled : Bool} (aside : dst.ino ≠ src)
    (fits : target ≤ OFF_MAX) :
    asks (Sane src size) (Allowed src) (apply_size fuel dst target sparse tail_hole filled) fun _ => True := by
  have sized : ∀ now, asks (Sane src size) (Allowed src)
      (apply_size.sized fuel dst target sparse tail_hole now) fun _ => True := by
    intro now
    rw [apply_size.sized]
    split
    · exact asks_perform ⟨fits,aside⟩ (fun e => trivial) fun _ _ => trivial
    · exact io_fill_asks aside (by omega)
  rw [apply_size]
  split
  · rw [asks_bind]
    exact asks_perform ⟨trivial,trivial⟩ (fun e => trivial) fun st _ => sized st.size
  · exact sized 0

/-! ## Copying an extent -/

/-- Both offsets of a copy have come to one place before `end_`. -/
def Level (end_ : Nat) (r : Except Errno (Fast × Nat × Nat)) : Prop :=
  ∀ x, r = .ok x → x.2.1 = x.2.2 ∧ x.2.2 ≤ end_

theorem level_ok {end_ off : Nat} (fast : Fast) (inside : off ≤ end_) : Level end_ (.ok (fast,off,off)) := by
  rintro _ ⟨⟩
  exact ⟨rfl,inside⟩

theorem level_error {end_ : Nat} (e : Errno) : Level end_ (.error e) := by
  simp [Level]

theorem sendLoop_asks {src_fd : Fd} {end_ : Nat} (aside : dst.ino ≠ src) (fits : end_ ≤ OFF_MAX) :
    ∀ fuel off len, off+len = end_ →
      asks (Sane src size) (Allowed src) (sendLoop dst src_fd fuel off off len) (Level end_) := by
  intro fuel
  induction fuel with
  | zero => exact fun _ _ _ => trivial
  | succ fuel ih =>
    intro off len whole
    rw [sendLoop]
    by_cases nothing : len = 0
    · rw [if_pos nothing]
      exact level_ok _ (by omega)
    · rw [if_neg nothing,asks_bind]
      have clamped : 0 < clamp_len len ∧ clamp_len len ≤ len := by
        simp only [clamp_len,SSIZE_MAX]
        omega
      refine asks_perform ⟨⟨clamped.1,by omega⟩,aside⟩ (fun e => ?_) fun (n : Nat) sent => ?_
      · dsimp only
        split
        · exact level_ok _ (by omega)
        · exact level_error e
      · have within : n ≤ clamp_len len := sent
        dsimp only
        split
        · exact level_ok _ (by omega)
        · exact ih _ _ (by omega)

theorem fast_sendfile_asks {src_fd : Fd} {fuel off len end_ : Nat} (aside : dst.ino ≠ src) (fits : end_ ≤ OFF_MAX)
    (whole : off+len = end_) :
    asks (Sane src size) (Allowed src) (fast_sendfile fuel dst off src_fd off len) (Level end_) := by
  rw [fast_sendfile,asks_bind]
  have below : off ≤ OFF_MAX := by omega
  exact asks_perform ⟨below,trivial⟩ (fun e => level_ok _ (by omega)) fun _ _ => sendLoop_asks aside fits fuel off len whole

theorem copyLoop_asks {src_fd : Fd} {sends end_ : Nat} (aside : dst.ino ≠ src) (fits : end_ ≤ OFF_MAX) :
    ∀ fuel off len, off+len = end_ →
      asks (Sane src size) (Allowed src) (copyLoop sends dst src_fd fuel off off len) (Level end_) := by
  intro fuel
  induction fuel with
  | zero => exact fun _ _ _ => trivial
  | succ fuel ih =>
    intro off len whole
    rw [copyLoop]
    by_cases nothing : len = 0
    · rw [if_pos nothing]
      exact level_ok _ (by omega)
    · rw [if_neg nothing,asks_bind]
      have clamped : 0 < clamp_len len ∧ clamp_len len ≤ len := by
        simp only [clamp_len,SSIZE_MAX]
        omega
      refine asks_perform ⟨⟨clamped.1,by omega,by omega⟩,aside⟩ (fun e => ?_) fun (n : Nat) copied => ?_
      · dsimp only
        split
        · exact fast_sendfile_asks aside fits whole
        · exact level_error e
      · have within : n ≤ clamp_len len := copied
        dsimp only
        split
        · exact fast_sendfile_asks aside fits whole
        · exact ih _ _ (by omega)

theorem slowLoop_asks {src_fd : Fd} {pwrites end_ : Nat} (aside : dst.ino ≠ src) (fits : end_ ≤ OFF_MAX) :
    ∀ fuel off buf, (∀ bufsize, buf = some bufsize → 0 < bufsize) →
      asks (Sane src size) (Allowed src) (slowLoop pwrites dst src_fd end_ fuel off off buf) fun r =>
        ∀ slow, r = .ok slow → ∀ bufsize, slow.buf = some bufsize → 0 < bufsize := by
  intro fuel
  induction fuel with
  | zero => exact fun _ _ _ => trivial
  | succ fuel ih =>
    intro off buf known
    rw [slowLoop]
    by_cases more : off < end_
    · rw [if_pos more,asks_bind]
      refine asks_mono (copyBuf_asks dst src_fd known) fun r positive => ?_
      cases r with
      | error e => simp
      | ok bufsize =>
        have nonzero : 0 < bufsize := positive bufsize rfl
        dsimp only
        rw [asks_bind]
        refine asks_perform ⟨⟨by omega,by omega⟩,trivial⟩ (fun e => by simp) fun bytes got => ?_
        have within : bytes.length ≤ min (end_-off) bufsize := got
        dsimp only
        split
        · rintro _ ⟨⟩ _ ⟨⟩
          exact nonzero
        · rw [asks_bind]
          refine asks_mono (io_pwrite_asks aside (by omega) pwrites) fun r _ => ?_
          cases r with
          | error e => simp
          | ok _ =>
            refine ih _ _ ?_
            rintro _ ⟨⟩
            exact nonzero
    · rw [if_neg more]
      rintro _ ⟨⟩
      exact known

/-! ## Copying the template -/

/-- An extent is not empty and ends where the template does, or before. -/
theorem hole_next_data_asks {src_fd : Fd} {start : Nat} (here : src_fd.ino = src) (fits : size ≤ OFF_MAX) :
    asks (Sane src size) (Allowed src) (hole_next_data src_fd start size) fun r =>
      ∀ begin_ end_, r = .ok (.data begin_ end_) → begin_ < end_ ∧ end_ ≤ size := by
  rw [hole_next_data]
  by_cases past : size ≤ start
  · rw [if_pos past]
    simp
  · rw [if_neg past,asks_bind]
    have below : start ≤ OFF_MAX := by omega
    refine asks_perform ⟨below,trivial⟩ (fun e => ?_) fun (data : Nat) found => ?_
    · change ∀ begin_ end_, (if e = Errno.ENXIO then _ else _) = _ → _
      split
      · simp
      · split
        · rintro _ _ ⟨⟩
          omega
        · simp
    · obtain ⟨onward,inside⟩ : start ≤ data ∧ data < size := found here
      dsimp only
      rw [asks_bind]
      have below : data ≤ OFF_MAX := by omega
      refine asks_perform ⟨below,trivial⟩ (fun e => ?_) fun (gap : Nat) later => ?_
      · rintro _ _ ⟨⟩
        omega
      · have after : data < gap := later
        rintro _ _ ⟨⟩
        omega

theorem extentsLoop_asks {src_fd : Fd} {copies : Nat} (here : src_fd.ino = src) (aside : dst.ino ≠ src)
    (fits : size ≤ OFF_MAX) :
    ∀ fuel start written buf, (∀ bufsize, buf = some bufsize → 0 < bufsize) →
      asks (Sane src size) (Allowed src) (extentsLoop copies dst src_fd size fuel start written buf) fun _ => True := by
  intro fuel
  induction fuel with
  | zero => exact fun _ _ _ _ => trivial
  | succ fuel ih =>
    intro start written buf known
    rw [extentsLoop,asks_bind]
    refine asks_mono (hole_next_data_asks here fits) fun r extent => ?_
    cases r with
    | error e => trivial
    | ok found =>
      cases found with
      | past => trivial
      | data begin_ end_ =>
        obtain ⟨nonempty,inside⟩ := extent begin_ end_ rfl
        dsimp only
        rw [asks_bind]
        refine asks_mono (copyLoop_asks aside (Nat.le_trans inside fits) copies begin_ _ (Nat.add_sub_of_le nonempty.le)) fun r level => ?_
        cases r with
        | error e => trivial
        | ok x =>
          obtain ⟨fast,dst_off,src_off⟩ := x
          obtain ⟨same,_⟩ := level _ rfl
          dsimp only at same ⊢
          subst same
          rw [asks_bind]
          refine asks_mono (slowLoop_asks aside (Nat.le_trans inside fits) copies dst_off buf known) fun r known' => ?_
          cases r with
          | error e => trivial
          | ok slow =>
            dsimp only
            split
            · trivial
            · exact ih _ _ _ (known' slow rfl)

theorem copy_extents_asks {src_fd : Fd} {fuel : Nat} (here : src_fd.ino = src) (aside : dst.ino ≠ src)
    (fits : size ≤ OFF_MAX) :
    asks (Sane src size) (Allowed src) (copy_extents fuel dst src_fd size) fun _ => True := by
  rw [copy_extents,asks_bind]
  refine asks_mono (extentsLoop_asks here aside fits fuel 0 0 none (by simp)) fun r _ => ?_
  cases r with
  | error e => trivial
  | ok x =>
    dsimp only
    split
    · exact asks_perform ⟨fits,aside⟩ (fun e => trivial) fun _ _ => trivial
    · trivial

theorem blocksLoop_asks {buf : List Byte} {off blksize pwrites : Nat} (aside : dst.ino ≠ src)
    (fits : off+buf.length ≤ OFF_MAX) :
    ∀ fuel i, asks (Sane src size) (Allowed src) (blocksLoop pwrites dst blksize buf off fuel i) fun _ => True := by
  intro fuel
  induction fuel with
  | zero => exact fun _ => trivial
  | succ fuel ih =>
    intro i
    rw [blocksLoop]
    by_cases more : i < buf.length
    · rw [if_pos more]
      dsimp only
      split
      · exact ih _
      · rw [asks_bind]
        have within : ((buf.drop i).take (min (buf.length-i) blksize)).length ≤ buf.length-i := by
          rw [List.length_take,List.length_drop]
          omega
        refine asks_mono (io_pwrite_asks aside (by omega) pwrites) fun r _ => ?_
        cases r with
        | error e => trivial
        | ok _ => exact ih _
    · rw [if_neg more]
      trivial

theorem zerosLoop_asks {src_fd : Fd} {total bufsize blksize blocks : Nat} (aside : dst.ino ≠ src)
    (fits : total ≤ OFF_MAX) (buffer : 0 < bufsize) :
    ∀ fuel off, off ≤ total →
      asks (Sane src size) (Allowed src) (zerosLoop blocks dst src_fd total bufsize blksize fuel off) fun r =>
        ∀ off, r = .ok off → off ≤ total := by
  intro fuel
  induction fuel with
  | zero => exact fun _ _ => trivial
  | succ fuel ih =>
    intro off inside
    rw [zerosLoop]
    by_cases more : off < total
    · rw [if_pos more,asks_bind]
      refine asks_perform ⟨⟨by omega,by omega⟩,trivial⟩ (fun e => by simp) fun bytes got => ?_
      have within : bytes.length ≤ min (total-off) bufsize := got
      dsimp only
      split
      · rintro _ ⟨⟩
        exact inside
      · rw [asks_bind]
        refine asks_mono (blocksLoop_asks aside (by omega) blocks 0) fun r _ => ?_
        cases r with
        | error e => simp
        | ok _ => exact ih _ (by omega)
    · rw [if_neg more]
      rintro _ ⟨⟩
      exact inside

theorem zeroBlock_asks (dst : Fd) (bufsize : Nat) :
    asks (Sane src size) (Allowed src) (zeroBlock dst bufsize) fun _ => True := by
  rw [zeroBlock,asks_bind]
  exact asks_perform ⟨trivial,trivial⟩ (fun e => trivial) fun _ _ => trivial

theorem copy_zeros_asks {src_fd : Fd} {fuel total : Nat} (aside : dst.ino ≠ src) (fits : total ≤ OFF_MAX) :
    asks (Sane src size) (Allowed src) (copy_zeros fuel dst src_fd total) fun _ => True := by
  rw [copy_zeros,asks_bind]
  refine asks_mono (io_bufsize_asks src_fd) fun bufsize buffer => ?_
  rw [asks_bind]
  refine asks_mono (zeroBlock_asks dst bufsize) fun blksize _ => ?_
  rw [asks_bind]
  refine io_bufalloc_asks (fun e => trivial) ?_
  dsimp only
  rw [asks_bind]
  refine asks_mono (zerosLoop_asks aside fits buffer.1 fuel 0 (Nat.zero_le _)) fun r reached => ?_
  cases r with
  | error e => trivial
  | ok off =>
    have below : off ≤ OFF_MAX := Nat.le_trans (reached off rfl) fits
    exact asks_perform ⟨below,aside⟩ (fun e => trivial) fun _ _ => trivial

theorem copy_stream_asks {src_fd : Fd} {fuel : Nat} (aside : dst.ino ≠ src) :
    asks (Sane src size) (Allowed src) (copy_stream fuel dst src_fd) fun _ => True := by
  rw [copy_stream,asks_bind]
  refine asks_mono (io_bufsize_asks dst) fun bufsize buffer => ?_
  rw [asks_bind]
  refine io_bufalloc_asks (fun e => trivial) ?_
  have small : bufsize ≤ OFF_MAX := Nat.le_trans buffer.2 (by decide)
  suffices loop : ∀ rounds, asks (Sane src size) (Allowed src) (streamLoop fuel dst src_fd bufsize rounds) fun _ => True
    from loop fuel
  intro rounds
  induction rounds with
  | zero => trivial
  | succ rounds ih =>
    rw [streamLoop,asks_bind]
    refine asks_perform ⟨⟨buffer.1,small⟩,trivial⟩ (fun e => trivial) fun bytes got => ?_
    have within : bytes.length ≤ bufsize := got
    dsimp only
    split
    · trivial
    · rw [asks_bind]
      refine asks_mono (io_write_asks aside (by omega) fuel) fun r _ => ?_
      cases r with
      | error e => trivial
      | ok _ => exact ih

/-- The calls of a whole copy: of a template that is no stream, `size` is the size. -/
theorem tmpl_apply_asks {fuel : Nat} {tmpl : Tmpl} (here : tmpl.fd.ino = src) (aside : dst.ino ≠ src)
    (whole : tmpl.kind ≠ .TMPL_STREAM → tmpl.size = size) (fits : size ≤ OFF_MAX) :
    asks (Sane src size) (Allowed src) (tmpl_apply fuel tmpl dst) fun _ => True := by
  rw [tmpl_apply]
  cases kind : tmpl.kind with
  | TMPL_EXTENTS =>
    rw [whole (by simp [kind])]
    exact copy_extents_asks here aside fits
  | TMPL_ZEROS =>
    rw [whole (by simp [kind])]
    exact copy_zeros_asks aside fits
  | TMPL_STREAM => exact copy_stream_asks aside

end Newfile.Ranges
