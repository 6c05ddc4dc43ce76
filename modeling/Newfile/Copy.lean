import Newfile.Bytes
import Newfile.Template

/-!
A copy of the template holds the template's bytes, whichever path makes it. Every
loop keeps `Copied`: the destination holds what the source holds below the offset
reached, and once anything was written it ends there.
-/
namespace Newfile.Copy
open Newfile.Program Newfile.Posix Newfile.Process Newfile.Pending Newfile.Fastio Newfile.Template Newfile.Bytes

variable {res : Path → Ino} {spins : Prop}

theorem wp_perform {c : Call} {Q : posix.Res c → Kernel → Memory → Prop} {k : Kernel} {m : Memory}
    (failed : ∀ e, mayFail res k c e = true → Q (.error e) (afterFailure k c) m)
    (fine : ∀ hints x, answer res k hints c = some x → Q (.ok x.1) x.2 m) :
    wp (exec res) spins (perform c) Q k m := by
  intro r k' answered
  rcases exec_cases answered with ⟨e,may,rfl,rfl⟩ | ⟨hints,x,found,rfl,rfl⟩
  · exact failed e may
  · exact fine hints x found

/-! ## The calls of a copy -/

section
variable {k : Kernel} {m : Memory}

theorem wp_pwrite {fd : Fd} {bytes : List Byte} {off : Nat} {Q : Except Errno Nat → Kernel → Memory → Prop}
    (failed : ∀ e, Q (.error e) k m)
    (fine : ∀ n, n ≤ bytes.length → Q (.ok n) (k.edit fd.ino (writeAt · off (bytes.take n))) m) :
    wp (exec res) spins (perform (.pwrite fd bytes off)) Q k m := by
  refine wp_perform (fun e _ => failed e) fun hints x found => ?_
  simp only [answer,Option.ite_none_right_eq_some,Option.some.injEq] at found
  obtain ⟨fits,rfl⟩ := found
  exact fine _ fits

theorem wp_write {fd : Fd} {bytes : List Byte} {Q : Except Errno Nat → Kernel → Memory → Prop}
    (failed : ∀ e, Q (.error e) k m)
    (fine : ∀ n, n ≤ bytes.length →
      Q (.ok n) ((k.edit fd.ino (writeAt · (k.offset fd.num) (bytes.take n))).seek fd (k.offset fd.num+n)) m) :
    wp (exec res) spins (perform (.write fd bytes)) Q k m := by
  refine wp_perform (fun e _ => failed e) fun hints x found => ?_
  simp only [answer,Option.ite_none_right_eq_some,Option.some.injEq] at found
  obtain ⟨fits,rfl⟩ := found
  exact fine _ fits

/-- Nothing is read only at the end. -/
theorem wp_pread {fd : Fd} {len off : Nat} {Q : Except Errno (List Byte) → Kernel → Memory → Prop}
    (failed : ∀ e, Q (.error e) k m)
    (fine : ∀ bytes, bytes.length ≤ len → bytes = ((k.data fd).drop off).take bytes.length →
      (bytes = [] → len = 0 ∨ (k.data fd).length ≤ off) → Q (.ok bytes) k m) :
    wp (exec res) spins (perform (.pread fd len off)) Q k m := by
  refine wp_perform (fun e _ => failed e) fun hints x found => ?_
  simp only [answer,Option.ite_none_right_eq_some,Option.some.injEq] at found
  obtain ⟨⟨fits,size,last⟩,rfl⟩ := found
  exact fine _ (by rw [size]; exact fits) (by rw [size]) fun empty => last (by rw [← size]; exact congrArg _ empty)

theorem wp_read {fd : Fd} {len : Nat} {Q : Except Errno (List Byte) → Kernel → Memory → Prop}
    (failed : ∀ e, Q (.error e) k m)
    (fine : ∀ bytes, bytes.length ≤ len → bytes = ((k.data fd).drop (k.offset fd.num)).take bytes.length →
      (bytes = [] → len = 0 ∨ (k.data fd).length ≤ k.offset fd.num) →
      Q (.ok bytes) (k.seek fd (k.offset fd.num+bytes.length)) m) :
    wp (exec res) spins (perform (.read fd len)) Q k m := by
  refine wp_perform (fun e _ => failed e) fun hints x found => ?_
  simp only [answer,Option.ite_none_right_eq_some,Option.some.injEq] at found
  obtain ⟨⟨fits,size,last⟩,rfl⟩ := found
  have given := fine _ (by rw [size]; exact fits) (by rw [size]) fun empty => last (by rw [← size]; exact congrArg _ empty)
  rwa [size] at given

theorem wp_copy_file_range {src dst : Fd} {src_off dst_off len : Nat}
    {Q : Except Errno Nat → Kernel → Memory → Prop} (failed : ∀ e, Q (.error e) k m)
    (nothing : Q (.ok 0) k m)
    (fine : ∀ n, 0 < n → n ≤ len → src_off+n ≤ (k.data src).length →
      Q (.ok n) (k.edit dst.ino (writeAt · dst_off (((k.data src).drop src_off).take n))) m) :
    wp (exec res) spins (perform (.copy_file_range src src_off dst dst_off len)) Q k m := by
  refine wp_perform (fun e _ => failed e) fun hints x found => ?_
  simp only [answer] at found
  split at found
  · cases found
    exact nothing
  · rename_i nonzero
    simp only [Option.ite_none_right_eq_some,Option.some.injEq] at found
    obtain ⟨fits,rfl⟩ := found
    exact fine _ (Nat.pos_of_ne_zero nonzero) fits.1 fits.2

theorem wp_sendfile {src dst : Fd} {src_off len : Nat} {Q : Except Errno Nat → Kernel → Memory → Prop}
    (failed : ∀ e, Q (.error e) k m) (nothing : Q (.ok 0) k m)
    (fine : ∀ n, 0 < n → n ≤ len → src_off+n ≤ (k.data src).length →
      Q (.ok n) ((k.edit dst.ino (writeAt · (k.offset dst.num) (((k.data src).drop src_off).take n))).seek dst
        (k.offset dst.num+n)) m) :
    wp (exec res) spins (perform (.sendfile dst src src_off len)) Q k m := by
  refine wp_perform (fun e _ => failed e) fun hints x found => ?_
  simp only [answer] at found
  split at found
  · cases found
    exact nothing
  · rename_i nonzero
    simp only [Option.ite_none_right_eq_some,Option.some.injEq] at found
    obtain ⟨fits,rfl⟩ := found
    exact fine _ (Nat.pos_of_ne_zero nonzero) fits.1 fits.2

end

/-! ## What a copy may change -/

/-- Only the file of `dst`, and the offset of its descriptor, have changed. -/
structure Frame (dst : Fd) (k k' : Kernel) : Prop where
  files : ∀ j, j ≠ dst.ino → k'.files j = k.files j
  excess : (k'.files dst.ino).excess = (k.files dst.ino).excess
  offset : ∀ n, n ≠ dst.num → k'.offset n = k.offset n
  next : k'.next = k.next
  nfds : k'.nfds = k.nfds
  names : k'.names = k.names

theorem Frame.refl (dst : Fd) (k : Kernel) : Frame dst k k := ⟨fun _ _ => rfl,rfl,fun _ _ => rfl,rfl,rfl,rfl⟩

theorem Frame.trans {dst : Fd} {k k' k'' : Kernel} (one : Frame dst k k') (two : Frame dst k' k'') : Frame dst k k'' :=
  ⟨fun j other => (two.files j other).trans (one.files j other),two.excess.trans one.excess,
    fun n other => (two.offset n other).trans (one.offset n other),two.next.trans one.next,
    two.nfds.trans one.nfds,two.names.trans one.names⟩

theorem frame_edit (dst : Fd) (k : Kernel) (f : List Byte → List Byte) : Frame dst k (k.edit dst.ino f) :=
  ⟨fun j other => by simp [Kernel.edit,Kernel.alter,other],by simp [Kernel.edit,Kernel.alter],
    fun _ _ => rfl,rfl,rfl,rfl⟩

theorem frame_seek (dst : Fd) (k : Kernel) (off : Nat) : Frame dst k (k.seek dst off) :=
  ⟨fun _ _ => rfl,rfl,fun n other => by simp [Kernel.seek,other],rfl,rfl,rfl⟩

@[simp] theorem data_edit (k : Kernel) (dst : Fd) (f : List Byte → List Byte) :
    (k.edit dst.ino f).data dst = f (k.data dst) := by
  simp [Kernel.data,Kernel.edit,Kernel.alter]

@[simp] theorem data_seek (k : Kernel) (fd dst : Fd) (off : Nat) : (k.seek fd off).data dst = k.data dst := rfl

@[simp] theorem offset_seek (k : Kernel) (dst : Fd) (off : Nat) : (k.seek dst off).offset dst.num = off := by
  simp [Kernel.seek]

theorem Frame.data {dst src : Fd} {k k' : Kernel} (frame : Frame dst k k') (other : src.ino ≠ dst.ino) :
    k'.data src = k.data src := by
  simp [Kernel.data,frame.files _ other]

theorem Frame.size {dst src : Fd} {k k' : Kernel} (frame : Frame dst k k') (other : src.ino ≠ dst.ino) :
    k'.size src = k.size src := by
  simp [Kernel.size,Kernel.data,frame.files _ other]

/-! ## How far a copy has got -/

/-- The destination holds the bytes of `s` below `off`, those from `start` on written. -/
structure Copied (dst : Fd) (s : List Byte) (start : Nat) (k : Kernel) (off : Nat) : Prop where
  covers : Covers (k.data dst) s off
  onward : start ≤ off
  full : start < off → (k.data dst).length = off ∧ off ≤ s.length

theorem Covers.copied {dst : Fd} {s : List Byte} {k : Kernel} {start : Nat} (covers : Covers (k.data dst) s start) :
    Copied dst s start k start :=
  ⟨covers,Nat.le_refl _,by omega⟩

/-- The bytes of `s` that come next have been written. -/
theorem Copied.write {dst : Fd} {s bytes : List Byte} {start off : Nat} {k k' : Kernel}
    (copied : Copied dst s start k off) (next : bytes = (s.drop off).take bytes.length)
    (written : k'.data dst = writeAt (k.data dst) off bytes) : Copied dst s start k' (off+bytes.length) := by
  by_cases empty : bytes = []
  · subst empty
    have same : k'.data dst = k.data dst := by simpa [writeAt] using written
    obtain ⟨covers,onward,full⟩ := copied
    rw [← same] at covers full
    exact ⟨covers,onward,full⟩
  · have positive : 0 < bytes.length := List.length_pos_iff.mpr empty
    have inside : off+bytes.length ≤ s.length := by
      have := congrArg List.length next
      simp at this
      omega
    refine ⟨?_,Nat.le_trans copied.onward (Nat.le_add_right _ _),fun _ => ⟨?_,inside⟩⟩
    · rw [written]
      refine copied.covers.write fun j below => ?_
      rw [next,getD_take,getD_drop,if_pos below]
    · rw [written,copied.covers.write_length empty]

/-- Nothing but `dst` has changed, and if the result is not an error it is as `good` says. -/
def Keeps {α : Type} (dst : Fd) (k : Kernel) (good : α → Kernel → Prop) (r : Except Errno α) (k' : Kernel) : Prop :=
  Frame dst k k' ∧ ∀ a, r = .ok a → good a k'

theorem wp_error {α : Type} {dst : Fd} {k k' : Kernel} {m : Memory} {good : α → Kernel → Prop} {e : Errno}
    (frame : Frame dst k k') :
    wp (exec res) spins (pure (.error e)) (fun r k' _ => Keeps dst k good r k') k' m :=
  ⟨frame,by simp⟩

theorem wp_ok {α : Type} {dst : Fd} {k k' : Kernel} {m : Memory} {good : α → Kernel → Prop} {a : α}
    (frame : Frame dst k k') (holds : good a k') :
    wp (exec res) spins (pure (.ok a)) (fun r k' _ => Keeps dst k good r k') k' m :=
  ⟨frame,by rintro a ⟨⟩; exact holds⟩

theorem Keeps.after {α : Type} {dst : Fd} {k k' k'' : Kernel} {good : α → Kernel → Prop} {r : Except Errno α}
    (keeps : Keeps dst k' good r k'') (frame : Frame dst k k') : Keeps dst k good r k'' :=
  ⟨frame.trans keeps.1,keeps.2⟩

/-! ## Writes -/

/-- A part of what comes next in the source, by the offset of that part. -/
theorem part_of_part {s buf : List Byte} {off : Nat} (next : buf = (s.drop off).take buf.length) (i n : Nat)
    (inside : i+n ≤ buf.length) :
    (buf.drop i).take n = (s.drop (off+i)).take ((buf.drop i).take n).length := by
  have size : ((buf.drop i).take n).length = n := by simp; omega
  rw [size]
  conv => lhs; rw [next]
  rw [List.drop_take,List.take_take,List.drop_drop]
  congr 1
  omega

theorem pwriteLoop_spec {dst : Fd} {s buf : List Byte} {start off : Nat} (next : buf = (s.drop off).take buf.length) :
    ∀ (fuel done : Nat) (k : Kernel) (m : Memory), done ≤ buf.length → buf.length-done < fuel →
      Copied dst s start k (off+done) →
      wp (exec res) False (pwriteLoop dst buf off fuel done)
        (fun r k' _ => Keeps dst k (fun _ k' => Copied dst s start k' (off+buf.length)) r k') k m := by
  intro fuel
  induction fuel with
  | zero => intro done k m _ enough; omega
  | succ fuel ih =>
    intro done k m inside enough copied
    rw [pwriteLoop]
    by_cases more : done < buf.length
    · rw [if_pos more,wp_bind]
      refine wp_pwrite (fun e => wp_error (Frame.refl _ _)) fun n fits => ?_
      have frame := frame_edit dst k (writeAt · (off+done) ((buf.drop done).take n))
      dsimp only
      by_cases nothing : n = 0
      · rw [if_pos nothing]
        exact wp_error frame
      · rw [if_neg nothing]
        rw [List.length_drop] at fits
        have size : ((buf.drop done).take n).length = n := by simp; omega
        have part := part_of_part next done n (by omega)
        have grown := copied.write part (data_edit k dst (writeAt · (off+done) ((buf.drop done).take n)))
        rw [size,Nat.add_assoc] at grown
        exact wp_mono (ih _ _ m (by omega) (by omega) grown) fun r k'' m' keeps => keeps.after frame
    · rw [if_neg more]
      have whole : done = buf.length := by omega
      rw [whole] at copied
      exact ⟨Frame.refl _ _,fun _ _ => copied⟩

theorem io_pwrite_spec {dst : Fd} {s buf : List Byte} {start off fuel : Nat} {k : Kernel} {m : Memory}
    (next : buf = (s.drop off).take buf.length) (enough : buf.length < fuel) (copied : Copied dst s start k off) :
    wp (exec res) False (io_pwrite fuel dst buf off)
      (fun r k' _ => Keeps dst k (fun _ k' => Copied dst s start k' (off+buf.length)) r k') k m :=
  pwriteLoop_spec next fuel 0 k m (by omega) (by omega) copied

/-- `io_write` writes where the descriptor stands. -/
theorem writeLoop_spec {dst : Fd} {s buf : List Byte} {start off : Nat} (next : buf = (s.drop off).take buf.length) :
    ∀ (fuel done : Nat) (k : Kernel) (m : Memory), done ≤ buf.length → buf.length-done < fuel →
      Copied dst s start k (off+done) → k.offset dst.num = off+done →
      wp (exec res) False (writeLoop dst buf fuel done)
        (fun r k' _ => Keeps dst k (fun _ k' => Copied dst s start k' (off+buf.length) ∧
          k'.offset dst.num = off+buf.length) r k') k m := by
  intro fuel
  induction fuel with
  | zero => intro done k m _ enough; omega
  | succ fuel ih =>
    intro done k m inside enough copied here
    rw [writeLoop]
    by_cases more : done < buf.length
    · rw [if_pos more,wp_bind]
      refine wp_write (fun e => wp_error (Frame.refl _ _)) fun n fits => ?_
      rw [here]
      have frame := (frame_edit dst k (writeAt · (off+done) ((buf.drop done).take n))).trans
        (frame_seek dst _ (off+done+n))
      dsimp only
      by_cases nothing : n = 0
      · rw [if_pos nothing]
        exact wp_error frame
      · rw [if_neg nothing]
        rw [List.length_drop] at fits
        have size : ((buf.drop done).take n).length = n := by simp; omega
        have part := part_of_part next done n (by omega)
        have grown := copied.write part ((data_seek _ dst dst (off+done+n)).trans
          (data_edit k dst (writeAt · (off+done) ((buf.drop done).take n))))
        rw [size] at grown
        exact wp_mono (ih _ _ m (by omega) (by omega) (by rw [← Nat.add_assoc]; exact grown) (by rw [offset_seek]; omega))
          fun r k'' m' keeps => keeps.after frame
    · rw [if_neg more]
      have whole : done = buf.length := by omega
      rw [whole] at copied here
      exact ⟨Frame.refl _ _,fun _ _ => ⟨copied,here⟩⟩

theorem io_write_spec {dst : Fd} {s buf : List Byte} {start off fuel : Nat} {k : Kernel} {m : Memory}
    (next : buf = (s.drop off).take buf.length) (enough : buf.length < fuel) (copied : Copied dst s start k off)
    (here : k.offset dst.num = off) :
    wp (exec res) False (io_write fuel dst buf)
      (fun r k' _ => Keeps dst k (fun _ k' => Copied dst s start k' (off+buf.length) ∧
        k'.offset dst.num = off+buf.length) r k') k m :=
  writeLoop_spec next fuel 0 k m (by omega) (by omega) copied here

/-! ## Copies inside the kernel -/

/-- What a fast copy of a range up to `end_` leaves: both offsets where it got to. -/
def Moved (dst : Fd) (s : List Byte) (start end_ : Nat) (x : Fast × Nat × Nat) (k : Kernel) : Prop :=
  x.2.2 = x.2.1 ∧ x.2.1 ≤ end_ ∧ Copied dst s start k x.2.1

private theorem take_size {s : List Byte} {off n : Nat} (inside : off+n ≤ s.length) : ((s.drop off).take n).length = n := by
  simp
  omega

theorem sendLoop_spec {dst src : Fd} {s : List Byte} {start end_ : Nat} (other : src.ino ≠ dst.ino) :
    ∀ (fuel off len : Nat) (k : Kernel) (m : Memory), off+len = end_ → len < fuel → k.data src = s →
      Copied dst s start k off → k.offset dst.num = off →
      wp (exec res) False (sendLoop dst src fuel off off len)
        (fun r k' _ => Keeps dst k (Moved dst s start end_) r k') k m := by
  intro fuel
  induction fuel with
  | zero => intro off len k m _ enough; omega
  | succ fuel ih =>
    intro off len k m range enough content copied here
    rw [sendLoop]
    have stay : Moved dst s start end_ (.cannot,off,off) k := ⟨rfl,by simp only; omega,copied⟩
    by_cases done : len = 0
    · rw [if_pos done]
      exact wp_ok (Frame.refl _ _) ⟨rfl,by simp only; omega,copied⟩
    · rw [if_neg done,wp_bind]
      refine wp_sendfile (fun e => ?_) ?_ fun n positive fits inside => ?_
      · dsimp only
        split
        · exact wp_ok (Frame.refl _ _) stay
        · exact wp_error (Frame.refl _ _)
      · exact wp_ok (Frame.refl _ _) stay
      · rw [here,content]
        rw [content] at inside
        have frame := (frame_edit dst k (writeAt · off ((s.drop off).take n))).trans (frame_seek dst _ (off+n))
        have size := take_size inside
        have grown := copied.write (by rw [size]) ((data_seek _ dst dst (off+n)).trans
          (data_edit k dst (writeAt · off ((s.drop off).take n))))
        rw [size] at grown
        have short : n ≤ len := Nat.le_trans fits (Nat.min_le_left _ _)
        dsimp only
        rw [if_neg (Nat.pos_iff_ne_zero.mp positive)]
        exact wp_mono (ih (off+n) (len-n) _ m (by omega) (by omega) ((frame.data other).trans content) grown
          (offset_seek _ dst _)) fun r k'' m' keeps => keeps.after frame

theorem wp_lseek_set {fd : Fd} {off : Nat} {Q : Except Errno Unit → Kernel → Memory → Prop} {k : Kernel} {m : Memory}
    (failed : ∀ e, Q (.error e) k m) (fine : Q (.ok ()) (k.seek fd off) m) :
    wp (exec res) spins (perform (.lseek_set fd off)) Q k m := by
  refine wp_perform (fun e _ => failed e) fun hints x found => ?_
  cases found
  exact fine

theorem fast_sendfile_spec {dst src : Fd} {s : List Byte} {start end_ fuel off len : Nat} {k : Kernel} {m : Memory}
    (other : src.ino ≠ dst.ino) (range : off+len = end_) (enough : len < fuel) (content : k.data src = s)
    (copied : Copied dst s start k off) :
    wp (exec res) False (fast_sendfile fuel dst off src off len)
      (fun r k' _ => Keeps dst k (Moved dst s start end_) r k') k m := by
  rw [fast_sendfile,wp_bind]
  have frame := frame_seek dst k off
  refine wp_lseek_set (fun e => wp_ok (Frame.refl _ _) ⟨rfl,by simp only; omega,copied⟩) ?_
  refine wp_mono (sendLoop_spec other fuel off len _ m range enough content ?_ (offset_seek _ _ _))
    fun r k'' m' keeps => keeps.after frame
  exact ⟨copied.covers,copied.onward,copied.full⟩

theorem copyLoop_spec {dst src : Fd} {s : List Byte} {start end_ sends : Nat} (other : src.ino ≠ dst.ino) :
    ∀ (fuel off len : Nat) (k : Kernel) (m : Memory), off+len = end_ → len < fuel → len < sends → k.data src = s →
      Copied dst s start k off →
      wp (exec res) False (copyLoop sends dst src fuel off off len)
        (fun r k' _ => Keeps dst k (Moved dst s start end_) r k') k m := by
  intro fuel
  induction fuel with
  | zero => intro off len k m _ enough; omega
  | succ fuel ih =>
    intro off len k m range enough sendsEnough content copied
    rw [copyLoop]
    by_cases done : len = 0
    · rw [if_pos done]
      exact wp_ok (Frame.refl _ _) ⟨rfl,by simp only; omega,copied⟩
    · rw [if_neg done,wp_bind]
      have sent : wp (exec res) False (fast_sendfile sends dst off src off len)
          (fun r k' _ => Keeps dst k (Moved dst s start end_) r k') k m :=
        fast_sendfile_spec other range sendsEnough content copied
      refine wp_copy_file_range (fun e => ?_) sent fun n positive fits inside => ?_
      · dsimp only
        split
        · exact sent
        · exact wp_error (Frame.refl _ _)
      · rw [content]
        rw [content] at inside
        have frame := frame_edit dst k (writeAt · off ((s.drop off).take n))
        have size := take_size inside
        have grown := copied.write (by rw [size]) (data_edit k dst (writeAt · off ((s.drop off).take n)))
        rw [size] at grown
        have short : n ≤ len := Nat.le_trans fits (Nat.min_le_left _ _)
        dsimp only
        rw [if_neg (Nat.pos_iff_ne_zero.mp positive)]
        exact wp_mono (ih (off+n) (len-n) _ m (by omega) (by omega) (by omega) ((frame.data other).trans content) grown)
          fun r k'' m' keeps => keeps.after frame

theorem fast_copy_spec {dst src : Fd} {s : List Byte} {start end_ fuel len : Nat} {k : Kernel} {m : Memory}
    (other : src.ino ≠ dst.ino) (range : start+len = end_) (enough : len < fuel) (content : k.data src = s)
    (covers : Covers (k.data dst) s start) :
    wp (exec res) False (fast_copy fuel dst start src start len)
      (fun r k' _ => Keeps dst k (Moved dst s start end_) r k') k m :=
  copyLoop_spec other fuel start len k m range enough enough content (Covers.copied covers)

end Newfile.Copy
