import Newfile.Copy

/-!
The three ways to apply a template: extent by extent with a fall-back on reads
and writes, block by block without the blocks of NUL, and as a stream.
-/
namespace Newfile.Extents
open Newfile.Program Newfile.Posix Newfile.Process Newfile.Pending Newfile.Fastio Newfile.Template Newfile.Bytes
open Newfile.Copy

variable {res : Path → Ino} {spins : Prop} {k : Kernel} {m : Memory}

/-! ## Calls without effect -/

theorem wp_fstat {fd : Fd} {Q : Except Errno Stat → Kernel → Memory → Prop} (failed : ∀ e, Q (.error e) k m)
    (fine : ∀ hints, Q (.ok (k.statOf fd.ino hints)) k m) : wp (exec res) spins (perform (.fstat fd)) Q k m := by
  refine wp_perform (fun e _ => failed e) fun hints x found => ?_
  cases found
  exact fine hints

theorem wp_allocate {Q : Except Errno Unit → Kernel → Memory → Prop} (failed : ∀ e, Q (.error e) k m)
    (fine : Q (.ok ()) k m) : wp (exec res) spins allocate Q k m := by
  refine wp_perform (fun e _ => failed e) fun hints x found => ?_
  cases found
  exact fine

theorem wp_ftruncate {fd : Fd} {len : Nat} {Q : Except Errno Unit → Kernel → Memory → Prop}
    (failed : ∀ e, Q (.error e) k m) (fine : Q (.ok ()) (k.edit fd.ino (resize · len)) m) :
    wp (exec res) spins (perform (.ftruncate fd len)) Q k m := by
  refine wp_perform (fun e _ => failed e) fun hints x found => ?_
  cases found
  exact fine

theorem io_bufsize_spec {fd : Fd} {Q : Nat → Kernel → Memory → Prop} (fine : ∀ size, 0 < size → Q size k m) :
    wp (exec res) spins (io_bufsize fd) Q k m := by
  rw [io_bufsize,wp_bind]
  refine wp_fstat (fun e => fine _ (by decide)) fun hints => fine _ ?_
  split
  · simp [IO_BUFSIZE_MAX,IO_BUFSIZE_MIN] at *
    omega
  · decide

theorem io_bufalloc_spec {Q : Except Errno Unit → Kernel → Memory → Prop} (failed : ∀ e, Q (.error e) k m)
    (fine : Q (.ok ()) k m) : wp (exec res) spins io_bufalloc Q k m := by
  rw [io_bufalloc,wp_bind]
  exact wp_allocate (fun _ => wp_allocate failed fine) fine

theorem copyBuf_spec {dst src : Fd} {buf : Option Nat} (known : ∀ size, buf = some size → 0 < size)
    {Q : Except Errno Nat → Kernel → Memory → Prop} (failed : ∀ e, Q (.error e) k m)
    (fine : ∀ size, 0 < size → Q (.ok size) k m) : wp (exec res) spins (copyBuf dst src buf) Q k m := by
  cases buf with
  | some size => exact fine size (known size rfl)
  | none =>
    rw [copyBuf,wp_bind]
    refine io_bufsize_spec fun size positive => ?_
    rw [wp_bind]
    refine io_bufsize_spec fun dstsize _ => ?_
    rw [wp_bind]
    exact io_bufalloc_spec failed (fine _ (by omega))

/-! ## Extents -/

/-- Where the data of the source begins and ends after `start`: in front of it
    there is a gap, and a source of an overstated size reports no gaps. -/
structure IsExtent (k : Kernel) (src : Fd) (start begin_ end_ : Nat) : Prop where
  onward : start ≤ begin_
  nonempty : begin_ < end_
  inside : end_ ≤ k.size src
  gap : ∀ j, start ≤ j → j < begin_ → (k.data src).getD j 0 = 0
  exact_ : (k.files src.ino).excess = 0 ∨ begin_ = start ∧ end_ = k.size src

private theorem zeros_getD {d : List Byte} {start stop : Nat} (zero : ((d.take stop).drop start).all (· == 0) = true)
    {j : Nat} (after : start ≤ j) (below : j < stop) : d.getD j 0 = 0 := by
  have at_ : ((d.take stop).drop start).getD (j-start) 0 = d.getD j 0 := by
    rw [getD_drop,getD_take,Nat.add_sub_cancel' after,if_pos below]
  rw [← at_]
  by_cases inside : j-start < ((d.take stop).drop start).length
  · have found := List.all_eq_true.mp zero _ (List.getElem_mem inside)
    rw [List.getD_eq_getElem?_getD,List.getElem?_eq_getElem inside]
    simpa using found
  · exact getD_beyond (by omega)

theorem hole_next_data_spec {src : Fd} {start : Nat} {Q : Except Errno Extent → Kernel → Memory → Prop}
    (failed : ∀ e, Q (.error e) k m)
    (past : (k.size src ≤ start ∨ (k.files src.ino).excess = 0 ∧ ∀ j, start ≤ j → (k.data src).getD j 0 = 0) →
      Q (.ok .past) k m)
    (data : ∀ begin_ end_, IsExtent k src start begin_ end_ → Q (.ok (.data begin_ end_)) k m) :
    wp (exec res) spins (hole_next_data src start (k.size src)) Q k m := by
  rw [hole_next_data]
  by_cases beyond : k.size src ≤ start
  · rw [if_pos beyond]
    exact past (.inl beyond)
  rw [if_neg beyond,wp_bind]
  refine wp_perform (fun e may => ?_) fun hints x found => ?_
  · change Q (if e = Errno.ENXIO then _ else _) k m
    by_cases nothing : e = Errno.ENXIO
    · subst nothing
      rw [if_pos rfl]
      simp only [mayFail,Bool.and_eq_true,beq_iff_eq] at may
      refine past (.inr ⟨may.1,fun j after => ?_⟩)
      have zero : (((k.data src).take (max (j+1) (k.data src).length)).drop start).all (· == 0) = true := by
        rw [List.take_of_length_le (by omega)]
        exact may.2
      exact zeros_getD zero after (by omega)
    · rw [if_neg nothing]
      split
      · exact data start _ ⟨Nat.le_refl _,by omega,Nat.le_refl _,by omega,.inr ⟨rfl,rfl⟩⟩
      · exact failed e
  · simp only [answer,Option.ite_none_right_eq_some,Option.some.injEq] at found
    obtain ⟨⟨onward,inside,zero,exact_⟩,rfl⟩ := found
    dsimp only
    rw [wp_bind]
    have gap : ∀ j, start ≤ j → j < hints.getD 0 0 → (k.data src).getD j 0 = 0 := fun j => zeros_getD zero
    refine wp_perform (fun e _ => ?_) fun hints' x found => ?_
    · exact data _ _ ⟨onward,inside,Nat.le_refl _,gap,exact_.imp_right fun same => ⟨same,rfl⟩⟩
    · simp only [answer,Option.ite_none_right_eq_some,Option.some.injEq] at found
      obtain ⟨⟨more,within,last⟩,rfl⟩ := found
      refine data _ _ ⟨onward,by simp only; omega,by simp only; omega,gap,?_⟩
      rcases exact_ with exact_ | same
      · exact .inl exact_
      · rcases last with exact_ | last
        · exact .inl exact_
        · exact .inr ⟨same,by simp only [last]; omega⟩

/-- What `copy_slow` leaves of a copy up to `end_`: it stops before only at the end
    of the source. -/
structure Slowly (dst : Fd) (s : List Byte) (start end_ : Nat) (slow : Slow) (k : Kernel) : Prop where
  copied : Copied dst s start k slow.dst_off
  buf : ∀ size, slow.buf = some size → 0 < size
  whole : slow.early = false → slow.dst_off = end_
  early : slow.early = true → s.length ≤ slow.dst_off

/-- It does not stop before the end of a range that lies inside the source. -/
theorem slowLoop_inside {dst src : Fd} {s : List Byte} {start end_ pwrites : Nat} (other : src.ino ≠ dst.ino)
    (large : s.length < pwrites) :
    ∀ (fuel off : Nat) (buf : Option Nat) (k : Kernel) (m : Memory), off ≤ end_ → end_-off < fuel → k.data src = s →
      (∀ size, buf = some size → 0 < size) → Copied dst s start k off →
      wp (exec res) False (slowLoop pwrites dst src end_ fuel off off buf)
        (fun r k' _ => Keeps dst k (fun slow k' => Slowly dst s start end_ slow k' ∧
          (end_ ≤ s.length → slow.early = false)) r k') k m := by
  intro fuel
  induction fuel with
  | zero => intro off buf k m _ enough; omega
  | succ fuel ih =>
    intro off buf k m range enough content known copied
    rw [slowLoop]
    by_cases more : off < end_
    · rw [if_pos more,wp_bind]
      refine copyBuf_spec known (fun e => wp_error (Frame.refl _ _)) fun size positive => ?_
      dsimp only
      rw [wp_bind]
      refine wp_pread (fun e => wp_error (Frame.refl _ _)) fun bytes fits next last => ?_
      rw [content] at next last
      dsimp only
      by_cases empty : bytes = []
      · rw [if_pos empty]
        have ended : s.length ≤ off := by
          rcases last empty with nothing | ended
          · omega
          · exact ended
        refine wp_ok (Frame.refl _ _) ⟨⟨copied,?_,by simp,fun _ => ended⟩,fun inside => by omega⟩
        rintro _ ⟨⟩
        exact positive
      · rw [if_neg empty,wp_bind]
        have short : bytes.length ≤ s.length := by
          have := congrArg List.length next
          rw [List.length_take,List.length_drop] at this
          omega
        have fits' : bytes.length < pwrites := by omega
        refine wp_mono (io_pwrite_spec next fits' copied) fun r k' m' keeps => ?_
        obtain ⟨frame,good⟩ := keeps
        cases r with
        | error e => exact wp_error frame
        | ok _ =>
          have some' : 0 < bytes.length := List.length_pos_iff.mpr empty
          refine wp_mono (ih _ _ k' m' (by omega) (by omega) ((frame.data other).trans content) ?_ (good () rfl))
            fun r k'' m'' keeps => keeps.after frame
          rintro _ ⟨⟩
          exact positive
    · rw [if_neg more]
      exact wp_ok (Frame.refl _ _) ⟨⟨copied,known,fun _ => by simp only; omega,by simp⟩,fun _ => rfl⟩

theorem slowLoop_spec {dst src : Fd} {s : List Byte} {start end_ pwrites : Nat} (other : src.ino ≠ dst.ino)
    (large : s.length < pwrites) :
    ∀ (fuel off : Nat) (buf : Option Nat) (k : Kernel) (m : Memory), off ≤ end_ → end_-off < fuel → k.data src = s →
      (∀ size, buf = some size → 0 < size) → Copied dst s start k off →
      wp (exec res) False (slowLoop pwrites dst src end_ fuel off off buf)
        (fun r k' _ => Keeps dst k (Slowly dst s start end_) r k') k m := by
  intro fuel off buf k m range enough content known copied
  refine wp_mono (slowLoop_inside other large fuel off buf k m range enough content known copied) fun r k' m' keeps => ?_
  exact ⟨keeps.1,fun slow same => (keeps.2 slow same).1⟩

/-- The end of the extents: the whole source but for a last gap, or all there is
    of a source of an overstated size. -/
def Whole (dst : Fd) (s : List Byte) (size : Nat) (x : Nat × Bool) (k : Kernel) : Prop :=
  if x.2 then k.data dst = s
  else size = s.length ∧ Covers (k.data dst) s s.length ∧ x.1 = (k.data dst).length

theorem extentsLoop_spec {dst src : Fd} {s : List Byte} {size excess copies : Nat} (other : src.ino ≠ dst.ino)
    (large : size < copies) (total : size = s.length+excess) :
    ∀ (fuel off : Nat) (buf : Option Nat) (k : Kernel) (m : Memory), off ≤ s.length → size-off+1 < fuel →
      k.data src = s → (k.files src.ino).excess = excess → excess = 0 ∨ off = 0 → (∀ size, buf = some size → 0 < size) →
      Covers (k.data dst) s off → (k.data dst).length = off →
      wp (exec res) False (extentsLoop copies dst src size fuel off off buf)
        (fun r k' _ => Keeps dst k (Whole dst s size) r k') k m := by
  intro fuel
  induction fuel with
  | zero => intro off buf k m _ enough; omega
  | succ fuel ih =>
    intro off buf k m inside enough content overIs first known covers full
    have sizeIs : k.size src = size := by rw [Kernel.size,content,overIs,total]
    rw [extentsLoop,wp_bind,← sizeIs]
    refine hole_next_data_spec (fun e => wp_error (Frame.refl _ _)) (fun past => ?_) fun begin_ end_ extent => ?_
    · rw [sizeIs]
      have exact_ : excess = 0 := by
        rcases past with beyond | ⟨exact_,_⟩ <;> omega
      refine wp_ok (Frame.refl _ _) ?_
      change size = s.length ∧ Covers (k.data dst) s s.length ∧ off = (k.data dst).length
      refine ⟨by omega,?_,full.symm⟩
      refine Covers.gap covers inside fun j after below => ?_
      rcases past with beyond | ⟨_,zero⟩
      · omega
      · rw [← content]
        exact zero j after
    · obtain ⟨onward,nonempty,within,gap,exact_⟩ := extent
      rw [sizeIs] at within ⊢
      rw [content] at gap
      rw [overIs,sizeIs] at exact_
      dsimp only
      have covers' := Covers.gap covers onward gap
      have range : begin_+(end_-begin_) = end_ := by omega
      have fits : end_-begin_ < copies := by omega
      rw [wp_bind]
      refine wp_mono (fast_copy_spec other range fits content covers') fun r k' m' keeps => ?_
      obtain ⟨frame,good⟩ := keeps
      cases r with
      | error e => exact wp_error frame
      | ok x =>
        obtain ⟨fast,dst_off,src_off⟩ := x
        obtain ⟨same,short,copied⟩ := good _ rfl
        simp only at same short copied
        subst same
        dsimp only
        rw [wp_bind]
        have content' := (frame.data other).trans content
        have fits' : end_-src_off < copies := by omega
        have large' : s.length < copies := by omega
        refine wp_mono (slowLoop_spec other large' copies src_off buf k' m' short fits' content' known copied)
          fun r k'' m'' keeps => ?_
        obtain ⟨frame',good⟩ := keeps
        have frames := frame.trans frame'
        cases r with
        | error e => exact wp_error frames
        | ok slow =>
          obtain ⟨copied',known',whole,early⟩ := good _ rfl
          dsimp only
          cases stopped : slow.early with
          | true =>
            rw [if_pos rfl]
            refine wp_ok frames ?_
            change k''.data dst = s
            have reached := early stopped
            by_cases wrote : begin_ < slow.dst_off
            · obtain ⟨length,bound⟩ := copied'.full wrote
              have all : s.length = slow.dst_off := by omega
              exact Covers.eq copied'.covers all length
            · -- Nothing of this extent was there: the size was overstated and all is copied.
              have here : slow.dst_off = begin_ := by have := copied'.onward; omega
              have level : s.length = slow.dst_off := by omega
              have empty : (k''.data dst).length = slow.dst_off := by
                have := copied'.covers.short
                omega
              exact Covers.eq copied'.covers level empty
          | false =>
            rw [if_neg (by simp)]
            have reached := whole stopped
            rw [reached] at copied'
            obtain ⟨length,bound⟩ := copied'.full nonempty
            rw [reached]
            refine wp_mono (ih end_ slow.buf k'' m'' bound (by omega) ((frame'.data other).trans content') ?_ (by omega) known'
              copied'.covers length) fun r k3 m3 keeps => keeps.after frames
            rw [frames.files _ other,overIs]

/-- A source whose inode is not the destination's, of the content `s`. -/
structure Source (dst src : Fd) (s : List Byte) (k : Kernel) : Prop where
  other : src.ino ≠ dst.ino
  content : k.data src = s

theorem Source.frame {dst src : Fd} {s : List Byte} {k k' : Kernel} (source : Source dst src s k)
    (frame : Frame dst k k') : Source dst src s k' :=
  ⟨source.other,(frame.data source.other).trans source.content⟩

theorem copy_extents_spec {dst src : Fd} {s : List Byte} {fuel : Nat} (source : Source dst src s k)
    (enough : k.size src+1 < fuel) (empty : k.data dst = []) :
    wp (exec res) False (copy_extents fuel dst src (k.size src))
      (fun r k' _ => Keeps dst k (fun _ k' => k'.data dst = s) r k') k m := by
  have total : k.size src = s.length+(k.files src.ino).excess := by rw [Kernel.size,source.content]
  have start : Covers (k.data dst) s 0 := by rw [empty]; exact covers_nil s
  have large : k.size src < fuel := by omega
  rw [copy_extents,wp_bind]
  refine wp_mono (extentsLoop_spec source.other large total fuel 0 none k m (by omega) (by omega) source.content rfl
    (.inr rfl) (by simp) start (by rw [empty]; rfl)) fun r k' m' keeps => ?_
  obtain ⟨frame,good⟩ := keeps
  cases r with
  | error e => exact wp_error frame
  | ok x =>
    obtain ⟨written,overstated⟩ := x
    have whole := good _ rfl
    dsimp only
    cases overstated with
    | true =>
      rw [if_neg (by simp)]
      exact wp_ok frame whole
    | false =>
      obtain ⟨size,covers,reached⟩ := whole
      simp only at reached
      by_cases short : written < k.size src
      · rw [if_pos ⟨short,by simp⟩]
        refine wp_ftruncate (fun e => ⟨frame,by simp⟩) ⟨frame.trans (frame_edit _ _ _),fun _ _ => ?_⟩
        simp only [data_edit,size]
        exact Covers.resize covers rfl
      · rw [if_neg (by simp [short])]
        have full : (k'.data dst).length = s.length := by
          have := covers.short
          omega
        exact wp_ok frame (Covers.eq covers rfl full)

/-! ## Blocks -/

theorem blocksLoop_spec {dst : Fd} {s buf : List Byte} {off blksize pwrites : Nat} (positive : 0 < blksize)
    (next : buf = (s.drop off).take buf.length) (large : buf.length < pwrites) :
    ∀ (fuel i : Nat) (k : Kernel) (m : Memory), i ≤ buf.length → buf.length-i < fuel → Covers (k.data dst) s (off+i) →
      wp (exec res) False (blocksLoop pwrites dst blksize buf off fuel i)
        (fun r k' _ => Keeps dst k (fun _ k' => Covers (k'.data dst) s (off+buf.length)) r k') k m := by
  intro fuel
  induction fuel with
  | zero => intro i k m _ enough; omega
  | succ fuel ih =>
    intro i k m inside enough covers
    rw [blocksLoop]
    by_cases more : i < buf.length
    · rw [if_pos more]
      have len : ((buf.drop i).take (min (buf.length-i) blksize)).length = min (buf.length-i) blksize := by
        simp
      have part := part_of_part next i (min (buf.length-i) blksize) (by omega)
      dsimp only
      by_cases zero : all_zero ((buf.drop i).take (min (buf.length-i) blksize)) = true
      · rw [if_pos zero]
        refine ih _ k m (by omega) (by omega) (Covers.gap covers (by omega) fun j after below => ?_)
        have at_ : ((buf.drop i).take (min (buf.length-i) blksize)).getD (j-(off+i)) 0 = s.getD j 0 := by
          rw [part,getD_take,getD_drop,if_pos (by omega)]
          congr 1
          omega
        rw [← at_]
        have within : j-(off+i) < ((buf.drop i).take (min (buf.length-i) blksize)).length := by omega
        have found := List.all_eq_true.mp zero _ (List.getElem_mem within)
        rw [List.getD_eq_getElem?_getD,List.getElem?_eq_getElem within]
        simpa using found
      · rw [if_neg zero,wp_bind]
        have fits : ((buf.drop i).take (min (buf.length-i) blksize)).length < pwrites := by omega
        refine wp_mono (io_pwrite_spec part fits (Covers.copied covers)) fun r k' m' keeps => ?_
        obtain ⟨frame,good⟩ := keeps
        cases r with
        | error e => exact wp_error frame
        | ok _ =>
          have written := (good () rfl).covers
          rw [len,Nat.add_assoc] at written
          exact wp_mono (ih _ k' m' (by omega) (by omega) written) fun r k'' m'' keeps => keeps.after frame
    · rw [if_neg more]
      have whole : i = buf.length := by omega
      rw [whole] at covers
      exact wp_ok (Frame.refl _ _) covers

theorem zerosLoop_spec {dst src : Fd} {s : List Byte} {size bufsize blksize blocks : Nat} (other : src.ino ≠ dst.ino)
    (buffer : 0 < bufsize) (block : 0 < blksize) (large : s.length < blocks) (total : s.length ≤ size) :
    ∀ (fuel off : Nat) (k : Kernel) (m : Memory), off ≤ s.length → s.length-off+1 < fuel → k.data src = s →
      Covers (k.data dst) s off →
      wp (exec res) False (zerosLoop blocks dst src size bufsize blksize fuel off)
        (fun r k' _ => Keeps dst k (fun off k' => off = s.length ∧ Covers (k'.data dst) s off) r k') k m := by
  intro fuel
  induction fuel with
  | zero => intro off k m _ enough; omega
  | succ fuel ih =>
    intro off k m inside enough content covers
    rw [zerosLoop]
    by_cases more : off < size
    · rw [if_pos more,wp_bind]
      refine wp_pread (fun e => wp_error (Frame.refl _ _)) fun bytes fits next last => ?_
      rw [content] at next last
      dsimp only
      by_cases empty : bytes = []
      · rw [if_pos empty]
        have ended : off = s.length := by
          rcases last empty with nothing | ended <;> omega
        exact wp_ok (Frame.refl _ _) ⟨ended,covers⟩
      · rw [if_neg empty,wp_bind]
        have positive : 0 < bytes.length := List.length_pos_iff.mpr empty
        have short : off+bytes.length ≤ s.length := by
          have := congrArg List.length next
          rw [List.length_take,List.length_drop] at this
          omega
        have fits' : bytes.length < blocks := by omega
        refine wp_mono (blocksLoop_spec block next fits' blocks 0 k m (by omega) (by omega) covers)
          fun r k' m' keeps => ?_
        obtain ⟨frame,good⟩ := keeps
        cases r with
        | error e => exact wp_error frame
        | ok _ =>
          exact wp_mono (ih _ k' m' short (by omega) ((frame.data other).trans content) (good () rfl))
            fun r k'' m'' keeps => keeps.after frame
    · rw [if_neg more]
      exact wp_ok (Frame.refl _ _) ⟨by omega,covers⟩

/-- The size of a block is positive, whether it can be asked or not. -/
theorem zeroBlock_spec (dst : Fd) (bufsize : Nat) :
    wp (exec res) False (zeroBlock dst bufsize) (fun blksize k' m' => 0 < blksize ∧ k' = k ∧ m' = m) k m := by
  rw [zeroBlock,wp_bind]
  refine wp_fstat (fun e => ⟨by decide,rfl,rfl⟩) fun hints => ⟨?_,rfl,rfl⟩
  split
  · omega
  · decide

theorem copy_zeros_spec {dst src : Fd} {s : List Byte} {fuel : Nat} (source : Source dst src s k)
    (enough : k.size src+1 < fuel) (empty : k.data dst = []) :
    wp (exec res) False (copy_zeros fuel dst src (k.size src))
      (fun r k' _ => Keeps dst k (fun _ k' => k'.data dst = s) r k') k m := by
  have total : k.size src = s.length+(k.files src.ino).excess := by rw [Kernel.size,source.content]
  have start : Covers (k.data dst) s 0 := by rw [empty]; exact covers_nil s
  rw [copy_zeros,wp_bind]
  refine io_bufsize_spec fun bufsize buffer => ?_
  rw [wp_bind]
  refine wp_mono (zeroBlock_spec dst bufsize) ?_
  rintro blksize k' m' ⟨block,same,still⟩
  rw [same,still,wp_bind]
  refine io_bufalloc_spec (fun e => wp_error (Frame.refl _ _)) ?_
  dsimp only
  rw [wp_bind]
  have large : s.length < fuel := by omega
  refine wp_mono (zerosLoop_spec source.other buffer block large (by omega) fuel 0 k m (by omega) (by omega)
    source.content start) fun r k' m' keeps => ?_
  obtain ⟨frame,good⟩ := keeps
  cases r with
  | error e => exact wp_error frame
  | ok off =>
    obtain ⟨all,covers⟩ := good _ rfl
    refine wp_ftruncate (fun e => ⟨frame,by simp⟩) ⟨frame.trans (frame_edit _ _ _),fun _ _ => ?_⟩
    simp only [data_edit]
    exact Covers.resize covers all.symm

/-! ## Streams -/

/-- Only the file of `dst` and the offsets of the two descriptors have changed. -/
def Drained (dst src : Fd) (k k' : Kernel) : Prop := ∃ off, Frame dst (k.seek src off) k'

theorem Drained.refl (dst src : Fd) (k : Kernel) : Drained dst src k k := by
  refine ⟨k.offset src.num,fun _ _ => rfl,rfl,fun n _ => ?_,rfl,rfl,rfl⟩
  by_cases here : n = src.num
  · simp [Kernel.seek,here]
  · simp [Kernel.seek,here]

theorem Drained.trans {dst src : Fd} {k k' k'' : Kernel} (one : Drained dst src k k') (two : Drained dst src k' k'') :
    Drained dst src k k'' := by
  obtain ⟨a,one⟩ := one
  obtain ⟨b,two⟩ := two
  refine ⟨b,fun j other => (two.files j other).trans (one.files j other),two.excess.trans one.excess,fun n other => ?_,
    two.next.trans one.next,two.nfds.trans one.nfds,two.names.trans one.names⟩
  rw [two.offset n other]
  by_cases here : n = src.num
  · simp [Kernel.seek,here]
  · have := one.offset n other
    simpa [Kernel.seek,here] using this

theorem Drained.seek (dst src : Fd) (k : Kernel) (off : Nat) : Drained dst src k (k.seek src off) :=
  ⟨off,Frame.refl _ _⟩

theorem Frame.drained {dst : Fd} {k k' : Kernel} (src : Fd) (frame : Frame dst k k') : Drained dst src k k' := by
  refine ⟨k.offset src.num,frame.files,frame.excess,fun n other => ?_,frame.next,frame.nfds,frame.names⟩
  rw [frame.offset n other]
  by_cases here : n = src.num
  · simp [Kernel.seek,here]
  · simp [Kernel.seek,here]

theorem Drained.data {dst src : Fd} {k k' : Kernel} (drained : Drained dst src k k') (other : src.ino ≠ dst.ino) :
    k'.data src = k.data src := by
  obtain ⟨off,frame⟩ := drained
  exact frame.data other

/-- In the middle of a stream of the bytes `s`: so many are written, and so many read. -/
structure Flowing (dst src : Fd) (s : List Byte) (from_ off : Nat) (k : Kernel) : Prop where
  other : src.ino ≠ dst.ino
  apart : src.num ≠ dst.num
  rest : (k.data src).drop from_ = s
  read : k.offset src.num = from_+off
  copied : Copied dst s 0 k off
  written : k.offset dst.num = off
  short : off ≤ s.length

/-- All of the stream has arrived. -/
def Arrived (dst : Fd) (s : List Byte) (k : Kernel) : Prop := k.data dst = s

theorem Flowing.arrived {dst src : Fd} {s : List Byte} {from_ off : Nat} (flowing : Flowing dst src s from_ off k)
    (ended : (k.data src).length ≤ k.offset src.num) : Arrived dst s k := by
  obtain ⟨_,_,rest,read,copied,_,short⟩ := flowing
  have all : s.length = off := by
    rw [← rest,List.length_drop] at *
    omega
  refine Covers.eq copied.covers all ?_
  by_cases positive : 0 < off
  · exact (copied.full positive).1
  · have := copied.covers.short
    omega

/-- The next bytes of the stream are those that the source holds next. -/
theorem Flowing.next {dst src : Fd} {s bytes : List Byte} {from_ off : Nat} (flowing : Flowing dst src s from_ off k)
    (next : bytes = ((k.data src).drop (k.offset src.num)).take bytes.length) :
    bytes = (s.drop off).take bytes.length ∧ off+bytes.length ≤ s.length := by
  have part : bytes = (s.drop off).take bytes.length := by
    rw [← flowing.rest,List.drop_drop,← flowing.read]
    exact next
  refine ⟨part,?_⟩
  have := congrArg List.length part
  rw [List.length_take,List.length_drop] at this
  have := flowing.short
  omega

theorem streamLoop_spec {dst src : Fd} {s : List Byte} {from_ bufsize writes : Nat} (buffer : 0 < bufsize)
    (large : s.length < writes) :
    ∀ (fuel off : Nat) (k : Kernel) (m : Memory), s.length-off < fuel → Flowing dst src s from_ off k →
      wp (exec res) False (streamLoop writes dst src bufsize fuel)
        (fun r k' _ => Drained dst src k k' ∧ (r = .ok () → Arrived dst s k')) k m := by
  intro fuel
  induction fuel with
  | zero => intro off k m enough; omega
  | succ fuel ih =>
    intro off k m enough flowing
    rw [streamLoop,wp_bind]
    refine wp_read (fun e => ⟨Drained.refl _ _ _,by simp⟩) fun bytes fits next last => ?_
    obtain ⟨next,short⟩ := flowing.next next
    dsimp only
    have drained := Drained.seek dst src k (k.offset src.num+bytes.length)
    by_cases empty : bytes = []
    · rw [if_pos empty]
      refine ⟨drained,fun _ => ?_⟩
      have ended : (k.data src).length ≤ k.offset src.num := by
        rcases last empty with nothing | ended <;> omega
      exact flowing.arrived ended
    · rw [if_neg empty,wp_bind]
      have positive : 0 < bytes.length := List.length_pos_iff.mpr empty
      have fits' : bytes.length < writes := by omega
      have copied : Copied dst s 0 (k.seek src (k.offset src.num+bytes.length)) off := by
        obtain ⟨covers,onward,full⟩ := flowing.copied
        exact ⟨covers,onward,full⟩
      have written : (k.seek src (k.offset src.num+bytes.length)).offset dst.num = off := by
        simpa [Kernel.seek,flowing.apart.symm] using flowing.written
      refine wp_mono (io_write_spec next fits' copied written) fun r k' m' keeps => ?_
      obtain ⟨frame,good⟩ := keeps
      have drained' := drained.trans (Frame.drained src frame)
      cases r with
      | error e => exact ⟨drained',by simp⟩
      | ok _ =>
        obtain ⟨copied',written'⟩ := good () rfl
        have flowing' : Flowing dst src s from_ (off+bytes.length) k' := by
          refine ⟨flowing.other,flowing.apart,?_,?_,copied',written',short⟩
          · rw [drained'.data flowing.other]
            exact flowing.rest
          · rw [frame.offset _ flowing.apart,offset_seek,flowing.read,Nat.add_assoc]
        exact wp_mono (ih _ k' m' (by omega) flowing') fun r k'' m'' done => ⟨drained'.trans done.1,done.2⟩

theorem copy_stream_spec {dst src : Fd} {s : List Byte} {from_ fuel : Nat} (enough : s.length < fuel)
    (flowing : Flowing dst src s from_ 0 k) :
    wp (exec res) False (copy_stream fuel dst src)
      (fun r k' _ => Drained dst src k k' ∧ (r = .ok () → Arrived dst s k')) k m := by
  rw [copy_stream,wp_bind]
  refine io_bufsize_spec fun bufsize buffer => ?_
  rw [wp_bind]
  refine io_bufalloc_spec (fun e => ⟨Drained.refl _ _ _,by simp⟩) ?_
  exact streamLoop_spec buffer enough fuel 0 k m (by omega) flowing

theorem spliceLoop_spec {dst src : Fd} {s : List Byte} {from_ : Nat} :
    ∀ (fuel off : Nat) (moved : Bool) (k : Kernel) (m : Memory), s.length-off < fuel → (moved = false → off = 0) →
      Flowing dst src s from_ off k →
      wp (exec res) False (spliceLoop dst src fuel moved)
        (fun r k' _ => Drained dst src k k' ∧ (r = .ok .done → Arrived dst s k') ∧
          (r = .ok .cannot → Flowing dst src s from_ 0 k')) k m := by
  intro fuel
  induction fuel with
  | zero => intro off moved k m enough; omega
  | succ fuel ih =>
    intro off moved k m enough still flowing
    rw [spliceLoop,wp_bind]
    refine wp_perform (fun e _ => ?_) fun hints x found => ?_
    · dsimp only
      split
      · rename_i refused
        have unmoved : off = 0 := still (by simpa using refused.1)
        subst unmoved
        exact ⟨Drained.refl _ _ _,by simp,fun _ => flowing⟩
      · exact ⟨Drained.refl _ _ _,by simp,by simp⟩
    · simp only [answer,Option.ite_none_right_eq_some,Option.some.injEq] at found
      obtain ⟨⟨_,size,last⟩,rfl⟩ := found
      generalize hints.getD 0 0 = n at *
      have moved : ((k.data src).drop (k.offset src.num)).take n =
          ((k.data src).drop (k.offset src.num)).take (((k.data src).drop (k.offset src.num)).take n).length := by
        rw [size]
      obtain ⟨next,short⟩ := flowing.next moved
      rw [size] at next short
      dsimp only
      have frame := (frame_edit dst k (writeAt · (k.offset dst.num) (((k.data src).drop (k.offset src.num)).take n)))
      have drained := ((Frame.drained src frame).trans (Drained.seek dst src _ (k.offset src.num+n))).trans
        (Frame.drained src (frame_seek dst _ (k.offset dst.num+n)))
      by_cases nothing : n = 0
      · rw [if_pos nothing]
        refine ⟨drained,fun _ => ?_,by simp⟩
        subst nothing
        have same := flowing.arrived (last rfl)
        simpa [Arrived,writeAt] using same
      · rw [if_neg nothing]
        have grown := flowing.copied.write (by rw [size]; exact next)
          (data_edit k dst (writeAt · off (((k.data src).drop (k.offset src.num)).take n)))
        rw [size] at grown
        have flowing' : Flowing dst src s from_ (off+n)
            (((k.edit dst.ino (writeAt · (k.offset dst.num) (((k.data src).drop (k.offset src.num)).take n))).seek src
              (k.offset src.num+n)).seek dst (k.offset dst.num+n)) := by
          refine ⟨flowing.other,flowing.apart,?_,?_,?_,?_,short⟩
          · rw [drained.data flowing.other]
            exact flowing.rest
          · simp [Kernel.seek,flowing.apart,flowing.read,Nat.add_assoc]
          · rw [flowing.written]
            obtain ⟨covers,onward,full⟩ := grown
            exact ⟨covers,onward,full⟩
          · rw [offset_seek,flowing.written]
        exact wp_mono (ih _ true _ m (by omega) (by simp) flowing') fun r k'' m'' done =>
          ⟨drained.trans done.1,done.2⟩

end Newfile.Extents
