import Newfile.Copies

/-!
A template that has grown since its size was recorded. Its bytes up to that size
are as they were; behind them lie data and gaps, and `hole_next_data` limits the
end of an extent to the recorded size but not its start. The lengths in C are
signed, and a range that starts behind its end has as little to copy as an empty
one.
-/
namespace Newfile.Grown
open Newfile.Program Newfile.Posix Newfile.Process Newfile.Fastio Newfile.Template Newfile.Bytes Newfile.Copy
open Newfile.Extents

variable {res : Path → Ino} {k₀ : Kernel} {src dst : Fd} {m : Memory}

/-- Where a file has data and where gaps, which read as NUL, and which seeks tell it. -/
structure Layout (k : Kernel) (src : Fd) where
  /-- SEEK_DATA is there. -/
  seeks : Bool
  /-- SEEK_HOLE does not fail. -/
  holes : Bool
  data : Nat → Bool
  zero : ∀ j, data j = false → (k.data src).getD j 0 = 0
  overstated : (k.files src.ino).excess ≠ 0 → ∀ j, data j = true

namespace Layout
variable (lay : Layout k₀ src)

/-- No data from `start` up to `stop`. -/
def Gap (start stop : Nat) : Prop := ∀ j, start ≤ j → j < stop → lay.data j = false

/-- The recorded size lies in a gap, behind which data has been added. -/
def Regrown (size : Nat) : Prop :=
  lay.seeks = true ∧ 0 < size ∧ lay.data (size-1) = false ∧ ∃ j, size ≤ j ∧ j < k₀.size src ∧ lay.data j = true

/-- What the seeks of the file may be answered. -/
def Answers : (c : Call) → posix.Res c → Prop
  | .lseek_data fd off, .ok at_ =>
    fd = src → lay.seeks = true ∧ off ≤ at_ ∧ at_ < k₀.size src ∧ lay.data at_ = true ∧ lay.Gap off at_
  | .lseek_data fd off, .error e =>
    fd = src → (e = Errno.ENXIO → lay.seeks = true ∧ lay.Gap off (k₀.size src)) ∧
      (e = .EINVAL ∨ e = .ENOTSUP → lay.seeks = false)
  | .lseek_hole fd off, .ok at_ =>
    fd = src → off < at_ ∧ at_ ≤ k₀.size src ∧ (∀ j, off < j → j < at_ → lay.data j = true) ∧
      (at_ < k₀.size src → lay.data at_ = false)
  | .lseek_hole fd _, .error _ => fd = src → lay.holes = false
  | _, _ => True

/-- The system, on a file of this layout. -/
def laid (res : Path → Ino) : System posix Kernel := fun k c r k' => exec res k c r k' ∧ lay.Answers c r

theorem laid_exec (k : Kernel) (c : Call) (r : posix.Res c) (k' : Kernel) (answer : lay.laid res k c r k') :
    exec res k c r k' := answer.1

end Layout

variable {lay : Layout k₀ src} {k : Kernel}

/-- An extent of the file as far as `size`: as it should be, or all behind the size. -/
inductive Reported (lay : Layout k₀ src) (size start : Nat) : Nat → Nat → Prop
  | inside {begin_ end_ : Nat} (onward : start ≤ begin_) (nonempty : begin_ < end_) (within : end_ ≤ size)
      (gap : lay.Gap start begin_) (full : lay.seeks = true → lay.holes = true → lay.data (end_-1) = true) :
      Reported lay size start begin_ end_
  | behind {begin_ : Nat} (seeks : lay.seeks = true) (gap : lay.Gap start begin_) (beyond : size ≤ begin_)
      (within : begin_ < k₀.size src) (data : lay.data begin_ = true) : Reported lay size start begin_ size

/-- What a call may give when the layout answers it. -/
theorem wp_laid {c : Call} {Q : posix.Res c → Kernel → Memory → Prop}
    (failed : ∀ e, mayFail res k c e = true → lay.Answers c (.error e) → Q (.error e) (afterFailure k c) m)
    (fine : ∀ hints x, answer res k hints c = some x → lay.Answers c (.ok x.1) → Q (.ok x.1) x.2 m) :
    wp (lay.laid res) False (perform c) Q k m := by
  rintro r k' ⟨answer,laid⟩
  have rule : wp (exec res) False (perform c) (fun r k' m => lay.Answers c r → Q r k' m) k m :=
    wp_perform failed fine
  exact rule r k' answer laid

theorem hole_next_data_laid {start size : Nat} {Q : Except Errno Extent → Kernel → Memory → Prop}
    (failed : ∀ e, Q (.error e) k m)
    (past : (size ≤ start ∨ lay.seeks = true ∧ lay.Gap start (k₀.size src)) → Q (.ok .past) k m)
    (data : ∀ begin_ end_, start < size → Reported lay size start begin_ end_ → Q (.ok (.data begin_ end_)) k m) :
    wp (lay.laid res) False (hole_next_data src start size) Q k m := by
  rw [hole_next_data]
  by_cases beyond : size ≤ start
  · rw [if_pos beyond]
    exact past (.inl beyond)
  have before : start < size := not_le.mp beyond
  rw [if_neg beyond,wp_bind]
  refine wp_laid (fun e _ answers => ?_) fun hints x found answers => ?_
  · obtain ⟨ended,missing⟩ := answers rfl
    change Q (if e = Errno.ENXIO then _ else _) k m
    by_cases nothing : e = Errno.ENXIO
    · rw [if_pos nothing]
      exact past (.inr (ended nothing))
    · rw [if_neg nothing]
      split
      · rename_i unknown
        have unseen := missing unknown
        refine data _ _ before (.inside (Nat.le_refl _) before (Nat.le_refl _) (fun j _ _ => by omega) ?_)
        rw [unseen]
        exact fun seeks => absurd seeks (by simp)
      · exact failed e
  · obtain ⟨seeks,onward,within,holds,gap⟩ := answers rfl
    simp only [answer,Option.ite_none_right_eq_some,Option.some.injEq] at found
    obtain ⟨_,rfl⟩ := found
    generalize hints.getD 0 0 = begin_ at *
    dsimp only at *
    rw [wp_bind]
    refine wp_laid (fun e _ answers => ?_) fun hints x found answers => ?_
    · dsimp only
      by_cases below : begin_ < size
      · refine data _ _ before (.inside onward below (Nat.le_refl _) gap fun _ holes => ?_)
        exact absurd holes (by simp [answers rfl])
      · exact data _ _ before (.behind seeks gap (not_lt.mp below) within holds)
    · obtain ⟨more,inside,full,_⟩ := answers rfl
      simp only [answer,Option.ite_none_right_eq_some,Option.some.injEq] at found
      obtain ⟨_,rfl⟩ := found
      generalize hints.getD 0 0 = gap_ at *
      dsimp only at *
      by_cases below : begin_ < size
      · refine data _ _ before (.inside onward (by omega) (Nat.min_le_right _ _) gap fun _ _ => ?_)
        by_cases first : min gap_ size-1 = begin_
        · rw [first]
          exact holds
        · exact full _ (by omega) (by omega)
      · rw [Nat.min_eq_right (by omega)]
        exact data _ _ before (.behind seeks gap (not_lt.mp below) within holds)

/-- An extent behind the size shows that the file has regrown. -/
theorem regrown_of_behind {size start begin_ : Nat} (before : start < size) (seeks : lay.seeks = true)
    (gap : lay.Gap start begin_) (beyond : size ≤ begin_) (within : begin_ < k₀.size src)
    (data : lay.data begin_ = true) : lay.Regrown size :=
  ⟨seeks,by omega,gap (size-1) (by omega) (by omega),begin_,beyond,within,data⟩

theorem not_regrown_of_data {size : Nat} (data : lay.data (size-1) = true) : ¬lay.Regrown size := by
  rintro ⟨_,_,gap,_⟩
  rw [data] at gap
  exact absurd gap (by simp)

theorem not_regrown_of_gap {start size : Nat} (before : start < size) (gap : lay.Gap start (k₀.size src)) :
    ¬lay.Regrown size := by
  rintro ⟨_,_,_,j,after,inside,data⟩
  rw [gap j (by omega) inside] at data
  exact absurd data (by simp)

/-! ## The loop -/

/-- How the loop over the extents ends: with all but a last gap, or with an extent
    behind the size, which takes the place of the last gap. -/
inductive Ended (lay : Layout k₀ src) (dst : Fd) (size : Nat) (k : Kernel) : Nat × Bool → Prop
  | whole {written : Nat} (inside : written ≤ size) (full : (k.data dst).length = written)
      (covers : Covers (k.data dst) (k₀.data src) size)
      (sound : lay.seeks = true → lay.holes = true → ¬lay.Regrown size) : Ended lay dst size k (written,false)
  | short {written : Nat} (beyond : size ≤ written) (short : (k.data dst).length < size) (regrown : lay.Regrown size) :
      Ended lay dst size k (written,false)

/-- Before a round that starts at `off`. -/
structure Reached (lay : Layout k₀ src) (dst : Fd) (off : Nat) (k : Kernel) : Prop where
  content : k.data src = k₀.data src
  covers : Covers (k.data dst) (k₀.data src) off
  full : (k.data dst).length = off
  data : 0 < off → lay.seeks = true → lay.holes = true → lay.data (off-1) = true

/-- Behind the size there is nothing to copy. -/
theorem extentsLoop_behind {copies size begin_ fuel : Nat} {buf : Option Nat} {Q : Except Errno (Nat × Bool) → Kernel → Memory → Prop}
    (beyond : size ≤ begin_) (fine : Q (.ok (begin_,false)) k m) :
    wp (lay.laid res) False (do
      match ← fast_copy (copies+1) dst begin_ src begin_ (size-begin_) with
      | .error e => return .error e
      | .ok (_,dst_off,src_off) =>
        match ← copy_slow (copies+1) dst src src_off dst_off size buf with
        | .error e => return .error e
        | .ok slow =>
          if slow.early then return .ok (slow.dst_off,true)
          else extentsLoop (copies+1) dst src size (fuel+1) size slow.dst_off slow.buf) Q k m := by
  have zero : size-begin_ = 0 := by omega
  have stay : ¬begin_ < size := not_lt.mpr beyond
  have copied : fast_copy (copies+1) dst begin_ src begin_ (size-begin_) = pure (.ok (.done,begin_,begin_)) := by
    rw [fast_copy,copyLoop,if_pos zero]
  have slowly : copy_slow (copies+1) dst src begin_ begin_ size buf = pure (.ok ⟨false,begin_,buf⟩) := by
    rw [copy_slow,slowLoop,if_neg stay]
  have last : extentsLoop (copies+1) dst src size (fuel+1) size begin_ buf = pure (.ok (begin_,false)) := by
    rw [extentsLoop,hole_next_data,if_pos (Nat.le_refl _)]
    rfl
  rw [copied,wp_bind,wp_pure]
  dsimp only
  rw [slowly,wp_bind,wp_pure]
  simp only [Bool.false_eq_true,if_false]
  rw [last]
  exact fine

theorem extentsLoop_laid {size copies : Nat} (other : src.ino ≠ dst.ino) (grown : size ≤ (k₀.data src).length)
    (large : (k₀.data src).length < copies+1) :
    ∀ (fuel off : Nat) (buf : Option Nat) (k : Kernel) (m : Memory), off ≤ size → size-off+1 < fuel →
      (∀ size, buf = some size → 0 < size) → Reached lay dst off k →
      wp (lay.laid res) False (extentsLoop (copies+1) dst src size fuel off off buf)
        (fun r k' _ => ∀ x, r = .ok x → Ended lay dst size k' x) k m := by
  intro fuel
  induction fuel with
  | zero => intro off buf k m _ enough; omega
  | succ fuel ih =>
    intro off buf k m inside enough known reached
    obtain ⟨content,covers,full,data⟩ := reached
    rw [extentsLoop,wp_bind]
    refine hole_next_data_laid (fun e => by simp) (fun past => ?_) fun begin_ end_ before extent => ?_
    · rintro _ ⟨⟩
      refine .whole inside full (Covers.gap covers inside fun j after below => ?_) fun seeks holes => ?_
      · rcases past with beyond | ⟨_,gap⟩
        · omega
        · have within : (k₀.data src).length ≤ k₀.size src := Nat.le_add_right _ _
          exact lay.zero j (gap j after (by omega))
      · by_cases beyond : size ≤ off
        · obtain rfl := Nat.le_antisymm inside beyond
          by_cases atZero : off = 0
          · rintro ⟨_,positive,_⟩
            omega
          · exact not_regrown_of_data (data (Nat.pos_of_ne_zero atZero) seeks holes)
        · rcases past with beyond' | ⟨_,gap⟩
          · exact absurd beyond' beyond
          · exact not_regrown_of_gap (not_le.mp beyond) gap
    · dsimp only
      rcases extent with ⟨onward,nonempty,within,gap,full'⟩ | ⟨seeks,gap,beyond,within,data'⟩
      · have covers' : Covers (k.data dst) (k₀.data src) begin_ :=
          Covers.gap covers onward fun j after below => lay.zero j (gap j after below)
        rw [wp_bind]
        refine wp_mono (wp_restrict lay.laid_exec (fast_copy_spec other (Nat.add_sub_cancel' nonempty.le) (by omega)
          content covers')) fun r k1 m1 keeps => ?_
        obtain ⟨frame,moved⟩ := keeps
        cases r with
        | error e => simp
        | ok x =>
          obtain ⟨speed,dst_off,src_off⟩ := x
          obtain ⟨same,short,copied⟩ := moved _ rfl
          dsimp only at same short copied ⊢
          subst same
          rw [wp_bind]
          refine wp_mono (wp_restrict lay.laid_exec (slowLoop_inside other large _ _ buf k1 m1 short (by omega)
            ((frame.data other).trans content) known copied)) fun r k2 m2 keeps => ?_
          obtain ⟨frame',slowly⟩ := keeps
          cases r with
          | error e => simp
          | ok slow =>
            obtain ⟨⟨copied',known',whole,_⟩,late⟩ := slowly slow rfl
            have all := late (by omega)
            have there := whole all
            dsimp only
            rw [if_neg (by simp [all])]
            rw [there] at copied' ⊢
            refine ih end_ slow.buf k2 m2 within (by omega) known' ⟨?_,copied'.covers,(copied'.full nonempty).1,fun _ => full'⟩
            exact (frame'.data other).trans ((frame.data other).trans content)
      · obtain ⟨more,rfl⟩ : ∃ more, fuel = more+1 := ⟨fuel-1,by omega⟩
        refine extentsLoop_behind beyond ?_
        rintro _ ⟨⟩
        exact .short beyond (by omega) (regrown_of_behind before seeks gap beyond within data')

/-! ## The copy -/

theorem take_length {size : Nat} {d : List Byte} (grown : size ≤ d.length) : (d.take size).length = size := by
  simp [grown]

theorem covers_take {d s : List Byte} {n : Nat} (covers : Covers d s n) : Covers d (s.take n) n :=
  ⟨covers.short,fun j below => by rw [covers.same j below,getD_take,if_pos below]⟩

theorem copy_extents_laid {size fuel : Nat} (other : src.ino ≠ dst.ino) (grown : size ≤ (k₀.data src).length)
    (enough : (k₀.data src).length+1 < fuel) (empty : k₀.data dst = []) :
    wp (lay.laid res) False (copy_extents fuel dst src size)
      (fun r k' _ => r = .ok () →
        (k'.data dst = (k₀.data src).take size ∧ (lay.seeks = true → lay.holes = true → ¬lay.Regrown size)) ∨
        ((k'.data dst).length < size ∧ lay.Regrown size)) k₀ m := by
  obtain ⟨copies,rfl⟩ : ∃ copies, fuel = copies+1 := ⟨fuel-1,by omega⟩
  have start : Reached lay dst 0 k₀ :=
    ⟨rfl,by rw [empty]; exact covers_nil _,by rw [empty]; rfl,fun positive => absurd positive (by omega)⟩
  rw [copy_extents,wp_bind]
  refine wp_mono (extentsLoop_laid other grown (by omega) (copies+1) 0 none k₀ m (Nat.zero_le _) (by omega) (by simp) start)
    fun r k' m' ended => ?_
  cases r with
  | error e => simp
  | ok x =>
    rcases ended x rfl with ⟨inside,full,covers,sound⟩ | ⟨beyond,short,regrown⟩
    · rename_i written
      by_cases less : written < size
      · simp only [less,Bool.not_false,and_self,if_true]
        refine wp_laid (fun e _ _ => by simp) fun hints x found _ => ?_
        cases found
        refine fun _ => .inl ⟨?_,sound⟩
        rw [data_edit]
        exact Covers.resize (covers_take covers) (take_length grown)
      · simp only [less,false_and,if_false]
        refine fun _ => .inl ⟨?_,sound⟩
        exact Covers.eq (covers_take covers) (take_length grown) (by omega)
    · rename_i written
      have over_ : ¬written < size := not_lt.mpr beyond
      simp only [over_,false_and,if_false]
      exact fun _ => .inr ⟨short,regrown⟩

/-! ## An extent behind the size -/

theorem all_zero_of_gap {start stop : Nat} (gap : lay.Gap start stop) :
    (((k₀.data src).take stop).drop start).all (· == 0) = true := by
  refine List.all_eq_true.mpr fun x member => ?_
  obtain ⟨i,inside,rfl⟩ := List.getElem_of_mem member
  simp only [List.length_drop,List.length_take] at inside
  have zero := lay.zero (start+i) (gap _ (by omega) (by omega))
  rw [List.getD_eq_getElem?_getD,List.getElem?_eq_getElem (by omega)] at zero
  simpa using zero

/-- The first offset from `start` on that is as sought. -/
theorem first_after (sought : Nat → Prop) {start j : Nat} (after : start ≤ j) (found : sought j) :
    ∃ i, start ≤ i ∧ i ≤ j ∧ sought i ∧ ∀ j, start ≤ j → j < i → ¬sought j := by
  classical
  have exists_ : ∃ i, start ≤ i ∧ sought i := ⟨j,after,found⟩
  refine ⟨Nat.find exists_,(Nat.find_spec exists_).1,Nat.find_min' exists_ ⟨after,found⟩,(Nat.find_spec exists_).2,?_⟩
  exact fun j after below found => Nat.find_min exists_ below ⟨after,found⟩

/-- The seeks at the last byte below the size then lead behind it. -/
theorem regrown_run {size : Nat} (regrown : lay.Regrown size) : ∃ evs t begin_,
    Run (lay.laid res) ⟨hole_next_data src (size-1) size,k₀,m⟩ evs t ∧
      t.prog = .ret (.ok (.data begin_ size)) ∧ size ≤ begin_ := by
  obtain ⟨seeks,positive,last,j,after,inside,data⟩ := regrown
  obtain ⟨begin_,onward,early,data',before⟩ := first_after (fun j => lay.data j = true) after data
  have gap : lay.Gap (size-1) begin_ := by
    intro i from_ below
    by_cases here : i = size-1
    · rw [here]
      exact last
    · simpa using before i (by omega) below
  have within : begin_ < k₀.size src := by omega
  obtain ⟨end_,more,fits,stop,full⟩ := first_after (fun j => j = k₀.size src ∨ lay.data j = false)
    (show begin_+1 ≤ k₀.size src by omega) (.inl rfl)
  have exact_ : (k₀.files src.ino).excess = 0 := by
    by_contra over_
    rw [lay.overstated over_] at last
    exact absurd last (by simp)
  have behind : ¬size ≤ size-1 := by omega
  have answerData : exec res k₀ (.lseek_data src (size-1)) (.ok begin_) k₀ := by
    refine ⟨.ok [begin_],?_⟩
    have zeros := all_zero_of_gap gap
    have order : size-1 ≤ begin_ := by omega
    simp [step,answer,order,within,exact_,zeros]
  have answerHole : exec res k₀ (.lseek_hole src begin_) (.ok end_) k₀ := by
    refine ⟨.ok [end_],?_⟩
    simp [step,answer,exact_,fits,Nat.lt_of_succ_le more]
  have laidData : lay.Answers (.lseek_data src (size-1)) (.ok begin_) :=
    fun _ => ⟨seeks,by omega,within,data',gap⟩
  have laidHole : lay.Answers (.lseek_hole src begin_) (.ok end_) := by
    refine fun _ => ⟨Nat.lt_of_succ_le more,fits,fun i after below => ?_,fun inside => ?_⟩
    · have neither := full i after below
      simp only [not_or,Bool.not_eq_false] at neither
      exact neither.2
    · rcases stop with ended | gap
      · exact absurd ended (Nat.ne_of_lt inside)
      · exact gap
  rw [hole_next_data,if_neg behind]
  have result : min end_ size = size := by omega
  refine ⟨_,_,begin_,Run.call ⟨answerData,laidData⟩ (Run.call ⟨answerHole,laidHole⟩ (Run.refl _)),?_,onward⟩
  show Prog.ret _ = _
  rw [result]

/-! ## The recorded size -/

/-- Every extent that starts the search below the size lies below it. -/
def ExtentsInside (lay : Layout k₀ src) (res : Path → Ino) (m : Memory) (size : Nat) : Prop :=
  ∀ start < size, ∀ evs t begin_ end_, Run (lay.laid res) ⟨hole_next_data src start size,k₀,m⟩ evs t →
    t.prog = .ret (.ok (.data begin_ end_)) → start ≤ begin_ ∧ begin_ < end_ ∧ end_ ≤ size

/-- The destination holds the first `size` bytes of the source and no more. -/
def Exact (k₀ : Kernel) (src dst : Fd) (size : Nat) (k : Kernel) : Prop :=
  (k.data dst).length = size ∧ k.data dst = (k₀.data src).take size

def CopiesExact (lay : Layout k₀ src) (res : Path → Ino) (m : Memory) (fuel : Nat) (dst : Fd) (size : Nat) : Prop :=
  ∀ evs t, Run (lay.laid res) ⟨copy_extents fuel dst src size,k₀,m⟩ evs t → t.prog = .ret (.ok ()) →
    Exact k₀ src dst size t.kernel

theorem extentsInside_of_not_regrown {size : Nat} (sound : ¬lay.Regrown size) : ExtentsInside lay res m size := by
  intro start before evs t begin_ end_ run done
  have rule : wp (lay.laid res) False (hole_next_data src start size) (fun r _ _ => ∀ begin_ end_,
      r = .ok (.data begin_ end_) → start ≤ begin_ ∧ begin_ < end_ ∧ end_ ≤ size) k₀ m := by
    refine hole_next_data_laid (fun e => by simp) (fun _ => by simp) fun begin_ end_ before extent => ?_
    rintro _ _ ⟨⟩
    rcases extent with ⟨onward,nonempty,within,_,_⟩ | ⟨seeks,gap,beyond,within,data⟩
    · exact ⟨onward,nonempty,within⟩
    · exact absurd (regrown_of_behind before seeks gap beyond within data) sound
  have reached := wp_run run rule
  rw [done] at reached
  exact reached begin_ end_ rfl

theorem exact_or_short {size fuel : Nat} (other : src.ino ≠ dst.ino) (grown : size ≤ (k₀.data src).length)
    (enough : (k₀.data src).length+1 < fuel) (empty : k₀.data dst = []) {evs : List (Event posix)}
    {t : Config posix Kernel Memory (Except Errno Unit)}
    (run : Run (lay.laid res) ⟨copy_extents fuel dst src size,k₀,m⟩ evs t) (done : t.prog = .ret (.ok ())) :
    (Exact k₀ src dst size t.kernel ∧ (lay.seeks = true → lay.holes = true → ¬lay.Regrown size)) ∨
      ((t.kernel.data dst).length < size ∧ lay.Regrown size) := by
  have reached := wp_run run (copy_extents_laid other grown enough empty)
  rw [done] at reached
  rcases reached rfl with ⟨same,sound⟩ | short
  · exact .inl ⟨⟨by rw [same]; exact take_length grown,same⟩,sound⟩
  · exact .inr short

/-- The extents of a file that has grown stay below the recorded size, and a copy
    keeps that size, just when no data was added behind a gap at its end. -/
theorem keeps_size_iff (lay : Layout k₀ src) (size fuel : Nat) (other : src.ino ≠ dst.ino)
    (grown : size ≤ (k₀.data src).length) (enough : (k₀.data src).length+1 < fuel) (empty : k₀.data dst = []) :
    (ExtentsInside lay res m size ∧ CopiesExact lay res m fuel dst size ↔ ¬lay.Regrown size) ∧
    (lay.holes = true → ∀ evs t, Run (lay.laid res) ⟨copy_extents fuel dst src size,k₀,m⟩ evs t →
      t.prog = .ret (.ok ()) → (Exact k₀ src dst size t.kernel ↔ ¬lay.Regrown size)) := by
  refine ⟨⟨fun keeps regrown => ?_,fun sound => ⟨extentsInside_of_not_regrown sound,fun evs t run done => ?_⟩⟩,
    fun holes evs t run done => ⟨fun same regrown => ?_,fun sound => ?_⟩⟩
  · obtain ⟨evs,t,begin_,run,done,beyond⟩ : ∃ evs t begin_,
        Run (lay.laid res) ⟨hole_next_data src (size-1) size,k₀,m⟩ evs t ∧
          t.prog = .ret (.ok (.data begin_ size)) ∧ size ≤ begin_ := regrown_run regrown
    have inside := keeps.1 (size-1) (by have := regrown.2.1; omega) evs t begin_ size run done
    omega
  · rcases exact_or_short other grown enough empty run done with good | short
    · exact good.1
    · exact absurd short.2 sound
  · rcases exact_or_short other grown enough empty run done with good | short
    · exact good.2 regrown.1 holes regrown
    · have := same.1
      omega
  · rcases exact_or_short other grown enough empty run done with good | short
    · exact good.1
    · exact absurd short.2 sound

def BLOCK : Nat := 4096

/-- A gap of one block, in which the file ended when its size was recorded, and a byte
    that was added behind the gap. -/
def regrownKernel : Kernel where
  names := []
  files := fun i => if i = 1 then { data := List.replicate BLOCK 0 ++ [7] } else {}
  next := 3
  nfds := 2
  opened := [0,1]
  offset := fun _ => 0
  safe := []
  journal := []

theorem regrownKernel_size : regrownKernel.size ⟨0,1⟩ = BLOCK+1 := by
  simp [Kernel.size,Kernel.data,regrownKernel]

def regrownLayout : Layout regrownKernel ⟨0,1⟩ where
  seeks := true
  holes := true
  data j := decide (BLOCK ≤ j)
  zero j gap := by
    have below : j < BLOCK := by simpa using gap
    simp [Kernel.data,regrownKernel,List.getElem?_append,below]
  overstated over_ := absurd rfl over_

theorem regrown_seek_data :
    regrownLayout.laid (fun _ => 0) regrownKernel (.lseek_data ⟨0,1⟩ 0) (.ok BLOCK) regrownKernel := by
  have gap : regrownLayout.Gap 0 BLOCK := fun j _ below => by simpa [regrownLayout] using below
  have zeros := all_zero_of_gap gap
  have inside : BLOCK < regrownKernel.size ⟨0,1⟩ := by rw [regrownKernel_size]; omega
  refine ⟨⟨.ok [BLOCK],?_⟩,fun _ => ⟨rfl,Nat.zero_le _,inside,by simp [regrownLayout],gap⟩⟩
  have exact_ : (regrownKernel.files 1).excess = 0 := rfl
  simp only [step,answer,List.getD_cons_zero,Nat.zero_le,inside,zeros,exact_,true_or,and_self,if_true,Option.map_some]

theorem regrown_seek_hole :
    regrownLayout.laid (fun _ => 0) regrownKernel (.lseek_hole ⟨0,1⟩ BLOCK) (.ok (BLOCK+1)) regrownKernel := by
  have end_ := regrownKernel_size
  have exact_ : (regrownKernel.files 1).excess = 0 := rfl
  refine ⟨⟨.ok [BLOCK+1],?_⟩,fun _ => ⟨Nat.lt_succ_self _,by rw [end_],fun j _ below => by omega,fun less => absurd less (by rw [end_]; exact Nat.lt_irrefl _)⟩⟩
  simp [step,answer,end_,exact_]

/-- The recorded size is one byte, and the copy is empty. -/
theorem size_not_kept : ¬(ExtentsInside regrownLayout (fun _ => 0) {} 1 ∧
    CopiesExact regrownLayout (fun _ => 0) {} (BLOCK+4) ⟨1,2⟩ 1) := by
  rintro ⟨_,exact_⟩
  have run : Run (regrownLayout.laid fun _ => 0) ⟨copy_extents (BLOCK+4) ⟨1,2⟩ ⟨0,1⟩ 1,regrownKernel,{}⟩
      [⟨.lseek_data ⟨0,1⟩ 0,.ok BLOCK⟩,⟨.lseek_hole ⟨0,1⟩ BLOCK,.ok (BLOCK+1)⟩] ⟨.ret (.ok ()),regrownKernel,{}⟩ :=
    Run.call regrown_seek_data (Run.call regrown_seek_hole (Run.refl _))
  have size := (exact_ _ _ run rfl).1
  have empty : (regrownKernel.data ⟨1,2⟩).length = 0 := rfl
  exact absurd (empty.symm.trans size) (by decide)

theorem keeps_size_iff_sample :
    ExtentsInside regrownLayout (fun _ => 0) {} 1 ∧ CopiesExact regrownLayout (fun _ => 0) {} (BLOCK+4) ⟨1,2⟩ 1 ↔
      ¬regrownLayout.Regrown 1 := by
  have length : (regrownKernel.data ⟨0,1⟩).length = BLOCK+1 := by simp [Kernel.data,regrownKernel]
  exact (keeps_size_iff regrownLayout 1 (BLOCK+4) (by decide) (by rw [length]; omega) (by rw [length]; omega) rfl).1

end Newfile.Grown
