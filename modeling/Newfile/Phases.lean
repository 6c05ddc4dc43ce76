import Newfile.Rounds

/-!
The phases of a batch over the array of operands: each leaves the books in order,
and once the batch is settled no operand holds a descriptor.
-/
namespace Newfile.Phases
open Newfile.Program Newfile.Posix Newfile.Process Newfile.Pending Newfile.Fastio Newfile.Flush
open Newfile.Place Newfile.Backup Newfile.Batch Newfile.Calls Newfile.Books Newfile.Quiet Newfile.Accounts Newfile.Tally
open Newfile.Rounds

variable {α β : Type} {T : Terms} {base : List Nat} {start k : Book} {told : List (Path × Bool)} {m : Memory}
variable {ops : Ops} {n : Nat}

/-! ## The array of operands -/

/-- The books with a batch of operands, none of which holds anything after a failure. -/
structure Whole (T : Terms) (base : List Nat) (start : Book) (told : List (Path × Bool)) (n : Nat) (ops : Ops) (k : Book)
    (m : Memory) : Prop where
  tidy : Tidy T (held ops n ++ base) start told k m
  idle : ∀ j < n, Idle (ops j)

/-- What has become of each operand of a batch. -/
def Advance (n : Nat) (ops ops' : Ops) : Prop := ∀ j < n, Onward (ops j) (ops' j)

theorem Whole.same (whole : Whole T base start told n ops k m) : Advance n ops ops := fun j inside =>
  Onward.refl (whole.idle j inside)

theorem Advance.trans {ops' ops'' : Ops} (one : Advance n ops ops') (two : Advance n ops' ops'') : Advance n ops ops'' :=
  fun j inside => (one j inside).trans (two j inside)

/-- One operand has gone on. -/
theorem Whole.step {i : Nat} {op : Op} {k' : Book} {m' : Memory} (fits : Fits T base n) (inside : i < n)
    (whole : Whole T base start told n ops k m) (gone : Then T (others ops n i ++ base) start told (ops i) op k' m') :
    Whole T base start told n (ops.set i op) k' m' ∧ Advance n ops (ops.set i op) := by
  have onward : Advance n ops (ops.set i op) := by
    intro j within
    by_cases same : j = i
    · subst same
      rw [set_same]
      exact gone.2
    · rw [set_other _ _ same]
      exact Onward.refl (whole.idle j within)
  exact ⟨⟨put_slot fits inside gone.1,fun j within => (onward j within).idle⟩,onward⟩

/-- A phase that treats the operands one by one. -/
theorem eachOp_whole {f : Op → Nat → P Op} (fits : Fits T base n)
    (one : ∀ {base k m op} slot, base.length ≤ T.batch → Idle op → Tidy T (nums op ++ base) start told k m →
      Always T (f op slot) (Then T base start told op) k m) :
    ∀ (todo i : Nat) (ops : Ops) {k m}, i+todo ≤ n → Whole T base start told n ops k m →
      Always T (eachOp f todo i ops) (fun ops' k' m' => Whole T base start told n ops' k' m' ∧ Advance n ops ops') k m := by
  intro todo
  induction todo with
  | zero => exact fun i ops _ _ _ whole => always_pure whole.tidy.within ⟨whole,whole.same⟩
  | succ todo ih =>
    intro i ops k m room whole
    have inside : i < n := by omega
    refine always_seq (one i (others_few fits inside) (whole.idle i inside) (take_slot fits inside whole.tidy))
      fun op k m gone => ?_
    obtain ⟨whole',onward⟩ := Whole.step fits inside whole gone
    exact always_mono (ih (i+1) _ (by omega) whole') fun _ _ _ done => ⟨done.1,onward.trans done.2⟩

/-! ## Flushing and closing -/

/-- Closing leaves nothing held, whether it fails or not. -/
theorem close_op_then (op : Op) (slot : Nat) (what : String) (idle : Idle op) (tidy : Tidy T (nums op ++ base) start told k m) :
    Always T (close_op op slot what) (fun r k' m' => Then T base start told op r.1 k' m' ∧ r.1.fd = none) k m := by
  rw [close_op]
  cases open_ : op.fd with
  | none => exact always_pure tidy.within ⟨⟨tidy,Onward.refl idle⟩,open_⟩
  | some fd =>
    have fine : op.fail = none := by
      cases fail : op.fail with
      | none => rfl
      | some what =>
        have closed := idle (by simp [fail])
        rw [open_] at closed
        exact absurd closed (by simp)
    rw [nums_some open_] at tidy
    refine always_seq (always_close tidy fun _ _ tidy => tidy) fun r k m tidy => ?_
    cases r with
    | error e =>
      refine always_seq (op_fail_tidy { op with fd := none } slot what e tidy) fun op' k m done => ?_
      have failed : Failed op.path op' := done.2
      refine always_pure done.1.within ⟨⟨?_,Failed.onward failed⟩,failed.fd⟩
      rw [nums_none failed.fd]
      exact done.1
    | ok _ => exact always_pure tidy.within ⟨⟨tidy,rfl,fun _ => rfl,fun _ => fine,fun _ => rfl⟩,rfl⟩

/-- The operands among `idx` whose flush succeeded are returned, and the others hold nothing. -/
theorem failFlushed_whole (fits : Fits T base n) : ∀ (idx : List (Nat × Option Errno)) (ops : Ops) {k m},
    (∀ x ∈ idx, x.1 < n) → Whole T base start told n ops k m →
    Always T (failFlushed idx ops) (fun r k' m' => Whole T base start told n r.1 k' m' ∧ Advance n ops r.1 ∧
      (∀ i ∈ r.2, i < n) ∧
      ∀ j, (r.1 j).fd ≠ none → (ops j).fd ≠ none ∧ (j ∈ idx.map (·.1) → j ∈ r.2)) k m := by
  intro idx
  induction idx with
  | nil => exact fun ops _ _ _ whole => always_pure whole.tidy.within ⟨whole,whole.same,by simp,fun _ held => ⟨held,by simp⟩⟩
  | cons x idx ih =>
    obtain ⟨i,err⟩ := x
    intro ops k m inside whole
    have here : i < n := inside (i,err) List.mem_cons_self
    have later : ∀ x ∈ idx, x.1 < n := fun x member => inside x (List.mem_cons_of_mem _ member)
    cases err with
    | none =>
      refine always_seq (ih ops later whole) fun r k m done => ?_
      obtain ⟨whole',onward,within,kept⟩ := done
      refine always_pure whole'.tidy.within ⟨whole',onward,?_,fun j held => ⟨(kept j held).1,fun member => ?_⟩⟩
      · intro j member
        rcases List.mem_cons.mp member with rfl | member
        · exact here
        · exact within j member
      · rcases List.mem_cons.mp member with rfl | member
        · exact List.mem_cons_self
        · exact List.mem_cons_of_mem _ ((kept j held).2 member)
    | some e =>
      refine always_seq (op_fail_tidy (ops i) i _ e (take_slot fits here whole.tidy)) fun op k m failed => ?_
      have gone : Then T (others ops n i ++ base) start told (ops i) op k m := by
        refine ⟨?_,Failed.onward failed.2⟩
        rw [nums_none failed.2.fd]
        exact failed.1
      obtain ⟨whole',onward⟩ := Whole.step fits here whole gone
      refine always_mono (ih _ later whole') fun r k m done => ?_
      obtain ⟨whole'',onward',within,kept⟩ := done
      refine ⟨whole'',onward.trans onward',within,fun j held => ?_⟩
      have other : j ≠ i := by
        rintro rfl
        have := (kept j held).1
        rw [set_same] at this
        exact this failed.2.fd
      have before := (kept j held).1
      rw [set_other _ _ other] at before
      refine ⟨before,fun member => (kept j held).2 ?_⟩
      simpa [other] using member

/-- The operands to flush are those that are fine and hold a file. -/
theorem mem_flushable {i : Nat} :
    i ∈ (flushable ops n).map (·.1) ↔ i < n ∧ (ops i).fail = none ∧ (ops i).fd ≠ none := by
  simp only [flushable,List.mem_map,List.mem_filterMap,List.mem_range,Prod.exists]
  constructor
  · rintro ⟨j,fd,⟨i',inside,found⟩,rfl⟩
    by_cases fine : (ops i').fail.isNone = true
    · rw [if_pos fine] at found
      cases descriptor : (ops i').fd with
      | none => simp [descriptor] at found
      | some fd' =>
        simp only [descriptor,Option.map_some,Option.some.injEq,Prod.mk.injEq] at found
        obtain ⟨rfl,_⟩ := found
        exact ⟨inside,by simpa using fine,by simp [descriptor]⟩
    · simp [fine] at found
  · rintro ⟨inside,fine,open_⟩
    cases descriptor : (ops i).fd with
    | none => exact absurd descriptor open_
    | some fd => exact ⟨i,fd,⟨i,inside,by simp [fine,descriptor]⟩,rfl⟩

theorem flushable_length (ops : Ops) (n : Nat) : (flushable ops n).length ≤ n := by
  have bound := List.length_filterMap_le
    (fun i => if (ops i).fail.isNone then (ops i).fd.map fun fd => (i,fd) else none) (List.range n)
  rwa [List.length_range] at bound

theorem flush_ops_whole (fuel : Nat) (fits : Fits T base n) (whole : Whole T base start told n ops k m) :
    Always T (flush_ops fuel ops n) (fun r k' m' => Whole T base start told n r.1 k' m' ∧ Advance n ops r.1 ∧
      (∀ i ∈ r.2, i < n) ∧ ∀ j < n, (r.1 j).fd ≠ none → j ∈ r.2) k m := by
  refine always_seq (flush_fds_tidy fuel false _ whole.tidy) fun errs k m flushed => ?_
  obtain ⟨tidy,length⟩ := flushed
  have firsts : (((flushable ops n).map (·.1)).zip errs).map (·.1) = (flushable ops n).map (·.1) :=
    List.map_fst_zip (by simp [length])
  have inside : ∀ x ∈ ((flushable ops n).map (·.1)).zip errs, x.1 < n := fun x member => by
    have there : x.1 ∈ (flushable ops n).map (·.1) := firsts ▸ List.mem_map_of_mem member
    exact (mem_flushable.mp there).1
  refine always_mono (failFlushed_whole fits _ ops inside ⟨tidy,whole.idle⟩) fun r k m done => ?_
  obtain ⟨whole',onward,within,kept⟩ := done
  refine ⟨whole',onward,within,fun j here held => (kept j held).2 ?_⟩
  rw [firsts]
  refine mem_flushable.mpr ⟨here,?_,(kept j held).1⟩
  cases fail : (ops j).fail with
  | none => rfl
  | some what => exact absurd (whole.idle j here (by simp [fail])) (kept j held).1

theorem closePlain_whole (fits : Fits T base n) : ∀ (idx : List Nat) (ops : Ops) {k m}, (∀ i ∈ idx, i < n) →
    Whole T base start told n ops k m → Always T (closePlain idx ops) (fun ops' k' m' =>
      Whole T base start told n ops' k' m' ∧ Advance n ops ops') k m := by
  intro idx
  induction idx with
  | nil => exact fun ops _ _ _ whole => always_pure whole.tidy.within ⟨whole,whole.same⟩
  | cons i idx ih =>
    intro ops k m inside whole
    have here : i < n := inside i List.mem_cons_self
    have later : ∀ i ∈ idx, i < n := fun i member => inside i (List.mem_cons_of_mem _ member)
    rw [closePlain]
    split
    · refine always_seq (close_op_then (ops i) i _ (whole.idle i here) (take_slot fits here whole.tidy)) fun r k m closed => ?_
      obtain ⟨whole',onward⟩ := Whole.step fits here whole closed.1
      exact always_mono (ih _ later whole') fun _ _ _ done => ⟨done.1,onward.trans done.2⟩
    · exact ih ops later whole

/-- Every operand among `idx` is closed. -/
theorem settleLoop_whole (fits : Fits T base n) : ∀ (idx : List Nat) (ops : Ops) {k m}, (∀ i ∈ idx, i < n) →
    Whole T base start told n ops k m → Always T (settleLoop idx ops) (fun ops' k' m' =>
      Whole T base start told n ops' k' m' ∧ Advance n ops ops' ∧
        ∀ j, (ops' j).fd ≠ none → (ops j).fd ≠ none ∧ j ∉ idx) k m := by
  intro idx
  induction idx with
  | nil => exact fun ops _ _ _ whole => always_pure whole.tidy.within ⟨whole,whole.same,fun _ held => ⟨held,by simp⟩⟩
  | cons i idx ih =>
    intro ops k m inside whole
    have here : i < n := inside i List.mem_cons_self
    have later : ∀ i ∈ idx, i < n := fun i member => inside i (List.mem_cons_of_mem _ member)
    have go : ∀ {op : Op} {k m}, Then T (others ops n i ++ base) start told (ops i) op k m → op.fd = none →
        Always T (settleLoop idx (ops.set i op)) (fun ops' k' m' => Whole T base start told n ops' k' m' ∧
          Advance n ops ops' ∧ ∀ j, (ops' j).fd ≠ none → (ops j).fd ≠ none ∧ j ∉ i :: idx) k m := by
      intro op k m gone closed
      obtain ⟨whole',onward⟩ := Whole.step fits here whole gone
      refine always_mono (ih _ later whole') fun ops' k m done => ?_
      obtain ⟨whole'',onward',kept⟩ := done
      refine ⟨whole'',onward.trans onward',fun j held => ?_⟩
      have other : j ≠ i := by
        rintro rfl
        have := (kept j held).1
        rw [set_same] at this
        exact this closed
      have before := (kept j held).1
      rw [set_other _ _ other] at before
      exact ⟨before,by simp [other,(kept j held).2]⟩
    rw [settleLoop]
    refine always_seq (close_op_then (ops i) i _ (whole.idle i here) (take_slot fits here whole.tidy)) fun r k m closed => ?_
    obtain ⟨op,fine⟩ := r
    obtain ⟨gone,empty⟩ := closed
    dsimp only at gone empty ⊢
    split
    · split
      · refine always_seq (always_plain (handles_calm.pending_remove i) gone.1) fun removed k m tidy => ?_
        refine always_seq (always_plain (handles_calm.free _) tidy) fun _ k m tidy => ?_
        exact go ⟨tidy,gone.2.path,gone.2.idle,gone.2.fine,gone.2.closed⟩ empty
      · exact go gone empty
    · exact go gone empty

/-- Once a batch is settled no operand holds anything. -/
theorem settle_batch_whole (fuel : Nat) (fits : Fits T base n) (whole : Whole T base start told n ops k m) :
    Always T (settle_batch fuel ops n) (fun ops' k' m' => Whole T base start told n ops' k' m' ∧ Advance n ops ops' ∧
      ∀ j < n, (ops' j).fd = none) k m := by
  refine always_seq (flush_ops_whole fuel fits whole) fun r k m flushed => ?_
  obtain ⟨whole',onward,within,kept⟩ := flushed
  refine always_mono (settleLoop_whole fits r.2 r.1 within whole') fun ops' k m done => ?_
  obtain ⟨whole'',onward',closed⟩ := done
  refine ⟨whole'',onward.trans onward',fun j here => ?_⟩
  by_contra held
  exact (closed j held).2 (kept j here (closed j held).1)

theorem flush_batch_whole (fuel : Nat) (fits : Fits T base n) (whole : Whole T base start told n ops k m) :
    Always T (flush_batch fuel ops n) (fun ops' k' m' => Whole T base start told n ops' k' m' ∧ Advance n ops ops') k m := by
  refine always_seq (flush_ops_whole fuel fits whole) fun r k m flushed => ?_
  obtain ⟨whole',onward,within,_⟩ := flushed
  exact always_mono (closePlain_whole fits r.2 r.1 within whole') fun _ _ _ done => ⟨done.1,onward.trans done.2⟩

/-! ## Reporting -/

theorem dropSpare_then (op : Op) (slot : Nat) (idle : Idle op) (tidy : Tidy T (nums op ++ base) start told k m) :
    Always T (dropSpare op slot) (Then T base start told op) k m := by
  rw [dropSpare]
  split
  · exact always_pure tidy.within ⟨tidy,Onward.refl idle⟩
  · rename_i spare _
    refine always_seq (always_plain (tell_calm (by simp)) tidy) fun _ k m tidy => ?_
    refine always_seq (always_plain (dir_unflushed_calm _) tidy) fun unflushed k m tidy => ?_
    split
    · refine always_seq (always_plain (handles_calm.say _) tidy) fun _ k m tidy => ?_
      refine always_seq (always_plain (handles_calm.clear slot) tidy) fun _ k m tidy => ?_
      exact always_seq (always_plain (handles_calm.free spare) tidy) fun _ _ _ tidy =>
        always_pure tidy.within ⟨tidy,rfl,idle,id,id⟩
    · refine always_seq (always_plain (handles_calm.pending_remove slot) tidy) fun removed k m tidy => ?_
      exact always_seq (always_plain (handles_calm.free spare) tidy) fun _ _ _ tidy =>
        always_pure tidy.within ⟨tidy,rfl,idle,id,id⟩

theorem drop_spares_whole (fits : Fits T base n) (whole : Whole T base start told n ops k m) :
    Always T (drop_spares ops n) (fun ops' k' m' => Whole T base start told n ops' k' m' ∧ Advance n ops ops') k m := by
  have cleared : ∀ m : Memory, Still m { m with spare_held := false } := fun _ => ⟨rfl,rfl,rfl,rfl,rfl,rfl⟩
  refine always_seq (eachOp_whole fits (fun slot _ idle tidy => dropSpare_then _ slot idle tidy) n 0 ops (by omega) whole)
    fun ops' k m done => ?_
  obtain ⟨whole',onward⟩ := done
  refine always_read whole'.tidy ?_
  split
  · refine always_seq (always_plain (uses_modify cleared) whole'.tidy) fun _ k m tidy => ?_
    refine always_seq (always_plain (handles_calm.release _) tidy) fun _ k m tidy => ?_
    exact always_pure tidy.within ⟨⟨tidy,whole'.idle⟩,onward⟩
  · exact always_pure whole'.tidy.within ⟨whole',onward⟩

/-- What there is to report of the operands from `i` on. -/
def outcomes (ops : Ops) (i n : Nat) : List (Path × Bool) :=
  (List.range' i n).map fun j => ((ops j).path.text,(ops j).fail.isNone)

theorem report_one_tidy (op : Op) (spec : FileSpec) (tidy : Tidy T base start told k m) :
    Always T (report_one op spec)
      (fun _ k' m' => Tidy T base start (told ++ [(op.path.text,op.fail.isNone)]) k' m') k m := by
  have reported : Tidy T base start (told ++ [(op.path.text,op.fail.isNone)]) k
      { m with told := .report op.path.text op.fail op.leftover :: m.told } := by
    refine { tidy with told := ?_ }
    have before := tidy.told
    simp only [reports] at before ⊢
    rw [List.reverse_cons,List.filterMap_append,before]
    rfl
  -- What is said of the operand leaves the books alone.
  have freed : ∀ (name : Str) (r : Bool) {k : Book} {m : Memory}, Tidy T base start (told ++ [(op.path.text,op.fail.isNone)]) k m →
      Always T (free name >>= fun _ => pure r)
        (fun _ k' m' => Tidy T base start (told ++ [(op.path.text,op.fail.isNone)]) k' m') k m := fun name r k m tidy =>
    always_seq (always_plain (handles_calm.free name) tidy) fun _ _ _ tidy => always_pure tidy.within tidy
  refine always_seq (Tidy.modify (Q := fun _ k' m' => Tidy T base start (told ++ [(op.path.text,op.fail.isNone)]) k' m') tidy
    reported.within reported) fun _ k m tidy => ?_
  cases op.backup_name with
  | some name =>
    dsimp only
    split
    · exact always_seq (always_plain (handles_calm.say _) tidy) fun _ _ _ tidy => freed name _ tidy
    · split
      · exact always_seq (always_plain (handles_calm.say _) tidy) fun _ _ _ tidy => freed name _ tidy
      · exact freed name _ tidy
  | none =>
    dsimp only
    split
    · exact always_seq (always_plain (handles_calm.say _) tidy) fun _ _ _ tidy => always_pure tidy.within tidy
    · split
      · exact always_seq (always_plain (handles_calm.say _) tidy) fun _ _ _ tidy => always_pure tidy.within tidy
      · exact always_pure tidy.within tidy

theorem reportLoop_tidy (spec : FileSpec) (ops : Ops) : ∀ (n i : Nat) {told : List (Path × Bool)} {k m},
    Tidy T base start told k m → Always T (reportLoop spec ops n i)
      (fun _ k' m' => Tidy T base start (told ++ outcomes ops i n) k' m') k m := by
  intro n
  induction n with
  | zero =>
    intro i told k m tidy
    exact always_pure tidy.within (by simpa [outcomes] using tidy)
  | succ n ih =>
    intro i told k m tidy
    refine always_seq (report_one_tidy (ops i) spec tidy) fun one k m tidy => ?_
    refine always_seq (ih (i+1) tidy) fun rest k m tidy => ?_
    have grown : told ++ [((ops i).path.text,(ops i).fail.isNone)] ++ outcomes ops (i+1) n = told ++ outcomes ops i (n+1) := by
      simp [outcomes,List.range'_succ]
    rw [grown] at tidy
    exact always_pure tidy.within tidy

/-! ## Batches -/

/-- What a batch comes to: its files have their final modes, and its operands were reported. -/
structure Reported (T : Terms) (base : List Nat) (start : Book) (told : List (Path × Bool)) (spec : FileSpec)
    (paths : List Path) (built ops : Ops) (k : Book) (m : Memory) : Prop where
  tidy : Tidy T base start (told ++ outcomes ops 0 paths.length) k m
  stand : AllStand T spec start paths 0 built k
  onward : Advance paths.length built ops

theorem Reported.paths {spec : FileSpec} {paths : List Path} {built : Ops}
    (reported : Reported T base start told spec paths built ops k m) :
    (outcomes ops 0 paths.length).map (·.1) = paths := by
  apply List.ext_getElem (by simp [outcomes])
  intro j inside inside'
  have stands := reported.stand j paths[j] (by simp)
  have onward := reported.onward j inside'
  rw [Nat.zero_add] at stands
  simp [outcomes,onward.path,stands.named]

/-- One round of the loop of `batch_run`, with the array as it was built. -/
def batchRecorded (fuel : Nat) (paths : List Path) (spec : FileSpec) (ops : Ops) : P (Ops × Ops × Bool) := do
  flush_set_forget
  place_probe_reset
  let built ← buildLoop fuel spec paths 0 ops
  let ops ← flush_batch fuel built paths.length
  backup_cache_reset
  let ops ← eachOp (fun op i => name_one fuel op i spec) paths.length 0 ops
  let ops ← settle_batch fuel ops paths.length
  flush_set_run fuel
  let ops ← drop_spares ops paths.length
  let ok ← reportLoop spec ops paths.length 0
  return (built,ops,ok)

/-- A batch, with the array as it was built and as its operands were named from. -/
def batchTraced (fuel : Nat) (paths : List Path) (spec : FileSpec) (ops : Ops) : P (Ops × Ops × Ops × Bool) := do
  flush_set_forget
  place_probe_reset
  let built ← buildLoop fuel spec paths 0 ops
  let flushed ← flush_batch fuel built paths.length
  backup_cache_reset
  let ops ← eachOp (fun op i => name_one fuel op i spec) paths.length 0 flushed
  let ops ← settle_batch fuel ops paths.length
  flush_set_run fuel
  let ops ← drop_spares ops paths.length
  let ok ← reportLoop spec ops paths.length 0
  return (built,flushed,ops,ok)

theorem batchRecorded_traced (fuel : Nat) (paths : List Path) (spec : FileSpec) (ops : Ops) :
    batchRecorded fuel paths spec ops = batchTraced fuel paths spec ops >>= fun x => return (x.1,x.2.2) := by
  simp [batchRecorded,batchTraced]

theorem batchOnce_recorded (fuel : Nat) (paths : List Path) (spec : FileSpec) (ops : Ops) :
    batchOnce fuel paths spec ops = batchRecorded fuel paths spec ops >>= fun x => return x.2 := by
  simp [batchOnce,batchRecorded]

/-! What the tables of a batch start from. -/

theorem always_forget {f : Unit → P β} {Q : β → Book → Memory → Prop} (tidy : Tidy T base start told k m)
    (rest : ∀ m, Tidy T base start told k m → Always T (f ()) Q k m) : Always T (flush_set_forget >>= f) Q k m := by
  have forgot : Tidy T base start told k { m with failures := [], failures_lost := false } :=
    { tidy with failures := Nat.zero_le _ }
  exact ⟨tidy.within,rest _ forgot⟩

theorem always_unprobed {f : Unit → P β} {Q : β → Book → Memory → Prop} (tidy : Tidy T base start told k m)
    (rest : ∀ m, Tidy T base start told k m → Always T (f ()) Q k m) : Always T (place_probe_reset >>= f) Q k m := by
  have unprobed : Tidy T base start told k { m with probes := [] } :=
    { tidy with probes := Nat.zero_le _, granted := by simp }
  exact ⟨tidy.within,rest _ unprobed⟩

theorem always_unlisted {f : Unit → P β} {Q : β → Book → Memory → Prop} (tidy : Tidy T base start told k m)
    (rest : ∀ m, Tidy T base start told k m → Always T (f ()) Q k m) : Always T (backup_cache_reset >>= f) Q k m := by
  have unlisted : Tidy T base start told k { m with backups := [] } := { tidy with backups := Nat.zero_le _ }
  exact ⟨tidy.within,rest _ unlisted⟩

theorem batchTraced_reported {spec : FileSpec} (fuel : Nat) (paths : List Path) (ops : Ops) (terms : Open T)
    (asked : T.mode = spec.mode) (fits : Fits T base paths.length) (tidy : Tidy T base start told k m) :
    Always T (batchTraced fuel paths spec ops) (fun x k' m' =>
      Reported T base start told spec paths x.1 x.2.2.1 k' m' ∧ Advance paths.length x.1 x.2.1) k m := by
  refine always_forget tidy fun m tidy => always_unprobed tidy fun m tidy => ?_
  refine always_seq (buildLoop_built fuel terms asked fits.template paths 0 ops (by simpa using fits.batch) tidy)
    fun built k m done => ?_
  obtain ⟨tidy,_,stand⟩ := done
  rw [Nat.zero_add] at tidy
  -- From here on the files stay as they are: what follows starts anew.
  have idle : ∀ j < paths.length, Idle (built j) := fun j inside => by
    have stands := stand j paths[j] (by simp)
    rw [Nat.zero_add] at stands
    exact stands.failed
  have before := tidy
  have whole : Whole T base k told paths.length built k m := ⟨tidy.restart,idle⟩
  refine always_seq (flush_batch_whole fuel fits whole) fun flushed k' m done => ?_
  obtain ⟨whole,first⟩ := done
  refine always_unlisted whole.tidy fun m tidy => ?_
  have whole : Whole T base k told paths.length flushed k' m := ⟨tidy,whole.idle⟩
  refine always_seq (eachOp_whole fits (fun slot few idle tidy => name_one_then slot fuel few terms spec idle tidy)
    paths.length 0 flushed (by omega) whole) fun ops k' m done => ?_
  obtain ⟨whole,named⟩ := done
  refine always_seq (settle_batch_whole fuel fits whole) fun ops k' m done => ?_
  obtain ⟨whole,settled,closed⟩ := done
  have few : (held ops paths.length ++ base).length ≤ T.batch+1 := by
    have length := held_length ops paths.length
    have batch := fits.batch
    have template := fits.template
    simp only [List.length_append]
    omega
  refine always_seq (flush_set_run_tends fuel few whole.tidy) fun _ k' m tidy => ?_
  refine always_seq (drop_spares_whole fits ⟨tidy,whole.idle⟩) fun ops' k' m done => ?_
  obtain ⟨whole',dropped⟩ := done
  have empty : held ops' paths.length = [] := by
    refine List.flatMap_eq_nil_iff.mpr fun j member => nums_none ?_
    have inside := List.mem_range.mp member
    exact (dropped j inside).closed (closed j inside)
  have tidy := whole'.tidy
  rw [empty,List.nil_append] at tidy
  refine always_seq (reportLoop_tidy spec ops' paths.length 0 tidy) fun ok k' m tidy => ?_
  exact always_pure tidy.within
    ⟨⟨before.since tidy,AllStand.later stand tidy,((first.trans named).trans settled).trans dropped⟩,first⟩

theorem batchRecorded_reported {spec : FileSpec} (fuel : Nat) (paths : List Path) (ops : Ops) (terms : Open T)
    (asked : T.mode = spec.mode) (fits : Fits T base paths.length) (tidy : Tidy T base start told k m) :
    Always T (batchRecorded fuel paths spec ops)
      (fun x k' m' => Reported T base start told spec paths x.1 x.2.1 k' m') k m := by
  rw [batchRecorded_traced]
  exact always_seq (batchTraced_reported fuel paths ops terms asked fits tidy) fun _ _ _ done =>
    always_pure done.1.tidy.within done.1

end Newfile.Phases
