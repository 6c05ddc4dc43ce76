import Newfile.Pool
import Newfile.Stages

/-!
Whole runs, batch after batch: the tables stay within their arrays, the descriptors
within the limit, every operand is reported once and in order, and what was made has
its final mode.
-/
namespace Newfile.Limits
open Newfile.Program Newfile.Posix Newfile.Process Newfile.Pending Newfile.Fastio Newfile.Flush
open Newfile.Place Newfile.Backup Newfile.Batch Newfile.Calls Newfile.Books Newfile.Quiet Newfile.Accounts Newfile.Tally
open Newfile.Rounds Newfile.Phases Newfile.Stages

variable {α β : Type} {T : Terms} {base : List Nat} {start k : Book} {told : List (Path × Bool)} {m : Memory}
variable {ops : Ops} {n : Nat}

/-! ## Runs -/

/-- The files of the operands that succeeded, from the array as it was built. -/
def filesOf (n : Nat) (built ops : Ops) : List (Path × Fd) :=
  (List.range n).filterMap fun i =>
    if (ops i).fail.isNone then (built i).fd.map fun fd => ((built i).path.text,fd) else none

/-- The loop of `batch_run`, with the files that were made. -/
def loopRecorded (fuel batch : Nat) (spec : FileSpec) : Nat → List Path → Ops → P (Bool × List (Path × Fd))
  | 0, _, _ => return (true,[])
  | rounds+1, paths, ops => do
    if paths = [] then return (true,[])
    else
      let (built,ops,ok) ← batchRecorded fuel (paths.take batch) spec ops
      let rest ← loopRecorded fuel batch spec rounds (paths.drop batch) ops
      return (ok && rest.1,filesOf (paths.take batch).length built ops ++ rest.2)

/-- `batch_run`, with the files that were made. -/
def batch_run_recorded (fuel : Nat) (paths : List Path) (spec : FileSpec) : P (Bool × List (Path × Fd)) := do
  let batch ← batch_size
  flush_set_init batch
  match ← allocate with
  | .error _ => .exit
  | .ok () =>
    let x ← loopRecorded fuel batch spec paths.length paths noOps
    flush_set_forget
    place_probe_reset
    backup_cache_reset
    let failures ← flush_set_failures
    return (x.1 && failures = 0,x.2)

theorem batchLoop_recorded (fuel batch : Nat) (spec : FileSpec) : ∀ (rounds : Nat) (paths : List Path) (ops : Ops),
    batchLoop fuel batch spec rounds paths ops = loopRecorded fuel batch spec rounds paths ops >>= fun x => return x.1 := by
  intro rounds
  induction rounds with
  | zero => exact fun _ _ => rfl
  | succ rounds ih =>
    intro paths ops
    rw [batchLoop,loopRecorded]
    split
    · rfl
    · simp [batchOnce_recorded,ih]

/-- The record is all that is added. -/
theorem batch_run_eq (fuel : Nat) (paths : List Path) (spec : FileSpec) :
    batch_run fuel paths spec = batch_run_recorded fuel paths spec >>= fun x => return x.1 := by
  rw [batch_run,batch_run_recorded]
  simp only [bind_assoc]
  refine bind_congr fun batch => bind_congr fun _ => bind_congr fun r => ?_
  cases r with
  | error e => rfl
  | ok _ => simp [batchLoop_recorded]

/-- The paths of the operands that succeeded. -/
def successes (told : List (Path × Bool)) : List Path := (told.filter (·.2)).map (·.1)

/-- Every file has the mode that its operand asks for. -/
def Granted (T : Terms) (spec : FileSpec) (start : Book) (files : List (Path × Fd)) (k : Book) : Prop :=
  ∀ x ∈ files, ∃ mode, New start x.2 mode k ∧ (T.steady → mode = finalOf T.image spec x.1)

theorem Reported.granted {spec : FileSpec} {paths : List Path} {built : Ops}
    (reported : Reported T base start told spec paths built ops k m) :
    Granted T spec start (filesOf paths.length built ops) k ∧
      (filesOf paths.length built ops).map (·.1) = successes (outcomes ops 0 paths.length) := by
  have made : ∀ j < paths.length, (ops j).fail.isNone = true → ∃ fd mode, (built j).fd = some fd ∧
      (built j).path.text = (ops j).path.text ∧ New start fd mode k ∧
        (T.steady → mode = finalOf T.image spec (built j).path.text) := by
    intro j inside fine
    have stands := reported.stand j paths[j] (by simp)
    have onward := reported.onward j inside
    rw [Nat.zero_add] at stands
    obtain ⟨fd,mode,opened,new,final⟩ := stands.made (onward.fine (by simpa using fine))
    exact ⟨fd,mode,opened,by rw [onward.path],new,by rw [stands.named]; exact final⟩
  constructor
  · intro x member
    obtain ⟨j,inside,found⟩ := List.mem_filterMap.mp member
    by_cases fine : (ops j).fail.isNone = true
    · obtain ⟨fd,mode,opened,_,new,final⟩ := made j (List.mem_range.mp inside) fine
      simp only [fine,↓reduceIte,opened,Option.map_some,Option.some.injEq] at found
      subst found
      exact ⟨mode,new,final⟩
    · simp [fine] at found
  · have each : ∀ idx : List Nat, (∀ j ∈ idx, j < paths.length) →
        (idx.filterMap fun i => if (ops i).fail.isNone then (built i).fd.map fun fd => ((built i).path.text,fd) else none).map
          (·.1) = successes (idx.map fun j => ((ops j).path.text,(ops j).fail.isNone)) := by
      intro idx
      induction idx with
      | nil => exact fun _ => rfl
      | cons j idx ih =>
        intro inside
        have rest := ih fun i member => inside i (List.mem_cons_of_mem _ member)
        by_cases fine : (ops j).fail.isNone = true
        · obtain ⟨fd,_,opened,same,_⟩ := made j (inside j List.mem_cons_self) fine
          have picked : (if (ops j).fail.isNone then (built j).fd.map fun fd => ((built j).path.text,fd) else none) =
              some ((built j).path.text,fd) := by rw [if_pos fine,opened]; rfl
          simp only [List.filterMap_cons,picked,List.map_cons]
          rw [rest,same]
          simp only [successes,List.filter_cons,fine,↓reduceIte,List.map_cons]
        · have passed : (if (ops j).fail.isNone then (built j).fd.map fun fd => ((built j).path.text,fd) else none) =
              none := if_neg fine
          simp only [List.filterMap_cons,passed,List.map_cons]
          rw [rest]
          simp only [successes,List.filter_cons,fine]
          rfl
    rw [outcomes,← List.range_eq_range']
    exact each (List.range paths.length) fun j member => List.mem_range.mp member

theorem successes_append (told told' : List (Path × Bool)) : successes (told ++ told') = successes told ++ successes told' := by
  simp [successes]

/-- Every batch is reported, and the files of all of them have their modes. -/
theorem loopRecorded_reported {spec : FileSpec} (fuel : Nat) (terms : Open T) (asked : T.mode = spec.mode)
    (template : base.length ≤ 1) : ∀ (rounds : Nat) (paths : List Path) (ops : Ops) {start told k m},
    paths.length ≤ rounds → Tidy T base start told k m →
    Always T (loopRecorded fuel T.batch spec rounds paths ops) (fun x k' m' => ∃ more,
      Tidy T base start (told ++ more) k' m' ∧ more.map (·.1) = paths ∧ Granted T spec start x.2 k' ∧
        x.2.map (·.1) = successes more) k m := by
  intro rounds
  induction rounds with
  | zero =>
    intro paths ops start told k m all tidy
    obtain rfl := List.length_eq_zero_iff.mp (Nat.le_zero.mp all)
    exact always_pure tidy.within ⟨[],by simpa using tidy,rfl,by simp [Granted],rfl⟩
  | succ rounds ih =>
    intro paths ops start told k m all tidy
    rw [loopRecorded]
    split
    · rename_i done
      subst done
      exact always_pure tidy.within ⟨[],by simpa using tidy,rfl,by simp [Granted],rfl⟩
    · rename_i nonempty
      have positive := terms.positive
      have length : 0 < paths.length := List.length_pos_iff.mpr nonempty
      have fits : Fits T base (paths.take T.batch).length := ⟨by rw [List.length_take]; omega,template⟩
      refine always_seq (batchRecorded_reported fuel _ ops terms asked fits tidy) fun x k m reported => ?_
      obtain ⟨built,ops',ok⟩ := x
      have fewer : (paths.drop T.batch).length ≤ rounds := by
        rw [List.length_drop]
        omega
      have before := reported.tidy
      refine always_seq (ih _ ops' fewer before.restart) fun rest k' m' later => ?_
      obtain ⟨more,tidy',onward,granted,made⟩ := later
      obtain ⟨granted',made'⟩ := Reported.granted reported
      refine always_pure tidy'.within ⟨outcomes ops' 0 (paths.take T.batch).length ++ more,?_,?_,?_,?_⟩
      · rw [← List.append_assoc]
        exact before.since tidy'
      · rw [List.map_append,Reported.paths reported,onward,List.take_append_drop]
      · intro x member
        rcases List.mem_append.mp member with now | afterwards
        · obtain ⟨mode,new,final⟩ := granted' x now
          exact ⟨mode,New.later new tidy',final⟩
        · obtain ⟨mode,new,final⟩ := granted x afterwards
          exact ⟨mode,New.earlier new before.next,final⟩
      · rw [List.map_append,made',made,successes_append]

/-! ## The limit -/

/-- The size of a batch under a limit on descriptors. -/
def batchSize : Except Errno (Option Nat) → Nat
  | .ok (some cur) => if 2*NEWFILE_BATCH+FD_RESERVE ≤ cur then NEWFILE_BATCH else max 1 ((cur-FD_RESERVE)/2)
  | _ => NEWFILE_BATCH

theorem batchSize_bounds (limit : Except Errno (Option Nat)) : 0 < batchSize limit ∧ batchSize limit ≤ NEWFILE_BATCH := by
  have positive : 0 < NEWFILE_BATCH := by decide
  rcases limit with e | _ | cur
  · exact ⟨positive,Nat.le_refl _⟩
  · exact ⟨positive,Nat.le_refl _⟩
  · rw [batchSize]
    by_cases large : 2*NEWFILE_BATCH+FD_RESERVE ≤ cur
    · rw [if_pos large]
      decide
    · rw [if_neg large]
      simp only [NEWFILE_BATCH,FD_RESERVE] at large ⊢
      omega

/-- Two descriptors for each operand, the template's and one more fit beside the standard streams. -/
theorem batchSize_fits {cur : Nat} (enough : 7 ≤ cur) : 2*batchSize (.ok (some cur))+2+3 ≤ cur := by
  rw [batchSize]
  by_cases large : 2*NEWFILE_BATCH+FD_RESERVE ≤ cur
  · rw [if_pos large]
    simp only [NEWFILE_BATCH,FD_RESERVE] at large ⊢
    omega
  · rw [if_neg large]
    simp only [NEWFILE_BATCH,FD_RESERVE] at large ⊢
    omega

/-- The terms of a run. -/
def termsOf (limit : Except Errno (Option Nat)) (image : Image) (steady : Prop) (spec : FileSpec) : Terms where
  limit := limit
  image := image
  steady := steady
  batch := batchSize limit
  mode := spec.mode
  queue := batchSize limit
  listings := NEWFILE_BATCH
  used := 0

/-- Before a run no table holds anything, and the template is open at the most. -/
structure Blank (k : Book) (m : Memory) : Prop where
  template : k.opened.length ≤ 1
  dirs : m.dirs = []
  dirs_max : m.dirs_max ≤ NEWFILE_BATCH
  failures : m.failures = []
  probes : m.probes = []
  backups : m.backups = []
  told : reports m = []

theorem Blank.within (blank : Blank k m) (limit : Except Errno (Option Nat)) : Within (batchSize limit) k m := by
  have positive := (batchSize_bounds limit).1
  have template := blank.template
  refine ⟨by omega,?_,blank.dirs_max,?_,?_,?_⟩
  · simp [blank.dirs]
  · simp [blank.failures]
  · simp [blank.probes]
  · simp [blank.backups]

theorem batch_size_blank {limit : Except Errno (Option Nat)} {image : Image} {steady : Prop} (blank : Blank k m) :
    always (books limit image steady) (Within (batchSize limit)) batch_size
      (fun batch k' m' => batch = batchSize limit ∧ k' = k ∧ m' = m) k m := by
  have inside := blank.within limit
  refine ⟨inside,fun r k' answered => ?_⟩
  obtain ⟨rfl,rfl⟩ := answered
  rcases r with e | _ | cur
  · exact ⟨inside,rfl,rfl,rfl⟩
  · exact ⟨inside,rfl,rfl,rfl⟩
  · change always _ _ (if 2*NEWFILE_BATCH+FD_RESERVE ≤ cur then pure NEWFILE_BATCH else pure _) _ _ _
    by_cases large : 2*NEWFILE_BATCH+FD_RESERVE ≤ cur
    · rw [if_pos large]
      exact ⟨inside,by rw [batchSize,if_pos large],rfl,rfl⟩
    · rw [if_neg large]
      refine ⟨inside,?_,rfl,rfl⟩
      rw [batchSize,if_neg large]
      by_cases room : FD_RESERVE < cur
      · simp only [if_pos room]
        split <;> omega
      · have little : (cur-FD_RESERVE)/2 = 0 := by omega
        simp [room,little]

theorem Blank.tidy (blank : Blank k m) (limit : Except Errno (Option Nat)) (image : Image) (steady : Prop) (spec : FileSpec) :
    Tidy (termsOf limit image steady spec) k.opened k [] k { m with dirs_max := min (batchSize limit) NEWFILE_BATCH } := by
  have bounds := batchSize_bounds limit
  have template := blank.template
  have nodup : k.opened.Nodup := by
    rcases opened : k.opened with _ | ⟨fd,rest⟩
    · exact List.nodup_nil
    · rw [opened,List.length_cons] at template
      obtain rfl := List.length_eq_zero_iff.mp (Nat.le_zero.mp (Nat.le_of_succ_le_succ template))
      exact List.nodup_singleton fd
  exact {
    few := by simp only [termsOf]; omega
    positive := bounds.1
    nodup
    known := fun _ => id
    dirs := by simp [blank.dirs]
    queue := Nat.le_refl _
    dirs_max := Nat.min_eq_left bounds.2
    small := bounds.2
    failures := by simp [blank.failures]
    probes := by simp [blank.probes]
    granted := by simp [blank.probes]
    backups := by simp [blank.backups]
    listings := Nat.le_refl _
    used := Nat.zero_le _
    next := Nat.le_refl _
    modes := fun _ _ => rfl
    told := blank.told }

/-- What a whole run comes to. -/
structure Done (T : Terms) (spec : FileSpec) (start : Book) (paths : List Path) (files : List (Path × Fd)) (k : Book)
    (m : Memory) : Prop where
  within : Within T.batch k m
  paths : (reports m).map (·.1) = paths
  granted : Granted T spec start files k
  made : files.map (·.1) = successes (reports m)

theorem batch_run_recorded_done (limit : Except Errno (Option Nat)) (image : Image) (steady : Prop) (fuel : Nat)
    (paths : List Path) (spec : FileSpec) (blank : Blank k m) :
    Always (termsOf limit image steady spec) (batch_run_recorded fuel paths spec)
      (fun x k' m' => Done (termsOf limit image steady spec) spec k paths x.2 k' m') k m := by
  have terms : Open (termsOf limit image steady spec) := ⟨rfl,(batchSize_bounds limit).1,rfl⟩
  refine always_seq (batch_size_blank blank) fun batch k' m' sized => ?_
  obtain ⟨rfl,rfl,rfl⟩ := sized
  have tidy := Blank.tidy blank limit image steady spec
  refine ⟨blank.within limit,?_⟩
  refine always_allocate tidy fun r => ?_
  cases r with
  | error e => exact tidy.within
  | ok _ =>
    refine always_seq (loopRecorded_reported fuel terms rfl blank.template paths.length paths noOps (Nat.le_refl _) tidy)
      fun x k m done => ?_
    obtain ⟨more,tidy,onward,granted,made⟩ := done
    rw [List.nil_append] at tidy
    refine always_forget tidy fun m tidy => always_unprobed tidy fun m tidy => always_unlisted tidy fun m tidy => ?_
    exact always_read tidy (always_pure tidy.within ⟨tidy.within,tidy.told ▸ onward,granted,tidy.told ▸ made⟩)

theorem batch_run_done (limit : Except Errno (Option Nat)) (image : Image) (steady : Prop) (fuel : Nat)
    (paths : List Path) (spec : FileSpec) (blank : Blank k m) :
    Always (termsOf limit image steady spec) (batch_run fuel paths spec)
      (fun _ _ m' => (reports m').map (·.1) = paths) k m := by
  rw [batch_run_eq]
  exact always_seq (batch_run_recorded_done limit image steady fuel paths spec blank) fun _ _ _ done =>
    always_pure done.within done.paths

/-- What a run does, stage after stage. -/
theorem batch_run_staged_done (limit : Except Errno (Option Nat)) (image : Image) (steady : Prop) (fuel : Nat)
    (paths : List Path) (spec : FileSpec) (blank : Blank k m) :
    Always (termsOf limit image steady spec) (batch_run_staged fuel paths spec)
      (fun x _ _ => x.2 = (parts (batchSize limit) paths.length paths).flatMap entries) k m := by
  have terms : Open (termsOf limit image steady spec) := ⟨rfl,(batchSize_bounds limit).1,rfl⟩
  refine always_seq (batch_size_blank blank) fun batch k' m' sized => ?_
  obtain ⟨rfl,rfl,rfl⟩ := sized
  have tidy := Blank.tidy blank limit image steady spec
  refine ⟨blank.within limit,?_⟩
  refine always_allocate tidy fun r => ?_
  cases r with
  | error e => exact tidy.within
  | ok _ =>
    refine always_seq (stages_recorded terms rfl blank.template paths.length paths noOps (Nat.le_refl _) tidy) fun x k m done => ?_
    obtain ⟨⟨more,tidy⟩,same⟩ := done
    refine always_forget tidy fun m tidy => always_unprobed tidy fun m tidy => always_unlisted tidy fun m tidy => ?_
    exact always_read tidy (always_pure tidy.within same)

/-! ## What holds of every run -/

/-- A book in which the next file is `a`, and a umask that leaves the owner's bits. -/
def sampleBook : Book := ⟨[],fun _ => 0,7⟩

def sampleImage : Image := fun _ mode => mode &&& 0o700

/-- Files can be made, read and flushed; there is nothing else. -/
def sampleStep (k : Book) : (c : Call) → Unit → Option (Except Errno c.Val × Book)
  | .getrlimit_nofile, _ => some (.ok (some 18),k)
  | .alloc, _ | .fsync _, _ => some (.ok (),k)
  | .open_excl path mode, _ =>
    if k.next ∈ k.opened then none
    else some (.ok ⟨k.next,k.next⟩,⟨k.next :: k.opened,
      fun j => if j = k.next then created sampleImage (dirText path) mode else k.modes j,k.next+1⟩)
  | .open_dir _, _ => if 100 ∈ k.opened then none else some (.ok ⟨100,0⟩,{ k with opened := 100 :: k.opened })
  | .close fd, _ => some (.ok (),k.close fd)
  | .fstat fd, _ => some (.ok ⟨fd.ino,.regular,k.modes fd.ino,0,0,0⟩,k)
  | _, _ => some (.error .ENOENT,k)

theorem sampleStep_books (k : Book) (c : Call) (r : posix.Res c) (k' : Book)
    (answered : ∃ ch, sampleStep k c ch = some (r,k')) : books (.ok (some 18)) sampleImage True k c r k' := by
  obtain ⟨_,answered⟩ := answered
  cases c
  case open_excl path mode =>
    by_cases busy : k.next ∈ k.opened
    · simp [sampleStep,busy] at answered
    · simp only [sampleStep,if_neg busy,Option.some.injEq,Prod.mk.injEq] at answered
      obtain ⟨rfl,rfl⟩ := answered
      exact ⟨busy,rfl,rfl⟩
  case open_dir dir =>
    by_cases busy : 100 ∈ k.opened
    · simp [sampleStep,busy] at answered
    · simp only [sampleStep,if_neg busy,Option.some.injEq,Prod.mk.injEq] at answered
      obtain ⟨rfl,rfl⟩ := answered
      exact ⟨busy,rfl⟩
  case fstat fd =>
    simp only [sampleStep,Option.some.injEq,Prod.mk.injEq] at answered
    obtain ⟨rfl,rfl⟩ := answered
    exact ⟨fun _ => rfl,rfl⟩
  all_goals
    simp only [sampleStep,Option.some.injEq,Prod.mk.injEq] at answered
    obtain ⟨rfl,rfl⟩ := answered
    first
      | rfl
      | exact ⟨rfl,rfl⟩

theorem sample_blank : Blank sampleBook {} := by
  constructor <;> decide

/-- The tables and the descriptors of a run are bounded in every state, no matter what
    is answered, and a run is nothing but stages: a batch at a time, of at most so many
    operands, each of them is built, then each is named, then each reported, in order. -/
theorem batch_run_bounded (limit : Except Errno (Option Nat)) (image : Image) (steady : Prop) (fuel : Nat)
    (paths : List Path) (spec : FileSpec) (blank : Blank k m) :
    (∀ evs t, Run (books limit image steady) ⟨batch_run fuel paths spec,k,m⟩ evs t →
      Within (batchSize limit) t.kernel t.memory ∧
      (∀ cur, limit = .ok (some cur) → 18 ≤ cur → t.kernel.opened.length+1+3 ≤ cur) ∧
      ∀ ok, t.prog = .ret ok → (reports t.memory).map (·.1) = paths) ∧
    (∀ evs t, Run (books limit image steady) ⟨batch_size,k,m⟩ evs t → ∀ batch, t.prog = .ret batch →
      batch = batchSize limit) ∧ batchSize limit ≤ NEWFILE_BATCH ∧
    batch_run fuel paths spec = batch_run_staged fuel paths spec >>= (fun x => return x.1) ∧
    (∀ evs t, Run (books limit image steady) ⟨batch_run_staged fuel paths spec,k,m⟩ evs t →
      ∀ ok done, t.prog = .ret (ok,done) → done = (parts (batchSize limit) paths.length paths).flatMap entries ∧
        operandsOf Stage.builds done = paths ∧ operandsOf Stage.names done = paths ∧ operandsOf Stage.reports done = paths) ∧
    (∀ part ∈ parts (batchSize limit) paths.length paths, 0 < part.length ∧ part.length ≤ batchSize limit) ∧
    (∀ ops n, (flushable ops n).length ≤ n) ∧
    ∀ cpus results s, Workers.Reachable cpus results s → s.workers.length ≤ NEWFILE_BATCH := by
  have bounds := batchSize_bounds limit
  obtain ⟨whole,sizes⟩ := parts_whole bounds.1 paths.length paths (Nat.le_refl _)
  refine ⟨fun evs t run => ?_,fun evs t run batch done => ?_,bounds.2,batch_run_stages fuel paths spec,
    fun evs t run ok done returned => ?_,sizes,flushable_length,fun cpus results s reachable => (Pool.inv_reachable reachable).few⟩
  · have reached := always_run run (batch_run_done limit image steady fuel paths spec blank)
    have inside : Within (batchSize limit) t.kernel t.memory := always_inv reached
    refine ⟨inside,fun cur same enough => ?_,fun ok done => ?_⟩
    · subst same
      have fits := @batchSize_fits cur (by omega)
      have opened := inside.opened
      omega
    · rw [done] at reached
      exact reached.2
  · have reached := always_run run (batch_size_blank blank)
    rw [done] at reached
    exact reached.2.1
  · have reached := always_run run (batch_run_staged_done limit image steady fuel paths spec blank)
    rw [returned] at reached
    have same : done = (parts (batchSize limit) paths.length paths).flatMap entries := reached.2
    refine ⟨same,?_,?_,?_⟩
    · rw [same,operandsOf_flatMap fun part => (entries_operands part).1,whole]
    · rw [same,operandsOf_flatMap fun part => (entries_operands part).2.1,whole]
    · rw [same,operandsOf_flatMap fun part => (entries_operands part).2.2,whole]

/-- Two operands in batches of one. -/
theorem batch_run_bounded_sample :
    (∃ t : Config posix Book Memory Bool, t.prog = .ret true ∧ Within 1 t.kernel t.memory ∧
      (reports t.memory).map (·.1) = ["a".toList,"b".toList]) ∧
    ∃ t : Config posix Book Memory (Bool × Record), ∃ done, t.prog = .ret (true,done) ∧
      done = [["a".toList],["b".toList]].flatMap entries ∧ operandsOf Stage.names done = ["a".toList,"b".toList] := by
  have bounded := batch_run_bounded (.ok (some 18)) sampleImage True 9 ["a".toList,"b".toList] {} sample_blank
  constructor
  · obtain ⟨evs,run⟩ := play_run sampleStep (batch_run 9 ["a".toList,"b".toList] {}) sampleBook {} (List.replicate 60 ())
    have ended : (play sampleStep (batch_run 9 ["a".toList,"b".toList] {}) sampleBook {} (List.replicate 60 ())).prog =
      .ret true := rfl
    obtain ⟨inside,_,told⟩ := bounded.1 evs _ (Run.mono sampleStep_books run)
    exact ⟨_,ended,inside,told true ended⟩
  · obtain ⟨evs,run⟩ := play_run sampleStep (batch_run_staged 9 ["a".toList,"b".toList] {}) sampleBook {} (List.replicate 60 ())
    obtain ⟨done,ended⟩ : ∃ done, (play sampleStep (batch_run_staged 9 ["a".toList,"b".toList] {}) sampleBook {}
      (List.replicate 60 ())).prog = .ret (true,done) := ⟨_,rfl⟩
    obtain ⟨same,_,names,_⟩ := bounded.2.2.2.2.1 evs _ (Run.mono sampleStep_books run) true done ended
    exact ⟨_,done,ended,same,names⟩

/-- However a file was built, its mode is what the operand asks for and the directory
    makes of it, and nothing else. -/
theorem batch_run_modes (limit : Except Errno (Option Nat)) (image : Image) (fuel : Nat) (paths : List Path)
    (spec : FileSpec) (blank : Blank k m) :
    batch_run fuel paths spec = batch_run_recorded fuel paths spec >>= (fun x => return x.1) ∧
    ∀ evs t, Run (books limit image True) ⟨batch_run_recorded fuel paths spec,k,m⟩ evs t →
      ∀ ok files, t.prog = .ret (ok,files) →
        files.map (·.1) = successes (reports t.memory) ∧
        ∀ path fd, (path,fd) ∈ files → k.next ≤ fd.ino ∧ t.kernel.modes fd.ino =
          if spec.absolute_given then spec.mode
          else (image (dirText path) (spec.mode &&& 0o777) &&& 0o777) ||| (spec.mode &&& 0o7000) := by
  refine ⟨batch_run_eq fuel paths spec,fun evs t run ok files done => ?_⟩
  have reached := always_run run (batch_run_recorded_done limit image True fuel paths spec blank)
  rw [done] at reached
  refine ⟨reached.2.made,fun path fd member => ?_⟩
  obtain ⟨mode,new,final⟩ := reached.2.granted (path,fd) member
  refine ⟨new.after,?_⟩
  rw [new.mode,final trivial]
  rfl

/-- A set-user-ID file and one after it, in batches of one. -/
theorem batch_run_modes_sample :
    ∃ t : Config posix Book Memory (Bool × List (Path × Fd)),
      t.prog = .ret (true,[("a".toList,⟨7,7⟩),("b".toList,⟨8,8⟩)]) ∧ t.kernel.modes 7 = 0o4600 := by
  obtain ⟨evs,run⟩ := play_run sampleStep (batch_run_recorded 9 ["a".toList,"b".toList] { mode := 0o4666 }) sampleBook {}
    (List.replicate 60 ())
  have ended : (play sampleStep (batch_run_recorded 9 ["a".toList,"b".toList] { mode := 0o4666 }) sampleBook {}
    (List.replicate 60 ())).prog = .ret (true,[("a".toList,⟨7,7⟩),("b".toList,⟨8,8⟩)]) := rfl
  refine ⟨_,ended,?_⟩
  exact (((batch_run_modes (.ok (some 18)) sampleImage 9 ["a".toList,"b".toList] { mode := 0o4666 } sample_blank).2 evs _
    (Run.mono sampleStep_books run) _ _ ended).2 "a".toList ⟨7,7⟩ (by simp)).2

end Newfile.Limits
