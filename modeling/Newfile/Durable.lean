import Newfile.Dirs

/-!
Whatever the calls answer, the set of directories loses no directory and no
failure.
-/
namespace Newfile.Durable
open Newfile.Program Newfile.Posix Newfile.Process Newfile.Flush Newfile.Dirs

variable {res : Path → Ino} {before fuel : Nat} {tr : Trace} {m : Memory}

/-- What has become of a directory that was flushed. -/
def Done (res : Path → Ino) (tr : Trace) (m : Memory) (name : Path) : Prop :=
  Refused tr name ∨ Synced tr (res name) ∨ Missed res tr name ∧ Marked res m name

theorem Done.later {m' : Memory} {name : Path} (done : Done res tr m name) (es : Trace) (grows : Grows m m') :
    Done res (tr ++ es) m' name := by
  rcases done with refused | synced | ⟨missed,marked⟩
  · exact .inl (refused.later es)
  · exact .inr (.inl (synced.later es))
  · exact .inr (.inr ⟨missed.later es,marked.grows grows⟩)

/-- The inodes that were flushed, but for those that `fstat` did not tell, differ. -/
def Apart (tr : Trace) (fds : List Fd) : Prop :=
  fds.Pairwise fun fd fd' => fd.ino = fd'.ino → ∃ e, ⟨.fstat fd,.error e⟩ ∈ tr ∨ ⟨.fstat fd',.error e⟩ ∈ tr

/-! ## A flush of the set -/

/-- What `flush_set_run` leaves. -/
structure RunDone (res : Path → Ino) (before : Nat) (tr : Trace) (m : Memory) (tr' : Trace) (m' : Memory) : Prop where
  inv : Inv before tr' m' []
  done : ∀ dir ∈ m.dirs, Done res tr' m' dir
  grows : Grows m m'
  dirs : m'.dirs = []
  max : m'.dirs_max = m.dirs_max
  flushed : ∃ fds, flushed tr' = flushed tr ++ fds ∧ Apart tr' fds
  grown : ∃ es, tr' = tr ++ es

theorem held_nil (tr : Trace) : Held tr [] := ⟨by simp,by simp,List.Pairwise.nil⟩

theorem apart_of_held {os : List OpenDir} (held : Held tr os) : Apart tr (os.map (·.fd)) := by
  rw [Apart,List.pairwise_map]
  refine held.apart.imp_of_mem fun {o o'} member member' differ same => ?_
  rcases differ same with unknown | unknown
  · obtain ⟨e,failed⟩ := held.failed o member unknown
    exact ⟨e,.inl failed⟩
  · obtain ⟨e,failed⟩ := held.failed o' member' unknown
    exact ⟨e,.inr failed⟩

theorem Apart.later {fds : List Fd} (apart : Apart tr fds) (es : Trace) : Apart (tr ++ es) fds := by
  refine apart.imp fun {fd fd'} differ same => ?_
  obtain ⟨e,failed⟩ := differ same
  exact ⟨e,failed.imp (List.mem_append_left _) (List.mem_append_left _)⟩

theorem inv_dirs {dirs : List Path} {owed : List (Path × Option Ino)} (inv : Inv before tr m owed) :
    Inv before tr { m with dirs } owed :=
  inv.memory rfl fun _ _ noted => noted

theorem mem_zip {α β : Type} {xs : List α} {ys : List β} {x : α} (member : x ∈ xs) (length : ys.length = xs.length) :
    ∃ y, (x,y) ∈ xs.zip ys := by
  induction xs generalizing ys with
  | nil => simp at member
  | cons a xs ih =>
    cases ys with
    | nil => simp at length
    | cons b ys =>
      rcases List.mem_cons.mp member with rfl | later
      · exact ⟨b,by simp⟩
      · obtain ⟨y,found⟩ := ih later (by simpa using length)
        exact ⟨y,List.mem_cons_of_mem _ found⟩

theorem flush_set_run_spec (inv : Inv before tr m []) :
    wp (logged res) True (flush_set_run fuel) (fun _ tr' m' => RunDone res before tr m tr' m') tr m := by
  rw [flush_set_run,wp_bind,wp_get]
  refine wp_seq (openDirs_spec m.dirs [] tr m inv (held_nil tr)) fun os tr₁ m₁ opened => ?_
  obtain ⟨inv₁,held,_,covered,grows,_,max,unflushed,es₁,rfl⟩ := opened
  rw [wp_bind,wp_modify]
  refine wp_seq (flush_fds_spec os [] _ (inv_dirs inv₁) held.opened) fun errs tr₂ m₂ synced => ?_
  obtain ⟨inv₂,rfl,length,flushed₂,settled,failed,⟨es₂,rfl,_⟩⟩ := synced
  refine wp_mono (closeDirs_spec _ _ _ inv₂) fun _ tr₃ m₃ closed => ?_
  obtain ⟨inv₃,grows',noted,dirs,max',quietly⟩ := closed
  have silent := flushed_quietly quietly
  obtain ⟨es₃,rfl,_⟩ := quietly
  have all : Grows m m₃ := ⟨fun f member => grows'.failures f (grows.failures f member),fun lost => grows'.lost (grows.lost lost)⟩
  refine ⟨inv₃,fun dir member => ?_,all,dirs,max'.trans max,⟨os.map (·.fd),?_,?_⟩,es₁ ++ es₂ ++ es₃,by simp⟩
  · rcases covered dir member with refused | ⟨missed,marked⟩ | ⟨o,held,there,stands⟩
    · exact .inl ((refused.later es₂).later es₃)
    · exact .inr (.inr ⟨(missed.later es₂).later es₃,
        marked.grows ⟨fun f member => grows'.failures f member,fun lost => grows'.lost lost⟩⟩)
    · obtain ⟨err,result⟩ := mem_zip held length
      cases err with
      | none =>
        have good := settled _ result rfl
        rw [there] at good
        exact .inr (.inl (good.later es₃))
      | some e =>
        have bad := failed _ result e rfl
        rw [there] at bad
        exact .inr (.inr ⟨.inr (bad.later es₃),_,_,noted _ result (by simp),stands⟩)
  · rw [silent,flushed₂,unflushed]
  · exact (apart_of_held held).later es₂ |>.later es₃

/-! ## A directory is added -/

/-- What `flush_dir` leaves: a flush, a refusal, or a failure to note. -/
structure DirDone (res : Path → Ino) (before : Nat) (tr : Trace) (m : Memory) (name : Path) (r : Except Errno Unit)
    (tr' : Trace) (m' : Memory) : Prop where
  memory : m' = m
  fine : r = .ok () → Inv before tr' m [] ∧ Done res tr' m name
  failed : ∀ e, r = .error e → Inv before tr' m [(name,none)] ∧ Missed res tr' name
  grown : ∃ es, tr' = tr ++ es

theorem flush_dir_spec {name : Path} (inv : Inv before tr m []) :
    wp (logged res) True (flush_dir fuel name) (DirDone res before tr m name) tr m := by
  rw [flush_dir,wp_bind]
  refine wp_logged fun r kept => ?_
  cases r with
  | error e =>
    dsimp only
    by_cases refused : refusal e = true
    · have right : e = .EACCES ∨ e = .EPERM := by simpa [refusal] using refused
      rw [if_pos right]
      refine ⟨rfl,fun _ => ⟨inv.open_error (by rw [if_pos refused]),.inl ⟨e,by simp,refused⟩⟩,fun e' failed => ?_,_,rfl⟩
      simp at failed
    · have wrong : ¬(e = .EACCES ∨ e = .EPERM) := by simpa [refusal] using refused
      rw [if_neg wrong]
      refine ⟨rfl,fun fine => by simp at fine,fun e' _ => ⟨inv.open_error (by rw [if_neg refused]),
        .inl ⟨e,by simp,Bool.eq_false_iff.mpr refused⟩⟩,_,rfl⟩
  | ok fd =>
    obtain ⟨there,fresh⟩ := kept
    obtain ⟨_,unasked⟩ := inv.unused fresh
    have opened : Opened (tr ++ [⟨.open_dir name,.ok fd⟩]) ⟨name,fd,none⟩ := by
      refine ⟨by simp,by simp,fun _ st member => unasked (.ok st) ?_⟩
      simpa using member
    dsimp only
    refine wp_seq (sync_one_spec ⟨name,fd,none⟩ fuel _ (inv.open_ok fresh) opened) fun err tr₁ m₁ one => ?_
    obtain ⟨inv₁,rfl,_,settled,failed,es,rfl,_⟩ := one
    rw [wp_bind]
    refine wp_logged fun r _ => ?_
    have trace : tr ++ [⟨.open_dir name,.ok fd⟩] ++ es ++ [⟨.close fd,r⟩] =
        tr ++ ([⟨.open_dir name,.ok fd⟩] ++ (es ++ [(⟨.close fd,r⟩ : Event posix)])) := by simp
    cases err with
    | some e =>
      have bad := failed e rfl
      rw [there] at bad
      exact ⟨rfl,fun fine => by simp at fine,fun e' _ => ⟨inv₁.quiet rfl,.inr (bad.later _)⟩,_,trace⟩
    | none =>
      have synced := settled rfl
      rw [there] at synced
      exact ⟨rfl,fun _ => ⟨inv₁.quiet rfl,.inr (.inl (synced.later _))⟩,fun e' failed => by simp at failed,_,
        trace⟩

/-- A directory that was added waits in the set, or is done. -/
def Settled (res : Path → Ino) (tr : Trace) (m : Memory) (name : Path) : Prop := name ∈ m.dirs ∨ Done res tr m name

/-- What adding a directory, or flushing the set, leaves. -/
structure Kept (res : Path → Ino) (before : Nat) (tr : Trace) (m : Memory) (tr' : Trace) (m' : Memory) : Prop where
  inv : Inv before tr' m' []
  settled : ∀ name, Settled res tr m name → Settled res tr' m' name
  grows : Grows m m'
  max : m'.dirs_max = m.dirs_max
  room : 0 < m.dirs_max → m.dirs.length ≤ m.dirs_max → m'.dirs.length ≤ m'.dirs_max
  grown : ∃ es, tr' = tr ++ es

theorem Kept.trans {tr' tr'' : Trace} {m' m'' : Memory} (one : Kept res before tr m tr' m')
    (two : Kept res before tr' m' tr'' m'') : Kept res before tr m tr'' m'' := by
  obtain ⟨es,rfl⟩ := one.grown
  obtain ⟨es',rfl⟩ := two.grown
  exact ⟨two.inv,fun name settled => two.settled name (one.settled name settled),one.grows.trans two.grows,
    two.max.trans one.max,fun some_ room => two.room (by rw [one.max]; exact some_) (one.room some_ room),es ++ es',by simp⟩

theorem RunDone.kept {tr' : Trace} {m' : Memory} (done : RunDone res before tr m tr' m') : Kept res before tr m tr' m' := by
  obtain ⟨inv,done,grows,dirs,max,_,es,rfl⟩ := done
  refine ⟨inv,fun name settled => ?_,grows,max,fun _ _ => by rw [dirs]; exact Nat.zero_le _,es,rfl⟩
  rcases settled with waiting | was
  · exact .inr (done name waiting)
  · exact .inr (was.later es grows)

theorem addDir_spec {dir : Path} (inv : Inv before tr m []) (room : 0 < m.dirs_max → m.dirs.length ≤ m.dirs_max → m.dirs.length < m.dirs_max) :
    wp (logged res) True (addDir fuel dir) (fun _ tr' m' => Kept res before tr m tr' m' ∧ Settled res tr' m' dir) tr m := by
  rw [addDir,wp_bind,allocate]
  refine wp_logged fun r _ => ?_
  have inv₁ : Inv before (tr ++ [⟨.alloc,r⟩]) m [] := inv.quiet rfl
  cases r with
  | ok u =>
    dsimp only
    rw [wp_modify]
    refine ⟨⟨inv_dirs inv₁,fun name settled => ?_,⟨fun _ member => member,fun lost => lost⟩,rfl,fun some_ fits => ?_,_,rfl⟩,
      .inl (by simp)⟩
    · rcases settled with waiting | done
      · exact .inl (List.mem_append_left _ waiting)
      · exact .inr (done.later _ ⟨fun _ member => member,fun lost => lost⟩)
    · have := room some_ fits
      simp only [List.length_append,List.length_cons,List.length_nil]
      omega
  | error e =>
    dsimp only
    refine wp_seq (flush_dir_spec inv₁) fun r tr₂ m₂ done => ?_
    obtain ⟨rfl,fine,failed,es,rfl⟩ := done
    have same : ∀ {m' : Memory}, m'.dirs = m₂.dirs → Grows m₂ m' → ∀ es', ∀ name,
        Settled res tr m₂ name → Settled res (tr ++ es') m' name := by
      intro m' dirs grows es' name settled
      rcases settled with waiting | done
      · exact .inl (by rw [dirs]; exact waiting)
      · exact .inr (done.later es' grows)
    cases r with
    | ok u =>
      obtain ⟨inv₂,done⟩ := fine rfl
      rw [List.append_assoc] at inv₂ done
      rw [List.append_assoc]
      exact ⟨⟨inv₂,same rfl (Grows.refl _) _,Grows.refl _,rfl,fun _ room => room,_,rfl⟩,.inr done⟩
    | error e' =>
      obtain ⟨owed,missed⟩ := failed e' rfl
      refine wp_mono (dir_failed_spec owed) fun _ tr₃ m₃ done => ?_
      obtain ⟨inv₃,grows,noted,dirs,max,es',rfl,_⟩ := done
      have missed := missed.later es'
      rw [List.append_assoc,List.append_assoc] at inv₃ missed
      rw [List.append_assoc,List.append_assoc]
      exact ⟨⟨inv₃,same dirs grows _,grows,max,fun _ room => by rw [dirs,max]; exact room,_,rfl⟩,
        .inr (.inr (.inr ⟨missed,noted.marked⟩))⟩

theorem flush_set_add_spec {dir : Path} (inv : Inv before tr m []) :
    wp (logged res) True (flush_set_add fuel dir)
      (fun _ tr' m' => Kept res before tr m tr' m' ∧ Settled res tr' m' dir) tr m := by
  rw [flush_set_add,wp_bind,wp_get]
  by_cases known : dir ∈ m.dirs
  · rw [if_pos known]
    exact ⟨⟨inv,fun _ settled => settled,Grows.refl m,rfl,fun _ room => room,[],by simp⟩,.inl known⟩
  · rw [if_neg known]
    by_cases full : m.dirs.length = m.dirs_max
    · rw [if_pos full]
      refine wp_seq (flush_set_run_spec inv) fun _ tr₁ m₁ done => ?_
      have room : 0 < m₁.dirs_max → m₁.dirs.length ≤ m₁.dirs_max → m₁.dirs.length < m₁.dirs_max := by
        intro some_ _
        rw [done.dirs]
        exact some_
      refine wp_mono (addDir_spec done.inv room) fun _ tr₂ m₂ added => ?_
      exact ⟨(RunDone.kept done).trans added.1,added.2⟩
    · rw [if_neg full]
      exact addDir_spec inv fun _ fits => Nat.lt_of_le_of_ne fits full

/-! ## Any sequence -/

inductive Op where
  | add (dir : Path)
  | run
  deriving DecidableEq, Repr

def runOp (fuel : Nat) : Op → P Unit
  | .add dir => flush_set_add fuel dir
  | .run => flush_set_run fuel

def runOps (fuel : Nat) : List Op → P Unit
  | [] => pure ()
  | op :: ops => do
    runOp fuel op
    runOps fuel ops

theorem runOps_append (ops ops' : List Op) : runOps fuel (ops ++ ops') = (do runOps fuel ops; runOps fuel ops') := by
  induction ops with
  | nil => rfl
  | cons op ops ih =>
    rw [List.cons_append,runOps,runOps,ih]
    simp

theorem runOp_spec (op : Op) (inv : Inv before tr m []) :
    wp (logged res) True (runOp fuel op) (fun _ tr' m' => Kept res before tr m tr' m') tr m := by
  cases op with
  | add dir => exact wp_mono (flush_set_add_spec inv) fun _ _ _ kept => kept.1
  | run => exact wp_mono (flush_set_run_spec inv) fun _ _ _ done => RunDone.kept done

theorem runOps_spec : ∀ (ops : List Op) (tr : Trace) (m : Memory), Inv before tr m [] →
    wp (logged res) True (runOps fuel ops) (fun _ tr' m' => Kept res before tr m tr' m') tr m := by
  intro ops
  induction ops with
  | nil => exact fun tr m inv => ⟨inv,fun _ settled => settled,Grows.refl m,rfl,fun _ room => room,[],by simp⟩
  | cons op ops ih =>
    intro tr m inv
    rw [runOps]
    refine wp_seq (runOp_spec op inv) fun _ tr' m' one => ?_
    exact wp_mono (ih tr' m' one.inv) fun _ tr'' m'' two => one.trans two

/-! ## The answer of `flush_set_failed` -/

theorem failedLoop_spec {dir : Path} : ∀ (failures : List DirFailure) (stated : Option Ino) (tr : Trace) (m : Memory),
    (∀ ino, stated = some ino → ino = res dir) → (∃ f ∈ failures, f.name = dir ∨ f.known = some (res dir)) →
    wp (logged res) spins (failedLoop dir failures stated) (fun b _ _ => b = true) tr m := by
  intro failures
  induction failures with
  | nil =>
    rintro _ _ _ _ ⟨f,member,_⟩
    simp at member
  | cons f failures ih =>
    rintro stated tr m told ⟨g,member,stands⟩
    unfold failedLoop
    by_cases named : f.name = dir
    · rw [if_pos named]
      rfl
    · rw [if_neg named]
      have later : f.known ≠ some (res dir) → ∃ f ∈ failures, f.name = dir ∨ f.known = some (res dir) := by
        intro other
        rcases List.mem_cons.mp member with rfl | rest
        · rcases stands with same | same
          · exact absurd same named
          · exact absurd same other
        · exact ⟨g,rest,stands⟩
      cases known : f.known with
      | none => exact ih stated tr m told (later (by simp [known]))
      | some ino =>
        have goOn : ∀ (tr : Trace), wp (logged res) spins (if res dir = ino then pure true
            else failedLoop dir failures (some (res dir))) (fun b _ _ => b = true) tr m := by
          intro tr
          by_cases same : res dir = ino
          · rw [if_pos same]
            rfl
          · rw [if_neg same]
            exact ih _ tr m (by rintro _ ⟨⟩; rfl) (later (by simp [known,Ne.symm same]))
        cases stated with
        | some st =>
          have there := told st rfl
          rw [there]
          exact goOn tr
        | none =>
          rw [wp_bind]
          refine wp_logged fun r kept => ?_
          cases r with
          | error _ => rfl
          | ok st =>
            have there : st.ino = res dir := kept
            dsimp only
            rw [there]
            exact goOn _

/-- Whatever is answered meanwhile, `flush_set_failed` answers true. -/
def Failing (res : Path → Ino) (m : Memory) (name : Path) : Prop :=
  ∀ tr evs t b, Run (logged res) ⟨flush_set_failed name,tr,m⟩ evs t → t.prog = .ret b → b = true

theorem failing_of_marked {name : Path} (marked : Marked res m name) : Failing res m name := by
  intro tr evs t b run done
  have rule : wp (logged res) True (flush_set_failed name) (fun b _ _ => b = true) tr m := by
    rw [flush_set_failed,wp_bind,wp_get]
    obtain ⟨name',known,noted,stands⟩ := marked
    rcases noted with lost | member | pending
    · rw [if_pos lost]
      rfl
    · split
      · rfl
      · exact failedLoop_spec _ _ _ _ (by simp) ⟨_,member,stands⟩
    · simp at pending
  have reached := wp_run run rule
  rw [done] at reached
  exact reached

/-- For all sequences of directories added and of flushes, and all answers: from the time
    a name is added to the next flush of the set its inode is flushed, or opening it is
    refused, or opening it or flushing its inode fails, which is counted and noted; one
    flush does no inode twice that `fstat` told; the failures are counted; and
    `flush_set_failed` answers for each name that failed, and for all names of an inode
    that `fstat` told. -/
theorem set_loses_nothing (res : Path → Ino) (fuel : Nat) :
    (∀ m name (names : List Path) evs t,
      Run (logged res) ⟨runOps fuel (.add name :: names.map .add ++ [.run]),[],m⟩ evs t → t.prog = .ret () →
      Refused t.kernel name ∨ Synced t.kernel (res name) ∨
        Missed res t.kernel name ∧ m.dirs_nfailed < t.memory.dirs_nfailed ∧ Failing res t.memory name) ∧
    (∀ m evs t, Run (logged res) ⟨flush_set_run fuel,[],m⟩ evs t → t.prog = .ret () → Apart t.kernel (flushed t.kernel)) ∧
    (∀ m ops evs t failures,
      Run (logged res) ⟨(do runOps fuel ops; flush_set_failures),[],m⟩ evs t → t.prog = .ret failures →
      failures = m.dirs_nfailed+t.kernel.countP counted) ∧
    ∀ m ops evs t, Run (logged res) ⟨runOps fuel ops,[],m⟩ evs t → t.prog = .ret () →
      (∀ name e, ⟨.open_dir name,.error e⟩ ∈ t.kernel → refusal e = false → Failing res t.memory name) ∧
      ∀ name fd e, ⟨.open_dir name,.ok fd⟩ ∈ t.kernel → ⟨.fsync fd,.error e⟩ ∈ t.kernel →
        counted ⟨.fsync fd,.error e⟩ = true → Failing res t.memory name ∧
          ((∃ st, ⟨.fstat fd,.ok st⟩ ∈ t.kernel) → ∀ spelling, res spelling = fd.ino → Failing res t.memory spelling) := by
  refine ⟨fun m name names evs t run done => ?_,fun m evs t run done => ?_,fun m ops evs t failures run done => ?_,
    fun m ops evs t run done => ?_⟩
  · have rule : wp (logged res) True (runOps fuel (.add name :: names.map .add ++ [.run]))
        (fun _ tr' m' => Inv m.dirs_nfailed tr' m' [] ∧ Done res tr' m' name) [] m := by
      rw [List.cons_append,runOps]
      refine wp_seq (flush_set_add_spec (inv_nil m)) fun _ tr₁ m₁ added => ?_
      rw [runOps_append]
      refine wp_seq (runOps_spec _ tr₁ m₁ added.1.inv) fun _ tr₂ m₂ kept => ?_
      have settled := kept.settled name added.2
      rw [runOps]
      refine wp_seq (flush_set_run_spec kept.inv) fun _ tr₃ m₃ ran => ?_
      rcases (RunDone.kept ran).settled name settled with waiting | done
      · rw [ran.dirs] at waiting
        simp at waiting
      · exact ⟨ran.inv,done⟩
    have reached := wp_run run rule
    rw [done] at reached
    obtain ⟨inv,refused | synced | ⟨missed,marked⟩⟩ := reached
    · exact .inl refused
    · exact .inr (.inl synced)
    · have count := inv.count
      have some_ := missed.counted
      rw [List.length_nil,Nat.add_zero] at count
      exact .inr (.inr ⟨missed,by omega,failing_of_marked marked⟩)
  · have reached := wp_run run (flush_set_run_spec (inv_nil m))
    rw [done] at reached
    obtain ⟨fds,flushed,apart⟩ := reached.flushed
    rw [flushed]
    exact apart
  · have rule : wp (logged res) True (do runOps fuel ops; flush_set_failures)
        (fun failures tr' _ => failures = m.dirs_nfailed+tr'.countP counted) [] m := by
      refine wp_seq (runOps_spec ops [] m (inv_nil m)) fun _ tr' m' kept => ?_
      exact kept.inv.count
    have reached := wp_run run rule
    rw [done] at reached
    exact reached
  · have reached := wp_run run (runOps_spec ops [] m (inv_nil m))
    rw [done] at reached
    have inv := Kept.inv reached
    refine ⟨fun name e member refused => ?_,fun name fd e opened synced bad => ?_⟩
    · obtain ⟨known,noted⟩ := inv.opened name e member refused
      exact failing_of_marked (Noted.marked noted)
    · obtain ⟨known,noted,stated⟩ := inv.synced name fd e opened synced bad
      refine ⟨failing_of_marked (Noted.marked noted),fun told spelling there => ?_⟩
      have known' := stated told
      exact failing_of_marked ⟨name,known,noted,.inr (by rw [known',there])⟩

/-- A directory that is added, and whose flush fails. -/
def sampleTrace : Trace :=
  [⟨.alloc,.ok ()⟩,⟨.open_dir ['d'],.ok ⟨3,7⟩⟩,⟨.fstat ⟨3,7⟩,.ok ⟨7,.directory,0,0,0,0⟩⟩,⟨.fsync ⟨3,7⟩,.error Errno.EIO⟩,
    ⟨.alloc,.ok ()⟩,⟨.close ⟨3,7⟩,.ok ()⟩]

theorem set_loses_nothing_sample : ∃ m : Memory,
    (Refused sampleTrace ['d'] ∨ Synced sampleTrace 7 ∨
      Missed (fun _ => 7) sampleTrace ['d'] ∧ 0 < m.dirs_nfailed ∧ Failing (fun _ => 7) m ['d']) ∧
    Failing (fun _ => 7) m ['d'] ∧ Failing (fun _ => 7) m ['d','/'] := by
  have run : ∃ m, Run (logged fun _ => 7) ⟨runOps 1 [.add ['d'],.run],[],{}⟩ sampleTrace ⟨.ret (),sampleTrace,m⟩ := by
    unfold sampleTrace
    exact ⟨_,.mem (.call ⟨trivial,rfl⟩ (.mem (.mem (.call ⟨⟨rfl,by simp⟩,rfl⟩ (.call ⟨rfl,rfl⟩ (.mem (.call ⟨trivial,rfl⟩
      (.mem (.mem (.mem (.call ⟨trivial,rfl⟩ (.mem (.call ⟨trivial,rfl⟩ (.refl _))))))))))))))⟩
  obtain ⟨m,run⟩ := run
  have settled := (set_loses_nothing (fun _ => 7) 1).1 {} ['d'] [] _ _ run rfl
  have answers := ((set_loses_nothing (fun _ => 7) 1).2.2.2 {} [.add ['d'],.run] _ _ run rfl).2 ['d'] ⟨3,7⟩ Errno.EIO
    (by simp [sampleTrace]) (by simp [sampleTrace]) rfl
  exact ⟨m,settled,answers.1,answers.2 ⟨_,by simp only [sampleTrace,List.mem_cons]; exact .inr (.inr (.inl rfl))⟩ ['d','/'] rfl⟩

end Newfile.Durable
