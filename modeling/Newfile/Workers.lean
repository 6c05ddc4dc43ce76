import Newfile.Flush

/-!
The threads of `flush.c`. What a thread does while it holds `job_lock` is one step,
and so is an `fsync` outside it. A wait may end without a reason. The arrays of a
call of `flush_fds` go by the number of the call.
-/
namespace Newfile.Workers
open Newfile.Posix Newfile.Process Newfile.Flush

def FLUSHES_PER_CPU : Nat := 4

/-- `struct flush_job`; `fds` and `errs` are the calls whose arrays they point to. -/
structure Job where
  fds : Nat := 0
  errs : Nat := 0
  n : Nat := 0
  next : Nat := 0
  done : Nat := 0
  dir : Bool := false
  deriving DecidableEq, Repr

inductive Worker where
  /-- About to take the lock. -/
  | ready
  /-- In the wait for `job_ready`. -/
  | asleep
  /-- In `flush_take`, about to call `sync_one`. -/
  | busy (fds i : Nat) (dir : Bool)
  /-- In `flush_take`, about to take the lock again. -/
  | flushed (i : Nat) (err : Option Errno)
  | gone
  deriving DecidableEq, Repr

/-- The thread that calls `flush_fds` and `flush_stop`. -/
inductive Caller where
  | idle
  /-- In `flush_grow`. -/
  | growing
  /-- In a loop that flushes one descriptor after the other. -/
  | serial (i : Nat)
  /-- In the wait for `job_done`. -/
  | waiting
  /-- About to take the lock again. -/
  | woken
  | joining
  deriving DecidableEq, Repr

/-- The arguments of a call. -/
structure Args where
  fds : List Fd
  dir : Bool

structure State where
  job : Job := {}
  workers : List Worker := []
  caller : Caller := .idle
  stopping : Bool := false
  grow_failed : Bool := false
  calls : List Args := []
  /-- What is stored in `errs`, by call and index. -/
  errs : Nat → Nat → Option (Option Errno) := fun _ _ => none
  /-- Not in the program: the workers that took an index of a call, and the results
      of the flushes that were made for it. -/
  handed : Nat → Nat → List Nat := fun _ _ => []
  synced : Nat → Nat → List (Fd × Option Errno) := fun _ _ => []
  /-- The calls that were posted as a job. -/
  posted : Nat → Bool := fun _ => false

inductive Act where
  | call (args : Args) (threaded : Bool)
  | create
  | create_fails
  | post
  | go_serial
  | serial (raw : Option Errno)
  | serial_ends
  /-- A wake-up of the caller without a reason. -/
  | stir
  | test
  | lock (w : Nat)
  /-- A wake-up of a worker without a reason. -/
  | rouse (w : Nat)
  | sync (w : Nat) (raw : Option Errno)
  | store (w : Nat)
  | stop
  | join

namespace State
variable (s : State)

/-- The number of the latest call. -/
def current : Nat := s.calls.length-1

/-- The descriptor that an array holds. -/
def fdAt (call i : Nat) : Option Fd := (s.calls[call]?).bind (·.fds[i]?)

def set (w : Nat) (worker : Worker) : State := { s with workers := s.workers.set w worker }

/-- `pthread_cond_broadcast(&job_ready)`. -/
def broadcast : State := { s with workers := s.workers.map fun x => if x = .asleep then .ready else x }

/-- `pthread_cond_signal(&job_done)`. -/
def signal : State := { s with caller := if s.caller = .waiting then .woken else s.caller }

end State

/-- A function of two numbers, changed at one place. -/
def at_ {α : Type} (f : Nat → Nat → α) (call i : Nat) (a : α) : Nat → Nat → α :=
  fun c j => if c = call ∧ j = i then a else f c j

/-- What `sync_one` makes of the last answer of `fsync`. -/
def syncResult (raw : Option Errno) (dir : Bool) : Option Errno := raw.bind (sync_err · dir)

def flush_want (cpus n : Nat) : Nat := min n (max cpus 1*FLUSHES_PER_CPU)

/-- The head of the loop of `flush_worker`, up to the end of the hold on the lock. -/
def takeNext (s : State) (w : Nat) : State :=
  if s.stopping then s.set w .gone
  else if s.job.n ≤ s.job.next then s.set w .asleep
  else
    { s.set w (.busy s.job.fds s.job.next s.job.dir) with
      job := { s.job with next := s.job.next+1 }
      handed := at_ s.handed s.job.fds s.job.next (w :: s.handed s.job.fds s.job.next) }

/-- The wait of `flush_threaded`, and what follows it. -/
def waitDone (s : State) : State :=
  if s.job.done < s.job.n then { s with caller := .waiting }
  else { s with job := { s.job with n := 0, next := 0 }, caller := .idle }

/-- The end of `flush_grow`. -/
def grown (cpus : Nat) (s : State) : Bool :=
  s.grow_failed || decide (flush_want cpus ((s.calls[s.current]?).elim 0 (·.fds.length)) ≤ s.workers.length)

variable (cpus : Nat)

def step (s : State) : Act → Option State
  | .call args threaded =>
    if s.caller = .idle ∧ args.fds.length ≤ NEWFILE_BATCH ∧ (threaded = false → args.fds.length ≤ 1) then
      some { s with calls := s.calls ++ [args], caller := if threaded then .growing else .serial 0 }
    else none
  | .create =>
    if s.caller = .growing ∧ !grown cpus s then some { s with workers := s.workers ++ [.ready] } else none
  | .create_fails =>
    if s.caller = .growing ∧ !grown cpus s then some { s with grow_failed := true } else none
  | .go_serial =>
    if s.caller = .growing ∧ grown cpus s ∧ s.workers = [] then some { s with caller := .serial 0 } else none
  | .post =>
    if s.caller = .growing ∧ grown cpus s ∧ s.workers ≠ [] then
      (s.calls[s.current]?).map fun args =>
        waitDone { s with
          job := ⟨s.current,s.current,args.fds.length,0,0,args.dir⟩
          posted := fun c => if c = s.current then true else s.posted c }.broadcast
    else none
  | .serial raw =>
    match s.caller, s.calls[s.current]? with
    | .serial i, some args =>
      if raw = some .EINTR then none
      else
        (args.fds[i]?).map fun fd =>
          { s with
            caller := .serial (i+1)
            errs := at_ s.errs s.current i (some (syncResult raw args.dir))
            synced := at_ s.synced s.current i ((fd,raw) :: s.synced s.current i) }
    | _, _ => none
  | .serial_ends =>
    match s.caller, s.calls[s.current]? with
    | .serial i, some args => if args.fds.length ≤ i then some { s with caller := .idle } else none
    | _, _ => none
  | .stir => if s.caller = .waiting then some { s with caller := .woken } else none
  | .test => if s.caller = .woken then some (waitDone s) else none
  | .lock w => if s.workers[w]? = some .ready then some (takeNext s w) else none
  | .rouse w => if s.workers[w]? = some .asleep then some (s.set w .ready) else none
  | .sync w raw =>
    match s.workers[w]? with
    | some (.busy fds i dir) =>
      if raw = some .EINTR then none
      else
        (s.fdAt fds i).map fun fd =>
          { s.set w (.flushed i (syncResult raw dir)) with
            synced := at_ s.synced fds i ((fd,raw) :: s.synced fds i) }
    | _ => none
  | .store w =>
    match s.workers[w]? with
    | some (.flushed i err) =>
      let job := { s.job with done := s.job.done+1 }
      let stored := { s with job, errs := at_ s.errs s.job.errs i (some err) }
      some (takeNext (if job.done = job.n then stored.signal else stored) w)
    | _ => none
  | .stop => if s.caller = .idle then some { s with stopping := true, caller := .joining }.broadcast else none
  | .join =>
    if s.caller = .joining ∧ ∀ x ∈ s.workers, x = .gone then
      some { s with workers := [], grow_failed := false, stopping := false, caller := .idle }
    else none

/-- The call whose arrays an action reads or writes. -/
def touches (s : State) : Act → Option Nat
  | .serial _ => some s.current
  | .sync w _ =>
    match s.workers[w]? with
    | some (.busy fds _ _) => some fds
    | _ => none
  | .store _ => some s.job.errs
  | _ => none

/-- Whether an action is a wake-up without a reason. -/
def spurious : Act → Bool
  | .stir | .rouse _ => true
  | _ => false

/-- The results that `fsync` may end with, by descriptor. -/
abbrev Results := Fd → Option Errno → Prop

/-- The result of an action is one that `fsync` may end with. -/
def allowed (results : Results) (s : State) : Act → Prop
  | .serial raw =>
    match s.caller with
    | .serial i => ∀ fd, s.fdAt s.current i = some fd → results fd raw
    | _ => True
  | .sync w raw =>
    match s.workers[w]? with
    | some (.busy fds i _) => ∀ fd, s.fdAt fds i = some fd → results fd raw
    | _ => True
  | _ => True

inductive Reachable (results : Results) : State → Prop
  | init : Reachable results {}
  | step {s s' : State} {a : Act} (before : Reachable results s) (may : allowed results s a)
      (taken : step cpus s a = some s') : Reachable results s'

/-- The state after a list of actions, if all can be taken. -/
def playActs : State → List Act → Option State
  | s, [] => some s
  | s, a :: acts => (step cpus s a).bind (playActs · acts)

theorem reachable_playActs {results : Results} {acts : List Act} (may : ∀ s a, allowed results s a) :
    ∀ {s s' : State}, Reachable cpus results s → playActs cpus s acts = some s' → Reachable cpus results s' := by
  induction acts with
  | nil =>
    rintro s _ reachable ⟨⟩
    exact reachable
  | cons a acts ih =>
    intro s s' reachable played
    obtain ⟨t,taken,rest⟩ := Option.bind_eq_some_iff.mp played
    exact ih (.step reachable (may s a) taken) rest

end Newfile.Workers
