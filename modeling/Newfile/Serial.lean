import Newfile.Pool

/-!
The threads of `flush.c` store what the loop without threads stores, each
descriptor is flushed once, and no wake-up is lost.
-/
namespace Newfile.Serial
open Newfile.Program Newfile.Posix Newfile.Process Newfile.Flush Newfile.Workers Newfile.Pool

variable {results : Results} {cpus : Nat}

/-! ## The loop without threads -/

/-- A system whose `fsync` ends as `f` says, whenever it is called. -/
def answering (f : Fd → Option Errno) : System posix Unit := fun _ c r _ =>
  match c, r with
  | .fsync fd, .ok () => f fd = none
  | .fsync fd, .error e => f fd = some e
  | _, _ => True

theorem sync_one_serial (f : Fd → Option Errno) (fd : Fd) (dir : Bool) : ∀ (fuel : Nat) (m : Memory),
    wp (answering f) True (sync_one fuel fd dir) (fun err _ _ => err = syncResult (f fd) dir) () m := by
  intro fuel
  induction fuel with
  | zero => exact fun _ => trivial
  | succ fuel ih =>
    intro m
    rw [sync_one,wp_bind]
    rintro (e | _) _ ends
    · have ends' : f fd = some e := ends
      change wp (answering f) True (if e = .EINTR then sync_one fuel fd dir else pure (sync_err e dir)) _ () m
      split
      · exact ih m
      · rw [wp_pure,ends']
        rfl
    · have ends' : f fd = none := ends
      rw [ends']
      rfl

theorem flush_fds_serial (f : Fd → Option Errno) (dir : Bool) (fuel : Nat) : ∀ (fds : List Fd) (m : Memory),
    wp (answering f) True (flush_fds fuel dir fds) (fun errs _ _ => errs = fds.map fun fd => syncResult (f fd) dir) () m := by
  intro fds
  induction fds with
  | nil => exact fun _ => rfl
  | cons fd fds ih =>
    intro m
    rw [flush_fds]
    refine wp_seq (sync_one_serial f fd dir fuel m) fun err _ m same => ?_
    refine wp_seq (ih m) fun errs _ m same' => ?_
    rw [wp_pure,same,same']
    rfl

/-! ## The threads -/

/-- While a job is posted the latest call has not returned. -/
def Active (s : State) : Prop := s.caller = .waiting ∨ s.caller = .woken

/-- A call that has returned. -/
def Returned (s : State) (c : Nat) : Prop :=
  c < s.calls.length ∧ (c+1 < s.calls.length ∨ s.caller = .idle ∨ s.caller = .joining)

theorem complete_of_returned {s : State} {c : Nat} (inv : Inv results s) (returned : Returned s c) :
    ∃ args, Complete results s c args := by
  obtain ⟨below,earlier | resting⟩ := returned
  · exact inv.past c earlier
  · exact (inv.phase_rest resting).2 c below

/-- Each index of a call is handed out and flushed at most once, and only those of its array. -/
theorem once {s : State} (inv : Inv results s) (c i : Nat) :
    (s.handed c i).length ≤ 1 ∧ (s.synced c i).length ≤ 1 ∧
      (s.handed c i ≠ [] ∨ s.synced c i ≠ [] → ∃ args, s.calls[c]? = some args ∧ i < args.fds.length) := by
  have of_blank : Blank s c i → (s.handed c i).length ≤ 1 ∧ (s.synced c i).length ≤ 1 ∧
      (s.handed c i ≠ [] ∨ s.synced c i ≠ [] → ∃ args, s.calls[c]? = some args ∧ i < args.fds.length) := by
    rintro ⟨_,synced,handed⟩
    simp [synced,handed]
  have of_flushed : ∀ {args fd raw}, s.calls[c]? = some args → Flushed results s args c i fd raw →
      (s.synced c i).length ≤ 1 ∧ i < args.fds.length := by
    intro args fd raw _ flushed
    exact ⟨by rw [flushed.synced]; exact Nat.le_refl _,(List.getElem?_eq_some_iff.mp flushed.array).1⟩
  have of_stored : ∀ {args}, s.calls[c]? = some args → (s.handed c i).length ≤ 1 → Stored results s args c i →
      (s.handed c i).length ≤ 1 ∧ (s.synced c i).length ≤ 1 ∧
        (s.handed c i ≠ [] ∨ s.synced c i ≠ [] → ∃ args, s.calls[c]? = some args ∧ i < args.fds.length) := by
    rintro args call handed ⟨fd,raw,flushed,_⟩
    obtain ⟨one,inside⟩ := of_flushed call flushed
    exact ⟨handed,one,fun _ => ⟨args,call,inside⟩⟩
  have of_complete : ∀ {args}, Complete results s c args → (s.handed c i).length ≤ 1 ∧ (s.synced c i).length ≤ 1 ∧
      (s.handed c i ≠ [] ∨ s.synced c i ≠ [] → ∃ args, s.calls[c]? = some args ∧ i < args.fds.length) := by
    intro args complete
    by_cases inside : i < args.fds.length
    · exact of_stored complete.call (complete.once i) (complete.stored i inside)
    · exact of_blank (complete.beyond i (not_lt.mp inside))
  by_cases known : c < s.calls.length
  · by_cases earlier : c+1 < s.calls.length
    · obtain ⟨args,complete⟩ := inv.past c earlier
      exact of_complete complete
    · have latest : c = s.current := by rw [State.current]; omega
      cases inv.phase with
      | rest _ _ settled =>
        obtain ⟨args,complete⟩ := settled c known
        exact of_complete complete
      | growing _ _ _ blank _ => exact of_blank (by rw [latest]; exact blank i)
      | @serial args k _ _ call stored blank unhanded _ =>
        rw [← latest] at call stored blank unhanded
        by_cases below : i < k
        · exact of_stored call (by simp [unhanded i]) (stored i below)
        · exact of_blank (blank i (not_lt.mp below))
      | @posted args _ posted =>
        have call := posted.call
        have total := posted.n
        have limit := posted.next
        have taken := posted.taken i
        have blank := posted.blank i
        rw [← latest] at call taken blank
        by_cases below : i < s.job.next
        · obtain ⟨w,handed,taken⟩ := taken below
          have one : (s.handed c i).length ≤ 1 := by simp [handed]
          cases taken with
          | busy _ synced _ => exact ⟨one,by simp [synced],fun _ => ⟨args,call,by omega⟩⟩
          | flushed _ flushed _ =>
            obtain ⟨once,inside⟩ := of_flushed call flushed
            exact ⟨one,once,fun _ => ⟨args,call,inside⟩⟩
          | stored stored => exact of_stored call one stored
        · exact of_blank (blank (not_lt.mp below))
  · exact of_blank ((inv.fresh c (not_lt.mp known)).1 i)

/-- Arrays are touched during their call only. -/
theorem touches_current {s s' : State} {a : Act} {c : Nat} (inv : Inv results s)
    (taken : Workers.step cpus s a = some s') (touched : touches s a = some c) : c = s.current ∧ ¬Returned s c := by
  have latest : ∀ {args}, s.calls[s.current]? = some args → (s.caller ≠ .idle ∧ s.caller ≠ .joining) →
      ¬Returned s s.current := by
    rintro args call busy ⟨_,earlier | resting⟩
    · rw [State.current] at earlier
      omega
    · tauto
  have of_posted : ∀ {w : Nat} {x : Worker}, s.workers[w]? = some x → x ≠ .ready ∧ x ≠ .asleep ∧ x ≠ .gone →
      ∃ args, Posted results s args ∧ ¬Returned s s.current := by
    intro w x at_w index
    obtain ⟨args,waiting,posted⟩ := inv.posted_of_busy at_w index
    exact ⟨args,posted,latest posted.call (by rcases waiting with waiting | waiting <;> simp [waiting])⟩
  cases a with
  | serial raw =>
    simp only [touches,Option.some.injEq] at touched
    simp only [Workers.step] at taken
    split at taken
    · rename_i k args serial call
      exact ⟨touched.symm,by rw [← touched]; exact latest call (by simp [serial])⟩
    · simp at taken
  | sync w raw =>
    simp only [touches] at touched
    split at touched
    · rename_i f i dir at_w
      obtain rfl := Option.some.inj touched
      obtain ⟨args,posted,unreturned⟩ := of_posted at_w (by simp)
      obtain rfl := (posted.busy w f i dir at_w).1
      exact ⟨rfl,unreturned⟩
    · simp at touched
  | store w =>
    simp only [touches,Option.some.injEq] at touched
    obtain ⟨i,err,at_w,_⟩ := step_store taken
    obtain ⟨args,posted,unreturned⟩ := of_posted at_w (by simp)
    rw [← touched,posted.errs]
    exact ⟨rfl,unreturned⟩
  | _ => simp [touches] at touched

/-- No wake-up is lost: while a job is posted somebody can go on. -/
theorem progress {s : State} (inv : Inv results s) (ends : ∀ fd, ∃ raw, raw ≠ some .EINTR ∧ results fd raw)
    (unfinished : Active s ∨ s.job.done < s.job.n) :
    ∃ a s', spurious a = false ∧ allowed results s a ∧ Workers.step cpus s a = some s' := by
  have active : Active s := by
    rcases unfinished with active | more
    · exact active
    · cases inv.phase with
      | posted waiting _ => exact waiting
      | rest _ over_ | growing _ over_ | serial _ over_ =>
        rw [over_.none_] at more
        exact absurd more (Nat.not_lt_zero _)
  obtain ⟨args,posted⟩ := inv.phase_woken active
  have woken : s.caller = .woken → ∃ a s', spurious a = false ∧ allowed results s a ∧ Workers.step cpus s a = some s' :=
    fun woken => ⟨.test,_,rfl,trivial,if_pos woken⟩
  have ready : ∀ {w : Nat}, s.workers[w]? = some .ready →
      ∃ a s', spurious a = false ∧ allowed results s a ∧ Workers.step cpus s a = some s' :=
    fun {w} ready => ⟨.lock w,_,rfl,trivial,if_pos ready⟩
  have busy : ∀ {w f i : Nat} {dir : Bool}, s.workers[w]? = some (.busy f i dir) →
      ∃ a s', spurious a = false ∧ allowed results s a ∧ Workers.step cpus s a = some s' := by
    intro w f i dir at_w
    obtain ⟨rfl,-,below,-,-⟩ := posted.busy w f i dir at_w
    have inside : i < args.fds.length := by
      have := posted.next
      have := posted.n
      omega
    have array : s.fdAt s.current i = some args.fds[i] := by simp [State.fdAt,posted.call,inside]
    obtain ⟨raw,ended,result⟩ := ends args.fds[i]
    obtain ⟨s',taken⟩ : ∃ s', Workers.step cpus s (.sync w raw) = some s' := by simp [Workers.step,at_w,ended,array]
    refine ⟨.sync w raw,s',rfl,?_,taken⟩
    simp only [allowed,at_w]
    intro fd same
    obtain rfl : args.fds[i] = fd := by simpa [array] using same
    exact result
  have flushed : ∀ {w i : Nat} {err : Option Errno}, s.workers[w]? = some (.flushed i err) →
      ∃ a s', spurious a = false ∧ allowed results s a ∧ Workers.step cpus s a = some s' := by
    intro w i err at_w
    obtain ⟨s',taken⟩ : ∃ s', Workers.step cpus s (.store w) = some s' := by simp [Workers.step,at_w]
    exact ⟨.store w,s',rfl,trivial,taken⟩
  rcases active with waiting | here
  · have unfinished := posted.asleep waiting
    by_cases more : s.job.next < s.job.n
    · -- An index is left, so no worker is asleep.
      obtain ⟨x,rest,workers⟩ := List.exists_cons_of_ne_nil posted.workers
      have first : s.workers[0]? = some x := by rw [workers]; rfl
      cases x with
      | ready => exact ready first
      | asleep => exact absurd first (posted.awake more 0)
      | busy f i dir => exact busy first
      | flushed i err => exact flushed first
      | gone =>
        have stopping := inv.gone 0 first
        rw [posted.calm] at stopping
        exact absurd stopping (by simp)
    · -- All are taken and one is not stored, so a worker has it.
      have all : s.job.next = s.job.n := by
        have := posted.next
        omega
      obtain ⟨i,below,unstored⟩ : ∃ i < s.job.next, s.errs s.current i = none := by
        by_contra stored
        push Not at stored
        have full : (Finset.range s.job.next).filter (fun i => (s.errs s.current i).isSome) = Finset.range s.job.next :=
          Finset.filter_true_of_mem fun i member =>
            Option.isSome_iff_ne_none.mpr (stored i (Finset.mem_range.mp member))
        have count := posted.done
        rw [storedBelow,full,Finset.card_range] at count
        omega
      obtain ⟨w,_,taken⟩ := posted.taken i below
      cases taken with
      | busy worker _ _ => exact busy worker
      | flushed worker _ _ => exact flushed worker
      | stored stored =>
        obtain ⟨_,_,_,stored⟩ := stored
        rw [unstored] at stored
        simp at stored
  · exact woken here

/-- In every state that the threads reach: an index is handed out and flushed at most
    once; of a call that has returned every result is stored; arrays are touched
    during their call only; while a job is posted somebody can go on; and if the
    results depend on the descriptor alone, a call has stored what the loop stores. -/
theorem pool_refines_loop {s : State} (ends : ∀ fd, ∃ raw, raw ≠ some .EINTR ∧ results fd raw)
    (reachable : Reachable cpus results s) :
    (∀ c i, (s.handed c i).length ≤ 1 ∧ (s.synced c i).length ≤ 1 ∧
      (s.handed c i ≠ [] ∨ s.synced c i ≠ [] → ∃ args, s.calls[c]? = some args ∧ i < args.fds.length)) ∧
    (∀ c, Returned s c → ∃ args, s.calls[c]? = some args ∧ ∀ i < args.fds.length,
      (∃ fd raw, args.fds[i]? = some fd ∧ s.synced c i = [(fd,raw)] ∧ results fd raw ∧
        s.errs c i = some (syncResult raw args.dir)) ∧ (s.posted c = true → ∃ w, s.handed c i = [w])) ∧
    (∀ a s' c, Workers.step cpus s a = some s' → touches s a = some c → c = s.current ∧ ¬Returned s c) ∧
    (Active s ∨ s.job.done < s.job.n → ∃ a s', spurious a = false ∧ allowed results s a ∧ Workers.step cpus s a = some s') ∧
    ∀ f : Fd → Option Errno, (∀ fd raw, results fd raw → raw = f fd) → ∀ c args, s.calls[c]? = some args → Returned s c →
      ∀ fuel m evs t errs, Run (answering f) ⟨flush_fds fuel args.dir args.fds,(),m⟩ evs t → t.prog = .ret errs →
        (List.range args.fds.length).map (s.errs c) = errs.map some := by
  have inv := inv_reachable reachable
  refine ⟨once inv,fun c returned => ?_,fun a s' c => touches_current inv,progress inv ends,?_⟩
  · obtain ⟨args,complete⟩ := complete_of_returned inv returned
    refine ⟨args,complete.call,fun i inside => ⟨?_,fun posted => complete.handed posted i inside⟩⟩
    obtain ⟨fd,raw,flushed,errs⟩ := complete.stored i inside
    exact ⟨fd,raw,flushed.array,flushed.synced,flushed.result,errs⟩
  · intro f only c args call returned fuel m evs t errs run done
    obtain ⟨args',complete⟩ := complete_of_returned inv returned
    obtain rfl : args = args' := by simpa [call] using complete.call
    have reached := wp_run run (flush_fds_serial f args.dir fuel args.fds m)
    rw [done] at reached
    have loop : errs = args.fds.map fun fd => syncResult (f fd) args.dir := reached
    rw [loop]
    refine List.ext_getElem (by simp) fun i inside _ => ?_
    simp only [List.length_map,List.length_range] at inside
    obtain ⟨fd,raw,flushed,stored⟩ := complete.stored i inside
    have array : args.fds[i] = fd := by simpa [inside] using flushed.array
    simp [stored,array,only fd raw flushed.result]

/-- Two descriptors, the second of which fails, and two workers. -/
def sampleActs : List Act :=
  [.call ⟨[⟨3,7⟩,⟨4,8⟩],true⟩ true,.create,.lock 0,.create,.post,.lock 1,.lock 0,.sync 0 (some Errno.EIO),.store 0,
    .sync 1 none,.rouse 0,.store 1,.lock 0,.test]

def sampleState : State := ((playActs 1 {} sampleActs).getD {})

theorem allowed_all (s : State) (a : Act) : allowed (fun _ _ => True) s a := by
  unfold allowed
  split
  · split <;> simp
  · split <;> simp
  · trivial

theorem pool_refines_loop_sample : ∃ args, sampleState.calls[0]? = some args ∧ ∀ i < args.fds.length,
    (∃ fd raw, args.fds[i]? = some fd ∧ sampleState.synced 0 i = [(fd,raw)] ∧ True ∧
      sampleState.errs 0 i = some (syncResult raw args.dir)) ∧
      (sampleState.posted 0 = true → ∃ w, sampleState.handed 0 i = [w]) :=
  (@pool_refines_loop (fun _ _ => True) 1 sampleState (fun _ => ⟨none,by simp,trivial⟩)
    (@reachable_playActs 1 _ sampleActs allowed_all _ _ .init rfl)).2.1 0 ⟨by decide,.inr (.inl rfl)⟩

example : (sampleState.errs 0 0,sampleState.errs 0 1) = (some none,some (some Errno.EIO)) := rfl

end Newfile.Serial
