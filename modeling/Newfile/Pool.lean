import Newfile.Workers

/-!
What holds of the threads of `flush.c` in every state they reach. An index below
`next` of the job belongs to the one worker that took it until its result is
stored; the worker that stores the last result wakes the caller.
-/
namespace Newfile.Pool
open Newfile.Posix Newfile.Process Newfile.Flush Newfile.Workers

variable {results : Results} {cpus : Nat}

/-! ## An index of a call -/

/-- Nothing has happened to it. -/
structure Blank (s : State) (c i : Nat) : Prop where
  errs : s.errs c i = none
  synced : s.synced c i = []
  handed : s.handed c i = []

/-- Its descriptor was flushed once, with the result `raw`. -/
structure Flushed (results : Results) (s : State) (args : Args) (c i : Nat) (fd : Fd) (raw : Option Errno) : Prop where
  array : args.fds[i]? = some fd
  synced : s.synced c i = [(fd,raw)]
  result : results fd raw

/-- It was flushed once, and the result is stored. -/
def Stored (results : Results) (s : State) (args : Args) (c i : Nat) : Prop :=
  ∃ fd raw, Flushed results s args c i fd raw ∧ s.errs c i = some (syncResult raw args.dir)

/-- The worker `w` has taken it, and is about to flush, to store or done. -/
inductive Taken (results : Results) (s : State) (args : Args) (c i w : Nat) : Prop
  | busy (worker : s.workers[w]? = some (.busy c i args.dir)) (synced : s.synced c i = []) (errs : s.errs c i = none)
  | flushed {fd : Fd} {raw : Option Errno} (worker : s.workers[w]? = some (.flushed i (syncResult raw args.dir)))
      (flushed : Flushed results s args c i fd raw) (errs : s.errs c i = none)
  | stored (stored : Stored results s args c i)

/-- The call has returned. -/
structure Complete (results : Results) (s : State) (c : Nat) (args : Args) : Prop where
  call : s.calls[c]? = some args
  stored : ∀ i < args.fds.length, Stored results s args c i
  beyond : ∀ i, args.fds.length ≤ i → Blank s c i
  once : ∀ i, (s.handed c i).length ≤ 1
  handed : s.posted c = true → ∀ i < args.fds.length, ∃ w, s.handed c i = [w]

/-- What is known of a call is kept by all steps that leave its data alone. -/
structure Same (s s' : State) (c : Nat) : Prop where
  call : s'.calls[c]? = s.calls[c]?
  errs : s'.errs c = s.errs c
  synced : s'.synced c = s.synced c
  handed : s'.handed c = s.handed c
  posted : s'.posted c = s.posted c

theorem Blank.same {s s' : State} {c i : Nat} (blank : Blank s c i) (same : Same s s' c) : Blank s' c i :=
  ⟨by rw [same.errs]; exact blank.errs,by rw [same.synced]; exact blank.synced,by rw [same.handed]; exact blank.handed⟩

theorem Flushed.same {s s' : State} {args : Args} {c i : Nat} {fd : Fd} {raw : Option Errno}
    (flushed : Flushed results s args c i fd raw) (same : Same s s' c) : Flushed results s' args c i fd raw :=
  ⟨flushed.array,by rw [same.synced]; exact flushed.synced,flushed.result⟩

theorem Stored.same {s s' : State} {args : Args} {c i : Nat} (stored : Stored results s args c i) (same : Same s s' c) :
    Stored results s' args c i := by
  obtain ⟨fd,raw,flushed,errs⟩ := stored
  exact ⟨fd,raw,flushed.same same,by rw [same.errs]; exact errs⟩

theorem Complete.same {s s' : State} {args : Args} {c : Nat} (complete : Complete results s c args) (same : Same s s' c) :
    Complete results s' c args :=
  ⟨by rw [same.call]; exact complete.call,fun i inside => (complete.stored i inside).same same,
    fun i beyond => (complete.beyond i beyond).same same,fun i => by rw [same.handed]; exact complete.once i,
    fun posted i inside => by rw [same.handed]; exact complete.handed (by rw [← same.posted]; exact posted) i inside⟩

/-! ## The invariant -/

/-- No worker has an index. -/
def Quiet (s : State) : Prop := ∀ (w : Nat) (x : Worker), s.workers[w]? = some x → x = .ready ∨ x = .asleep ∨ x = .gone

/-- There is no job, and no index is taken. -/
structure Over (s : State) : Prop where
  quiet : Quiet s
  none_ : s.job.n = 0

/-- How many results of a call are stored below an index. -/
def storedBelow (s : State) (c k : Nat) : Nat := ((Finset.range k).filter fun i => (s.errs c i).isSome).card

/-- While the job of the latest call is posted. -/
structure Posted (results : Results) (s : State) (args : Args) : Prop where
  call : s.calls[s.current]? = some args
  fds : s.job.fds = s.current
  errs : s.job.errs = s.current
  n : s.job.n = args.fds.length
  dir : s.job.dir = args.dir
  next : s.job.next ≤ s.job.n
  workers : s.workers ≠ []
  calm : s.stopping = false
  posted : s.posted s.current = true
  awake : s.job.next < s.job.n → ∀ w : Nat, s.workers[w]? ≠ some .asleep
  blank : ∀ i, s.job.next ≤ i → Blank s s.current i
  taken : ∀ i < s.job.next, ∃ w, s.handed s.current i = [w] ∧ Taken results s args s.current i w
  busy : ∀ (w f i : Nat) (dir : Bool), s.workers[w]? = some (.busy f i dir) →
    f = s.current ∧ dir = args.dir ∧ i < s.job.next ∧ s.handed s.current i = [w] ∧ s.errs s.current i = none
  flushed : ∀ (w i : Nat) (err : Option Errno), s.workers[w]? = some (.flushed i err) →
    i < s.job.next ∧ s.handed s.current i = [w] ∧ s.errs s.current i = none
  done : s.job.done = storedBelow s s.current s.job.next
  asleep : s.caller = .waiting → s.job.done < s.job.n

/-- By what the caller does. -/
inductive Phase (results : Results) (s : State) : Prop
  | rest (caller : s.caller = .idle ∨ s.caller = .joining) (over_ : Over s)
      (settled : ∀ c < s.calls.length, ∃ args, Complete results s c args)
  | growing {args : Args} (caller : s.caller = .growing) (over_ : Over s) (call : s.calls[s.current]? = some args)
      (blank : ∀ i, Blank s s.current i) (unposted : s.posted s.current = false)
  | serial {args : Args} {k : Nat} (caller : s.caller = .serial k) (over_ : Over s)
      (call : s.calls[s.current]? = some args) (stored : ∀ i < k, Stored results s args s.current i)
      (blank : ∀ i, k ≤ i → Blank s s.current i) (unhanded : ∀ i, s.handed s.current i = [])
      (unposted : s.posted s.current = false)
  | posted {args : Args} (caller : s.caller = .waiting ∨ s.caller = .woken) (posted : Posted results s args)

structure Inv (results : Results) (s : State) : Prop where
  phase : Phase results s
  past : ∀ c, c+1 < s.calls.length → ∃ args, Complete results s c args
  fresh : ∀ c, s.calls.length ≤ c → (∀ i, Blank s c i) ∧ s.posted c = false
  gone : ∀ w : Nat, s.workers[w]? = some .gone → s.stopping = true
  stop : s.stopping = true → s.caller = .joining
  small : ∀ args ∈ s.calls, args.fds.length ≤ NEWFILE_BATCH
  few : s.workers.length ≤ NEWFILE_BATCH

/-! ## Workers -/

theorem set_get {s : State} {w : Nat} {x y : Worker} (at_w : s.workers[w]? = some x) (v : Nat) :
    (s.set w y).workers[v]? = if v = w then some y else s.workers[v]? := by
  have inside : w < s.workers.length := (List.getElem?_eq_some_iff.mp at_w).1
  rw [State.set,List.getElem?_set]
  by_cases here : w = v
  · subst here
    simp [inside]
  · simp [here,Ne.symm here]

theorem broadcast_get (s : State) (w : Nat) :
    s.broadcast.workers[w]? = (s.workers[w]?).map fun x => if x = .asleep then .ready else x := by
  simp [State.broadcast]

theorem at_same {α : Type} (f : Nat → Nat → α) (c i : Nat) (a : α) : at_ f c i a c i = a := by
  simp [at_]

theorem at_other {α : Type} (f : Nat → Nat → α) {c i d j : Nat} (a : α) (other : d ≠ c ∨ j ≠ i) :
    at_ f c i a d j = f d j := by
  have : ¬(d = c ∧ j = i) := by omega
  simp [at_,this]

/-! ## Changes of workers without an index -/

/-- The data of all calls is as before. -/
theorem same_workers (s : State) (ws : List Worker) (c : Nat) : Same s { s with workers := ws } c :=
  ⟨rfl,rfl,rfl,rfl,rfl⟩

theorem same_set (s : State) (w : Nat) (x : Worker) (c : Nat) : Same s (s.set w x) c := same_workers s _ c

theorem Over.broadcast {s : State} (over_ : Over s) : Over s.broadcast := by
  refine ⟨fun w x found => ?_,over_.none_⟩
  rw [broadcast_get,Option.map_eq_some_iff] at found
  obtain ⟨y,was,rfl⟩ := found
  rcases over_.quiet w y was with rfl | rfl | rfl
  · exact .inl rfl
  · exact .inl rfl
  · exact .inr (.inr rfl)

theorem Over.set {s : State} {w : Nat} {x y : Worker} (over_ : Over s) (at_w : s.workers[w]? = some x)
    (plain : y = .ready ∨ y = .asleep ∨ y = .gone) : Over (s.set w y) := by
  refine ⟨fun v z found => ?_,over_.none_⟩
  rw [set_get at_w] at found
  by_cases here : v = w
  · rw [if_pos here] at found
    obtain rfl := Option.some.inj found
    exact plain
  · rw [if_neg here] at found
    exact over_.quiet v z found

/-- The worker that changes has no index before and none after. -/
theorem Posted.set {s : State} {args : Args} {w : Nat} {x y : Worker} (posted : Posted results s args)
    (at_w : s.workers[w]? = some x) (free : x = .ready ∨ x = .asleep)
    (plain : y = .ready ∨ y = .asleep ∧ s.job.n ≤ s.job.next) : Posted results (s.set w y) args := by
  have unbusy : ∀ f i dir, y ≠ .busy f i dir := by
    rcases plain with rfl | ⟨rfl,_⟩ <;> simp
  have unflushed : ∀ i err, y ≠ .flushed i err := by
    rcases plain with rfl | ⟨rfl,_⟩ <;> simp
  have elsewhere : ∀ v f i dir, s.workers[v]? = some (.busy f i dir) → v ≠ w := by
    rintro v f i dir busy rfl
    rw [at_w] at busy
    rcases free with rfl | rfl <;> simp at busy
  have elsewhere' : ∀ v i err, s.workers[v]? = some (.flushed i err) → v ≠ w := by
    rintro v i err flushed rfl
    rw [at_w] at flushed
    rcases free with rfl | rfl <;> simp at flushed
  have same := same_set s w y s.current
  refine ⟨posted.call,posted.fds,posted.errs,posted.n,posted.dir,posted.next,?_,posted.calm,posted.posted,?_,
    fun i beyond => (posted.blank i beyond).same same,?_,?_,?_,posted.done,posted.asleep⟩
  · have := posted.workers
    simpa [State.set] using this
  · intro more v found
    rw [set_get at_w] at found
    by_cases here : v = w
    · rw [if_pos here] at found
      rcases plain with rfl | ⟨rfl,full⟩
      · simp at found
      · exact absurd more (not_lt.mpr full)
    · rw [if_neg here] at found
      exact posted.awake more v found
  · intro i below
    obtain ⟨v,handed,taken⟩ := posted.taken i below
    refine ⟨v,handed,?_⟩
    cases taken with
    | busy worker synced errs =>
      exact .busy (by rw [set_get at_w,if_neg (elsewhere v _ _ _ worker)]; exact worker) synced errs
    | flushed worker flushed errs =>
      exact .flushed (by rw [set_get at_w,if_neg (elsewhere' v _ _ worker)]; exact worker) (flushed.same same) errs
    | stored stored => exact .stored (stored.same same)
  · intro v f i dir found
    rw [set_get at_w] at found
    by_cases here : v = w
    · rw [if_pos here] at found
      exact absurd (Option.some.inj found) (unbusy f i dir)
    · rw [if_neg here] at found
      exact posted.busy v f i dir found
  · intro v i err found
    rw [set_get at_w] at found
    by_cases here : v = w
    · rw [if_pos here] at found
      exact absurd (Option.some.inj found) (unflushed i err)
    · rw [if_neg here] at found
      exact posted.flushed v i err found

/-- A step that leaves the data of all calls alone, while no job is posted. -/
theorem Phase.over_ {s s' : State} (phase : Phase results s) (idle : s.caller ≠ .waiting ∧ s.caller ≠ .woken)
    (calls : s'.calls = s.calls) (same : ∀ c, Same s s' c) (caller : s'.caller = s.caller)
    (over_ : Over s → Over s') : Phase results s' := by
  have current : s'.current = s.current := by rw [State.current,State.current,calls]
  cases phase with
  | rest resting before settled =>
    refine .rest (by rw [caller]; exact resting) (over_ before) fun c below => ?_
    obtain ⟨args,complete⟩ := settled c (by rw [← calls]; exact below)
    exact ⟨args,complete.same (same c)⟩
  | growing growing before call blank unposted =>
    exact .growing (by rw [caller]; exact growing) (over_ before) (by rw [current,calls]; exact call)
      (fun i => by rw [current]; exact (blank i).same (same _)) (by rw [current,(same _).posted]; exact unposted)
  | serial serial before call stored blank unhanded unposted =>
    exact .serial (by rw [caller]; exact serial) (over_ before) (by rw [current,calls]; exact call)
      (fun i below => by rw [current]; exact (stored i below).same (same _))
      (fun i beyond => by rw [current]; exact (blank i beyond).same (same _))
      (fun i => by rw [current,(same _).handed]; exact unhanded i) (by rw [current,(same _).posted]; exact unposted)
  | posted waiting _ =>
    rcases waiting with waiting | woken
    · exact absurd waiting idle.1
    · exact absurd woken idle.2

/-- The parts of the invariant that are not about the latest call. -/
theorem Inv.of_phase {s s' : State} (inv : Inv results s) (phase : Phase results s') (calls : s'.calls = s.calls)
    (same : ∀ c, c ≠ s.current ∨ s.calls.length ≤ c → Same s s' c)
    (gone : ∀ w : Nat, s'.workers[w]? = some .gone → s'.stopping = true)
    (stop : s'.stopping = true → s'.caller = .joining) (few : s'.workers.length ≤ NEWFILE_BATCH) : Inv results s' := by
  refine ⟨phase,fun c below => ?_,fun c beyond => ?_,gone,stop,by rw [calls]; exact inv.small,few⟩
  · rw [calls] at below
    obtain ⟨args,complete⟩ := inv.past c below
    exact ⟨args,complete.same (same c (.inl (by rw [State.current]; omega)))⟩
  · rw [calls] at beyond
    obtain ⟨blank,unposted⟩ := inv.fresh c beyond
    have same := same c (.inr beyond)
    exact ⟨fun i => (blank i).same same,by rw [same.posted]; exact unposted⟩

theorem inv_set {s : State} {w : Nat} {x y : Worker} (inv : Inv results s) (at_w : s.workers[w]? = some x)
    (free : x = .ready ∨ x = .asleep)
    (plain : y = .ready ∨ y = .asleep ∧ s.job.n ≤ s.job.next ∨ y = .gone ∧ s.stopping = true) :
    Inv results (s.set w y) := by
  have phase : Phase results (s.set w y) := by
    by_cases idle : s.caller ≠ .waiting ∧ s.caller ≠ .woken
    · exact inv.phase.over_ idle rfl (same_set s w y) rfl fun over_ => over_.set at_w (by tauto)
    · cases inv.phase with
      | posted waiting posted =>
        refine .posted waiting (posted.set at_w free ?_)
        rcases plain with rfl | asleep | ⟨_,stopping⟩
        · exact .inl rfl
        · exact .inr asleep
        · rw [posted.calm] at stopping
          exact absurd stopping (by simp)
      | rest resting => rcases resting with resting | resting <;> simp [resting] at idle
      | growing growing => simp [growing] at idle
      | serial serial => simp [serial] at idle
  refine inv.of_phase phase rfl (fun c _ => same_set s w y c) (fun v found => ?_) inv.stop ?_
  · rw [set_get at_w] at found
    by_cases here : v = w
    · rw [if_pos here] at found
      rcases plain with rfl | ⟨rfl,_⟩ | ⟨_,stopping⟩
      · simp at found
      · simp at found
      · exact stopping
    · rw [if_neg here] at found
      exact inv.gone v found
  · simpa [State.set] using inv.few

/-! ## A worker takes an index -/

theorem storedBelow_succ {s : State} {c k : Nat} (unstored : s.errs c k = none) :
    storedBelow s c (k+1) = storedBelow s c k := by
  rw [storedBelow,storedBelow,Finset.range_add_one,Finset.filter_insert,if_neg (by simp [unstored])]

theorem Posted.take {s : State} {args : Args} {w : Nat} (posted : Posted results s args)
    (at_w : s.workers[w]? = some .ready) (more : s.job.next < s.job.n) :
    Posted results { s.set w (.busy s.job.fds s.job.next s.job.dir) with
      job := { s.job with next := s.job.next+1 }
      handed := at_ s.handed s.job.fds s.job.next (w :: s.handed s.job.fds s.job.next) } args := by
  obtain ⟨errs,synced,handed⟩ := posted.blank s.job.next (Nat.le_refl _)
  rw [posted.fds,posted.dir,handed]
  have earlier : ∀ {i}, i < s.job.next → at_ s.handed s.current s.job.next [w] s.current i = s.handed s.current i :=
    fun below => at_other _ _ (.inr (Nat.ne_of_lt below))
  have elsewhere : ∀ {v x}, s.workers[v]? = some x → x ≠ .ready → v ≠ w := by
    rintro v x found other rfl
    rw [at_w] at found
    exact other (Option.some.inj found).symm
  refine ⟨posted.call,posted.fds,posted.errs,posted.n,posted.dir,more,?_,posted.calm,posted.posted,?_,?_,?_,?_,?_,?_,posted.asleep⟩
  · have := posted.workers
    simpa [State.set] using this
  · intro more' v found
    change (s.set w _).workers[v]? = _ at found
    rw [set_get at_w] at found
    split at found
    · simp at found
    · exact posted.awake more v found
  · intro i beyond
    change s.job.next+1 ≤ i at beyond
    obtain ⟨errs',synced',handed'⟩ := posted.blank i (by omega)
    refine ⟨errs',synced',?_⟩
    exact (at_other _ _ (.inr (by omega))).trans handed'
  · intro i below
    change i < s.job.next+1 at below
    by_cases here : i = s.job.next
    · subst here
      refine ⟨w,at_same _ _ _ _,.busy ?_ synced errs⟩
      change (s.set w _).workers[w]? = _
      rw [set_get at_w,if_pos rfl]
      rfl
    · obtain ⟨v,handed',taken⟩ := posted.taken i (by omega)
      refine ⟨v,(earlier (by omega)).trans handed',?_⟩
      cases taken with
      | busy worker synced errs =>
        refine .busy ?_ synced errs
        change (s.set w _).workers[v]? = _
        rw [set_get at_w,if_neg (elsewhere worker (by simp))]
        exact worker
      | flushed worker flushed errs =>
        refine .flushed ?_ ⟨flushed.array,flushed.synced,flushed.result⟩ errs
        change (s.set w _).workers[v]? = _
        rw [set_get at_w,if_neg (elsewhere worker (by simp))]
        exact worker
      | stored stored =>
        obtain ⟨fd,raw,flushed,errs⟩ := stored
        exact .stored ⟨fd,raw,⟨flushed.array,flushed.synced,flushed.result⟩,errs⟩
  · intro v f i dir found
    change (s.set w _).workers[v]? = _ at found
    rw [set_get at_w] at found
    by_cases here : v = w
    · rw [if_pos here] at found
      obtain ⟨rfl,rfl,rfl⟩ := Worker.busy.inj (Option.some.inj found)
      subst here
      exact ⟨rfl,rfl,Nat.lt_succ_self _,at_same _ _ _ _,errs⟩
    · rw [if_neg here] at found
      obtain ⟨rfl,rfl,below,handed',errs'⟩ := posted.busy v f i dir found
      exact ⟨rfl,rfl,Nat.lt_succ_of_lt below,(earlier below).trans handed',errs'⟩
  · intro v i err found
    change (s.set w _).workers[v]? = _ at found
    rw [set_get at_w] at found
    by_cases here : v = w
    · rw [if_pos here] at found
      simp at found
    · rw [if_neg here] at found
      obtain ⟨below,handed',errs'⟩ := posted.flushed v i err found
      exact ⟨Nat.lt_succ_of_lt below,(earlier below).trans handed',errs'⟩
  · change s.job.done = storedBelow s s.current (s.job.next+1)
    rw [storedBelow_succ errs]
    exact posted.done

theorem inv_takeNext {s : State} {w : Nat} (inv : Inv results s) (at_w : s.workers[w]? = some .ready) :
    Inv results (takeNext s w) := by
  rw [takeNext]
  split
  · rename_i stopping
    exact inv_set inv at_w (.inl rfl) (.inr (.inr ⟨rfl,stopping⟩))
  · rename_i calm
    split
    · rename_i none_
      exact inv_set inv at_w (.inl rfl) (.inr (.inl ⟨rfl,none_⟩))
    · rename_i more
      cases inv.phase with
      | posted waiting posted =>
        refine inv.of_phase (.posted waiting (posted.take at_w (not_le.mp more))) rfl (fun c other => ?_) (fun v found => ?_)
          inv.stop (by simpa [State.set] using inv.few)
        · have apart : c ≠ s.job.fds := by
            rw [posted.fds]
            rcases other with other | beyond
            · exact other
            · have := (List.getElem?_eq_some_iff.mp posted.call).1
              omega
          exact ⟨rfl,rfl,rfl,funext fun i => at_other _ _ (.inl apart),rfl⟩
        · change (s.set w _).workers[v]? = _ at found
          rw [set_get at_w] at found
          split at found
          · simp at found
          · exact inv.gone v found
      | rest _ over_ | growing _ over_ | serial _ over_ => exact absurd (by rw [over_.none_]; exact Nat.zero_le _) more

/-! ## A worker flushes -/

/-- The index of a busy worker has not been flushed. -/
theorem Posted.unflushed {s : State} {args : Args} {w f i : Nat} {dir : Bool} (posted : Posted results s args)
    (at_w : s.workers[w]? = some (.busy f i dir)) : s.synced s.current i = [] := by
  obtain ⟨rfl,rfl,below,handed,errs⟩ := posted.busy w f i dir at_w
  obtain ⟨v,handed',taken⟩ := posted.taken i below
  obtain rfl : w = v := by simpa [handed] using handed'
  cases taken with
  | busy _ synced _ => exact synced
  | flushed worker _ _ =>
    rw [at_w] at worker
    simp at worker
  | stored stored =>
    obtain ⟨_,_,_,stored⟩ := stored
    rw [errs] at stored
    simp at stored

theorem Posted.sync {s : State} {args : Args} {w f i : Nat} {dir : Bool} {fd : Fd} {raw : Option Errno}
    (posted : Posted results s args) (at_w : s.workers[w]? = some (.busy f i dir)) (array : s.fdAt f i = some fd)
    (result : results fd raw) :
    Posted results { s.set w (.flushed i (syncResult raw dir)) with
      synced := at_ s.synced f i ((fd,raw) :: s.synced f i) } args := by
  have unflushed := posted.unflushed at_w
  obtain ⟨rfl,rfl,below,handed,errs⟩ := posted.busy w f i dir at_w
  rw [unflushed]
  have descriptor : args.fds[i]? = some fd := by simpa [State.fdAt,posted.call] using array
  have others : ∀ {j}, j ≠ i → at_ s.synced s.current i [(fd,raw)] s.current j = s.synced s.current j :=
    fun other => at_other _ _ (.inr other)
  refine ⟨posted.call,posted.fds,posted.errs,posted.n,posted.dir,posted.next,?_,posted.calm,posted.posted,?_,?_,?_,?_,?_,
    posted.done,posted.asleep⟩
  · have := posted.workers
    simpa [State.set] using this
  · intro more v found
    change (s.set w _).workers[v]? = _ at found
    rw [set_get at_w] at found
    split at found
    · simp at found
    · exact posted.awake more v found
  · intro j beyond
    obtain ⟨errs',synced',handed'⟩ := posted.blank j beyond
    exact ⟨errs',(others (by rintro rfl; exact absurd below (not_lt.mpr beyond))).trans synced',handed'⟩
  · intro j below'
    by_cases here : j = i
    · subst here
      refine ⟨w,handed,@Taken.flushed _ _ _ _ _ _ fd raw ?_ ⟨descriptor,at_same _ _ _ _,result⟩ errs⟩
      change (s.set w _).workers[w]? = _
      rw [set_get at_w,if_pos rfl]
    · obtain ⟨v,handed',taken⟩ := posted.taken j below'
      refine ⟨v,handed',?_⟩
      have elsewhere : ∀ {x}, s.workers[v]? = some x → x ≠ .busy s.current i args.dir → v ≠ w := by
        rintro x found other rfl
        rw [at_w] at found
        exact other (Option.some.inj found).symm
      cases taken with
      | busy worker synced errs =>
        refine .busy ?_ ((others here).trans synced) errs
        change (s.set w _).workers[v]? = _
        rw [set_get at_w,if_neg (elsewhere worker (by simp [here]))]
        exact worker
      | flushed worker flushed errs =>
        refine .flushed ?_ ⟨flushed.array,(others here).trans flushed.synced,flushed.result⟩ errs
        change (s.set w _).workers[v]? = _
        rw [set_get at_w,if_neg (elsewhere worker (by simp))]
        exact worker
      | stored stored =>
        obtain ⟨fd',raw',flushed,errs⟩ := stored
        exact .stored ⟨fd',raw',⟨flushed.array,(others here).trans flushed.synced,flushed.result⟩,errs⟩
  · intro v f' j dir' found
    change (s.set w _).workers[v]? = _ at found
    rw [set_get at_w] at found
    by_cases here : v = w
    · rw [if_pos here] at found
      simp at found
    · rw [if_neg here] at found
      exact posted.busy v f' j dir' found
  · intro v j err found
    change (s.set w _).workers[v]? = _ at found
    rw [set_get at_w] at found
    by_cases here : v = w
    · rw [if_pos here] at found
      obtain ⟨rfl,rfl⟩ := Worker.flushed.inj (Option.some.inj found)
      subst here
      exact ⟨below,handed,errs⟩
    · rw [if_neg here] at found
      exact posted.flushed v j err found

/-- A worker with an index shows that a job is posted. -/
theorem Inv.posted_of_busy {s : State} {w : Nat} {x : Worker} (inv : Inv results s) (at_w : s.workers[w]? = some x)
    (index : x ≠ .ready ∧ x ≠ .asleep ∧ x ≠ .gone) :
    ∃ args, (s.caller = .waiting ∨ s.caller = .woken) ∧ Posted results s args := by
  have quiet : ¬Over s := by
    intro over_
    rcases over_.quiet w x at_w with rfl | rfl | rfl <;> simp at index
  cases inv.phase with
  | posted waiting posted => exact ⟨_,waiting,posted⟩
  | rest _ over_ | growing _ over_ | serial _ over_ => exact absurd over_ quiet

theorem Posted.apart {s : State} {args : Args} {c : Nat} (posted : Posted results s args)
    (other : c ≠ s.current ∨ s.calls.length ≤ c) : c ≠ s.current := by
  rcases other with other | beyond
  · exact other
  · have := (List.getElem?_eq_some_iff.mp posted.call).1
    omega

theorem inv_sync {s s' : State} {w : Nat} {raw : Option Errno} (inv : Inv results s)
    (may : allowed results s (.sync w raw)) (taken : Workers.step cpus s (.sync w raw) = some s') : Inv results s' := by
  simp only [Workers.step] at taken
  simp only [allowed] at may
  split at taken
  · rename_i f i dir at_w
    rw [at_w] at may
    split at taken
    · simp at taken
    · obtain ⟨fd,array,rfl⟩ := Option.map_eq_some_iff.mp taken
      obtain ⟨args,waiting,posted⟩ := inv.posted_of_busy at_w (by simp)
      obtain rfl := (posted.busy w f i dir at_w).1
      refine inv.of_phase (.posted waiting (posted.sync at_w array (may fd array))) rfl (fun c other => ?_) (fun v found => ?_)
        inv.stop (by simpa [State.set] using inv.few)
      · exact ⟨rfl,rfl,funext fun i => at_other _ _ (.inl (posted.apart other)),rfl,rfl⟩
      · change (s.set w _).workers[v]? = _ at found
        rw [set_get at_w] at found
        split at found
        · simp at found
        · exact inv.gone v found
  · simp at taken

/-! ## A worker stores a result -/

theorem storedBelow_le (s : State) (c k : Nat) : storedBelow s c k ≤ k := by
  rw [storedBelow]
  exact (Finset.card_filter_le _ _).trans_eq (Finset.card_range k)

/-- An index below is not stored yet. -/
theorem storedBelow_lt {s : State} {c k i : Nat} (below : i < k) (unstored : s.errs c i = none) : storedBelow s c k < k := by
  have smaller : (Finset.range k).filter (fun i => (s.errs c i).isSome) ⊆ (Finset.range k).erase i := by
    intro j member
    simp only [Finset.mem_filter,Finset.mem_range] at member
    refine Finset.mem_erase.mpr ⟨?_,Finset.mem_range.mpr member.1⟩
    rintro rfl
    rw [unstored] at member
    exact absurd member.2 (by simp)
  have := Finset.card_le_card smaller
  rw [Finset.card_erase_of_mem (Finset.mem_range.mpr below),Finset.card_range] at this
  rw [storedBelow]
  omega

theorem storedBelow_store {s s' : State} {c k i : Nat} {err : Option Errno} (below : i < k) (unstored : s.errs c i = none)
    (errs : s'.errs = at_ s.errs c i (some err)) : storedBelow s' c k = storedBelow s c k+1 := by
  have more : (Finset.range k).filter (fun i => (s'.errs c i).isSome) =
      insert i ((Finset.range k).filter fun i => (s.errs c i).isSome) := by
    ext j
    by_cases here : j = i
    · subst here
      simp [errs,at_same,below]
    · simp [errs,at_other s.errs (some err) (.inr here : c ≠ c ∨ j ≠ i),here]
  rw [storedBelow,storedBelow,more,Finset.card_insert_of_notMem (by simp [unstored])]

/-- The state in which a worker that has stored a result looks for the next index. -/
def storedState (s : State) (w i : Nat) (err : Option Errno) : State :=
  let job := { s.job with done := s.job.done+1 }
  let stored := { s with job, errs := at_ s.errs s.job.errs i (some err) }
  (if job.done = job.n then stored.signal else stored).set w .ready

theorem takeNext_set (s : State) (w : Nat) (x : Worker) : takeNext (s.set w x) w = takeNext s w := by
  simp [takeNext,State.set]

theorem step_store {s s' : State} {w : Nat} (taken : Workers.step cpus s (.store w) = some s') :
    ∃ i err, s.workers[w]? = some (.flushed i err) ∧ s' = takeNext (storedState s w i err) w := by
  simp only [Workers.step] at taken
  split at taken
  · rename_i i err at_w
    refine ⟨i,err,at_w,?_⟩
    rw [storedState,takeNext_set]
    exact (Option.some.inj taken).symm
  · simp at taken

theorem storedState_get {s : State} {w : Nat} (i : Nat) (err : Option Errno) {x : Worker} (at_w : s.workers[w]? = some x) (v : Nat) :
    (storedState s w i err).workers[v]? = if v = w then some .ready else s.workers[v]? := by
  rw [storedState]
  split <;> exact set_get (s := { s with job := _, errs := _, caller := _ }) at_w v

/-- What storing a result changes, but for the caller. -/
theorem storedState_spec (s : State) (w i : Nat) (err : Option Errno) :
    (storedState s w i err).job = { s.job with done := s.job.done+1 } ∧
    (storedState s w i err).errs = at_ s.errs s.job.errs i (some err) ∧
    (storedState s w i err).calls = s.calls ∧ (storedState s w i err).synced = s.synced ∧
    (storedState s w i err).handed = s.handed ∧ (storedState s w i err).posted = s.posted ∧
    (storedState s w i err).stopping = s.stopping ∧
    (storedState s w i err).workers = s.workers.set w .ready ∧
    (storedState s w i err).caller =
      if s.job.done+1 = s.job.n ∧ s.caller = .waiting then .woken else s.caller := by
  by_cases last : s.job.done+1 = s.job.n
  · by_cases waiting : s.caller = .waiting
    · simp [storedState,last,State.signal,State.set,waiting]
    · simp [storedState,last,State.signal,State.set,waiting]
  · simp [storedState,last,State.set]

theorem Posted.store {s : State} {args : Args} {w i : Nat} {err : Option Errno} (posted : Posted results s args)
    (at_w : s.workers[w]? = some (.flushed i err)) : Posted results (storedState s w i err) args := by
  obtain ⟨below,handed,unstored⟩ := posted.flushed w i err at_w
  obtain ⟨job,errs,calls,synced,handed',posted',stopping,workers,caller⟩ := storedState_spec s w i err
  have current : (storedState s w i err).current = s.current := by rw [State.current,State.current,calls]
  have get := storedState_get i err at_w
  have elsewhere : ∀ {v x}, s.workers[v]? = some x → x ≠ .flushed i err → v ≠ w := by
    rintro v x found other rfl
    rw [at_w] at found
    exact other (Option.some.inj found).symm
  have others : ∀ {j}, j ≠ i → (storedState s w i err).errs s.current j = s.errs s.current j := by
    intro j other
    rw [errs]
    exact at_other _ _ (.inr other)
  have result : Stored results (storedState s w i err) args s.current i := by
    obtain ⟨v,mine,taken⟩ := posted.taken i below
    obtain rfl : w = v := by simpa [handed] using mine
    cases taken with
    | busy worker _ _ =>
      rw [at_w] at worker
      simp at worker
    | stored stored =>
      obtain ⟨_,_,_,stored⟩ := stored
      rw [unstored] at stored
      simp at stored
    | @flushed fd raw worker flushed _ =>
      rw [at_w] at worker
      obtain ⟨-,rfl⟩ := Worker.flushed.inj (Option.some.inj worker)
      refine ⟨fd,raw,⟨flushed.array,by rw [synced]; exact flushed.synced,flushed.result⟩,?_⟩
      rw [errs,posted.errs,at_same]
  refine ⟨by rw [current,calls]; exact posted.call,by rw [job,current]; exact posted.fds,
    by rw [job,current]; exact posted.errs,by rw [job]; exact posted.n,by rw [job]; exact posted.dir,
    by rw [job]; exact posted.next,?_,by rw [stopping]; exact posted.calm,by rw [current,posted']; exact posted.posted,
    ?_,?_,?_,?_,?_,?_,?_⟩
  · have := posted.workers
    simpa [workers] using this
  · intro more v found
    rw [job] at more
    rw [get] at found
    split at found
    · simp at found
    · exact posted.awake more v found
  · intro j beyond
    rw [job] at beyond
    rw [current]
    obtain ⟨errs',synced',handed''⟩ := posted.blank j beyond
    have other : j ≠ i := by
      rintro rfl
      exact absurd below (not_lt.mpr beyond)
    exact ⟨by rw [others other]; exact errs',by rw [synced]; exact synced',by rw [handed']; exact handed''⟩
  · intro j below'
    rw [job] at below'
    rw [current]
    obtain ⟨v,mine,taken⟩ := posted.taken j below'
    refine ⟨v,by rw [handed']; exact mine,?_⟩
    by_cases here : j = i
    · rw [here]
      exact .stored result
    · cases taken with
      | busy worker synced' errs' =>
        refine .busy ?_ (by rw [synced]; exact synced') (by rw [others here]; exact errs')
        rw [get,if_neg (elsewhere worker (by simp))]
        exact worker
      | flushed worker flushed errs' =>
        refine .flushed ?_ ⟨flushed.array,by rw [synced]; exact flushed.synced,flushed.result⟩
          (by rw [others here]; exact errs')
        rw [get,if_neg (elsewhere worker (by simp [here]))]
        exact worker
      | stored stored =>
        obtain ⟨fd,raw,flushed,errs'⟩ := stored
        exact .stored ⟨fd,raw,⟨flushed.array,by rw [synced]; exact flushed.synced,flushed.result⟩,
          by rw [others here]; exact errs'⟩
  · intro v f j dir found
    rw [get] at found
    split at found
    · simp at found
    · obtain ⟨rfl,rfl,below',mine,errs'⟩ := posted.busy v f j dir found
      have other : j ≠ i := by
        rintro rfl
        obtain rfl : v = w := by simpa [mine] using handed
        rw [at_w] at found
        simp at found
      exact ⟨current.symm,rfl,by rw [job]; exact below',by rw [current,handed']; exact mine,
        by rw [current,others other]; exact errs'⟩
  · intro v j err' found
    rw [get] at found
    split at found
    · simp at found
    · rename_i apart
      obtain ⟨below',mine,errs'⟩ := posted.flushed v j err' found
      have other : j ≠ i := by
        rintro rfl
        exact apart (by simpa [mine] using handed)
      exact ⟨by rw [job]; exact below',by rw [current,handed']; exact mine,by rw [current,others other]; exact errs'⟩
  · rw [job,current]
    exact (congrArg (·+1) posted.done).trans (storedBelow_store below unstored (by rw [errs,posted.errs])).symm
  · intro waiting
    rw [caller] at waiting
    rw [job]
    change s.job.done+1 < s.job.n
    split at waiting
    · simp at waiting
    · rename_i early
      have := posted.asleep waiting
      have : s.job.done+1 ≠ s.job.n := fun last => early ⟨last,waiting⟩
      omega

theorem inv_store {s s' : State} {w : Nat} (inv : Inv results s) (taken : Workers.step cpus s (.store w) = some s') :
    Inv results s' := by
  obtain ⟨i,err,at_w,rfl⟩ := step_store taken
  obtain ⟨args,waiting,posted⟩ := inv.posted_of_busy at_w (by simp)
  obtain ⟨job,errs,calls,synced,handed,posted',stopping,workers,caller⟩ := storedState_spec s w i err
  have get := storedState_get i err at_w
  have still : (storedState s w i err).caller = .waiting ∨ (storedState s w i err).caller = .woken := by
    rw [caller]
    split
    · exact .inr rfl
    · exact waiting
  refine inv_takeNext (inv.of_phase (.posted still (posted.store at_w)) calls (fun c other => ?_) (fun v found => ?_)
    (fun stop => ?_) (by rw [workers,List.length_set]; exact inv.few)) (by rw [get,if_pos rfl])
  · refine ⟨by rw [calls],?_,by rw [synced],by rw [handed],by rw [posted']⟩
    rw [errs,posted.errs]
    exact funext fun i => at_other _ _ (.inl (posted.apart other))
  · rw [get] at found
    split at found
    · simp at found
    · rw [stopping]
      exact inv.gone v found
  · rw [stopping,posted.calm] at stop
    exact absurd stop (by simp)

/-! ## The caller -/

theorem Posted.stored_of_done {s : State} {args : Args} (posted : Posted results s args) (done : s.job.n ≤ s.job.done) :
    s.job.next = s.job.n ∧ ∀ i < s.job.n, (s.errs s.current i).isSome = true := by
  have count := posted.done
  have most := storedBelow_le s s.current s.job.next
  have all := posted.next
  refine ⟨by omega,fun i below => ?_⟩
  by_contra unstored
  have none_ : s.errs s.current i = none := by simpa using unstored
  have fewer := storedBelow_lt (s := s) (c := s.current) (k := s.job.next) (i := i) (by omega) none_
  omega

/-- The job is done: the call is complete, and no worker has an index. -/
theorem Posted.complete {s : State} {args : Args} (posted : Posted results s args) (done : s.job.n ≤ s.job.done) :
    Complete results s s.current args ∧ Quiet s := by
  obtain ⟨all,stored⟩ := posted.stored_of_done done
  have each : ∀ i < s.job.n, ∃ w, s.handed s.current i = [w] ∧ Stored results s args s.current i := by
    intro i below
    obtain ⟨w,handed,taken⟩ := posted.taken i (by omega)
    refine ⟨w,handed,?_⟩
    have known := stored i below
    cases taken with
    | stored stored => exact stored
    | busy _ _ errs | flushed _ _ errs => simp [errs] at known
  refine ⟨⟨posted.call,fun i inside => ?_,fun i beyond => ?_,fun i => ?_,fun _ i inside => ?_⟩,fun w x found => ?_⟩
  · obtain ⟨_,_,stored⟩ := each i (by rw [posted.n]; exact inside)
    exact stored
  · exact posted.blank i (by rw [all,posted.n]; exact beyond)
  · by_cases inside : i < s.job.n
    · obtain ⟨w,handed,_⟩ := each i inside
      simp [handed]
    · simp [(posted.blank i (by omega)).handed]
  · obtain ⟨w,handed,_⟩ := each i (by rw [posted.n]; exact inside)
    exact ⟨w,handed⟩
  · cases x with
    | ready => exact .inl rfl
    | asleep => exact .inr (.inl rfl)
    | gone => exact .inr (.inr rfl)
    | busy f i dir =>
      obtain ⟨_,_,below,_,errs⟩ := posted.busy w f i dir found
      have known := stored i (by omega)
      simp [errs] at known
    | flushed i err =>
      obtain ⟨below,_,errs⟩ := posted.flushed w i err found
      have known := stored i (by omega)
      simp [errs] at known

/-- The calls up to the latest one, that one included, are complete. -/
theorem settled_all {s : State} {args : Args} (past : ∀ c, c+1 < s.calls.length → ∃ args, Complete results s c args)
    (latest : Complete results s s.current args) : ∀ c < s.calls.length, ∃ args, Complete results s c args := by
  intro c below
  by_cases last : c+1 < s.calls.length
  · exact past c last
  · have here : c = s.current := by rw [State.current]; omega
    rw [here]
    exact ⟨args,latest⟩

theorem inv_waitDone {s : State} {args : Args} (inv : Inv results s)
    (posted : Posted results s args) : Inv results (waitDone s) := by
  rw [waitDone]
  split
  · rename_i more
    have same : ∀ c, Same s { s with caller := .waiting } c := fun c => ⟨rfl,rfl,rfl,rfl,rfl⟩
    refine inv.of_phase (@Phase.posted _ _ args (.inl rfl) ?_) rfl (fun c _ => same c) inv.gone (fun stop => ?_) inv.few
    · refine ⟨posted.call,posted.fds,posted.errs,posted.n,posted.dir,posted.next,posted.workers,posted.calm,
        posted.posted,posted.awake,fun i beyond => (posted.blank i beyond).same (same _),fun i below => ?_,posted.busy,
        posted.flushed,posted.done,fun _ => more⟩
      obtain ⟨w,handed,taken⟩ := posted.taken i below
      refine ⟨w,handed,?_⟩
      cases taken with
      | busy worker synced errs => exact .busy worker synced errs
      | flushed worker flushed errs => exact .flushed worker (flushed.same (same _)) errs
      | stored stored => exact .stored (stored.same (same _))
    · have := posted.calm
      simp [this] at stop
  · rename_i over_
    obtain ⟨complete,quiet⟩ := posted.complete (not_lt.mp over_)
    have same : ∀ c, Same s { s with job := { s.job with n := 0, next := 0 }, caller := .idle } c :=
      fun c => ⟨rfl,rfl,rfl,rfl,rfl⟩
    refine inv.of_phase (.rest (.inl rfl) ⟨quiet,rfl⟩ ?_) rfl (fun c _ => same c) inv.gone (fun stop => ?_) inv.few
    · intro c below
      obtain ⟨args',settled⟩ := settled_all inv.past complete c below
      exact ⟨args',settled.same (same c)⟩
    · have := posted.calm
      simp [this] at stop

theorem Inv.phase_woken {s : State} (inv : Inv results s) (waiting : s.caller = .waiting ∨ s.caller = .woken) :
    ∃ args, Posted results s args := by
  cases inv.phase with
  | posted _ posted => exact ⟨_,posted⟩
  | rest resting => rcases resting with resting | resting <;> simp [resting] at waiting
  | growing growing => simp [growing] at waiting
  | serial serial => simp [serial] at waiting

theorem inv_stir {s : State} (inv : Inv results s) (waiting : s.caller = .waiting) :
    Inv results { s with caller := .woken } := by
  obtain ⟨args,posted⟩ := inv.phase_woken (.inl waiting)
  have same : ∀ c, Same s { s with caller := .woken } c := fun c => ⟨rfl,rfl,rfl,rfl,rfl⟩
  refine inv.of_phase (@Phase.posted _ _ args (.inr rfl) ?_) rfl (fun c _ => same c) inv.gone (fun stop => ?_) inv.few
  · refine ⟨posted.call,posted.fds,posted.errs,posted.n,posted.dir,posted.next,posted.workers,posted.calm,
      posted.posted,posted.awake,fun i beyond => (posted.blank i beyond).same (same _),fun i below => ?_,posted.busy,
      posted.flushed,posted.done,fun waiting => by simp at waiting⟩
    obtain ⟨w,handed,taken⟩ := posted.taken i below
    refine ⟨w,handed,?_⟩
    cases taken with
    | busy worker synced errs => exact .busy worker synced errs
    | flushed worker flushed errs => exact .flushed worker (flushed.same (same _)) errs
    | stored stored => exact .stored (stored.same (same _))
  · have := posted.calm
    simp [this] at stop

/-! ## The start of a call -/

theorem Inv.phase_growing {s : State} (inv : Inv results s) (growing : s.caller = .growing) :
    ∃ args, Over s ∧ s.calls[s.current]? = some args ∧ (∀ i, Blank s s.current i) ∧ s.posted s.current = false := by
  cases inv.phase with
  | growing _ over_ call blank unposted => exact ⟨_,over_,call,blank,unposted⟩
  | rest resting => rcases resting with resting | resting <;> simp [resting] at growing
  | serial serial => simp [serial] at growing
  | posted waiting => rcases waiting with waiting | waiting <;> simp [waiting] at growing

theorem Inv.calm {s : State} (inv : Inv results s) (busy : s.caller ≠ .joining) : s.stopping = false := by
  by_contra stopping
  exact busy (inv.stop (by simpa using stopping))

theorem inv_call {s : State} {args : Args} {caller : Caller} (inv : Inv results s) (idle : s.caller = .idle)
    (fits : args.fds.length ≤ NEWFILE_BATCH) (start : caller = .growing ∨ caller = .serial 0) :
    Inv results { s with calls := s.calls ++ [args], caller } := by
  have calm := inv.calm (by simp [idle])
  obtain ⟨over_,settled⟩ : Over s ∧ ∀ c < s.calls.length, ∃ args, Complete results s c args := by
    cases inv.phase with
    | rest _ over_ settled => exact ⟨over_,settled⟩
    | growing growing => simp [growing] at idle
    | serial serial => simp [serial] at idle
    | posted waiting => rcases waiting with waiting | waiting <;> simp [waiting] at idle
  obtain ⟨blank,unposted⟩ := inv.fresh s.calls.length (Nat.le_refl _)
  have current : ({ s with calls := s.calls ++ [args], caller } : State).current = s.calls.length := by
    simp [State.current]
  have same : ∀ c < s.calls.length, Same s { s with calls := s.calls ++ [args], caller } c := fun c below =>
    ⟨by simp [List.getElem?_append,below],rfl,rfl,rfl,rfl⟩
  have over_' : Over { s with calls := s.calls ++ [args], caller } := ⟨over_.quiet,over_.none_⟩
  have call : ({ s with calls := s.calls ++ [args], caller } : State).calls[s.calls.length]? = some args := by simp
  have blank' : ∀ i, Blank { s with calls := s.calls ++ [args], caller } s.calls.length i := fun i =>
    ⟨(blank i).errs,(blank i).synced,(blank i).handed⟩
  refine ⟨?_,fun c below => ?_,fun c beyond => ?_,inv.gone,fun stop => ?_,fun a member => ?_,inv.few⟩
  · rcases start with rfl | rfl
    · exact .growing rfl over_' (by rw [current]; exact call) (by rw [current]; exact blank') (by rw [current]; exact unposted)
    · exact @Phase.serial _ _ args 0 rfl over_' (by rw [current]; exact call) (fun i below => absurd below (Nat.not_lt_zero i))
        (fun i _ => by rw [current]; exact blank' i) (fun i => by rw [current]; exact (blank i).handed)
        (by rw [current]; exact unposted)
  · simp only [List.length_append,List.length_cons,List.length_nil] at below
    obtain ⟨a,complete⟩ := settled c (by omega)
    exact ⟨a,complete.same (same c (by omega))⟩
  · simp only [List.length_append,List.length_cons,List.length_nil] at beyond
    obtain ⟨fresh,unposted'⟩ := inv.fresh c (by omega)
    exact ⟨fun i => ⟨(fresh i).errs,(fresh i).synced,(fresh i).handed⟩,unposted'⟩
  · have stop' : s.stopping = true := stop
    simp [calm] at stop'
  · rcases List.mem_append.mp member with old | new
    · exact inv.small a old
    · obtain rfl := List.mem_singleton.mp new
      exact fits

theorem inv_create {s : State} (inv : Inv results s) (growing : s.caller = .growing) (more : grown cpus s = false) :
    Inv results { s with workers := s.workers ++ [.ready] } := by
  obtain ⟨args,_,call,_⟩ := inv.phase_growing growing
  have want : s.workers.length < NEWFILE_BATCH := by
    simp only [grown,call,Option.elim_some,Bool.or_eq_false_iff,decide_eq_false_iff_not,not_le] at more
    have most : flush_want cpus args.fds.length ≤ args.fds.length := Nat.min_le_left _ _
    have := inv.small args (List.mem_of_getElem? call)
    omega
  have new : ∀ {w : Nat} {x : Worker}, (s.workers ++ [.ready])[w]? = some x → s.workers[w]? = some x ∨ x = .ready := by
    intro w x found
    rw [List.getElem?_append] at found
    split at found
    · exact .inl found
    · exact .inr (List.mem_singleton.mp (List.mem_of_getElem? found))
  refine inv.of_phase (inv.phase.over_ (by simp [growing]) rfl (same_workers s _) rfl fun over_ => ⟨fun w x found => ?_,over_.none_⟩)
    rfl (fun c _ => same_workers s _ c) (fun w found => ?_) inv.stop (by simpa using want)
  · rcases new found with old | rfl
    · exact over_.quiet w x old
    · exact .inl rfl
  · rcases new found with old | new
    · exact inv.gone w old
    · simp at new

theorem inv_create_fails {s : State} (inv : Inv results s) (growing : s.caller = .growing) :
    Inv results { s with grow_failed := true } := by
  have same : ∀ c, Same s { s with grow_failed := true } c := fun c => ⟨rfl,rfl,rfl,rfl,rfl⟩
  exact inv.of_phase (inv.phase.over_ (by simp [growing]) rfl same rfl fun over_ => ⟨over_.quiet,over_.none_⟩)
    rfl (fun c _ => same c) inv.gone inv.stop inv.few

theorem inv_go_serial {s : State} (inv : Inv results s) (growing : s.caller = .growing) :
    Inv results { s with caller := .serial 0 } := by
  obtain ⟨args,over_,call,blank,unposted⟩ := inv.phase_growing growing
  have calm := inv.calm (by simp [growing])
  have same : ∀ c, Same s { s with caller := .serial 0 } c := fun c => ⟨rfl,rfl,rfl,rfl,rfl⟩
  refine inv.of_phase (@Phase.serial _ _ args 0 rfl ⟨over_.quiet,over_.none_⟩ call (fun i below => absurd below (Nat.not_lt_zero i))
    (fun i _ => (blank i).same (same _)) (fun i => (blank i).handed) unposted) rfl (fun c _ => same c) inv.gone
    (fun stop => ?_) inv.few
  have stop' : s.stopping = true := stop
  simp [calm] at stop'

/-- The state in which a job has been posted and all workers woken. -/
def postedState (s : State) (args : Args) : State :=
  { { s with
      job := ⟨s.current,s.current,args.fds.length,0,0,args.dir⟩
      posted := fun c => if c = s.current then true else s.posted c }.broadcast with caller := .woken }

theorem waitDone_caller (s : State) (caller : Caller) : waitDone { s with caller } = waitDone s := rfl

theorem posted_post {s : State} {args : Args} (call : s.calls[s.current]? = some args) (over_ : Over s)
    (blank : ∀ i, Blank s s.current i) (calm : s.stopping = false) (some_ : s.workers ≠ []) :
    Posted results (postedState s args) args := by
  have get : ∀ w : Nat, (postedState s args).workers[w]? = (s.workers[w]?).map fun x => if x = .asleep then .ready else x :=
    broadcast_get s
  have free : ∀ (w : Nat) (x : Worker), (postedState s args).workers[w]? = some x → x = .ready ∨ x = .gone := by
    intro w x found
    rw [get,Option.map_eq_some_iff] at found
    obtain ⟨y,was,rfl⟩ := found
    rcases over_.quiet w y was with rfl | rfl | rfl
    · exact .inl rfl
    · exact .inl rfl
    · exact .inr rfl
  refine ⟨call,rfl,rfl,rfl,rfl,Nat.zero_le _,?_,calm,if_pos rfl,fun _ w found => ?_,fun i _ => ?_,
    fun i below => absurd below (Nat.not_lt_zero i),fun w f i dir found => ?_,fun w i err found => ?_,?_,
    fun waiting => by simp [postedState] at waiting⟩
  · simpa [postedState,State.broadcast] using some_
  · rcases free w _ found with same | same <;> simp at same
  · exact ⟨(blank i).errs,(blank i).synced,(blank i).handed⟩
  · rcases free w _ found with same | same <;> simp at same
  · rcases free w _ found with same | same <;> simp at same
  · simp [postedState,State.broadcast,storedBelow]

theorem inv_post {s s' : State} (inv : Inv results s) (taken : Workers.step cpus s .post = some s') : Inv results s' := by
  simp only [Workers.step,Option.ite_none_right_eq_some,Option.map_eq_some_iff] at taken
  obtain ⟨⟨growing,_,some_⟩,args,call,rfl⟩ := taken
  obtain ⟨args',over_,call',blank,_⟩ := inv.phase_growing growing
  obtain rfl : args = args' := by simpa [call] using call'
  have calm := inv.calm (by simp [growing])
  have posted : Posted results (postedState s args) args := posted_post call over_ blank calm some_
  have latest := (List.getElem?_eq_some_iff.mp call).1
  have woken : Inv results (postedState s args) := by
    refine inv.of_phase (.posted (.inr rfl) posted) rfl (fun c other => ?_) (fun w found => ?_) (fun stop => ?_) ?_
    · have apart : c ≠ s.current := by
        rcases other with other | beyond
        · exact other
        · omega
      exact ⟨rfl,rfl,rfl,rfl,if_neg apart⟩
    · change (s.broadcast).workers[w]? = _ at found
      rw [broadcast_get,Option.map_eq_some_iff] at found
      obtain ⟨y,was,same⟩ := found
      split at same
      · simp at same
      · exact inv.gone w (by rw [was,same])
    · have stop' : s.stopping = true := stop
      simp [calm] at stop'
    · simpa [postedState,State.broadcast] using inv.few
  have after := inv_waitDone woken posted
  rwa [postedState,waitDone_caller] at after

/-! ## One descriptor after the other -/

theorem Inv.phase_serial {s : State} {k : Nat} (inv : Inv results s) (serial : s.caller = .serial k) :
    ∃ args, Over s ∧ s.calls[s.current]? = some args ∧ (∀ i < k, Stored results s args s.current i) ∧
      (∀ i, k ≤ i → Blank s s.current i) ∧ (∀ i, s.handed s.current i = []) ∧ s.posted s.current = false := by
  cases inv.phase with
  | serial here over_ call stored blank unhanded unposted =>
    obtain rfl := Caller.serial.inj (here.symm.trans serial)
    exact ⟨_,over_,call,stored,blank,unhanded,unposted⟩
  | rest resting => rcases resting with resting | resting <;> simp [resting] at serial
  | growing growing => simp [growing] at serial
  | posted waiting => rcases waiting with waiting | waiting <;> simp [waiting] at serial

theorem inv_serial {s s' : State} {raw : Option Errno} (inv : Inv results s) (may : allowed results s (.serial raw))
    (taken : Workers.step cpus s (.serial raw) = some s') : Inv results s' := by
  simp only [Workers.step] at taken
  split at taken
  · rename_i k args serial call
    split at taken
    · simp at taken
    · obtain ⟨fd,array,rfl⟩ := Option.map_eq_some_iff.mp taken
      obtain ⟨args',over_,call',stored,blank,unhanded,unposted⟩ := inv.phase_serial serial
      obtain rfl : args = args' := by simpa [call] using call'
      have calm := inv.calm (by simp [serial])
      have result : results fd raw := by
        simp only [allowed,serial] at may
        exact may fd (by simp [State.fdAt,call,array])
      have latest := (List.getElem?_eq_some_iff.mp call).1
      rw [(blank k (Nat.le_refl _)).synced]
      refine inv.of_phase (@Phase.serial _ _ args (k+1) rfl ⟨over_.quiet,over_.none_⟩ call (fun i below => ?_) (fun i beyond => ?_)
        unhanded unposted) rfl (fun c other => ?_) inv.gone (fun stop => ?_) inv.few
      · by_cases here : i = k
        · subst here
          exact ⟨fd,raw,⟨array,at_same _ _ _ _,result⟩,at_same _ _ _ _⟩
        · obtain ⟨fd',raw',flushed,errs⟩ := stored i (by omega)
          exact ⟨fd',raw',⟨flushed.array,(at_other _ _ (.inr here)).trans flushed.synced,flushed.result⟩,
            (at_other _ _ (.inr here)).trans errs⟩
      · obtain ⟨errs,synced,handed⟩ := blank i (by omega)
        have other : i ≠ k := by omega
        exact ⟨(at_other _ _ (.inr other)).trans errs,(at_other _ _ (.inr other)).trans synced,handed⟩
      · have apart : c ≠ s.current := by
          rcases other with other | beyond
          · exact other
          · omega
        exact ⟨rfl,funext fun i => at_other _ _ (.inl apart),funext fun i => at_other _ _ (.inl apart),rfl,rfl⟩
      · have stop' : s.stopping = true := stop
        simp [calm] at stop'
  · simp at taken

theorem inv_serial_ends {s s' : State} (inv : Inv results s) (taken : Workers.step cpus s .serial_ends = some s') :
    Inv results s' := by
  simp only [Workers.step] at taken
  split at taken
  · rename_i k args serial call
    simp only [Option.ite_none_right_eq_some,Option.some.injEq] at taken
    obtain ⟨past,rfl⟩ := taken
    obtain ⟨args',over_,call',stored,blank,unhanded,unposted⟩ := inv.phase_serial serial
    obtain rfl : args = args' := by simpa [call] using call'
    have calm := inv.calm (by simp [serial])
    have exactly : k = args.fds.length := by
      by_contra other
      obtain ⟨fd,raw,flushed,_⟩ := stored args.fds.length (by omega)
      have array := flushed.array
      simp at array
    have complete : Complete results s s.current args :=
      ⟨call,fun i inside => stored i (by omega),fun i beyond => blank i (by omega),fun i => by simp [unhanded i],
        fun posted => by simp [unposted] at posted⟩
    have same : ∀ c, Same s { s with caller := .idle } c := fun c => ⟨rfl,rfl,rfl,rfl,rfl⟩
    refine inv.of_phase (.rest (.inl rfl) ⟨over_.quiet,over_.none_⟩ fun c below => ?_) rfl (fun c _ => same c) inv.gone
      (fun stop => ?_) inv.few
    · obtain ⟨args',settled⟩ := settled_all inv.past complete c below
      exact ⟨args',settled.same (same c)⟩
    · have stop' : s.stopping = true := stop
      simp [calm] at stop'
  · simp at taken

/-! ## The end of the workers -/

theorem Inv.phase_rest {s : State} (inv : Inv results s) (resting : s.caller = .idle ∨ s.caller = .joining) :
    Over s ∧ ∀ c < s.calls.length, ∃ args, Complete results s c args := by
  cases inv.phase with
  | rest _ over_ settled => exact ⟨over_,settled⟩
  | growing growing => simp [growing] at resting
  | serial serial => simp [serial] at resting
  | posted waiting => rcases waiting with waiting | waiting <;> simp [waiting] at resting

theorem inv_stop {s : State} (inv : Inv results s) (idle : s.caller = .idle) :
    Inv results { s with stopping := true, caller := .joining }.broadcast := by
  obtain ⟨over_,settled⟩ := inv.phase_rest (.inl idle)
  have same : ∀ c, Same s { s with stopping := true, caller := .joining }.broadcast c := fun c => ⟨rfl,rfl,rfl,rfl,rfl⟩
  refine inv.of_phase (.rest (.inr rfl) ⟨over_.broadcast.quiet,over_.none_⟩ fun c below => ?_) rfl (fun c _ => same c)
    (fun _ _ => rfl) (fun _ => rfl) (by simpa [State.broadcast] using inv.few)
  obtain ⟨args,complete⟩ := settled c below
  exact ⟨args,complete.same (same c)⟩

theorem inv_join {s : State} (inv : Inv results s) (joining : s.caller = .joining) :
    Inv results { s with workers := [], grow_failed := false, stopping := false, caller := .idle } := by
  obtain ⟨over_,settled⟩ := inv.phase_rest (.inr joining)
  have same : ∀ c, Same s { s with workers := [], grow_failed := false, stopping := false, caller := .idle } c :=
    fun c => ⟨rfl,rfl,rfl,rfl,rfl⟩
  refine inv.of_phase (.rest (.inl rfl) ⟨fun w x found => by simp at found,over_.none_⟩ fun c below => ?_) rfl
    (fun c _ => same c) (fun w found => by simp at found) (fun stop => by simp at stop) (Nat.zero_le _)
  obtain ⟨args,complete⟩ := settled c below
  exact ⟨args,complete.same (same c)⟩

/-! ## Every step -/

theorem inv_init : Inv results {} := by
  refine ⟨.rest (.inl rfl) ⟨fun w x found => by simp at found,rfl⟩ fun c below => by simp at below,
    fun c below => by simp at below,fun c _ => ⟨fun i => ⟨rfl,rfl,rfl⟩,rfl⟩,fun w found => by simp at found,
    fun stop => by simp at stop,fun args member => by simp at member,Nat.zero_le _⟩

theorem inv_step {s s' : State} {a : Act} (inv : Inv results s) (may : allowed results s a)
    (taken : Workers.step cpus s a = some s') : Inv results s' := by
  cases a with
  | call args threaded =>
    simp only [Workers.step,Option.ite_none_right_eq_some,Option.some.injEq] at taken
    obtain ⟨⟨idle,fits,_⟩,rfl⟩ := taken
    refine inv_call inv idle fits ?_
    cases threaded with
    | true => exact .inl rfl
    | false => exact .inr rfl
  | create =>
    simp only [Workers.step,Option.ite_none_right_eq_some,Option.some.injEq,Bool.not_eq_true'] at taken
    obtain ⟨⟨growing,more⟩,rfl⟩ := taken
    exact inv_create inv growing more
  | create_fails =>
    simp only [Workers.step,Option.ite_none_right_eq_some,Option.some.injEq] at taken
    obtain ⟨⟨growing,_⟩,rfl⟩ := taken
    exact inv_create_fails inv growing
  | post => exact inv_post inv taken
  | go_serial =>
    simp only [Workers.step,Option.ite_none_right_eq_some,Option.some.injEq] at taken
    obtain ⟨⟨growing,_⟩,rfl⟩ := taken
    exact inv_go_serial inv growing
  | serial raw => exact inv_serial inv may taken
  | serial_ends => exact inv_serial_ends inv taken
  | stir =>
    simp only [Workers.step,Option.ite_none_right_eq_some,Option.some.injEq] at taken
    obtain ⟨waiting,rfl⟩ := taken
    exact inv_stir inv waiting
  | test =>
    simp only [Workers.step,Option.ite_none_right_eq_some,Option.some.injEq] at taken
    obtain ⟨woken,rfl⟩ := taken
    obtain ⟨args,posted⟩ := inv.phase_woken (.inr woken)
    exact inv_waitDone inv posted
  | lock w =>
    simp only [Workers.step,Option.ite_none_right_eq_some,Option.some.injEq] at taken
    obtain ⟨ready,rfl⟩ := taken
    exact inv_takeNext inv ready
  | rouse w =>
    simp only [Workers.step,Option.ite_none_right_eq_some,Option.some.injEq] at taken
    obtain ⟨asleep,rfl⟩ := taken
    exact inv_set inv asleep (.inr rfl) (.inl rfl)
  | sync w raw => exact inv_sync inv may taken
  | store w => exact inv_store inv taken
  | stop =>
    simp only [Workers.step,Option.ite_none_right_eq_some,Option.some.injEq] at taken
    obtain ⟨idle,rfl⟩ := taken
    exact inv_stop inv idle
  | join =>
    simp only [Workers.step,Option.ite_none_right_eq_some,Option.some.injEq] at taken
    obtain ⟨⟨joining,_⟩,rfl⟩ := taken
    exact inv_join inv joining

theorem inv_reachable {s : State} (reachable : Reachable cpus results s) : Inv results s := by
  induction reachable with
  | init => exact inv_init
  | step _ may taken ih => exact inv_step ih may taken

end Newfile.Pool
