import Newfile.Catalog
import Newfile.Traces
import Newfile.Walks

/-!
The loop of `backup_numbered`: it tries one number after the other and ends at the
first one that is free, or at a failure that is no taken name.
-/
namespace Newfile.Numbering
open Newfile.Program Newfile.Posix Newfile.Process Newfile.Pending Newfile.Backup Newfile.Numbers Newfile.Calls Newfile.Traces
open Newfile.Flush (path_dir)

variable {α : Type} {res : Path → Ino} {k : Kernel} {m : Memory} {path : Path} {h : List (Event posix)}

/-! ## Taken numbers -/

/-- The numbers of the backups of a file. -/
def takenNumbers (res : Path → Ino) (k : Kernel) (path : Path) : Set Nat := {n | Taken res k path n}

theorem names_get_mem {ns : Names} {e : Entry} (present : (Names.get ns e).isSome = true) : e ∈ ns.map Prod.fst := by
  obtain ⟨i,found⟩ := Option.isSome_iff_exists.mp present
  obtain ⟨x,there,-⟩ := Option.map_eq_some_iff.mp found
  have same := List.find?_some there
  simp only [beq_iff_eq] at same
  exact List.mem_map.mpr ⟨x,List.mem_of_find?_eq_some there,same⟩

theorem takenNumbers_finite (res : Path → Ino) (k : Kernel) (path : Path) : (takenNumbers res k path).Finite := by
  have inj : Function.Injective fun ds => ((res (dirText path),backupBase path ds) : Entry) := by
    intro ds ds' same
    simpa [backupBase] using same
  have finite : (Set.preimage (fun ds => ((res (dirText path),backupBase path ds) : Entry)) {e | e ∈ k.names.map Prod.fst}).Finite :=
    (List.finite_toSet _).preimage inj.injOn
  refine (finite.image number).subset ?_
  rintro n ⟨ds,-,rfl,there⟩
  exact ⟨ds,names_get_mem there,rfl⟩

/-- Numbers taken one after the other are no more than the taken ones. -/
theorem taken_run {n t : Nat} (passed : ∀ i, n ≤ i → i < n+t → Taken res k path i) : t ≤ (takenNumbers res k path).ncard := by
  have inside : Set.Ico n (n+t) ⊆ takenNumbers res k path := fun i range => passed i range.1 range.2
  have most := Set.ncard_le_ncard inside (takenNumbers_finite res k path)
  have size : (Set.Ico n (n+t)).ncard = t := by
    rw [← Finset.coe_Ico,Set.ncard_coe_finset,Nat.card_Ico]
    omega
  omega

/-! ## What a run of the loop comes to -/

/-- Allocations succeed, and a link fails for a taken name only. -/
def Smooth : Event posix → Prop
  | ⟨.alloc,r⟩ => r = .ok ()
  | ⟨.link _ _,r⟩ => r = .ok () ∨ r = .error .EEXIST
  | _ => True

def isLink : Event posix → Bool
  | ⟨.link _ _,_⟩ => true
  | _ => false

/-- A name was linked. -/
def Made (path : Path) (name : Path) : Event posix := ⟨.link path name,.ok ()⟩

/-- The link that was made: the name of the least number from `n` on that is free. -/
structure FirstFree (res : Path → Ino) (path : Path) (st : Stat) (n : Nat) (k : Kernel) (name : Str) (k' : Kernel) (m' : Memory) :
    Prop where
  number : ∃ ds, Decimal ds ∧ name.text = backupText path ds ∧ n ≤ number ds ∧ ¬ Taken res k path (number ds) ∧
    ∀ i, n ≤ i → i < Numbers.number ds → Taken res k path i
  linked : ∃ i, k.fileAt (entry res path) = some i ∧ k'.names.get (entry res name.text) = some i
  kept : ∀ e, e ≠ entry res name.text → k'.names.get e = k.names.get e
  armed : m'.pending PENDING_BACKUP = ⟨some name,st.ino⟩

/-- What `backup_numbered` comes to, with the calls of the run, the latest first. -/
def Outcome (res : Path → Ino) (path : Path) (st : Stat) (n : Nat) (k : Kernel) (m : Memory) (r : Except Errno Str)
    (s : Kernel × List (Event posix)) (m' : Memory) : Prop :=
  s.2.countP isLink ≤ (takenNumbers res k path).ncard+1 ∧
    match r with
    | .error _ => s.1.names = k.names ∧ m'.pending = m.pending ∧ (∃ e ∈ s.2, ¬ Smooth e) ∧ ∀ name, Made path name ∉ s.2
    | .ok name => FirstFree res path st n k name s.1 m' ∧
        ∃ after before, s.2 = after ++ Made path name.text :: before ∧ (∀ e ∈ before, Smooth e) ∧ ∀ e ∈ after, isLink e = false

/-! ## Noting the number -/

/-- Nothing has been made or armed, and no link was tried. -/
structure Still (k : Kernel) (h : List (Event posix)) (m : Memory) (s : Kernel × List (Event posix)) (m' : Memory) : Prop where
  kernel : s.1 = k
  pending : m'.pending = m.pending
  log : ∃ after, s.2 = after ++ h ∧ ∀ e ∈ after, isLink e = false

theorem Still.refl : Still k h m (k,h) m := ⟨rfl,rfl,[],rfl,by simp⟩

theorem Still.trans {k' : Kernel} {h' : List (Event posix)} {m' m'' : Memory} {s : Kernel × List (Event posix)}
    (one : Still k h m (k',h') m') (two : Still k' h' m' s m'') : Still k h m s m'' := by
  obtain ⟨rfl,pending,after,rfl,links⟩ := one
  obtain ⟨kernel,pending',after',log,links'⟩ := two
  refine ⟨kernel,pending'.trans pending,after' ++ after,by rw [log,List.append_assoc],fun e here => ?_⟩
  rcases List.mem_append.mp here with here | here
  · exact links' e here
  · exact links e here

/-- A program that makes nothing and tries no link. -/
def Keeps (res : Path → Ino) (p : P α) : Prop :=
  ∀ k h m, wp (logged (exec res)) False p (fun _ s m' => Still k h m s m') (k,h) m

variable {β : Type}

theorem keeps_pure (a : α) : Keeps res (pure a : P α) := fun _ _ _ => Still.refl

theorem keeps_bind {p : P α} {f : α → P β} (first : Keeps res p) (rest : ∀ a, Keeps res (f a)) : Keeps res (p >>= f) :=
  fun k h m => wp_seq (first k h m) fun a s m' still =>
    wp_mono (rest a s.1 s.2 m') fun _ _ _ after => Still.trans still after

theorem keeps_modify {f : Memory → Memory} (same : ∀ m, (f m).pending = m.pending) : Keeps res (modify f : P Unit) :=
  fun _ _ m => ⟨rfl,same m,[],rfl,by simp⟩

/-- A call that leaves the system as it is. -/
theorem keeps_perform {c : Call} (same : ∀ k r k', exec res k c r k' → k' = k) (other : ∀ r, isLink ⟨c,r⟩ = false) :
    Keeps res (perform c) := by
  rintro k h m r ⟨k',h'⟩ ⟨answered,rfl⟩
  exact ⟨same k r k' answered,rfl,[_],rfl,by simp [other]⟩

theorem alloc_same (k : Kernel) (r : posix.Res .alloc) (k' : Kernel) (answered : exec res k .alloc r k') : k' = k := by
  rcases exec_cases answered with ⟨e,_,_,rfl⟩ | ⟨hints,x,found,_,rfl⟩
  · rfl
  · obtain rfl := Option.some.inj found
    rfl

theorem composes_keeps : Walks.Composes fun _ p => Keeps res p where
  pure := keeps_pure
  bind := keeps_bind
  get _ _ _ := Still.refl
  alloc := keeps_perform alloc_same fun _ => rfl

theorem list_keeps (dir : Path) : Keeps res (perform (.list dir)) := by
  refine keeps_perform (fun k r k' answered => ?_) fun _ => rfl
  rcases exec_cases answered with ⟨e,_,_,rfl⟩ | ⟨hints,x,found,_,rfl⟩
  · rfl
  · obtain rfl := Option.some.inj found
    rfl

theorem backup_dir_get_keeps (file : Path) : Keeps res (backup_dir_get file) :=
  composes_keeps.backup_dir_get (composes_keeps.attempt (composes_keeps.backup_dir_list (list_keeps _))
    (fun _ => keeps_pure _) fun _ => keeps_bind (keeps_modify fun _ => rfl) fun _ => keeps_pure _) (keeps_modify fun _ => rfl)

theorem backup_note_keeps (file : Path) (ds : List Char) : Keeps res (backup_note file ds) :=
  composes_keeps.backup_note (backup_dir_get_keeps file) fun _ _ => keeps_modify fun _ => rfl

/-! ## The loop -/

variable {Q : α → Kernel × List (Event posix) → Memory → Prop}

theorem wp_allocate {f : Except Errno Unit → P α}
    (failed : ∀ e, wp (logged (exec res)) False (f (.error e)) Q (k,⟨.alloc,.error e⟩ :: h) m)
    (fine : wp (logged (exec res)) False (f (.ok ())) Q (k,⟨.alloc,.ok ()⟩ :: h) m) :
    wp (logged (exec res)) False (allocate >>= f) Q (k,h) m := by
  refine wp_asked (I := posix) (c := Call.alloc) fun r k' answered => ?_
  obtain rfl := alloc_same k r k' answered
  cases r with
  | error e => exact failed e
  | ok _ => exact fine

theorem wp_newStr {text : Path} {f : Except Errno Str → P α}
    (failed : ∀ e, wp (logged (exec res)) False (f (.error e)) Q (k,⟨.alloc,.error e⟩ :: h) m)
    (fine : wp (logged (exec res)) False (f (.ok ⟨text,some m.heap⟩)) Q (k,⟨.alloc,.ok ()⟩ :: h) { m with heap := m.heap+1 }) :
    wp (logged (exec res)) False (newStr text >>= f) Q (k,h) m := by
  rw [newStr,bind_assoc]
  refine wp_allocate (fun e => ?_) ?_
  · exact failed e
  · exact fine

theorem wp_inc {ds : List Char} {f : Except Errno (List Char) → P α}
    (failed : ∀ e, wp (logged (exec res)) False (f (.error e)) Q (k,⟨.alloc,.error e⟩ :: h) m)
    (fine : ∀ h', (∀ e ∈ h', e = ⟨.alloc,.ok ()⟩) → wp (logged (exec res)) False (f (.ok (incremented ds))) Q (k,h' ++ h) m) :
    wp (logged (exec res)) False (digits_inc ds >>= f) Q (k,h) m := by
  rw [Decimals.digits_inc_eq]
  split
  · rw [bind_assoc]
    refine wp_allocate (fun e => ?_) ?_
    · exact failed e
    · exact fine [_] (by simp)
  · exact fine [] (by simp)

/-- The numbers from `n` on have been tried up to this one. -/
structure Passed (res : Path → Ino) (path : Path) (n : Nat) (k : Kernel) (ds : List Char) (h : List (Event posix)) : Prop where
  decimal : Decimal ds
  above : n ≤ number ds
  taken : ∀ i, n ≤ i → i < number ds → Taken res k path i
  smooth : ∀ e ∈ h, Smooth e
  links : h.countP isLink+n = number ds
  unmade : ∀ name, Made path name ∉ h

theorem Passed.enough {n : Nat} {ds : List Char} (passed : Passed res path n k ds h) :
    h.countP isLink ≤ (takenNumbers res k path).ncard := by
  refine taken_run fun i more less => passed.taken i more ?_
  have links := passed.links
  omega

/-- Allocations that succeed are no step. -/
theorem Passed.allocated {n : Nat} {ds : List Char} {h' : List (Event posix)} (passed : Passed res path n k ds h)
    (only : ∀ e ∈ h', e = ⟨.alloc,.ok ()⟩) : Passed res path n k ds (h' ++ h) := by
  have zero : h'.countP isLink = 0 := List.countP_eq_zero.mpr fun e here => by rw [only e here]; decide
  refine ⟨passed.decimal,passed.above,passed.taken,fun e here => ?_,?_,fun name here => ?_⟩
  · rcases List.mem_append.mp here with here | here
    · rw [only e here]
      rfl
    · exact passed.smooth e here
  · rw [List.countP_append,zero,Nat.zero_add]
    exact passed.links
  · rcases List.mem_append.mp here with here | here
    · have wrong := congrArg isLink (only _ here)
      exact absurd wrong (by simp [Made,isLink])
    · exact passed.unmade name here

/-- A name that is taken is a step to the next number. -/
theorem Passed.next {n : Nat} {ds : List Char} (passed : Passed res path n k ds h) (taken : Taken res k path (number ds)) :
    Passed res path n k (incremented ds) (⟨.link path (backupText path ds),.error .EEXIST⟩ :: h) := by
  obtain ⟨decimal,value⟩ := incremented_spec passed.decimal
  refine ⟨decimal,?_,fun i more less => ?_,fun e here => ?_,?_,fun name here => ?_⟩
  · rw [value]
    exact Nat.le_succ_of_le passed.above
  · rw [value] at less
    rcases Nat.lt_or_eq_of_le (Nat.le_of_lt_succ less) with before | rfl
    · exact passed.taken i more before
    · exact taken
  · rcases List.mem_cons.mp here with rfl | here
    · exact .inr rfl
    · exact passed.smooth e here
  · have links := passed.links
    simp only [List.countP_cons,isLink,↓reduceIte,value]
    omega
  · rcases List.mem_cons.mp here with wrong | here
    · simp [Made] at wrong
    · exact passed.unmade name here

/-- An end at something other than a taken name. -/
theorem Passed.stopped {n : Nat} {ds : List Char} (passed : Passed res path n k ds h) {bad : Event posix} (rough : ¬ Smooth bad)
    {start m' : Memory} (same : m'.pending = start.pending) (st : Stat) (e : Errno) :
    Outcome res path st n k start (.error e) (k,bad :: h) m' := by
  have few := passed.enough
  refine ⟨?_,rfl,same,⟨bad,List.mem_cons_self,rough⟩,fun name here => ?_⟩
  · rw [List.countP_cons]
    split <;> omega
  · rcases List.mem_cons.mp here with rfl | here
    · exact rough (.inl rfl)
    · exact passed.unmade name here

/-- A link of the file, told by how it ends. -/
theorem wp_backup_link {name : Str} {st : Stat} {f : Except Errno Unit → P α}
    (failed : ∀ e m', m'.pending = m.pending → mayFail res k (.link path name.text) e = true →
      wp (logged (exec res)) False (f (.error e)) Q (k,⟨.link path name.text,.error e⟩ :: h) m')
    (fine : ∀ i m', k.fileAt (entry res path) = some i → k.names.get (entry res name.text) = none →
      m'.pending PENDING_BACKUP = ⟨some name,st.ino⟩ →
      wp (logged (exec res)) False (f (.ok ())) Q (k.assign [(entry res name.text,some i)],⟨.link path name.text,.ok ()⟩ :: h) m') :
    wp (logged (exec res)) False (backup_link path name st >>= f) Q (k,h) m := by
  refine wp_asked (I := posix) (c := Call.link path name.text) fun r k' answered => ?_
  rcases exec_cases answered with ⟨e,may,rfl,rfl⟩ | ⟨hints,x,found,rfl,rfl⟩
  · exact failed e { m with blocked := m.blocked } rfl may
  · simp only [answer] at found
    split at found
    · rename_i i source free
      obtain rfl := Option.some.inj found
      exact fine i _ source free rfl
    · simp at found

/-- The name that was linked is the first free one. -/
theorem Passed.made {n : Nat} {ds : List Char} (passed : Passed res path n k ds h) {block : Option Nat} {i : Ino}
    (source : k.fileAt (entry res path) = some i) (free : k.names.get (entry res (backupText path ds)) = none) {st : Stat}
    {m' : Memory} (armed : m'.pending PENDING_BACKUP = ⟨some ⟨backupText path ds,block⟩,st.ino⟩) :
    FirstFree res path st n k ⟨backupText path ds,block⟩ (k.assign [(entry res (backupText path ds),some i)]) m' := by
  refine ⟨⟨ds,passed.decimal,rfl,passed.above,?_,passed.taken⟩,⟨i,source,?_⟩,fun e other => ?_,armed⟩
  · rintro ⟨ds',decimal,same,there⟩
    obtain rfl := number_inj decimal passed.decimal same
    rw [← entry_backupText res path decimal,free] at there
    simp at there
  · change (Names.put k.names _ i).get _ = _
    rw [Names.get_put,if_pos rfl]
  · change (Names.put k.names _ i).get e = _
    rw [Names.get_put,if_neg other]

/-- The loop, from any number that has been reached. -/
theorem backup_numbered_outcome (st : Stat) (n : Nat) (start : Memory) : ∀ (fuel : Nat) (ds : List Char) (h : List (Event posix))
    (m : Memory), Passed res path n k ds h → (takenNumbers res k path).ncard < fuel+h.countP isLink → m.pending = start.pending →
      wp (logged (exec res)) False (backup_numbered path st fuel ds) (Outcome res path st n k start) (k,h) m := by
  intro fuel
  induction fuel with
  | zero =>
    intro ds h m passed enough _
    have most := passed.enough
    omega
  | succ fuel ih =>
    intro ds h m passed enough same
    rw [backup_numbered,backup_name]
    refine wp_newStr (fun e => ?_) ?_
    · exact passed.stopped (by simp [Smooth]) same st e
    · have passed : Passed res path n k ds (⟨.alloc,.ok ()⟩ :: h) := Passed.allocated passed (fun _ => List.mem_singleton.mp)
      refine wp_backup_link (fun e m' still may => ?_) fun i m' source free armed => ?_
      · by_cases exists_ : e = .EEXIST
        · subst exists_
          have taken : Taken res k path (number ds) := ⟨ds,passed.decimal,rfl,by
            rw [← entry_backupText res path passed.decimal]
            exact may⟩
          have next := passed.next taken
          refine wp_seq (R := fun _ s m' => s = (k,_) ∧ m'.pending = start.pending) ⟨rfl,still.trans same⟩ fun _ s m'' freed => ?_
          obtain ⟨rfl,same'⟩ := freed
          refine wp_inc (fun e => ?_) fun h' only => ?_
          · exact next.stopped (by simp [Smooth]) same' st e
          · refine ih _ _ _ (next.allocated only) ?_ same'
            simp only [List.countP_append,List.countP_cons,isLink,↓reduceIte]
            omega
        · refine wp_seq (R := fun _ s m' => s = (k,_) ∧ m'.pending = start.pending) ⟨rfl,still.trans same⟩ fun _ s m'' freed => ?_
          obtain ⟨rfl,same'⟩ := freed
          rw [if_pos exists_]
          exact passed.stopped (by simp [Smooth,exists_]) same' st e
      · have made := passed.made source free armed
        refine wp_seq (backup_note_keeps path ds _ _ m') fun _ s m'' still => ?_
        obtain ⟨kernel,pending,after,log,unlinked⟩ := still
        obtain ⟨k',h'⟩ := s
        obtain rfl : k' = _ := kernel
        obtain rfl : h' = _ := log
        refine ⟨?_,⟨made.number,made.linked,made.kept,by rw [pending]; exact made.armed⟩,after,_,rfl,passed.smooth,unlinked⟩
        have few := passed.enough
        have zero : after.countP isLink = 0 := List.countP_eq_zero.mpr fun e here => by rw [unlinked e here]; decide
        rw [List.countP_append,zero,List.countP_cons]
        split <;> omega

/-- From any number on and whatever is there, the loop ends after one link more at most
    than there are taken numbers. It makes the first number that is free, or it ends in an
    error, and makes and arms nothing, where a link fails for anything but a taken name or
    an allocation fails in front of the link. -/
theorem backup_numbered_first_free (res : Path → Ino) (path : Path) (st : Stat) (fuel : Nat) (ds : List Char) (k : Kernel) (m : Memory)
    (decimal : Decimal ds) (enough : (takenNumbers res k path).ncard < fuel) (evs : List (Event posix))
    (t : Config posix Kernel Memory (Except Errno Str)) (run : Run (exec res) ⟨backup_numbered path st fuel ds,k,m⟩ evs t) :
    t.prog ≠ .spin ∧ ∀ r, t.prog = .ret r → Outcome res path st (number ds) k m r (t.kernel,evs.reverse) t.memory := by
  have first : Passed res path (number ds) k ds [] := by
    refine ⟨decimal,Nat.le_refl _,fun i more less => ?_,by simp,by simp,by simp⟩
    omega
  exact wp_trace (backup_numbered_outcome st (number ds) m fuel ds [] m first (by simpa using enough) rfl) run

/-- A directory with the file `a` and its first backup. -/
def twice : Kernel :=
  ⟨[((0,"a".toList),7),((0,"a.~1~".toList),6)],fun _ => {},8,3,[],fun _ => 0,[],[]⟩

def regular : Stat := ⟨7,.regular,0,0,0,0⟩

theorem run_fine {c : Call} {next : posix.Res c → P α} {evs : List (Event posix)} {t : Config posix Kernel Memory α} (hints : List Nat)
    {x : c.Val × Kernel} (found : answer res k hints c = some x) (rest : Run (exec res) ⟨next (.ok x.1),x.2,m⟩ evs t) :
    Run (exec res) ⟨.call c next,k,m⟩ (⟨c,.ok x.1⟩ :: evs) t :=
  .call ⟨.ok hints,by rw [step,found]; rfl⟩ rest

theorem run_failed {c : Call} {next : posix.Res c → P α} {evs : List (Event posix)} {t : Config posix Kernel Memory α} (e : Errno)
    (may : mayFail res k c e = true) (rest : Run (exec res) ⟨next (.error e),afterFailure k c,m⟩ evs t) :
    Run (exec res) ⟨.call c next,k,m⟩ (⟨c,.error e⟩ :: evs) t :=
  .call ⟨.fail e,by rw [step,if_pos may]⟩ rest

theorem twice_taken : (takenNumbers (fun _ => 0) twice "a".toList).ncard < 2 := by
  have only : takenNumbers (fun _ => 0) twice "a".toList ⊆ {number "1".toList} := by
    rintro n ⟨ds,decimal,rfl,there⟩
    have member := names_get_mem there
    simp only [twice,List.map_cons,List.map_nil,List.mem_cons,List.not_mem_nil,or_false,Prod.mk.injEq,true_and] at member
    rcases member with same | same
    · have length := congrArg List.length same
      simp only [backupBase,List.length_append,String.reduceToSingleton,String.toList_singleton,List.length_singleton] at length
      have two : ".~".toList.length = 2 := by decide
      omega
    · have digits : ds = "1".toList := by
        have shape : "a.~1~".toList = backupBase "a".toList "1".toList := by decide +kernel
        rw [shape] at same
        exact List.append_cancel_left (List.append_cancel_right same)
      rw [digits]
      rfl
  have most := Set.ncard_le_ncard only (Set.finite_singleton _)
  rw [Set.ncard_singleton] at most
  omega

/-- The first number is taken, and the second one free. -/
theorem backup_numbered_first_free_sample : ∃ evs t name,
    Run (exec fun _ => 0) ⟨backup_numbered "a".toList regular 2 "1".toList,twice,{}⟩ evs t ∧ t.prog = .ret (.ok name) ∧
      Outcome (fun _ => 0) "a".toList regular (number "1".toList) twice {} (.ok name) (t.kernel,evs.reverse) t.memory := by
  have decimal : Decimal "1".toList := ⟨by simp,by simp,by simp⟩
  obtain ⟨evs,t,name,run,returned⟩ : ∃ evs t name,
      Run (exec fun _ => 0) ⟨backup_numbered "a".toList regular 2 "1".toList,twice,{}⟩ evs t ∧ t.prog = .ret (.ok name) :=
    ⟨_,_,_,run_fine [] rfl (.mem (.mem (.mem (.mem (run_failed .EEXIST (by decide +kernel) (.mem (.mem (run_fine [] rfl (.mem (.mem
      (.mem (.mem (run_fine [] rfl (.mem (.mem (run_failed .ENOMEM rfl (.refl _))))))))))))))))),rfl⟩
  exact ⟨evs,t,name,run,returned,
    (backup_numbered_first_free _ _ regular 2 _ twice {} decimal twice_taken evs t run).2 _ returned⟩

/-- No memory to note a number that was linked: the backup is made all the same. -/
theorem noting_without_memory : ∃ evs t name, Run (exec fun _ => 0) ⟨backup_numbered "a".toList regular 2 "2".toList,twice,{}⟩ evs t ∧
    t.prog = .ret (.ok name) ∧ ⟨.alloc,.error .ENOMEM⟩ ∈ evs ∧ t.kernel.names.get (0,"a.~2~".toList) = some 7 ∧
    t.memory.pending PENDING_BACKUP = ⟨some name,7⟩ := by
  refine ⟨_,_,_,run_fine [] rfl (.mem (.mem (.mem (.mem (run_fine [] rfl (.mem (.mem (run_failed .ENOMEM rfl (.refl _))))))))),
    rfl,?_,?_,?_⟩
  · simp
  · decide +kernel
  · rfl

end Newfile.Numbering
