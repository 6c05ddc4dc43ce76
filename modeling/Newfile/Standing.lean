import Newfile.Agreement

/-!
The names of the ledgers, whatever the operands are called. The file under a name may
be another than the ledger has, where an operand is named like it; but the name is
there, and no other name of a ledger is at the same entry.
-/
namespace Newfile.Standing
open Newfile.Program Newfile.Posix Newfile.Process Newfile.Pending Newfile.Place Newfile.Backup Newfile.Batch
open Newfile.Effects Newfile.Simulation Newfile.Ledger Newfile.Batches Newfile.Evidence Newfile.Answers Newfile.Crowds Newfile.Agreement
open Function

variable {ι : Type} {res : Path → Ino} {paths : ι → List Path} {spec : ι → FileSpec} {k k' : Kernel} {g : ι → Book} {i : ι} {b : Book}

/-- Runs without `-f` may be many, a run with `-f` is alone. -/
def Alone (spec : ι → FileSpec) : Prop := ∀ i, (spec i).force_mode = true → ∀ j, j = i

/-- The names of the ledgers are there, unless they were renamed over a backup, and no two are at one entry. -/
structure Stands (res : Path → Ino) (k : Kernel) (g : ι → Book) : Prop where
  there : ∀ i j r, (g i).live j = some r → r.role ≠ .twinned → k.names.get (entry res r.path) ≠ none
  twinned : ∀ i j r, (g i).live j = some r → r.role = .twinned → j = PENDING_BACKUP
  apart : ∀ i j r i' j' r', (g i).live j = some r → (g i').live j' = some r' → entry res r.path = entry res r'.path → i = i' ∧ j = j'

theorem stands_start : Stands res k fun _ : ι => {} := ⟨by simp,by simp,by simp⟩

variable [DecidableEq ι]

/-- The names of a run are those that it had, some of them made for something else by now. -/
theorem Stands.next (stands : Stands res k g)
    (sub : ∀ j r, b.live j = some r → ∃ n role, (g i).live j = some ⟨r.path,n,role⟩ ∧ (role = .twinned → r.role = .twinned))
    (twinned : ∀ j r, b.live j = some r → r.role = .twinned → j = PENDING_BACKUP)
    (names : ∀ i' j r, (update g i b i').live j = some r → k.names.get (entry res r.path) ≠ none → r.role ≠ .twinned →
      k'.names.get (entry res r.path) ≠ none) : Stands res k' (update g i b) := by
  have before : ∀ {i' j r}, (update g i b i').live j = some r →
      ∃ n role, (g i').live j = some ⟨r.path,n,role⟩ ∧ (role = .twinned → r.role = .twinned) := by
    intro i' j r live
    rcases live_update live with ⟨rfl,mine⟩ | ⟨_,others⟩
    · exact sub j r mine
    · exact ⟨r.ino,r.role,others,id⟩
  constructor
  · intro i' j r live untwinned
    obtain ⟨n,role,was,same⟩ := before live
    exact names i' j r live (stands.there i' j ⟨r.path,n,role⟩ was fun gone => untwinned (same gone)) untwinned
  · intro i' j r live role
    rcases live_update live with ⟨rfl,mine⟩ | ⟨_,others⟩
    · exact twinned j r mine role
    · exact stands.twinned i' j r others role
  · intro i₁ j₁ r₁ i₂ j₂ r₂ one two same
    obtain ⟨_,_,was₁,_⟩ := before one
    obtain ⟨_,_,was₂,_⟩ := before two
    exact stands.apart _ _ _ _ _ _ was₁ was₂ same

/-- Names become fewer. -/
theorem Stands.fewer (stands : Stands res k g) (sub : ∀ j r, b.live j = some r → (g i).live j = some r)
    (names : ∀ i' j r, (update g i b i').live j = some r → k.names.get (entry res r.path) ≠ none → r.role ≠ .twinned →
      k'.names.get (entry res r.path) ≠ none) : Stands res k' (update g i b) :=
  stands.next (fun j r live => ⟨r.ino,r.role,sub j r live,id⟩) (fun j r live => stands.twinned i j r (sub j r live)) names

/-- A name is made that was not there. -/
theorem Stands.make (stands : Stands res k g) (alone : Alone spec) (shaped : Shaped paths spec g) {r : Rec} {n : Ino} (whole : Untwinned (g i))
    (fresh : r.role ≠ .twinned) (absent : k.names.get (entry res r.path) = none)
    (names : ∀ e, k'.names.get e = if e = entry res r.path then some n else k.names.get e)
    (live : b.live = update (g i).live FRESH (some r)) : Stands res k' (update g i b) := by
  have others : ∀ {i' j r'}, (update g i b i').live j = some r' → ¬(i' = i ∧ j = FRESH) → (g i').live j = some r' := by
    intro i' j r' found other
    rcases live_update found with ⟨rfl,mine⟩ | ⟨_,others⟩
    · have slot : j ≠ FRESH := fun same => other ⟨rfl,same⟩
      simpa [live,slot] using mine
    · exact others
  have this : ∀ {i' j r'}, (update g i b i').live j = some r' → i' = i ∧ j = FRESH → r' = r := by
    rintro i' j r' found ⟨rfl,rfl⟩
    simpa [live,eq_comm] using found
  -- No name is at the entry, not even one that was renamed over a backup.
  have free : ∀ {i' j r'}, (g i').live j = some r' → entry res r'.path ≠ entry res r.path := by
    intro i' j r' found same
    by_cases twinned : r'.role = .twinned
    · have shape := shaped i' j r' found
      rw [Shape,twinned] at shape
      obtain rfl := alone i' shape.2 i
      obtain rfl := stands.twinned i j r' found twinned
      obtain ⟨a,o,role⟩ := r'
      obtain rfl : role = .twinned := twinned
      exact whole a o found
    · exact stands.there i' j r' found twinned (same ▸ absent)
  constructor
  · intro i' j r' found untwinned
    rw [names]
    split
    · simp
    · by_cases here : i' = i ∧ j = FRESH
      · obtain rfl := this found here
        contradiction
      · exact stands.there i' j r' (others found here) untwinned
  · intro i' j r' found twinned
    by_cases here : i' = i ∧ j = FRESH
    · obtain rfl := this found here
      exact absurd twinned fresh
    · exact stands.twinned i' j r' (others found here) twinned
  · intro i₁ j₁ r₁ i₂ j₂ r₂ one two same
    by_cases here₁ : i₁ = i ∧ j₁ = FRESH
    · by_cases here₂ : i₂ = i ∧ j₂ = FRESH
      · exact ⟨here₁.1.trans here₂.1.symm,here₁.2.trans here₂.2.symm⟩
      · obtain rfl := this one here₁
        exact absurd same.symm (free (others two here₂))
    · by_cases here₂ : i₂ = i ∧ j₂ = FRESH
      · obtain rfl := this two here₂
        exact absurd same (free (others one here₁))
      · exact stands.apart i₁ j₁ r₁ i₂ j₂ r₂ (others one here₁) (others two here₂) same

/-! ## Moves -/

/-- A name that is there stays, unless it is the one that is given up. -/
theorem set_there {ns ns' : Names} {a e : Entry} {now : Option Ino} (names : ∀ e, ns'.get e = if e = a then now else ns.get e)
    (there : ns.get e ≠ none) (kept : e = a → now ≠ none) : ns'.get e ≠ none := by
  rw [names]
  split
  · exact kept ‹_›
  · exact there

theorem moved_there {ns ns' : Names} {a b e : Entry} {n : Ino}
    (names : ns.get b = some n ∧ ns' = ns ∨ ns.get b ≠ some n ∧ ∀ e, ns'.get e = if e = a then none else if e = b then some n else ns.get e)
    (there : ns.get e ≠ none) (other : e ≠ a) : ns'.get e ≠ none := by
  rcases names with ⟨_,rfl⟩ | ⟨_,names⟩
  · exact there
  · rw [names,if_neg other]
    split
    · simp
    · exact there

variable {m : Memory} {evs : List (Event posix)} {c : Call} {r : posix.Res c}

/-- Another name of a ledger is at another entry. -/
theorem Stands.other (stands : Stands res k g) {i' : ι} {j j' : Nat} {r r' : Rec} (live : (g i).live j = some r)
    (live' : (update g i b i').live j' = some r') (was : (g i').live j' = some r') (gone : b.live j = none) :
    entry res r'.path ≠ entry res r.path := by
  intro same
  obtain ⟨rfl,rfl⟩ := stands.apart _ _ _ _ _ _ was live same
  rw [update_self,gone] at live'
  simp at live'

theorem stands_call (stands : Stands res k g) (alone : Alone spec) (shaped : Shaped paths spec g)
    (move : Move (paths i) (spec i) evs (g i) m c r b) (answered : exec res k c r k') : Stands res k' (update g i b) := by
  -- Where no name is taken and none is in the ledger that was not.
  have still : ∀ {b : Book}, (∀ e, k.names.get e ≠ none → k'.names.get e ≠ none) →
      (∀ j r, b.live j = some r → (g i).live j = some r) → Stands res k' (update g i b) :=
    fun names sub => stands.fewer sub fun i' j r _ there _ => names _ there
  have same : k'.names = k.names → ∀ e, k.names.get e ≠ none → k'.names.get e ≠ none := by
    intro names e there
    rwa [names]
  have failed : ∀ {c : Call} {err : Errno}, exec res k c (.error err) k' → k'.names = k.names := fun answered => (exec_error answered).2.1
  have added : ∀ {e : Entry} {n : Ino}, (∀ e', k'.names.get e' = if e' = e then some n else k.names.get e') →
      ∀ e', k.names.get e' ≠ none → k'.names.get e' ≠ none := fun names e' there => set_there names there (by simp)
  -- A name that is removed is in the ledger no more.
  have removed : ∀ {j r}, (g i).live j = some r → (∀ e, k'.names.get e = if e = entry res r.path then none else k.names.get e) →
      Stands res k' (update g i ((g i).drop j)) := by
    intro j r made names
    refine stands.fewer (fun _ _ => drop_sub) fun i' j' r' found there _ => set_there names there fun same => ?_
    have was : (g i').live j' = some r' := by
      rcases live_update found with ⟨rfl,mine⟩ | ⟨_,others⟩
      · exact drop_sub mine
      · exact others
    exact absurd same (stands.other made found was (by simp))
  -- A temporary name that is moved away is in the ledger no more.
  have moved : ∀ {b : Book} {j t q n n'}, (g i).live j = some ⟨t,n,.temp⟩ →
      (k.names.get (entry res q) = some n' ∧ k'.names = k.names ∨ k.names.get (entry res q) ≠ some n' ∧
        ∀ e, k'.names.get e = if e = entry res t then none else if e = entry res q then some n' else k.names.get e) →
      (∀ j r, b.live j = some r → (g i).live j = some r) → b.live j = none → Stands res k' (update g i b) := by
    intro b j t q n n' made names sub gone
    refine stands.fewer sub fun i' j' r' found there _ => moved_there names there ?_
    have was : (g i').live j' = some r' := by
      rcases live_update found with ⟨rfl,mine⟩ | ⟨_,others⟩
      · exact sub j' r' mine
      · exact others
    exact stands.other made found was gone
  cases move with
  | quiet quiet =>
    refine still (same ?_) fun _ _ => id
    rcases quiet with silent | ⟨e,rfl⟩
    · exact (exec_still silent answered).1
    · exact failed answered
  | refuse => exact still (same (failed answered)) fun _ _ => id
  | alter alters mine unsealed => exact still (same (exec_altered alters answered).names) fun _ _ => id
  | create blocked room clean whole opens =>
    rename_i q mode fd j role
    obtain ⟨_,absent,names,_⟩ := exec_open_excl answered
    refine stands.make alone shaped (r := ⟨q,fd.ino,role⟩) whole ?_ absent names rfl
    rintro rfl
    exact opens
  | rollback made clean just =>
    obtain ⟨_,_,names⟩ := exec_unlink answered
    exact removed made names
  | lose made clean just => exact still (same (failed answered)) fun _ _ => drop_sub
  | anon => exact still (same (exec_open_tmpfile answered).2) fun _ _ => id
  | conceal mine | finish mine => exact still (same (exec_fchmod answered).names) fun _ _ => id
  | flush mine => exact still (same (exec_fsync answered).1) fun _ _ => id
  | tempLink blocked room clean whole temp mine ready =>
    rename_i fd q j phase
    obtain ⟨_,absent,names⟩ := exec_linkat answered
    exact stands.make alone shaped (r := ⟨q,fd.ino,.temp⟩) whole (by simp) absent names rfl
  | regard => exact still (same (exec_still rfl answered).1) fun _ _ => id
  | exists_ => exact still (same (failed answered)) fun _ _ => id
  | backLink blocked room clean whole force member name old =>
    rename_i p a o
    obtain ⟨_,absent,n,_,names⟩ := exec_link answered
    exact stands.make alone shaped (r := ⟨a,o,.backup⟩) whole (by simp) absent names rfl
  | twinLink blocked room clean whole force member temp old =>
    rename_i p a o
    obtain ⟨_,absent,n,_,names⟩ := exec_link answered
    exact stands.make alone shaped (r := ⟨a,o,.twin⟩) whole (by simp) absent names rfl
  | twinMove room clean force member name old made temp taken =>
    rename_i p a b' o
    obtain ⟨_,n,_,names⟩ := exec_rename answered
    refine stands.next (fun j r found => ?_) (fun j r found twinned => ?_) fun i' j r found there untwinned =>
      moved_there names there ?_
    · by_cases here : j = PENDING_BACKUP
      · subst here
        obtain rfl : _ = r := by simpa using found
        exact ⟨o,.twin,made,by simp⟩
      · exact ⟨r.ino,r.role,by simpa [here] using found,id⟩
    · by_cases here : j = PENDING_BACKUP
      · exact here
      · exact stands.twinned i j r (by simpa [here] using found) twinned
    · intro equal
      rcases live_update found with ⟨rfl,mine⟩ | ⟨other,others⟩
      · by_cases here : j = PENDING_BACKUP
        · subst here
          obtain rfl : _ = r := by simpa using mine
          simp at untwinned
        · exact here (stands.apart _ _ _ _ _ _ (by simpa [here] using mine) made equal).2
      · exact other (stands.apart _ _ _ _ _ _ others made equal).1
  | remove clean made seen =>
    obtain ⟨_,_,names⟩ := exec_unlink answered
    exact removed made names
  | vanish clean made gone =>
    refine still (same ?_) fun _ _ => drop_sub
    cases c with
    | lstat q => exact (exec_still rfl answered).1
    | unlink q =>
      obtain ⟨_,rfl⟩ := gone
      exact failed answered
    | _ => exact gone.elim
  | linkCommit clean unforced member mine finished => exact still (added (exec_linkat answered).2.2) fun _ _ => id
  | noReplace clean unforced member made slot finished =>
    obtain ⟨_,absent,n,_,names⟩ := exec_noreplace answered
    refine moved made (.inr ⟨?_,names⟩) (fun _ _ => drop_sub) (by simp)
    simp [absent]
  | linkAlso clean unforced member made finished =>
    obtain ⟨_,_,n,_,names⟩ := exec_link answered
    exact still (added names) fun _ _ => id
  | overHolder blocked clean unforced member made slot holder just finished =>
    obtain ⟨_,n,_,names⟩ := exec_rename answered
    exact moved made names (fun _ _ found => (update_none (update_none found).2).2) (by simp)
  | force blocked clean forced member made temp room slot other backed finished =>
    obtain ⟨_,n,_,names⟩ := exec_rename answered
    exact moved made names (fun _ _ found => (update_none (update_none found).2).2) (by simp)
  | exchange blocked clean forced member made temp room slot other old backed finished =>
    rename_i j t p n o
    obtain ⟨_,n',o',_,_,names⟩ := exec_exchange answered
    refine stands.next (fun j' r found => ?_) (fun j' r found twinned => ?_) fun i' j' r found there _ => ?_
    · by_cases here : j' = j
      · subst here
        obtain rfl : _ = r := by simpa using found
        exact ⟨n,.temp,made,by simp⟩
      · dsimp only at found
        rw [update_of_ne here] at found
        exact ⟨r.ino,r.role,(update_none found).2,id⟩
    · by_cases here : j' = j
      · subst here
        obtain rfl : _ = r := by simpa using found
        simp at twinned
      · dsimp only at found
        rw [update_of_ne here] at found
        exact stands.twinned i j' r (update_none found).2 twinned
    · rw [names]
      split
      · simp
      · split
        · simp
        · exact there
  | mkdir parent => exact still (added (exec_mkdir answered).2.2.2) fun _ _ => id

/-- A step on the memory of a run takes no name. -/
theorem stands_mem {m' : Memory} (stands : Stands res k g) (step : Step (g i) m m' b) : Stands res k (update g i b) := by
  have sub : (∀ j r, b.live j = some r → (g i).live j = some r) → Stands res k (update g i b) :=
    fun sub => stands.fewer sub fun _ _ _ _ there _ => there
  cases step with
  | settle | keep | keepOld => exact sub fun _ _ => drop_sub
  | arm clean made text room slot whole =>
    rename_i j s r
    -- The name that was on its way is in its slot now.
    have before : ∀ {i' j' r'}, (update g i { g i with live := update (update (g i).live FRESH none) j (some r) } i').live j' = some r' →
        ∃ j'', (g i').live j'' = some r' ∧ (i' = i ∧ j' = j ∧ j'' = FRESH ∨ j'' = j' ∧ ¬(i' = i ∧ j' = FRESH)) := by
      intro i' j' r' found
      rcases live_update found with ⟨rfl,mine⟩ | ⟨other,others⟩
      · by_cases here : j' = j
        · subst here
          obtain rfl : r = r' := by simpa using mine
          exact ⟨FRESH,made,.inl ⟨rfl,rfl,rfl⟩⟩
        · dsimp only at mine
          rw [update_of_ne here] at mine
          obtain ⟨fresh,was⟩ := update_none mine
          exact ⟨j',was,.inr ⟨rfl,fun both => fresh both.2⟩⟩
      · exact ⟨j',others,.inr ⟨rfl,fun both => other both.1⟩⟩
    constructor
    · intro i' j' r' found untwinned
      obtain ⟨j'',was,_⟩ := before found
      exact stands.there i' j'' r' was untwinned
    · intro i' j' r' found twinned
      obtain ⟨j'',was,⟨rfl,rfl,rfl⟩ | ⟨rfl,_⟩⟩ := before found
      · exact absurd (stands.twinned _ _ _ was twinned) (by decide)
      · exact stands.twinned _ _ _ was twinned
    · intro i₁ j₁ r₁ i₂ j₂ r₂ one two equal
      obtain ⟨k₁,was₁,is₁⟩ := before one
      obtain ⟨k₂,was₂,is₂⟩ := before two
      obtain ⟨rfl,rfl⟩ := stands.apart _ _ _ _ _ _ was₁ was₂ equal
      refine ⟨rfl,?_⟩
      rcases is₁ with ⟨mine,rfl,rfl⟩ | ⟨rfl,unfresh₁⟩
      · rcases is₂ with ⟨_,rfl,_⟩ | ⟨rfl,unfresh₂⟩
        · rfl
        · exact absurd ⟨mine,rfl⟩ unfresh₂
      · rcases is₂ with ⟨mine,rfl,rfl⟩ | ⟨rfl,_⟩
        · exact absurd ⟨mine,rfl⟩ unfresh₁
        · rfl
  | _ => exact sub fun _ _ => id

end Newfile.Standing
