import Newfile.Races
import Newfile.Traces

/-!
Runs that a signal ends. Where signals are not blocked every name that a run has made
and not settled is in a slot, so that the handler leaves nothing behind that it could
remove; and what is in a slot that is out of date is not at a name of anybody else, so
that the handler takes nothing that was there before or is there for good.
-/
namespace Newfile.Interrupts
open Newfile.Program Newfile.Posix Newfile.Process Newfile.Pending Newfile.Place Newfile.Backup Newfile.Batch Newfile.Traces
open Newfile.Effects Newfile.Simulation Newfile.Ledger Newfile.Batches Newfile.Evidence Newfile.Answers Newfile.Crowds Newfile.Agreement
open Newfile.Files Newfile.Veiled Newfile.Tree Newfile.Races Function

/-! ## The handler -/

section
variable {res : Path → Ino} {k k' : Kernel} {m : Memory} {h : List (Event posix)} {q : Path} {n : Ino} {spins : Prop}

/-- A look at the name has failed, or its removal, and not because it was gone. -/
def Refused (evs : List (Event posix)) (q : Path) : Prop :=
  ∃ e, e ≠ .ENOENT ∧ (⟨.lstat q,.error e⟩ ∈ evs ∨ ⟨.unlink q,.error e⟩ ∈ evs)

theorem Refused.mono {evs evs' : List (Event posix)} (more : evs ⊆ evs') (refused : Refused evs q) : Refused evs' q := by
  obtain ⟨e,other,call⟩ := refused
  exact ⟨e,other,call.imp (more ·) (more ·)⟩

/-- Names have gone, but none that the memory has in no slot. -/
def Fewer (res : Path → Ino) (m : Memory) (k k' : Kernel) : Prop :=
  ∀ e, k'.names.get e = k.names.get e ∨
    k'.names.get e = none ∧ ∃ j q n, armed m j = some (q,n) ∧ e = entry res q ∧ k.names.get e = some n

theorem Fewer.trans {k'' : Kernel} (one : Fewer res m k k') (two : Fewer res m k' k'') : Fewer res m k k'' := by
  intro e
  rcases two e with same | ⟨gone,j,q,n,slot,here,there⟩
  · rw [same]
    exact one e
  · rcases one e with same | ⟨gone',_⟩
    · exact .inr ⟨gone,j,q,n,slot,here,same ▸ there⟩
    · simp [gone'] at there

/-- What is there was there before. -/
theorem Fewer.before (fewer : Fewer res m k k') {e : Entry} (there : k'.names.get e = some n) : k.names.get e = some n := by
  rcases fewer e with same | ⟨gone,_⟩
  · rwa [← same]
  · simp [gone] at there

theorem remove_ours_names {j : Nat} (slot : armed m j = some (q,n)) :
    wp (logged (exec res)) spins (remove_ours q n) (fun _ s m' => m' = m ∧ h ⊆ s.2 ∧ Fewer res m k s.1 ∧
      (s.1.names.get (entry res q) = some n → Refused s.2 q)) (k,h) m := by
  have still : ∀ {k' : Kernel}, k'.names = k.names → Fewer res m k k' := fun same e => .inl (by rw [same])
  rw [remove_ours]
  refine wp_asked fun r k₁ answered => ?_
  cases r with
  | error e =>
    obtain ⟨may,names,_⟩ := exec_error answered
    refine ⟨rfl,List.subset_cons_self _ _,still names,fun there => ⟨e,?_,.inl (List.mem_cons_self)⟩⟩
    rintro rfl
    have absent : (k.names.get (entry res q)).isNone = true := may
    rw [show k₁.names = k.names from names] at there
    simp [there] at absent
  | ok st =>
    have names : k₁.names = k.names := (exec_still rfl answered).1
    have seen := exec_lstat answered
    dsimp only
    by_cases other : st.ino ≠ n
    · rw [if_pos other]
      refine ⟨rfl,List.subset_cons_self _ _,still names,fun there => absurd ?_ other⟩
      rw [show (k₁,_).1.names = k.names from names,seen] at there
      exact Option.some.inj there
    · rw [if_neg other]
      obtain rfl : st.ino = n := not_not.mp other
      refine wp_asked fun r k₂ answered₂ => ?_
      have more : h ⊆ ⟨.unlink q,r⟩ :: ⟨.lstat q,.ok st⟩ :: h := List.subset_cons_of_subset _ (List.subset_cons_self _ _)
      cases r with
      | error e =>
        obtain ⟨may,names₂,_⟩ := exec_error answered₂
        refine ⟨rfl,more,still (names₂.trans names),fun there => ⟨e,?_,.inr List.mem_cons_self⟩⟩
        rintro rfl
        have absent : (k₁.names.get (entry res q)).isNone = true := may
        rw [show (k₂,_).1.names = k₁.names from names₂] at there
        simp [there] at absent
      | ok _ =>
        obtain ⟨_,_,names₂⟩ := exec_unlink answered₂
        refine ⟨rfl,more,fun e => ?_,fun there => ?_⟩
        · dsimp only
          by_cases here : e = entry res q
          · exact .inr ⟨by rw [names₂,if_pos here],j,q,st.ino,slot,here,by rw [here,seen]⟩
          · exact .inl (by rw [names₂,if_neg here,names])
        · dsimp only at there
          simp [names₂] at there

theorem cleanupFrom_names (rounds : Nat) : ∀ (first : Nat) (k : Kernel) (h : List (Event posix)),
    wp (logged (exec res)) spins (cleanupFrom rounds first) (fun _ s m' => m' = m ∧ h ⊆ s.2 ∧ Fewer res m k s.1 ∧
      ∀ j q n, first ≤ j → j < first+rounds → armed m j = some (q,n) → s.1.names.get (entry res q) = some n → Refused s.2 q) (k,h) m := by
  induction rounds with
  | zero =>
    intro first k h
    exact ⟨rfl,List.Subset.refl _,fun e => .inl rfl,fun j _ _ low high => by omega⟩
  | succ rounds ih =>
    intro first k h
    rw [cleanupFrom,wp_bind,wp_get]
    cases found : (m.pending first).path with
    | none =>
      dsimp only
      refine wp_mono (ih (first+1) k h) ?_
      rintro _ s m' ⟨rfl,more,fewer,gone⟩
      refine ⟨rfl,more,fewer,fun j q n low high slot there => gone j q n ?_ (by omega) slot there⟩
      rcases Nat.eq_or_lt_of_le low with rfl | above
      · simp [armed,found] at slot
      · exact above
    | some path =>
      dsimp only
      have slot : armed m first = some (path.text,(m.pending first).ino) := by simp [armed,found]
      refine wp_seq (remove_ours_names (h := h) slot) ?_
      rintro _ ⟨k₁,h₁⟩ m₁ ⟨rfl,more,fewer,gone⟩
      refine wp_mono (ih (first+1) k₁ h₁) ?_
      rintro _ s m' ⟨rfl,more',fewer',gone'⟩
      refine ⟨rfl,List.Subset.trans more more',fewer.trans fewer',fun j q n low high slot' there => ?_⟩
      rcases Nat.eq_or_lt_of_le low with rfl | above
      · obtain ⟨rfl,rfl⟩ : path.text = q ∧ _ = n := by simpa [slot] using slot'
        exact (gone (fewer'.before there)).mono more'
      · exact gone' j q n above (by omega) slot' there

/-- What the handler leaves of the names. -/
theorem cleanup_names {evs : List (Event posix)} {m' : Memory} (handled : Run (exec res) ⟨cleanup_handler,k,m⟩ evs ⟨.ret (),k',m'⟩) :
    Fewer res m k k' ∧ ∀ j q n, j < PENDING_SLOTS → armed m j = some (q,n) → k'.names.get (entry res q) = some n → Refused evs q := by
  obtain ⟨_,after⟩ := wp_trace (cleanupFrom_names PENDING_SLOTS 0 k []) handled
  obtain ⟨_,_,fewer,gone⟩ := after () rfl
  refine ⟨fewer,fun j q n high slot there => ?_⟩
  exact (gone j q n (Nat.zero_le _) (by simpa using high) slot there).mono (by simp)

end

/-! ## The slots of a run -/

section
variable {paths : List Path} {spec : FileSpec} {evs : List (Event posix)} {m m' : Memory} {g g' : Book} {c : Call} {r : posix.Res c}
  {j : Nat}

/-- A slot becomes out of date by a call that takes its name, or gives its file the name of an operand. -/
theorem move_lag (move : Move paths spec evs g m c r g') (unblocked : m.blocked = false) (late : j ∈ g'.lag) :
    (j ∈ g.lag ∧ ∀ p n, .file p n ∈ g'.trail → .file p n ∈ g.trail) ∨
      g.lag = [] ∧ ∃ rec, g.live j = some rec ∧ ∀ p n, .file p n ∈ g'.trail →
        .file p n ∈ g.trail ∨ c = .rename_noreplace rec.path p ∧ r.isOk = true := by
  have dropped : ∀ {i rec}, g.lag = [] → g.live i = some rec → g'.lag = (g.drop i).lag →
      (∀ p n, .file p n ∈ g'.trail → .file p n ∈ g.trail ∨ c = .rename_noreplace rec.path p ∧ r.isOk = true) →
      g.lag = [] ∧ ∃ rec, g.live j = some rec ∧ ∀ p n, .file p n ∈ g'.trail →
        .file p n ∈ g.trail ∨ c = .rename_noreplace rec.path p ∧ r.isOk = true := by
    intro i rec clean made lag files
    rw [lag] at late
    have here : j = i := by
      by_cases fresh : i = FRESH
      · simp [Book.drop,fresh] at late
      · simpa [Book.drop,fresh] using late
    exact ⟨clean,rec,here ▸ made,files⟩
  cases move with
  | create blocked | tempLink blocked | backLink blocked | twinLink blocked | overHolder blocked | force blocked | exchange blocked =>
    simp [blocked] at unblocked
  | rollback made clean => exact .inr (dropped clean made rfl fun _ _ was => .inl was)
  | lose made clean => exact .inr (dropped clean made rfl fun p n was => .inl (by simpa using was))
  | remove clean made => exact .inr (dropped clean made rfl fun _ _ was => .inl was)
  | vanish clean made => exact .inr (dropped clean made rfl fun _ _ was => .inl was)
  | noReplace clean unforced member made slot finished =>
    refine .inr (dropped clean made rfl fun p n was => ?_)
    rcases List.mem_cons.mp was with same | before
    · obtain ⟨rfl,rfl⟩ : p = _ ∧ n = _ := by simpa using same
      exact .inr ⟨rfl,rfl⟩
    · exact .inl before
  | linkCommit clean => simp [clean] at late
  | linkAlso clean => simp [clean] at late
  | twinMove room clean => simp [clean] at late
  | mkdir => exact .inl ⟨late,fun p n was => by simpa using was⟩
  | _ => exact .inl ⟨late,fun _ _ was => was⟩

/-- What is in a slot after a step was there before, or was just armed with a name of the ledger. -/
theorem step_armed (step : Step g m m' g') {q : Path} {n : Ino} (slot : armed m' j = some (q,n)) :
    armed m j = some (q,n) ∨ ∃ i rec, g.live i = some rec ∧ rec.path = q ∧ rec.ino = n ∧
      (j < PENDING_SLOTS ∨ (m.pending j).path.isSome = true) := by
  have same : m'.pending = m.pending → armed m j = some (q,n) := fun pending => by rwa [armed,← pending]
  have cleared : ∀ {i}, m' = Memory.setPending m i ⟨none,(m.pending i).ino⟩ → armed m j = some (q,n) := by
    rintro i rfl
    by_cases here : j = i
    · simp [armed,Memory.setPending,here] at slot
    · simpa [armed,Memory.setPending,here] using slot
  cases step with
  | quiet same' => exact .inl (same same'.pending)
  | arm clean made text room inside whole =>
    rename_i i s rec
    by_cases here : j = i
    · obtain ⟨rfl,rfl⟩ : s.text = q ∧ rec.ino = n := by simpa [armed,Memory.setPending,here] using slot
      exact .inr ⟨_,rec,made,text.symm,rfl,.inl (here ▸ inside)⟩
    · exact .inl (by simpa [armed,Memory.setPending,here] using slot)
  | retarget made was text =>
    rename_i i s rec
    by_cases here : j = i
    · obtain ⟨rfl,rfl⟩ : s.text = q ∧ rec.ino = n := by simpa [armed,Memory.setPending,here,was] using slot
      exact .inr ⟨_,rec,made,text.symm,rfl,.inr (by simp [here,was])⟩
    · exact .inl (by simpa [armed,Memory.setPending,here] using slot)
  | clear => exact .inl (cleared rfl)
  | settle => exact .inl (cleared rfl)
  | _ => exact .inl (same rfl)

/-- A step leaves a slot out of date, or its name is told of as left behind. -/
theorem step_lag (step : Step g m m' g') (unblocked : m'.blocked = false) (late : j ∈ g'.lag) :
    armed m' j = armed m j ∧ (∀ p n, .file p n ∈ g'.trail → .file p n ∈ g.trail) ∧
      (j ∈ g.lag ∧ m.blocked = false ∨ g.lag = [] ∧ ∃ rec, g.live j = some rec) := by
  have filtered : ∀ {i}, j ∈ g.lag.filter (· ≠ i) → j ∈ g.lag ∧ j ≠ i := by
    intro i member
    simpa using member
  have dropped : ∀ {i rec}, g.lag = [] → g.live i = some rec → j ∈ (g.drop i).lag → g.lag = [] ∧ ∃ rec, g.live j = some rec := by
    intro i rec clean made member
    have here : j = i := by
      by_cases fresh : i = FRESH
      · simp [Book.drop,fresh] at member
      · simpa [Book.drop,fresh] using member
    exact ⟨clean,rec,here ▸ made⟩
  cases step with
  | quiet same => exact ⟨by rw [armed,armed,same.pending],fun _ _ was => was,.inl ⟨late,same.blocked ▸ unblocked⟩⟩
  | hold => simp at unblocked
  | release closed =>
    obtain ⟨_,clean⟩ := closed unblocked
    simp [clean] at late
  | arm clean => simp [clean] at late
  | settle => simp at late
  | retarget =>
    obtain ⟨was,other⟩ := filtered late
    exact ⟨by simp [armed,Memory.setPending,other],fun _ _ was => was,.inl ⟨was,unblocked⟩⟩
  | clear =>
    obtain ⟨was,other⟩ := filtered late
    exact ⟨by simp [armed,Memory.setPending,other],fun _ _ was => was,.inl ⟨was,unblocked⟩⟩
  | keep clean made => exact ⟨rfl,fun p n was => by simpa using was,.inr (dropped clean made late)⟩
  | keepOld clean made => exact ⟨rfl,fun p n was => by simpa using was,.inr (dropped clean made late)⟩
  | _ => exact ⟨rfl,fun _ _ was => was,.inl ⟨late,unblocked⟩⟩

end

section
variable {res : Path → Ino} {k k' : Kernel} {evs : List (Event posix)} {c : Call} {r : posix.Res c} {n : Ino}

theorem exec_next (answered : exec res k c r k') : k.next ≤ k'.next := by
  rcases exec_cases answered with ⟨e,_,rfl,rfl⟩ | ⟨hints,x,found,rfl,rfl⟩
  · cases c <;> exact Nat.le_refl _
  · cases c <;> simp only [answer] at found
    all_goals
      repeat' split at found
    all_goals first
      | (obtain rfl := Option.some.inj found; first | exact Nat.le_refl _ | exact Nat.le_succ _)
      | simp at found

/-- A call makes a file that was not there. -/
theorem made_snoc (answered : exec res k c r k') (made : Made (evs ++ [⟨c,r⟩]) n) : Made evs n ∨ n = k.next ∧ n < k'.next := by
  have last : ∀ {e : Event posix}, e ∈ evs ++ [⟨c,r⟩] → e ∈ evs ∨ e = ⟨c,r⟩ := by simp
  obtain ⟨fd,rfl,⟨q,mode,call⟩ | ⟨d,mode,call⟩⟩ := made
  · rcases last call with before | same
    · exact .inl ⟨fd,rfl,.inl ⟨q,mode,before⟩⟩
    · obtain ⟨rfl,same⟩ := Event.mk.inj same
      obtain rfl := eq_of_heq same
      obtain ⟨makes,_⟩ := exec_open_excl answered
      exact .inr ⟨makes.ino,by rw [makes.ino,makes.next]; exact Nat.lt_succ_self _⟩
  · rcases last call with before | same
    · exact .inl ⟨fd,rfl,.inr ⟨d,mode,before⟩⟩
    · obtain ⟨rfl,same⟩ := Event.mk.inj same
      obtain rfl := eq_of_heq same
      obtain ⟨makes,_⟩ := exec_open_tmpfile answered
      exact .inr ⟨makes.ino,by rw [makes.ino,makes.next]; exact Nat.lt_succ_self _⟩

end

section
variable {ι : Type} [DecidableEq ι] {res : Path → Ino} {paths : ι → List Path} {spec : ι → FileSpec} {k₀ k k' : Kernel} {m : ι → Memory}
  {g : ι → Book} {evs : List (ι × Event posix)} {i : ι} {b : Book}

/-- What is in the slots of runs: names that were not there at the start, and where a slot is out of date, a name that
    is at no operand that has got its file. -/
structure Slotted (res : Path → Ino) (spec : ι → FileSpec) (k₀ : Kernel) (evs : List (ι × Event posix)) (k : Kernel)
    (m : ι → Memory) (g : ι → Book) : Prop where
  made : ∀ i n, Made (own i evs) n → n < k.next
  once : ∀ i i' n, Made (own i evs) n → Made (own i' evs) n → i = i'
  inside : ∀ i j q n, armed (m i) j = some (q,n) → j < PENDING_SLOTS ∧ k₀.names.get (entry res q) = none
  past : ∀ i j q n, (m i).blocked = false → j ∈ (g i).lag → armed (m i) j = some (q,n) →
    ((spec i).force_mode = false → Made (own i evs) n) ∧ ∀ p n', .file p n' ∈ (g i).trail → entry res q ≠ entry res p
  named : ∀ i p, .named p ∈ (m i).told → ∃ n, .file p n ∈ (g i).trail

omit [DecidableEq ι] in
/-- A name of the ledger is at no operand that has got its file. -/
theorem live_apart (rooted : Rooted res spec k₀ k g) (company : Company res paths spec) (inv : ∀ i, Inv (paths i) (spec i) (m i) (g i))
    {j : Nat} {r : Rec} (live : (g i).live j = some r) {i' : ι} {p : Path} {n : Ino} (done : .file p n ∈ (g i').trail) :
    entry res r.path ≠ entry res p := by
  by_cases forced : (spec i').force_mode = true
  · obtain rfl := company.alone i' forced i
    exact company.forced_entry forced ((inv i).shape j r live) ((inv i).trail _ done).1
  · exact (rooted.done i' p n done (by simpa using forced)).2.2 i j r live

/-- A run without `-f` has made the file of every name in its ledger. -/
theorem live_made {paths : List Path} {spec : FileSpec} {m : Memory} {g : Book} {evs : List (Event posix)} (inv : Inv paths spec m g)
    (evident : Evident spec evs g) {j : Nat} {r : Rec} (live : g.live j = some r) (unforced : spec.force_mode = false) :
    Made evs r.ino := by
  refine (evident.live j r live).made fun old => ?_
  have shape := inv.shape j r live
  obtain ⟨q,n,role⟩ := r
  cases role with
  | backup =>
    obtain ⟨_,_,_,forced⟩ := shape
    simp [unforced] at forced
  | spare | twin | twinned => simp [shape.2] at unforced
  | _ => exact old.elim

theorem armed_synced {paths : List Path} {spec : FileSpec} {m : Memory} {g : Book} (inv : Inv paths spec m g) {j : Nat} (inside : j < PENDING_SLOTS)
    (current : j ∉ g.lag) {q : Path} {n : Ino} (slot : armed m j = some (q,n)) : ∃ role, g.live j = some ⟨q,n,role⟩ := by
  rw [inv.synced j inside.ne current] at slot
  cases live : g.live j with
  | none => simp [live] at slot
  | some r =>
    obtain ⟨rfl,rfl⟩ : r.path = q ∧ r.ino = n := by simpa [live] using slot
    exact ⟨r.role,rfl⟩

theorem slotted_start {m : ι → Memory} (started : ∀ i, Started (m i)) : Slotted res spec k₀ [] k₀ m fun _ => {} where
  made := by simp [Evidence.Made]
  once := by simp [Evidence.Made]
  inside i j q n slot := by simp [armed,(started i).pending j] at slot
  past := by simp
  named i p told := by simp [(started i).told] at told

theorem slotted_call {c : Call} {r : posix.Res c} (slotted : Slotted res spec k₀ evs k m g) (rooted : Rooted res spec k₀ k g)
    (company : Company res paths spec) (inv : ∀ i, Inv (paths i) (spec i) (m i) (g i))
    (evident : ∀ i, Evident (spec i) (own i evs) (g i)) (answered : exec res k c r k')
    (move : Move (paths i) (spec i) (own i evs) (g i) (m i) c r b) :
    Slotted res spec k₀ (evs ++ [(i,⟨c,r⟩)]) k' m (update g i b) := by
  have fresh : ∀ {i' n}, Made (own i' (evs ++ [(i,⟨c,r⟩)])) n → Made (own i' evs) n ∨ i' = i ∧ n = k.next ∧ n < k'.next := by
    intro i' n made
    rw [own_append] at made
    by_cases mine : i = i'
    · subst mine
      rw [own_self] at made
      exact (made_snoc answered made).imp id fun now => ⟨rfl,now⟩
    · rw [own_other mine,List.append_nil] at made
      exact .inl made
  have more : ∀ {i' n}, Made (own i' evs) n → Made (own i' (evs ++ [(i,⟨c,r⟩)])) n := by
    intro i' n made
    rw [own_append]
    exact made.mono (List.subset_append_left _ _)
  constructor
  · intro i' n made
    rcases fresh made with before | ⟨_,_,now⟩
    · exact Nat.lt_of_lt_of_le (slotted.made i' n before) (exec_next answered)
    · exact now
  · intro i₁ i₂ n one two
    rcases fresh one with was₁ | ⟨rfl,rfl,_⟩
    · rcases fresh two with was₂ | ⟨rfl,rfl,_⟩
      · exact slotted.once i₁ i₂ n was₁ was₂
      · exact absurd (slotted.made i₁ _ was₁) (Nat.lt_irrefl _)
    · rcases fresh two with was₂ | ⟨rfl,_,_⟩
      · exact absurd (slotted.made i₂ _ was₂) (Nat.lt_irrefl _)
      · rfl
  · exact slotted.inside
  · intro i' j q n unblocked late slot
    by_cases mine : i' = i
    · subst mine
      rw [update_self] at late ⊢
      rcases move_lag move unblocked late with ⟨before,files⟩ | ⟨clean,rec,live,files⟩
      · obtain ⟨made,apart⟩ := slotted.past i' j q n unblocked before slot
        exact ⟨fun unforced => more (made unforced),fun p n' done => apart p n' (files p n' done)⟩
      · -- The slot was current, and the ledger has a name for it.
        obtain ⟨role,live'⟩ := armed_synced (inv i') (slotted.inside i' j q n slot).1 (by simp [clean]) slot
        obtain rfl := Option.some.inj (live'.symm.trans live)
        refine ⟨fun unforced => more (live_made (inv i') (evident i') live unforced),fun p n' done => ?_⟩
        rcases files p n' done with before | ⟨rfl,ok⟩
        · exact live_apart rooted company inv live before
        · cases r with
          | error e => simp [Except.isOk,Except.toBool] at ok
          | ok _ =>
            obtain ⟨_,absent,o,there,_⟩ := exec_noreplace answered
            intro same
            rw [← same] at absent
            exact Option.some_ne_none _ (there.symm.trans absent)
    · rw [update_of_ne mine] at late ⊢
      obtain ⟨made,apart⟩ := slotted.past i' j q n unblocked late slot
      exact ⟨fun unforced => more (made unforced),apart⟩
  · intro i' p told
    obtain ⟨n,done⟩ := slotted.named i' p told
    exact ⟨n,update_trail (move_trail move) done⟩

/-- Only names of operands that have got their files are told of. -/
theorem step_named {m m' : Memory} {g g' : Book} (step : Step g m m' g') {p : Path} (told : .named p ∈ m'.told) :
    .named p ∈ m.told ∨ ∃ n, .file p n ∈ g.trail := by
  cases step with
  | quiet same => exact .inl (same.told ▸ told)
  | named done =>
    rcases List.mem_cons.mp told with here | before
    · obtain rfl : p = _ := by simpa using here
      exact .inr done
    · exact .inl before
  | dropping => exact .inl (by simpa using told)
  | report => exact .inl (by simpa using told)
  | _ => exact .inl told

theorem slotted_mem {m' : Memory} (slotted : Slotted res spec k₀ evs k m g) (rooted : Rooted res spec k₀ k g)
    (company : Company res paths spec) (inv : ∀ i, Inv (paths i) (spec i) (m i) (g i)) (evident : ∀ i, Evident (spec i) (own i evs) (g i))
    (step : Step (g i) (m i) m' b) : Slotted res spec k₀ evs k (update m i m') (update g i b) := by
  constructor
  · exact slotted.made
  · exact slotted.once
  · intro i' j q n slot
    by_cases mine : i' = i
    · subst mine
      rw [update_self] at slot
      rcases step_armed step slot with before | ⟨j',rec,live,rfl,rfl,inside⟩
      · exact slotted.inside i' j q n before
      · refine ⟨inside.elim id fun was => ?_,rooted.new i' j' rec live⟩
        obtain ⟨s,found⟩ := Option.isSome_iff_exists.mp was
        exact (slotted.inside i' j s.text _ (by rw [armed,found]; rfl)).1
    · rw [update_of_ne mine] at slot
      exact slotted.inside i' j q n slot
  · intro i' j q n unblocked late slot
    by_cases mine : i' = i
    · subst mine
      rw [update_self] at unblocked late slot ⊢
      obtain ⟨same,files,before | ⟨clean,rec,live⟩⟩ := step_lag step unblocked late
      · obtain ⟨made,apart⟩ := slotted.past i' j q n before.2 before.1 (same ▸ slot)
        exact ⟨made,fun p n' done => apart p n' (files p n' done)⟩
      · rw [same] at slot
        obtain ⟨role,live'⟩ := armed_synced (inv i') (slotted.inside i' j q n slot).1 (by simp [clean]) slot
        obtain rfl := Option.some.inj (live'.symm.trans live)
        exact ⟨fun unforced => live_made (inv i') (evident i') live unforced,
          fun p n' done => live_apart rooted company inv live (files p n' done)⟩
    · rw [update_of_ne mine] at unblocked late slot ⊢
      exact slotted.past i' j q n unblocked late slot
  · intro i' p told
    by_cases mine : i' = i
    · subst mine
      rw [update_self] at told
      rcases step_named step told with before | ⟨n,done⟩
      · obtain ⟨n,done⟩ := slotted.named i' p before
        exact ⟨n,update_trail (step_trail step) done⟩
      · exact ⟨n,update_trail (step_trail step) done⟩
    · rw [update_of_ne mine] at told
      obtain ⟨n,done⟩ := slotted.named i' p told
      exact ⟨n,update_trail (step_trail step) done⟩

end

/-! ## Interrupted runs -/

section
variable {ι : Type} [DecidableEq ι] {res : Path → Ino} {paths : ι → List Path} {spec : ι → FileSpec} {fuel : ι → Nat}
  {s t : Crowd ι posix Kernel Memory Bool} {trace : List (ι × Event posix)} {i : ι} {evs : List (Event posix)} {k' : Kernel} {m' : Memory}

theorem ready_slotted (company : Company res paths spec) (sound : Sound res s.kernel) (ready : Ready fuel paths spec s)
    (runs : Runs (exec res) s trace t) :
    ∃ g, Underway res paths spec (fun evs k m g => Kempt res paths spec s.kernel evs k g ∧ Slotted res spec s.kernel evs k m g) trace t g := by
  have start : Underway res paths spec (fun evs k m g => Kempt res paths spec s.kernel evs k g ∧ Slotted res spec s.kernel evs k m g)
      [] s fun _ => {} := ready.underway ⟨⟨guarded_start sound,rooted_start _⟩,slotted_start ready.memory⟩
  simpa using start.runs company runs
    (fun more holds inv evident answered move => ⟨kempt_call more.1 company sound.dirs holds inv move answered,
      slotted_call more.2 more.1.2 company inv evident answered move⟩)
    fun more holds inv evident step => ⟨kempt_mem more.1 company holds inv step,slotted_mem more.2 more.1.2 company inv evident step⟩

/-- A run interrupted just after it has opened a plain file. -/
def sampleCaught : Config posix Kernel Memory Bool := sampleEnd "a".toList {} (List.replicate 4 .done)

theorem sample_handled : ∃ evs k' m', Run (exec fun _ => 0) ⟨cleanup_handler,sampleCaught.kernel,sampleCaught.memory⟩ evs ⟨.ret (),k',m'⟩ ∧
    k'.names.get (0,"b".toList) = some 1 := by
  obtain ⟨evs,handled⟩ := play_run (step fun _ => 0) cleanup_handler sampleCaught.kernel sampleCaught.memory [.done,.done]
  generalize ends : play (step fun _ => 0) cleanup_handler sampleCaught.kernel sampleCaught.memory [.done,.done] = t at handled
  obtain ⟨prog,k',m'⟩ := t
  have back : prog = .ret () := by
    refine (congrArg Config.prog ends).symm.trans (returned_ret ?_)
    decide +kernel
  subst back
  refine ⟨evs,k',m',handled,?_⟩
  obtain rfl : _ = k' := congrArg Config.kernel ends
  decide +kernel

/-- The handler touches no name that was there before the run, and no operand of any run that was told of as named: it
    refers to the finished file as before. -/
theorem interrupted_kept (company : Company res paths spec) (sound : Sound res s.kernel) (ready : Ready fuel paths spec s)
    (runs : Runs (exec res) s trace t) (unblocked : (t.memory i).blocked = false)
    (handled : Run (exec res) ⟨cleanup_handler,t.kernel,t.memory i⟩ evs ⟨.ret (),k',m'⟩) :
    (∀ e n, s.kernel.names.get e = some n → k'.names.get e = t.kernel.names.get e) ∧
      ∀ j p, .named p ∈ (t.memory j).told → ∃ n, t.kernel.names.get (entry res p) = some n ∧ k'.names.get (entry res p) = some n ∧
        Done (spec j) (own j trace) n := by
  obtain ⟨g,underway⟩ := ready_slotted company sound ready runs
  obtain ⟨⟨_,rooted⟩,slotted⟩ := underway.more
  obtain ⟨fewer,_⟩ := cleanup_names handled
  constructor
  · intro e n was
    rcases fewer e with same | ⟨_,j,q,n',slot,rfl,_⟩
    · exact same
    · simp [(slotted.inside i j q n' slot).2] at was
  · intro i' p told
    obtain ⟨n',done⟩ := slotted.named i' p told
    obtain ⟨p',n,latest,_,there⟩ := rooted.put i' p n' done
    have finished := ((underway.evident i').deeds _ latest).1
    refine ⟨n,there,?_,finished⟩
    rcases fewer (entry res p) with same | ⟨_,j,q,o,slot,here,was⟩
    · rw [same,there]
    · exfalso
      obtain rfl : n = o := Option.some.inj (there.symm.trans was)
      by_cases late : j ∈ (g i).lag
      · obtain ⟨made,apart⟩ := slotted.past i j q n unblocked late slot
        by_cases mine : i' = i
        · subst mine
          exact apart p n' done here.symm
        · -- Runs without `-f`, and the file is of both.
          have unforced : (spec i).force_mode = false := by
            by_contra replacing
            exact mine (company.alone i (by simpa using replacing) i')
          exact mine (slotted.once i' i n finished.1 (made unforced))
      · obtain ⟨role,live⟩ := armed_synced (underway.inv i) (slotted.inside i j q n slot).1 late slot
        exact live_apart rooted company underway.inv live done here.symm

theorem interrupted_kept_sample : ∃ evs k' m', Run (exec fun _ => 0) ⟨cleanup_handler,sampleCaught.kernel,sampleCaught.memory⟩ evs ⟨.ret (),k',m'⟩ ∧
    ∀ e n, sampleKernel.names.get e = some n → k'.names.get e = sampleCaught.kernel.names.get e := by
  obtain ⟨trace,runs⟩ := sample_runs "a".toList {} (List.replicate 4 .done)
  obtain ⟨evs,k',m',handled,_⟩ := sample_handled
  refine ⟨evs,k',m',handled,?_⟩
  have unblocked : sampleCaught.memory.blocked = false := by decide +kernel
  exact (interrupted_kept (i := ()) (company_unforced fun _ => rfl) sample_sound (sample_ready _ _) runs unblocked handled).1

end

end Newfile.Interrupts
