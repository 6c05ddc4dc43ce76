import Newfile.Places
import Newfile.Quiet

/-!
The parts of the program that open, close or fill a table: each leaves the books in
order, with no more descriptors open than before.
-/
namespace Newfile.Accounts
open Newfile.Program Newfile.Posix Newfile.Process Newfile.Pending Newfile.Fastio Newfile.Flush
open Newfile.Place Newfile.Backup Newfile.Batch Newfile.Calls Newfile.Books Newfile.Quiet Newfile.Walks

variable {α β ε : Type} {T : Terms} {base : List Nat} {start k : Book} {told : List (Path × Bool)} {m : Memory}

/-- Every state on the way is within the bounds, and a return is as `Q` says. -/
abbrev Always (T : Terms) (p : P α) (Q : α → Book → Memory → Prop) : Book → Memory → Prop :=
  always (books T.limit T.image T.steady) (Within T.batch) p Q

/-- Books in order are left in order. -/
def Tends (T : Terms) (p : P α) : Prop :=
  ∀ ⦃base start told k m⦄, base.length ≤ T.batch+1 → Tidy T base start told k m →
    Always T p (fun _ k' m' => Tidy T base start told k' m') k m

theorem tends_calm {p : P α} (calm : ∀ own, Calm own p) : Tends T p := fun _ _ _ _ _ _ tidy =>
  always_plain (calm _) tidy

theorem tends_pure (a : α) : Tends T (pure a : P α) := fun _ _ _ _ _ _ tidy => always_pure tidy.within tidy

theorem tends_bind {p : P α} {f : α → P β} (first : Tends T p) (rest : ∀ a, Tends T (f a)) : Tends T (p >>= f) :=
  fun _ _ _ _ _ few tidy => always_seq (first few tidy) fun a _ _ tidy => rest a few tidy

theorem handles_tends : Handles fun _ p => Tends T p := by
  have calm : Handles fun _ p => uses (fun c => ∀ own, Plain own c) Still p :=
    handles_uses (fun {c} _ own => by cases c <;> trivial) still_tables
  exact calm.lift tends_bind fun plain => tends_calm fun own => uses_mono plain fun _ any => any own

theorem always_read {f : Memory → P β} {Q : β → Book → Memory → Prop} (tidy : Tidy T base start told k m)
    (rest : Always T (f m) Q k m) : Always T (get >>= f) Q k m := ⟨tidy.within,rest⟩

theorem always_allocate {f : Except Errno Unit → P β} {Q : β → Book → Memory → Prop} (tidy : Tidy T base start told k m)
    (rest : ∀ r, Always T (f r) Q k m) : Always T (allocate >>= f) Q k m := by
  refine ⟨tidy.within,fun r k' answered => ?_⟩
  obtain rfl : k' = k := by cases r <;> exact answered
  exact rest r

theorem Tidy.modify {f : Memory → Memory} {Q : Unit → Book → Memory → Prop} (tidy : Tidy T base start told k m)
    (inside : Within T.batch k (f m)) (done : Q () k (f m)) : Always T (modify f) Q k m :=
  always_modify tidy.within inside done

/-! ## Descriptors -/

theorem always_open_dir {dir : Path} {Q : Except Errno Fd → Book → Memory → Prop} (tidy : Tidy T base start told k m)
    (room : base.length ≤ 2*T.batch) (failed : ∀ e, Q (.error e) k m)
    (fine : ∀ fd k', Tidy T (fd.num :: base) start told k' m → Q (.ok fd) k' m) :
    Always T (perform (.open_dir dir)) Q k m := by
  refine always_sys tidy.within fun r k' answered => ?_
  cases r with
  | error e =>
    obtain rfl : k' = k := answered
    exact ⟨tidy.within,failed e⟩
  | ok fd =>
    have opened := tidy.opens room answered
    exact ⟨opened.within,fine fd k' opened⟩

theorem always_open_excl {path : Path} {mode : Mode} {Q : Except Errno Fd → Book → Memory → Prop}
    (tidy : Tidy T base start told k m) (room : base.length ≤ 2*T.batch) (failed : ∀ e, Q (.error e) k m)
    (fine : ∀ fd k', Tidy T (fd.num :: base) start told k' m → New start fd (created T.image (dirText path) mode) k' →
      Q (.ok fd) k' m) : Always T (perform (.open_excl path mode)) Q k m := by
  refine always_sys tidy.within fun r k' answered => ?_
  cases r with
  | error e =>
    obtain rfl : k' = k := answered
    exact ⟨tidy.within,failed e⟩
  | ok fd =>
    obtain ⟨made,new⟩ := tidy.makes room answered
    exact ⟨made.within,fine fd k' made new⟩

theorem always_close {fd : Fd} {Q : Except Errno Unit → Book → Memory → Prop}
    (tidy : Tidy T (fd.num :: base) start told k m) (fine : ∀ r k', Tidy T base start told k' m → Q r k' m) :
    Always T (perform (.close fd)) Q k m := by
  refine always_sys tidy.within fun r k' answered => ?_
  obtain rfl : k' = k.close fd := by cases r <;> exact answered
  have closed := Tidy.closed tidy
  exact ⟨closed.within,fine r _ closed⟩

theorem always_fstat {fd : Fd} {Q : Except Errno Stat → Book → Memory → Prop} (tidy : Tidy T base start told k m)
    (failed : ∀ e, Q (.error e) k m) (fine : ∀ st, (T.steady → st.mode = k.modes fd.ino) → Q (.ok st) k m) :
    Always T (perform (.fstat fd)) Q k m := by
  refine always_sys tidy.within fun r k' answered => ?_
  cases r with
  | error e =>
    obtain rfl : k' = k := answered
    exact ⟨tidy.within,failed e⟩
  | ok st =>
    obtain ⟨mode,rfl⟩ := answered
    exact ⟨tidy.within,fine st mode⟩

/-- What holds after a call that fails, and after one that opens a file. -/
def onOpen (failed : Prop) (fine : Fd → Prop) : Except Errno Fd → Prop
  | .error _ => failed
  | .ok fd => fine fd

/-- A program that closes what it holds. -/
def Closes (T : Terms) (fd : Fd) (p : P α) : Prop :=
  ∀ ⦃base start told k m⦄, base.length ≤ T.batch+1 → Tidy T (fd.num :: base) start told k m →
    Always T p (fun _ k' m' => Tidy T base start told k' m') k m

theorem closes_bind {fd : Fd} {p : P α} {f : α → P β} (first : ∀ own, Calm own p) (rest : ∀ a, Closes T fd (f a)) :
    Closes T fd (p >>= f) :=
  fun _ _ _ _ _ few tidy => always_seq (always_plain (first _) tidy) fun a _ _ tidy => rest a few tidy

theorem closes_close {fd : Fd} {f : Except Errno Unit → P β} (rest : ∀ r, Tends T (f r)) :
    Closes T fd (perform (.close fd) >>= f) :=
  fun _ _ _ _ _ few tidy => always_seq (always_close tidy fun _ _ tidy => tidy) fun r _ _ tidy => rest r few tidy

/-! ## Directories to flush -/

theorem flush_dir_tends (fuel : Nat) (dir : Path) : Tends T (flush_dir fuel dir) := by
  intro base start told k m few tidy
  refine always_seq (always_open_dir tidy (tidy.room few)
    (Q := fun r k' m' => onOpen (Tidy T base start told k' m') (fun fd => Tidy T (fd.num :: base) start told k' m') r)
    (fun e => tidy) fun fd k' tidy => tidy) fun r k' m' tidy => ?_
  cases r with
  | error e => exact tends_pure _ few tidy
  | ok fd =>
    refine closes_bind (fun own => sync_one_calm fd true fuel) (fun err => closes_close fun _ => ?_) few tidy
    cases err <;> exact tends_pure _

/-- A failure is counted, and kept while there is room. -/
theorem dir_failed_tidy (name : Path) (e : Errno) (known : Option Ino) (tidy : Tidy T base start told k m) :
    Always T (dir_failed name e known) (fun _ k' m' => Tidy T base start told k' m') k m := by
  have counted : ∀ m : Memory, Still m { m with dirs_nfailed := m.dirs_nfailed+1 } := fun _ => ⟨rfl,rfl,rfl,rfl,rfl,rfl⟩
  refine always_seq (always_plain (handles_calm.say _) tidy) fun _ k m tidy => ?_
  refine always_seq (always_plain (uses_modify counted) tidy) fun _ k m tidy => ?_
  refine always_read tidy ?_
  split
  · exact always_plain (uses_modify fun _ => ⟨rfl,rfl,rfl,rfl,rfl,rfl⟩) tidy
  · rename_i unfilled
    refine always_allocate tidy fun r => ?_
    cases r with
    | error e => exact always_plain (uses_modify fun _ => ⟨rfl,rfl,rfl,rfl,rfl,rfl⟩) tidy
    | ok _ =>
      have room : (m.failures ++ [(⟨name,known⟩ : DirFailure)]).length ≤ NEWFILE_BATCH := by
        have := tidy.failures
        simp only [List.length_append,List.length_singleton]
        omega
      have longer : Tidy T base start told k { m with failures := m.failures ++ [⟨name,known⟩] } :=
        { tidy with failures := room }
      exact Tidy.modify tidy longer.within longer

/-- The numbers of the directories that are open. -/
abbrev openNums (opened : List OpenDir) : List Nat := opened.map (·.fd.num)

theorem openDirs_tidy : ∀ (dirs : List Path) (opened : List OpenDir) {base start told k m}, base.length ≤ T.batch+1 →
    dirs.length+opened.length ≤ T.batch → Tidy T (openNums opened ++ base) start told k m →
    Always T (openDirs dirs opened) (fun opened k' m' => Tidy T (openNums opened ++ base) start told k' m') k m := by
  intro dirs
  induction dirs with
  | nil => exact fun opened _ _ _ _ _ _ _ tidy => always_pure tidy.within tidy
  | cons dir dirs ih =>
    intro opened base start told k m few room tidy
    simp only [List.length_cons] at room
    have length : (openNums opened ++ base).length ≤ 2*T.batch := by
      simp only [List.length_append,List.length_map]
      omega
    rw [openDirs]
    refine always_seq (always_open_dir tidy length
      (Q := fun r k' m' => onOpen (Tidy T (openNums opened ++ base) start told k' m')
        (fun fd => Tidy T (fd.num :: (openNums opened ++ base)) start told k' m') r)
      (fun e => tidy) fun fd k' tidy => tidy) fun r k' m' tidy => ?_
    cases r with
    | error e =>
      dsimp only
      split
      · exact always_seq (dir_failed_tidy _ _ _ tidy) fun _ _ _ tidy => ih opened few (by omega) tidy
      · exact ih opened few (by omega) tidy
    | ok fd =>
      have wider : ∀ {k m} known, Tidy T (fd.num :: (openNums opened ++ base)) start told k m →
          Tidy T (openNums (opened ++ [⟨dir,fd,known⟩]) ++ base) start told k m := by
        intro k m known tidy
        refine tidy.wider (fun n open_ => ?_) ?_
        · simp only [List.map_append,List.map_cons,List.map_nil,List.mem_append,List.mem_cons] at open_ ⊢
          tauto
        · simp only [List.length_append,List.length_map,List.length_singleton]
          omega
      have longer : ∀ known, dirs.length+(opened ++ [(⟨dir,fd,known⟩ : OpenDir)]).length ≤ T.batch := by
        intro known
        simp only [List.length_append,List.length_singleton]
        omega
      dsimp only
      refine always_seq (always_plain (uses_sys trivial) tidy) fun r k' m' tidy => ?_
      cases r with
      | error e => exact ih _ few (longer none) (wider none tidy)
      | ok st =>
        dsimp only
        split
        · refine always_seq (always_close tidy fun _ _ tidy => tidy) fun _ _ _ tidy => ?_
          exact ih opened few (by omega) tidy
        · exact ih _ few (longer _) (wider _ tidy)

theorem closeDirs_tidy : ∀ (rest : List (OpenDir × Option Errno)) {base start told k m},
    Tidy T (openNums (rest.map (·.1)) ++ base) start told k m →
    Always T (closeDirs rest) (fun _ k' m' => Tidy T base start told k' m') k m := by
  intro rest
  induction rest with
  | nil => exact fun tidy => always_pure tidy.within tidy
  | cons x rest ih =>
    obtain ⟨o,err⟩ := x
    intro base start told k m tidy
    have closed : ∀ {k m}, Tidy T (openNums ((o,err) :: rest |>.map (·.1)) ++ base) start told k m →
        Always T (perform (.close o.fd) >>= fun _ => closeDirs rest) (fun _ k' m' => Tidy T base start told k' m') k m :=
      fun tidy => always_seq (always_close tidy fun _ _ tidy => tidy) fun _ _ _ tidy => ih tidy
    cases err with
    | some e => exact always_seq (dir_failed_tidy _ _ _ tidy) fun _ _ _ tidy => closed tidy
    | none => exact closed tidy

/-- There is an error or none for each descriptor. -/
theorem flush_fds_tidy (fuel : Nat) (dir : Bool) : ∀ (fds : List Fd) {base start told k m},
    Tidy T base start told k m → Always T (flush_fds fuel dir fds)
      (fun errs k' m' => Tidy T base start told k' m' ∧ errs.length = fds.length) k m := by
  intro fds
  induction fds with
  | nil => exact fun tidy => always_pure tidy.within ⟨tidy,rfl⟩
  | cons fd fds ih =>
    intro base start told k m tidy
    refine always_seq (always_plain (sync_one_calm fd dir fuel) tidy) fun err k m tidy => ?_
    refine always_seq (ih tidy) fun errs k m done => ?_
    exact always_pure done.1.within ⟨done.1,by rw [List.length_cons,List.length_cons,done.2]⟩

/-- The same terms with no directory queued. -/
abbrev emptied (T : Terms) : Terms := { T with queue := 0 }

theorem Tidy.refill (tidy : Tidy (emptied T) base start told k m) (queue : T.queue ≤ T.batch) :
    Tidy T base start told k m :=
  { tidy with dirs := Nat.le_trans tidy.dirs (Nat.zero_le _), queue }

/-- Every directory that was queued is open at one time, and closed. -/
theorem flush_set_run_tidy (fuel : Nat) (few : base.length ≤ T.batch+1) (tidy : Tidy T base start told k m) :
    Always T (flush_set_run fuel) (fun _ k' m' => Tidy (emptied T) base start told k' m') k m := by
  refine always_read tidy ?_
  have room : m.dirs.length+([] : List OpenDir).length ≤ T.batch := Nat.le_trans tidy.dirs tidy.queue
  refine always_seq (openDirs_tidy m.dirs [] few room tidy) fun opened k m tidy => ?_
  have cleared : Tidy (emptied T) (openNums opened ++ base) start told k { m with dirs := [] } :=
    { tidy with dirs := Nat.le_refl 0, queue := Nat.zero_le _ }
  refine always_seq (Tidy.modify (Q := fun _ k' m' => Tidy (emptied T) (openNums opened ++ base) start told k' m') tidy
    cleared.within cleared) fun _ k m tidy => ?_
  change Always (emptied T) _ _ k m
  refine always_seq (flush_fds_tidy fuel true _ tidy) fun errs k m done => ?_
  obtain ⟨tidy,length⟩ := done
  refine closeDirs_tidy (opened.zip errs) ?_
  rw [List.map_fst_zip (by rw [length,List.length_map])]
  exact tidy

theorem flush_set_run_tends (fuel : Nat) : Tends T (flush_set_run fuel) := fun _ _ _ _ _ few tidy =>
  always_mono (flush_set_run_tidy fuel few tidy) fun _ _ _ after => Tidy.refill after tidy.queue

/-- Terms under which the queue and the listings may fill their arrays. -/
structure Open (T : Terms) : Prop where
  queue : T.queue = T.batch
  positive : 0 < T.batch
  listings : T.listings = NEWFILE_BATCH

theorem addDir_tidy (fuel : Nat) (dir : Path) (few : base.length ≤ T.batch+1) (tidy : Tidy T base start told k m)
    (room : m.dirs.length < T.queue) :
    Always T (addDir fuel dir) (fun _ k' m' => Tidy T base start told k' m') k m := by
  refine always_allocate tidy fun r => ?_
  cases r with
  | error e =>
    refine always_seq (flush_dir_tends fuel dir few tidy) fun r k m tidy => ?_
    cases r with
    | error e => exact dir_failed_tidy _ _ _ tidy
    | ok _ => exact always_pure tidy.within tidy
  | ok _ =>
    have longer : Tidy T base start told k { m with dirs := m.dirs ++ [dir] } :=
      { tidy with dirs := by simpa using room }
    exact Tidy.modify tidy longer.within longer

theorem flush_set_add_tends (fuel : Nat) (dir : Path) (terms : Open T) : Tends T (flush_set_add fuel dir) := by
  intro base start told k m few tidy
  refine always_read tidy ?_
  split
  · exact always_pure tidy.within tidy
  · split
    · refine always_seq (flush_set_run_tidy fuel few tidy) fun _ k m after => ?_
      have short := after.dirs
      have positive := terms.positive
      have queue := terms.queue
      exact addDir_tidy fuel dir few (Tidy.refill after tidy.queue) (by simp only at short; omega)
    · rename_i space
      have within := tidy.dirs
      have most := tidy.dirs_max
      have queue := terms.queue
      exact addDir_tidy fuel dir few tidy (by omega)

/-! ## Parents -/

theorem path_make_parents_tends (fuel : Nat) (path : Path) (terms : Open T) : Tends T (path_make_parents fuel path) :=
  handles_tends.path_make_parents fuel path fun _ => handles_tends.makeParent fuel (tends_calm fun _ => uses_sys trivial)
    (tends_calm fun _ => uses_sys trivial) fun dir => flush_set_add_tends fuel dir terms

/-! ## The directory of a path -/

theorem strrchr_none {rest : Path} (other : '/' ∉ rest) : strrchr rest '/' = none := by
  induction rest with
  | nil => rfl
  | cons c rest ih =>
    simp only [List.mem_cons,not_or] at other
    simp [strrchr,ih other.2,Ne.symm other.1]

theorem strrchr_last {rest : Path} (other : '/' ∉ rest) (front : Path) :
    strrchr (front ++ ('/' :: rest)) '/' = some ('/' :: rest) := by
  induction front with
  | nil => simp [strrchr,strrchr_none other]
  | cons c front ih => simp [strrchr,ih]

/-- A path is its last part alone, or that part behind its last slash. -/
theorem path_parts (path : Path) :
    '/' ∉ path ∨ ∃ front rest : Path, '/' ∉ rest ∧ path = front ++ ('/' :: rest) := by
  induction path with
  | nil => exact .inl List.not_mem_nil
  | cons c path ih =>
    rcases ih with plain | ⟨front,rest,other,rfl⟩
    · by_cases slash : c = '/'
      · exact .inr ⟨[],path,plain,by rw [slash]; rfl⟩
      · exact .inl (by simpa [Ne.symm slash] using plain)
    · exact .inr ⟨c :: front,rest,other,rfl⟩

/-- A name beside a path is in the directory of the path. -/
theorem dirText_beside (path : Path) {name : Path} (other : '/' ∉ name) :
    dirText (path.take (path_dir_len path) ++ name) = dirText path := by
  rcases path_parts path with plain | ⟨front,rest,last,rfl⟩
  · simp [dirText,path_dir_len,strrchr_none plain,strrchr_none other]
  · have length : path_dir_len (front ++ ('/' :: rest)) = front.length+1 := by
      simp only [path_dir_len,strrchr_last last,List.length_append,List.length_cons]
      omega
    have beside : (front ++ ('/' :: rest)).take (front.length+1) ++ name = front ++ ('/' :: name) := by
      simp [List.take_append,List.take_of_length_le]
    have length' : path_dir_len (front ++ ('/' :: name)) = front.length+1 := by
      simp only [path_dir_len,strrchr_last other,List.length_append,List.length_cons]
      omega
    rw [length,beside]
    simp only [dirText,length,length']
    have same : ∀ n ≤ front.length+1, (front ++ ('/' :: name)).take n = (front ++ ('/' :: rest)).take n := by
      intro n within
      rcases Nat.lt_or_eq_of_le within with inside | rfl
      · rw [List.take_append_of_le_length (by omega),List.take_append_of_le_length (by omega)]
      · simp [List.take_append,List.take_of_length_le]
    rw [same _ (by split <;> omega)]

theorem suffixOf_slash (rnd : List Nat) : '/' ∉ TEMP_STEM ++ suffixOf rnd := by
  have chars : '/' ∉ tempChars := by decide
  have stem : '/' ∉ TEMP_STEM := by decide
  simp only [List.mem_append,not_or]
  exact ⟨stem,fun member => chars (Newfile.Places.suffixOf_chars rnd '/' member)⟩

/-! ## Files under a name -/

/-- A file made since `start` is open, with a mode. -/
def Made (T : Terms) (base : List Nat) (start : Book) (told : List (Path × Bool)) (mode : Mode) (fd : Fd) (k : Book)
    (m : Memory) : Prop := Tidy T (fd.num :: base) start told k m ∧ New start fd mode k

/-- A program that leaves the books in order does not touch what was made before. -/
theorem tends_made {p : P α} {fd : Fd} {mode : Mode} (tends : Tends T p) (few : base.length ≤ T.batch)
    (made : Made T base start told mode fd k m) :
    Always T p (fun _ k' m' => Made T base start told mode fd k' m') k m := by
  obtain ⟨tidy,new⟩ := made
  have longer : (fd.num :: base).length ≤ T.batch+1 := Nat.succ_le_succ few
  refine always_mono (tends longer tidy.restart) fun _ k' m' after => ?_
  refine ⟨tidy.since after,new.after,Nat.lt_of_lt_of_le new.before after.next,?_⟩
  rw [after.modes _ new.before]
  exact new.mode

theorem create_excl_made (path : Path) (mode : Mode) (room : base.length ≤ 2*T.batch) (tidy : Tidy T base start told k m) :
    Always T (create_excl path mode) (fun r k' m' => match r with
      | .error _ => Tidy T base start told k' m'
      | .ok (fd,st) => Made T base start told (created T.image (dirText path) mode) fd k' m' ∧
          (T.steady → st.mode = created T.image (dirText path) mode)) k m := by
  refine always_seq (always_open_excl tidy room (Q := fun r k' m' => onOpen (Tidy T base start told k' m')
    (fun fd => Made T base start told (created T.image (dirText path) mode) fd k' m') r)
    (fun e => tidy) fun fd k' tidy new => ⟨tidy,new⟩) fun r k m opened => ?_
  cases r with
  | error e => exact always_pure opened.within opened
  | ok fd =>
    obtain ⟨tidy,new⟩ := opened
    refine always_seq (always_fstat tidy (Q := fun r k' m' => Made T base start told (created T.image (dirText path) mode)
      fd k' m' ∧ ∀ st, r = .ok st → T.steady → st.mode = created T.image (dirText path) mode) (fun e => ⟨⟨tidy,new⟩,by simp⟩)
      fun st mode => ⟨⟨tidy,new⟩,?_⟩) fun r k m stated => ?_
    · rintro _ ⟨⟩
      exact fun steady => (mode steady).trans new.mode
    · obtain ⟨made,granted⟩ := stated
      cases r with
      | ok st => exact always_pure made.1.within ⟨made,granted st rfl⟩
      | error e =>
        refine always_seq (always_close made.1 fun _ _ tidy => tidy) fun _ k m tidy => ?_
        exact always_seq (always_plain (uses_sys trivial) tidy) fun _ _ _ tidy => always_pure tidy.within tidy

theorem place_create_made (path : Str) (mode : Mode) (slot : Nat) (few : base.length ≤ T.batch)
    (tidy : Tidy T base start told k m) : Always T (place_create path mode slot) (fun r k' m' => match r with
      | .error _ => Tidy T base start told k' m'
      | .ok fd => Made T base start told (created T.image (dirText path.text) mode) fd k' m') k m := by
  refine always_seq (always_plain handles_calm.pending_hold tidy) fun old k m tidy => ?_
  refine always_seq (create_excl_made path.text mode (by omega) tidy) fun r k m made => ?_
  cases r with
  | error e =>
    exact always_seq (always_plain (handles_calm.release old) made) fun _ _ _ tidy => always_pure tidy.within tidy
  | ok x =>
    obtain ⟨fd,st⟩ := x
    refine always_seq (tends_made (tends_calm fun _ => handles_calm.arm slot path st.ino) few made.1) fun _ k m made => ?_
    refine always_seq (tends_made (tends_calm fun _ => handles_calm.release old) few made) fun _ k m made => ?_
    exact always_pure made.1.within made

theorem temp_fill_tidy (tidy : Tidy T base start told k m) :
    Always T temp_fill (fun suffix k' m' => Tidy T base start told k' m' ∧ '/' ∉ TEMP_STEM ++ suffix) k m := by
  have counted : ∀ m : Memory, Still m { m with counter := m.counter+1 } := fun _ => ⟨rfl,rfl,rfl,rfl,rfl,rfl⟩
  refine always_seq (always_plain (uses_sys trivial) tidy) fun r k m tidy => ?_
  cases r with
  | ok rnd => exact always_pure tidy.within ⟨tidy,suffixOf_slash rnd⟩
  | error e =>
    refine always_seq (always_plain (uses_modify counted) tidy) fun _ k m tidy => ?_
    exact always_read tidy (always_pure tidy.within ⟨tidy,suffixOf_slash _⟩)

/-- The temporary file is in the directory of its target. -/
theorem temp_make_made (target : Path) (mode : Mode) (slot : Nat) (few : base.length ≤ T.batch)
    (tidy : Tidy T base start told k m) : Always T (temp_make target slot (make_open mode)) (fun r k' m' => match r with
      | .error _ => Tidy T base start told k' m'
      | .ok (_,made) => (T.steady → made.st.mode = created T.image (dirText target) mode) ∧
          ∃ fd, made.fd = some fd ∧ Made T base start told (created T.image (dirText target) mode) fd k' m') k m := by
  have tries : ∀ block n e {k m}, Tidy T base start told k m →
      Always T (makeLoop slot (make_open mode) (target.take (path_dir_len target) ++ TEMP_STEM) block n e)
        (fun r k' m' => match r with
          | .error _ => Tidy T base start told k' m'
          | .ok (_,made) => (T.steady → made.st.mode = created T.image (dirText target) mode) ∧
              ∃ fd, made.fd = some fd ∧ Made T base start told (created T.image (dirText target) mode) fd k' m') k m := by
    intro block n
    induction n with
    | zero => exact fun e _ _ tidy => always_pure tidy.within tidy
    | succ n ih =>
      intro e k m tidy
      refine always_seq (temp_fill_tidy tidy) fun suffix k m filled => ?_
      obtain ⟨tidy,other⟩ := filled
      have beside : dirText (target.take (path_dir_len target) ++ TEMP_STEM ++ suffix) = dirText target := by
        rw [List.append_assoc]
        exact dirText_beside target other
      refine always_seq (S := fun r k' m' => match r with
        | .error _ => Tidy T base start told k' m'
        | .ok made => (T.steady → made.st.mode = created T.image (dirText target) mode) ∧
            ∃ fd, made.fd = some fd ∧ Made T base start told (created T.image (dirText target) mode) fd k' m') ?_ ?_
      · refine always_seq (always_plain handles_calm.pending_hold tidy) fun old k m tidy => ?_
        refine always_seq (S := fun r k' m' => match r with
          | .error _ => Tidy T base start told k' m'
          | .ok made => (T.steady → made.st.mode = created T.image (dirText target) mode) ∧
              ∃ fd, made.fd = some fd ∧ Made T base start told (created T.image (dirText target) mode) fd k' m') ?_ ?_
        · refine always_seq (create_excl_made _ mode (by omega) tidy) fun r k m made => ?_
          rw [beside] at made
          cases r with
          | error e => exact always_pure made.within made
          | ok x => exact always_pure made.1.1.within ⟨made.2,x.1,rfl,made.1⟩
        · intro r k m made
          cases r with
          | error e =>
            exact always_seq (always_plain (handles_calm.release old) made) fun _ _ _ tidy => always_pure tidy.within tidy
          | ok x =>
            obtain ⟨granted,fd,opened,made⟩ := made
            refine always_seq (tends_made (tends_calm fun _ => handles_calm.arm slot _ x.st.ino) few made) fun _ k m made => ?_
            refine always_seq (tends_made (tends_calm fun _ => handles_calm.release old) few made) fun _ k m made => ?_
            exact always_pure made.1.within ⟨granted,fd,opened,made⟩
      · intro r k m made
        cases r with
        | error e =>
          dsimp only
          split
          · exact ih e made
          · exact always_pure made.within made
        | ok x =>
          obtain ⟨granted,fd,opened,made⟩ := made
          exact always_pure made.1.within ⟨granted,fd,opened,made⟩
  refine always_seq (always_plain (handles_calm.newStr _) tidy) fun r k m tidy => ?_
  cases r with
  | error e => exact always_pure tidy.within tidy
  | ok name =>
    refine always_seq (tries name.block TEMP_TRIES .EEXIST tidy) fun r k m made => ?_
    cases r with
    | error e => exact always_seq (always_plain (handles_calm.free name) made) fun _ _ _ tidy => always_pure tidy.within tidy
    | ok x =>
      obtain ⟨granted,fd,opened,made⟩ := made
      exact always_pure made.1.within ⟨granted,fd,opened,made⟩

theorem path_dir_tidy (path : Path) (tidy : Tidy T base start told k m) :
    Always T (path_dir path) (fun r k' m' => Tidy T base start told k' m' ∧ ∀ dir, r = .ok dir → dir = dirText path) k m := by
  refine always_allocate tidy fun r => ?_
  cases r with
  | error e => exact always_pure tidy.within ⟨tidy,by simp⟩
  | ok _ =>
    refine always_pure tidy.within ⟨tidy,?_⟩
    rintro _ ⟨⟩
    rfl

/-- The probe tells what the directory of the target grants, be it found or made. -/
theorem place_probe_mode_granted (target : Path) (slot : Nat) (few : base.length ≤ T.batch)
    (tidy : Tidy T base start told k m) : Always T (place_probe_mode target T.mode slot) (fun r k' m' =>
      Tidy T base start told k' m' ∧ ∀ x, r = .ok x → T.steady → x.1 = created T.image (dirText target) T.mode) k m := by
  refine always_seq (path_dir_tidy target tidy) fun r k m named => ?_
  obtain ⟨tidy,dir⟩ := named
  cases r with
  | error e => exact always_pure tidy.within ⟨tidy,by simp⟩
  | ok dir' =>
    obtain rfl := dir dir' rfl
    refine always_read tidy ?_
    split
    · rename_i p found
      have here : p.dir = dirText target := by simpa using List.find?_some found
      refine always_pure tidy.within ⟨tidy,?_⟩
      rintro _ ⟨⟩
      intro steady
      rw [tidy.granted steady p (List.mem_of_find?_eq_some found),here]
    · refine always_seq (temp_make_made target T.mode slot few tidy) fun r k m made => ?_
      cases r with
      | error e => exact always_pure made.within ⟨made,by simp⟩
      | ok x =>
        obtain ⟨name,made'⟩ := x
        obtain ⟨granted,fd,opened,made⟩ := made
        refine always_seq (S := fun _ k' m' => Tidy T base start told k' m') ?_ fun ret k m tidy => ?_
        · rw [place_probe_mode.closeMade,opened]
          exact always_close made.1 fun _ _ tidy => tidy
        refine always_seq (always_plain (handles_calm.pending_remove slot) tidy) fun removed k m tidy => ?_
        refine always_seq (always_plain (handles_calm.free name) tidy) fun _ k m tidy => ?_
        cases ret with
        | error e => exact always_pure tidy.within ⟨tidy,by simp⟩
        | ok _ =>
          have cached : Tidy T base start told k (if m.probes.length < NEWFILE_BATCH then
              { m with probes := m.probes ++ [⟨dirText target,made'.st.mode⟩] } else m) := by
            split
            · refine { tidy with probes := ?_, granted := fun steady p member => ?_ }
              · simp only [List.length_append,List.length_singleton]
                omega
              · rcases List.mem_append.mp member with old | new
                · exact tidy.granted steady p old
                · obtain rfl := List.mem_singleton.mp new
                  exact granted steady
            · exact tidy
          refine always_seq (Tidy.modify (Q := fun _ k' m' => Tidy T base start told k' m') tidy cached.within cached)
            fun _ k m tidy => always_pure tidy.within ⟨tidy,?_⟩
          rintro _ ⟨⟩
          exact granted

/-- The placeholder is closed at once. -/
theorem place_over_tends (tmp target : Path) (slot : Nat) : Tends T (place_over tmp target slot) := by
  have released : ∀ (old : Bool) (r : Except Errno Unit), Tends T (pending_release old >>= fun _ => pure r) := fun _ _ =>
    tends_bind (tends_calm fun _ => handles_calm.release _) fun _ => tends_pure _
  intro base start told k m few tidy
  refine always_seq (always_plain handles_calm.pending_hold tidy) fun old k m tidy => ?_
  refine always_seq (create_excl_made target 0o600 (tidy.room few) tidy) fun r k m made => ?_
  cases r with
  | error e => exact released _ _ few made
  | ok x =>
    refine always_seq (always_close made.1.1 fun _ _ tidy => tidy) fun _ k m tidy => ?_
    refine always_seq (always_plain (uses_sys trivial) tidy) fun r k m tidy => ?_
    cases r with
    | ok _ => exact always_seq (always_plain (handles_calm.clear slot) tidy) fun _ _ _ tidy => released _ _ few tidy
    | error e =>
      refine always_seq (always_plain (handles_calm.remove_ours _ _) tidy) fun removal k m tidy => ?_
      cases removal with
      | failed e' => exact always_seq (always_plain (handles_calm.say _) tidy) fun _ _ _ tidy => released _ _ few tidy
      | gone => exact released _ _ few tidy
      | other => exact released _ _ few tidy

theorem place_commit_tends (tmp target : Path) (slot : Nat) : Tends T (place_commit tmp target slot) :=
  handles_tends.place_commit slot (tends_calm fun _ => uses_sys trivial) (tends_calm fun _ => uses_sys trivial)
    (place_over_tends tmp target slot)

/-! ## Backups -/

/-- The same terms with room for one more listing. -/
abbrev roomy (T : Terms) : Terms := { T with listings := NEWFILE_BATCH-1 }

theorem backup_dir_get_tends (filepath : Path) (terms : Open T) : Tends T (backup_dir_get filepath) := by
  have listed : ∀ dir {base start told k m}, Tidy (roomy T) base start told k m →
      Always T (backup_dir_get.listed dir) (fun _ k' m' => Tidy T base start told k' m') k m := by
    intro dir base start told k m tidy
    have full : ∀ {k m}, Tidy (roomy T) base start told k m → Tidy T base start told k m := fun tidy =>
      { tidy with
        backups := Nat.le_trans tidy.backups (by rw [terms.listings]; exact Nat.sub_le _ _)
        listings := Nat.le_of_eq terms.listings }
    change Always (roomy T) _ _ k m
    refine always_seq (always_plain (handles_calm.backup_dir_list (uses_sys trivial)) tidy) fun r k m tidy => ?_
    cases r with
    | error e => exact always_pure tidy.within (full tidy)
    | ok entries =>
      have longer : Tidy T base start told k { m with backups := m.backups ++ [⟨dir,entries⟩] } := by
        refine { full tidy with backups := ?_ }
        have room := tidy.backups
        have positive : 0 < NEWFILE_BATCH := by decide
        simp only [List.length_append,List.length_singleton,terms.listings] at room ⊢
        omega
      have kept : Always T (modify fun m => { m with backups := m.backups ++ [⟨dir,entries⟩] })
          (fun _ k' m' => Tidy T base start told k' m') k m := Tidy.modify (full tidy) longer.within longer
      exact always_seq kept fun _ _ _ tidy => always_pure tidy.within tidy
  refine handles_tends.attempt (handles_tends.path_dir filepath) (fun _ => tends_pure _) fun dir => ?_
  intro base start told k m few tidy
  refine always_read tidy ?_
  split
  · exact always_pure tidy.within tidy
  · split
    · have blank : Tidy (roomy T) base start told k { m with backups := [] } :=
        { tidy with backups := Nat.zero_le _, listings := Nat.sub_le _ _ }
      exact always_seq (Tidy.modify (Q := fun _ k' m' => Tidy (roomy T) base start told k' m') tidy blank.within blank)
        fun _ _ _ tidy => listed dir tidy
    · rename_i space
      refine listed dir { tidy with backups := ?_, listings := Nat.sub_le _ _ }
      have most := tidy.backups
      have all := tidy.listings
      simp only
      omega

theorem setEntries_tends (dir : Path) (entries : List BackupEntry) : Tends T (modify (setEntries · dir entries)) := by
  intro base start told k m few tidy
  have same : Tidy T base start told k (setEntries m dir entries) :=
    { tidy with backups := by simpa [setEntries] using tidy.backups }
  exact Tidy.modify tidy same.within same

theorem backup_numbered_tends (filepath : Path) (st : Stat) (terms : Open T) (fuel : Nat) (digits : List Char) :
    Tends T (backup_numbered filepath st fuel digits) :=
  handles_tends.backup_numbered st (fun _ => tends_calm fun _ => uses_sys trivial)
    (fun _ => handles_tends.backup_note (backup_dir_get_tends filepath terms) setEntries_tends)
    (tends_calm fun _ => uses_spin) fuel digits

theorem backup_make_tends (fuel : Nat) (filepath : Path) (control : String) (terms : Open T) :
    Tends T (backup_make fuel filepath control) :=
  handles_tends.backup_make fuel
    (handles_tends.backup_next control (handles_tends.backup_best (backup_dir_get_tends filepath terms)))
    (fun st => tends_calm fun _ => backup_simple_calm filepath st) fun st digits => backup_numbered_tends filepath st terms fuel digits

end Newfile.Accounts
