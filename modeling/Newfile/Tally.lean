import Newfile.Accounts

/-!
One operand at a time: the descriptor that an operand holds is on the books, and
a file that was made without a failure has its final mode, in whichever way.
-/
namespace Newfile.Tally
open Newfile.Program Newfile.Posix Newfile.Process Newfile.Pending Newfile.Fastio Newfile.Flush
open Newfile.Place Newfile.Backup Newfile.Batch Newfile.Calls Newfile.Books Newfile.Quiet Newfile.Accounts

variable {α β : Type} {T : Terms} {base : List Nat} {start k : Book} {told : List (Path × Bool)} {m : Memory}

/-- The descriptor of an operand. -/
def nums (op : Op) : List Nat := (op.fd.map (·.num)).toList

theorem nums_some {op : Op} {fd : Fd} (opened : op.fd = some fd) : nums op = [fd.num] := by simp [nums,opened]

theorem nums_none {op : Op} (closed : op.fd = none) : nums op = [] := by simp [nums,closed]

/-- The mode of a new file: with `-A` the one that is asked for, and else what the
    directory makes of it. -/
def finalOf (image : Image) (spec : FileSpec) (path : Path) : Mode :=
  if spec.absolute_given then spec.mode else created image (dirText path) spec.mode

theorem finalMode_created (image : Image) (spec : FileSpec) (path : Path) :
    finalMode spec (created image (dirText path) spec.mode) = finalOf image spec path := by
  simp only [finalMode,finalOf,created]
  split
  · rfl
  · generalize image (dirText path) (spec.mode &&& 0o777) = granted
    ext i
    simp only [BitVec.getElem_or,BitVec.getElem_and]
    interval_cases i <;> simp

/-- An operand that failed and holds nothing. -/
structure Failed (path : Str) (op : Op) : Prop where
  fd : op.fd = none
  fail : op.fail.isSome = true
  path : op.path = path

theorem freeTmp_tidy (op : Op) (tidy : Tidy T base start told k m) :
    Always T (freeTmp op) (fun op' k' m' => Tidy T base start told k' m' ∧ op'.fd = op.fd ∧ op'.fail = op.fail ∧
      op'.path = op.path) k m := by
  rw [freeTmp]
  split
  · exact always_seq (always_plain (handles_calm.free _) tidy) fun _ _ _ tidy => always_pure tidy.within ⟨tidy,rfl,rfl,rfl⟩
  · exact always_pure tidy.within ⟨tidy,rfl,rfl,rfl⟩

/-- A failure closes what the operand holds. -/
theorem op_fail_tidy (op : Op) (slot : Nat) (what : String) (e : Errno) (tidy : Tidy T (nums op ++ base) start told k m) :
    Always T (op_fail op slot what e) (fun op' k' m' => Tidy T base start told k' m' ∧ Failed op.path op') k m := by
  refine always_seq (S := fun op' k' m' => Tidy T base start told k' m' ∧ Failed op.path op') ?_ ?_
  · rw [closeOp]
    cases open_ : op.fd with
    | none =>
      rw [nums_none open_] at tidy
      exact always_pure tidy.within ⟨tidy,rfl,rfl,rfl⟩
    | some fd =>
      rw [nums_some open_] at tidy
      exact always_seq (always_close tidy fun _ _ tidy => tidy) fun _ _ _ tidy =>
        always_pure tidy.within ⟨tidy,rfl,rfl,rfl⟩
  · rintro op' k m ⟨tidy,failed⟩
    have freed : ∀ {k m}, Tidy T base start told k m →
        Always T (freeTmp op') (fun op' k' m' => Tidy T base start told k' m' ∧ Failed op.path op') k m := fun tidy =>
      always_mono (freeTmp_tidy op' tidy) fun _ _ _ done =>
        ⟨done.1,done.2.1.trans failed.fd,by rw [done.2.2.1]; exact failed.fail,done.2.2.2.trans failed.path⟩
    split
    · exact always_seq (always_plain (handles_calm.pending_remove slot) tidy) fun _ _ _ tidy => freed tidy
    · exact freed tidy

/-! ## Opening the file -/

/-- How an operand stands once it was built: without a failure its file has the final mode. -/
structure Stands (T : Terms) (spec : FileSpec) (start : Book) (path : Path) (op : Op) (k : Book) : Prop where
  named : op.path = ⟨path,none⟩
  failed : op.fail.isSome = true → op.fd = none
  made : op.fail = none → ∃ fd mode, op.fd = some fd ∧ New start fd mode k ∧ (T.steady → mode = finalOf T.image spec path)

theorem Failed.stands {spec : FileSpec} {path : Path} {op : Op} (failed : Failed ⟨path,none⟩ op) :
    Stands T spec start path op k := by
  refine ⟨failed.path,fun _ => failed.fd,fun absent => ?_⟩
  have := failed.fail
  rw [absent] at this
  exact absurd this (by simp)

/-- The operand holds a new file, and the mode that is granted to such files is known. -/
def Opened (T : Terms) (base : List Nat) (start : Book) (told : List (Path × Bool)) (spec : FileSpec) (path : Path)
    (op : Op) (granted : Mode) (k : Book) (m : Memory) : Prop :=
  op.path = ⟨path,none⟩ ∧ op.fail = none ∧ (T.steady → finalMode spec granted = finalOf T.image spec path) ∧
    ∃ fd mode, op.fd = some fd ∧ Made T base start told mode fd k m

theorem procUsable_calm {own : Ino} : Calm own procUsable := by
  refine uses_bind (uses_get Still.refl) fun m => ?_
  split
  · exact uses_pure _
  · exact uses_try (uses_sys trivial)
      (fun _ => uses_bind (uses_modify fun _ => ⟨rfl,rfl,rfl,rfl,rfl,rfl⟩) fun _ => uses_pure _)
      fun _ => uses_bind (uses_modify fun _ => ⟨rfl,rfl,rfl,rfl,rfl,rfl⟩) fun _ => uses_pure _

theorem fast_tmpfile_made (dir : Path) (mode : Mode) (room : base.length ≤ 2*T.batch)
    (tidy : Tidy T base start told k m) : Always T (fast_tmpfile dir mode) (fun r k' m' => match r with
      | .ok (some fd) => Made T base start told (created T.image dir mode) fd k' m'
      | _ => Tidy T base start told k' m') k m := by
  refine always_seq (always_plain procUsable_calm tidy) fun usable k m tidy => ?_
  split
  · refine always_seq (S := fun r k' m' => onOpen (Tidy T base start told k' m')
      (fun fd => Made T base start told (created T.image dir mode) fd k' m') r)
      ⟨tidy.within,fun r k' answered => ?_⟩ fun r k m made => ?_
    · cases r with
      | error e =>
        obtain rfl : k' = k := answered
        exact ⟨tidy.within,tidy⟩
      | ok fd =>
        have made := tidy.makes room answered
        exact ⟨made.1.within,made⟩
    · cases r with
      | ok fd => exact always_pure made.1.within made
      | error e =>
        dsimp only
        split
        · exact always_pure made.within made
        · exact always_pure made.within made
  · exact always_pure tidy.within tidy

theorem openTemp_opened {spec : FileSpec} {path : Path} {op : Op} (slot : Nat) (granted : Mode)
    (fresh : op.path = ⟨path,none⟩ ∧ op.fail = none ∧ op.fd = none) (final : T.steady → finalMode spec granted = finalOf T.image spec path)
    (few : base.length ≤ T.batch) (tidy : Tidy T base start told k m) :
    Always T (openTemp op slot granted) (fun r k' m' => match r with
      | (op,some granted) => Opened T base start told spec path op granted k' m'
      | (op,none) => Tidy T base start told k' m' ∧ Failed ⟨path,none⟩ op) k m := by
  obtain ⟨named,fine,blank⟩ := fresh
  refine always_seq (S := fun r k' m' => match r with
    | .error _ => Tidy T base start told k' m'
    | .ok (_,fd) => ∃ f mode, fd = some f ∧ Made T base start told mode f k' m') ?_ fun r k m made => ?_
  · refine always_seq (temp_make_made op.path.text 0o600 slot few tidy) fun r k m made => ?_
    cases r with
    | error e => exact always_pure made.within made
    | ok x =>
      obtain ⟨_,fd,opened,made⟩ := made
      exact always_pure made.1.within ⟨fd,_,opened,made⟩
  · cases r with
    | error e =>
      have empty : Tidy T (nums op ++ base) start told k m := by rw [nums_none blank]; exact made
      refine always_seq (op_fail_tidy op slot _ e empty) fun op' k m done => ?_
      rw [named] at done
      exact always_pure done.1.within done
    | ok x =>
      obtain ⟨f,mode,opened,made⟩ := made
      exact always_pure made.1.within ⟨named,fine,final,f,mode,opened,made⟩

/-- The mode that is granted is known by `fstat` of the unnamed file or by the probe. -/
theorem open_built_opened {spec : FileSpec} {path : Path} {op : Op} (slot : Nat)
    (fresh : op.path = ⟨path,none⟩ ∧ op.fail = none ∧ op.fd = none) (asked : T.mode = spec.mode)
    (few : base.length ≤ T.batch) (tidy : Tidy T base start told k m) :
    Always T (open_built op slot spec) (fun r k' m' => match r with
      | (op,some granted) => Opened T base start told spec path op granted k' m'
      | (op,none) => Tidy T base start told k' m' ∧ Failed ⟨path,none⟩ op) k m := by
  obtain ⟨named,fine,blank⟩ := fresh
  have fails : ∀ {op' : Op} {k m} e, op'.path = ⟨path,none⟩ → Tidy T (nums op' ++ base) start told k m →
      Always T (do
        let op ← op_fail op' slot "cannot create" e
        return (op,none)) (fun r k' m' => match r with
          | (op,some granted) => Opened T base start told spec path op granted k' m'
          | (op,none) => Tidy T base start told k' m' ∧ Failed ⟨path,none⟩ op) k m := by
    intro op' k m e named tidy
    refine always_seq (op_fail_tidy op' slot _ e tidy) fun op' k m done => ?_
    rw [named] at done
    exact always_pure done.1.within done
  have empty : ∀ {op' : Op} {k m}, op'.fd = none → Tidy T base start told k m →
      Tidy T (nums op' ++ base) start told k m := by
    intro op' k m blank tidy
    rw [nums_none blank]
    exact tidy
  refine always_seq (path_dir_tidy op.path.text tidy) fun r k m dir => ?_
  obtain ⟨tidy,dir⟩ := dir
  cases r with
  | error e => exact fails e named (empty blank tidy)
  | ok dir' =>
    obtain rfl := dir dir' rfl
    refine always_seq (fast_tmpfile_made _ _ (by omega) tidy) fun r k m made => ?_
    cases r with
    | error e => exact fails e named (empty blank made)
    | ok fd =>
      cases fd with
      | some fd =>
        refine always_seq (always_fstat made.1 (Q := fun r k' m' => (∀ st, r = .ok st → T.steady → st.mode = k'.modes fd.ino) ∧
          Made T base start told (created T.image (dirText op.path.text) (if spec.absolute_given then 0o600 else spec.mode))
            fd k' m') (fun e => ⟨by simp,made⟩) fun st mode => ⟨by rintro _ ⟨⟩; exact mode,made⟩) fun r k m stated => ?_
        obtain ⟨mode,made⟩ := stated
        cases r with
        | error e =>
          have held : Tidy T (nums { op with fd := some fd, way := .WAY_UNNAMED } ++ base) start told k m := made.1
          exact fails e named held
        | ok st =>
          refine always_pure made.1.within ⟨named,fine,fun steady => ?_,fd,_,rfl,made⟩
          by_cases absolute : spec.absolute_given = true
          · simp [finalMode,finalOf,absolute]
          · rw [mode st rfl steady,made.2.mode,if_neg absolute,named]
            exact finalMode_created T.image spec path
      | none =>
        dsimp only
        split
        · rename_i absolute
          exact openTemp_opened slot _ ⟨named,fine,blank⟩ (by simp [finalMode,finalOf,absolute]) few made
        · rename_i absolute
          rw [← asked]
          refine always_seq (place_probe_mode_granted op.path.text slot few made) fun r k m probed => ?_
          obtain ⟨tidy,granted⟩ := probed
          cases r with
          | error e => exact fails e named (empty blank tidy)
          | ok x =>
            have final : T.steady → finalMode spec x.1 = finalOf T.image spec path := fun steady => by
              rw [granted x rfl steady,asked,named]
              exact finalMode_created T.image spec path
            dsimp only
            split
            · exact openTemp_opened slot _ ⟨named,fine,blank⟩ final few tidy
            · exact openTemp_opened slot _ ⟨named,fine,blank⟩ final few tidy

/-! ## Finishing the file -/

/-- What an operand is once it was built, and the books. -/
def Built (T : Terms) (base : List Nat) (start : Book) (told : List (Path × Bool)) (spec : FileSpec) (path : Path) (op : Op)
    (k : Book) (m : Memory) : Prop := Tidy T (nums op ++ base) start told k m ∧ Stands T spec start path op k

theorem Failed.built {spec : FileSpec} {path : Path} {op : Op} (tidy : Tidy T base start told k m)
    (failed : Failed ⟨path,none⟩ op) : Built T base start told spec path op k m := by
  refine ⟨?_,failed.stands⟩
  rw [nums_none failed.fd]
  exact tidy

theorem op_fail_built {spec : FileSpec} {path : Path} {op : Op} (slot : Nat) (what : String) (e : Errno)
    (named : op.path = ⟨path,none⟩) (tidy : Tidy T (nums op ++ base) start told k m) :
    Always T (op_fail op slot what e) (Built T base start told spec path) k m := by
  refine always_mono (op_fail_tidy op slot what e tidy) fun op' k m done => ?_
  rw [named] at done
  exact Failed.built done.1 done.2

/-- The file that an operand holds, whatever its mode. -/
structure Holding (T : Terms) (base : List Nat) (start : Book) (told : List (Path × Bool)) (path : Path) (op : Op) (fd : Fd)
    (k : Book) (m : Memory) : Prop where
  named : op.path = ⟨path,none⟩
  fine : op.fail = none
  opened : op.fd = some fd
  tidy : Tidy T (fd.num :: base) start told k m
  after : start.next ≤ fd.ino
  before : fd.ino < k.next

theorem Holding.nums {path : Path} {op : Op} {fd : Fd} (holding : Holding T base start told path op fd k m) :
    Tidy T (nums op ++ base) start told k m := by
  rw [nums_some holding.opened]
  exact holding.tidy

/-- The same terms with an inode that was used. -/
abbrev marked (T : Terms) (i : Ino) : Terms := { T with used := max T.used (i+1) }

/-- Plain calls that change no file but the new one. -/
theorem holding_plain {p : P α} {path : Path} {op : Op} {fd : Fd} (plain : ∀ {own}, own ≤ fd.ino → Calm own p)
    (holding : Holding T base start told path op fd k m) :
    Always T p (fun _ k' m' => Holding T base start told path op fd k' m') k m := by
  -- The inode stays used: that is said by the terms.
  have used : Tidy (marked T fd.ino) (fd.num :: base) start told k m :=
    { holding.tidy with used := Nat.max_le.mpr ⟨holding.tidy.used,holding.before⟩ }
  change Always (marked T fd.ino) _ _ k m
  refine always_mono (always_plain (plain holding.after) used) fun _ k' m' after => ?_
  have both := Nat.max_le.mp after.used
  exact ⟨holding.named,holding.fine,holding.opened,{ after with used := both.1 },holding.after,both.2⟩

theorem setMode_built {spec : FileSpec} {path : Path} {op : Op} {fd : Fd} (slot : Nat) (content : Bool) {mode : Mode}
    (final : T.steady → mode = finalOf T.image spec path) (few : base.length ≤ T.batch)
    (holding : Holding T base start told path op fd k m) :
    Always T (setMode op slot fd content mode) (Built T base start told spec path) k m := by
  refine always_seq (S := fun r k' m' => match r with
    | .error _ => Holding T base start told path op fd k' m'
    | .ok _ => Made T base start told mode fd k' m') ⟨holding.tidy.within,fun r k' answered => ?_⟩ fun r k m done => ?_
  · cases r with
    | error e =>
      obtain rfl : k' = k := answered
      exact ⟨holding.tidy.within,holding⟩
    | ok _ =>
      obtain rfl : k' = k.chmod fd.ino mode := answered
      have changed := holding.tidy.chmod holding.after mode
      exact ⟨changed.within,changed,holding.after,holding.before,by simp [Book.chmod]⟩
  · cases r with
    | error e => exact op_fail_built slot _ e done.named done.nums
    | ok _ =>
      have built : ∀ {k m}, Made T base start told mode fd k m → Built T base start told spec path op k m := by
        intro k m made
        refine ⟨?_,holding.named,by simp [holding.fine],fun _ => ⟨fd,mode,holding.opened,made.2,final⟩⟩
        rw [nums_some holding.opened]
        exact made.1
      dsimp only
      split
      · exact always_seq (tends_made (tends_calm fun _ => uses_bind (uses_sys trivial) fun _ => uses_pure _) few done)
          fun _ k m made => always_pure made.1.within (built made)
      · exact always_pure done.1.within (built done)

theorem fillBuilt_built {spec : FileSpec} {path : Path} {op : Op} {fd : Fd} (fuel slot : Nat) (content : Bool) {mode : Mode}
    (final : T.steady → mode = finalOf T.image spec path) (few : base.length ≤ T.batch)
    (holding : Holding T base start told path op fd k m) :
    Always T (fillBuilt fuel op slot spec fd content mode) (Built T base start told spec path) k m := by
  refine always_seq (holding_plain (fun mine => fill_one_calm mine fuel spec) holding) fun r k m holding => ?_
  cases r with
  | error x => exact op_fail_built slot _ _ holding.named holding.nums
  | ok _ =>
    dsimp only
    split
    · refine always_seq (holding_plain (fun mine => uses_sys mine) holding) fun r k m holding => ?_
      cases r with
      | error e => exact op_fail_built slot _ e holding.named holding.nums
      | ok _ => exact setMode_built slot content final few holding
    · exact setMode_built slot content final few holding

theorem finish_built_built {spec : FileSpec} {path : Path} {op : Op} (fuel slot : Nat) (content : Bool) {granted : Mode}
    (few : base.length ≤ T.batch) (opened : Opened T base start told spec path op granted k m) :
    Always T (finish_built fuel op slot spec content granted) (Built T base start told spec path) k m := by
  obtain ⟨named,fine,final,fd,mode,descriptor,made⟩ := opened
  have holding : Holding T base start told path op fd k m :=
    ⟨named,fine,descriptor,made.1,made.2.after,made.2.before⟩
  rw [finish_built,descriptor]
  dsimp only
  split
  · refine always_seq (holding_plain (fun mine => uses_sys mine) holding) fun r k m holding => ?_
    cases r with
    | error e => exact op_fail_built slot _ e named holding.nums
    | ok _ =>
      refine always_seq (holding_plain (fun _ => place_temp_link_calm fd op.path.text slot) holding) fun r k m holding => ?_
      cases r with
      | error e => exact op_fail_built slot _ e named holding.nums
      | ok tmppath =>
        exact fillBuilt_built fuel slot content final few
          ⟨named,fine,rfl,holding.tidy,holding.after,holding.before⟩
  · exact fillBuilt_built fuel slot content final few holding

theorem buildFile_built {spec : FileSpec} {path : Path} {op : Op} (fuel slot : Nat) (content : Bool)
    (fresh : op.path = ⟨path,none⟩ ∧ op.fail = none ∧ op.fd = none) (asked : T.mode = spec.mode)
    (few : base.length ≤ T.batch) (tidy : Tidy T base start told k m) :
    Always T (buildFile fuel op slot spec content) (Built T base start told spec path) k m := by
  refine always_seq (open_built_opened slot fresh asked few tidy) fun r k m opened => ?_
  obtain ⟨op',granted⟩ := r
  cases granted with
  | none => exact always_pure opened.1.within (Failed.built opened.1 opened.2)
  | some granted => exact finish_built_built fuel slot content few opened

theorem buildIn_built {spec : FileSpec} {path : Path} {op : Op} (fuel slot : Nat)
    (fresh : op.path = ⟨path,none⟩ ∧ op.fail = none ∧ op.fd = none) (asked : T.mode = spec.mode)
    (few : base.length ≤ T.batch) (tidy : Tidy T base start told k m) :
    Always T (buildIn fuel op slot spec) (Built T base start told spec path) k m := by
  have empty : ∀ {k m}, Tidy T base start told k m → Tidy T (nums op ++ base) start told k m := fun tidy => by
    rw [nums_none fresh.2.2]
    exact tidy
  rw [buildIn]
  split
  · -- The plain way: `open` alone gives the final mode.
    rename_i plain
    have relative : spec.absolute_given = false := by simpa using plain.2.2.1
    refine always_seq (place_create_made op.path spec.mode slot few tidy) fun r k m made => ?_
    cases r with
    | error e => exact op_fail_built slot _ e fresh.1 (empty made)
    | ok fd =>
      refine always_pure made.1.within ⟨?_,fresh.1,by simp [fresh.2.1],fun _ => ⟨fd,_,rfl,made.2,fun _ => ?_⟩⟩
      · exact made.1
      · rw [fresh.1]
        simp [finalOf,relative]
  · split
    · refine always_seq (always_plain (uses_sys trivial) tidy) fun r k m tidy => ?_
      cases r with
      | ok st => exact op_fail_built slot _ _ fresh.1 (empty tidy)
      | error e => exact buildFile_built fuel slot _ fresh asked few tidy
    · exact buildFile_built fuel slot _ fresh asked few tidy

/-- Whatever way an operand is built, without a failure its file has the final mode. -/
theorem build_one_built {spec : FileSpec} (fuel : Nat) (path : Path) (slot : Nat) (terms : Open T) (asked : T.mode = spec.mode)
    (few : base.length ≤ T.batch) (tidy : Tidy T base start told k m) :
    Always T (build_one fuel path slot spec) (Built T base start told spec path) k m := by
  rw [build_one]
  split
  · exact op_fail_built slot _ _ rfl tidy
  · split
    · refine always_seq (path_make_parents_tends fuel path terms (Nat.le_succ_of_le few) tidy) fun r k m tidy => ?_
      cases r with
      | error e => exact op_fail_built slot _ e rfl tidy
      | ok _ => exact buildIn_built fuel slot ⟨rfl,rfl,rfl⟩ asked few tidy
    · exact buildIn_built fuel slot ⟨rfl,rfl,rfl⟩ asked few tidy

end Newfile.Tally
