import Newfile.Ledger

/-!
What the calls of a run do to names, files and inodes, one lemma for each kind of
call: those that matter to no name, those that change one file, and each call that
makes or takes a name.
-/
namespace Newfile.Answers
open Newfile.Program Newfile.Posix Newfile.Effects Newfile.Ledger

variable {res : Path → Ino} {k k' : Kernel} {c : Call} {fd : Fd} {p q : Path} {mode : Mode} {n : Ino}

/-- The mode grants nothing beyond the owner's reading and writing. -/
def Private (mode : Mode) : Prop := mode &&& 0o600 = mode

theorem private_and {hint : Mode} : Private (0o600 &&& hint) := by
  rw [Private,BitVec.and_comm (0o600 &&& hint),← BitVec.and_assoc,BitVec.and_self]

theorem private_dropIds (secret : Private mode) : Private (dropIds mode) := by
  rw [Private,dropIds,BitVec.and_assoc,BitVec.and_comm 0o1777,← BitVec.and_assoc,secret]

/-- An answer is sane. -/
theorem exec_sane {r : posix.Res c} (answered : exec res k c r k') : Sane c r := by
  rcases exec_cases answered with ⟨e,_,rfl,_⟩ | ⟨hints,x,found,rfl,_⟩
  · cases c <;> trivial
  · cases c <;> try trivial
    all_goals simp only [answer,Option.some.injEq,Option.ite_none_right_eq_some] at found
    · obtain ⟨⟨length,_⟩,rfl⟩ := found
      exact length
    · rw [← found]
      rfl

/-- A call that fails changes neither names nor files. -/
theorem exec_error {e : Errno} (answered : exec res k c (.error e) k') :
    mayFail res k c e = true ∧ k'.names = k.names ∧ k'.files = k.files ∧ k'.next = k.next := by
  rcases exec_cases answered with ⟨e',may,same,rfl⟩ | ⟨hints,x,_,wrong,_⟩
  · obtain rfl : e = e' := by simpa using same
    refine ⟨may,?_⟩
    cases c <;> exact ⟨rfl,rfl,rfl⟩
  · simp at wrong

/-- A call that can be answered is. -/
theorem exec_done (res : Path → Ino) (k : Kernel) (c : Call) (answers : (answer res k [] c).isSome = true) :
    ∃ x k', exec res k c (.ok x) k' := by
  obtain ⟨x,found⟩ := Option.isSome_iff_exists.mp answers
  exact ⟨x.1,x.2,.done,by rw [step,found]; rfl⟩

/-! ## Calls that matter to no name -/

/-- What may happen to the files from `i` on that are in use: nothing but a flush. -/
def Flushes (k : Kernel) (i : Ino) (k' : Kernel) : Prop :=
  k'.files i = k.files i ∨ k'.files i = { k.files i with synced := true }

theorem answer_still {hints : List Nat} {x : c.Val × Kernel} (still : matters c = false) (found : answer res k hints c = some x) :
    x.2.names = k.names ∧ k.next ≤ x.2.next ∧ ∀ i, Flushes k i x.2 := by
  have same : x.2.names = k.names ∧ x.2.next = k.next ∧ x.2.files = k.files →
      x.2.names = k.names ∧ k.next ≤ x.2.next ∧ ∀ i, Flushes k i x.2 :=
    fun ⟨names,next,files⟩ => ⟨names,Nat.le_of_eq next.symm,fun i => .inl (congrFun files i)⟩
  cases c <;> simp only [matters,altered,Option.isSome_some,Option.isSome_none,Bool.true_eq_false] at still
  all_goals simp only [answer] at found
  case fsync fd =>
    obtain rfl := Option.some.inj found
    refine ⟨rfl,Nat.le_refl _,fun i => ?_⟩
    by_cases this : i = fd.ino
    · exact .inr (by simp [Kernel.flushed,this])
    · exact .inl (by simp [Kernel.flushed,this])
  all_goals
    repeat' split at found
  all_goals first
    | (obtain rfl := Option.some.inj found; exact same ⟨rfl,rfl,rfl⟩)
    | simp at found

theorem exec_still {r : posix.Res c} (still : matters c = false) (answered : exec res k c r k') :
    k'.names = k.names ∧ k.next ≤ k'.next ∧ ∀ i, Flushes k i k' := by
  rcases exec_cases answered with ⟨e,_,rfl,_⟩ | ⟨hints,x,found,rfl,rfl⟩
  · obtain ⟨_,names,files,next⟩ := exec_error answered
    exact ⟨names,Nat.le_of_eq next.symm,fun i => .inl (congrFun files i)⟩
  · exact answer_still still found

/-- A call that looks at a name, or asks what it can, tells what is there. -/
theorem exec_lstat {st : Stat} (answered : exec res k (.lstat p) (.ok st) k') : k.names.get (entry res p) = some st.ino := by
  rcases exec_cases answered with ⟨e,_,wrong,_⟩ | ⟨hints,x,found,same,_⟩
  · simp at wrong
  · simp only [answer] at found
    split at found
    · rename_i i there
      obtain rfl := Option.some.inj found
      rw [Except.ok.inj same]
      exact there
    · simp at found

/-- A listing has the names of all entries of the directory. -/
theorem exec_list {d : Path} {names : List Path} (answered : exec res k (.list d) (.ok names) k') :
    k' = k ∧ ∀ x, x ∈ names ↔ (k.names.get (res d,x)).isSome = true := by
  rcases exec_cases answered with ⟨e,_,wrong,_⟩ | ⟨hints,y,found,same,rfl⟩
  · simp at wrong
  · obtain rfl := Option.some.inj found
    obtain rfl := Except.ok.inj same
    refine ⟨rfl,fun x => ?_⟩
    simp only [Names.get,Option.isSome_map,List.find?_isSome,List.mem_map,List.mem_filter]
    constructor
    · rintro ⟨y,⟨here,dir⟩,rfl⟩
      exact ⟨y,here,by simpa [Prod.ext_iff] using dir⟩
    · rintro ⟨y,here,same⟩
      obtain ⟨dir,rfl⟩ : y.1.1 = res d ∧ y.1.2 = x := by simpa [Prod.ext_iff] using same
      exact ⟨y,⟨here,by simpa using dir⟩,rfl⟩

/-! ## Calls that change one file -/

/-- The one file that may change is `i`, in a way that leaves a private file private. -/
structure Changed (k : Kernel) (i : Ino) (k' : Kernel) : Prop where
  names : k'.names = k.names
  next : k'.next = k.next
  files : ∀ j, j ≠ i → k'.files j = k.files j
  secret : Private (k.files i).mode → Private (k'.files i).mode

theorem changed_refl (k : Kernel) (i : Ino) : Changed k i k := ⟨rfl,rfl,fun _ _ => rfl,id⟩

theorem changed_edit (k : Kernel) (i : Ino) (f : List Byte → List Byte) : Changed k i (k.edit i f) where
  names := rfl
  next := rfl
  files j other := by simp [Kernel.edit,Kernel.alter,other]
  secret before := by simpa [Kernel.edit,Kernel.alter] using private_dropIds before

theorem Changed.seek {i : Ino} (changed : Changed k i k') (fd : Fd) (off : Nat) : Changed k i (k'.seek fd off) :=
  ⟨changed.names,changed.next,changed.files,changed.secret⟩

theorem exec_altered {r : posix.Res c} (alters : altered c = some fd) (answered : exec res k c r k') : Changed k fd.ino k' := by
  rcases exec_cases answered with ⟨e,_,rfl,_⟩ | ⟨hints,x,found,rfl,rfl⟩
  · obtain ⟨_,names,files,next⟩ := exec_error answered
    exact ⟨names,next,fun j _ => congrFun files j,fun before => by rw [files]; exact before⟩
  · cases c <;> simp only [altered,Option.some.injEq,reduceCtorEq] at alters
    all_goals
      subst alters
      simp only [answer] at found
      repeat' split at found
    all_goals first
      | simp at found; done
      | (obtain rfl := Option.some.inj found
         dsimp only
         first
          | exact changed_refl _ _
          | exact changed_edit k _ _
          | exact (changed_edit k _ _).seek _ _
          | skip)
    case fchown fd uid gid =>
      refine ⟨rfl,rfl,fun j other => by simp [Kernel.alter,other],fun before => ?_⟩
      simpa [Kernel.alter] using private_dropIds before

/-- The mode of the file is set. -/
structure Moded (k : Kernel) (i : Ino) (mode : Mode) (k' : Kernel) : Prop where
  names : k'.names = k.names
  next : k'.next = k.next
  files : ∀ j, j ≠ i → k'.files j = k.files j
  mode : (k'.files i).mode = mode

theorem exec_fchmod (answered : exec res k (.fchmod fd mode) (.ok ()) k') : Moded k fd.ino mode k' := by
  rcases exec_cases answered with ⟨e,_,wrong,_⟩ | ⟨hints,x,found,_,rfl⟩
  · simp at wrong
  · obtain rfl := Option.some.inj found
    exact ⟨rfl,rfl,fun j other => by simp [Kernel.alter,other],by simp [Kernel.alter]⟩

theorem exec_fsync (answered : exec res k (.fsync fd) (.ok ()) k') :
    k'.names = k.names ∧ k'.next = k.next ∧ (∀ j, j ≠ fd.ino → k'.files j = k.files j) ∧
      k'.files fd.ino = { k.files fd.ino with synced := true } := by
  rcases exec_cases answered with ⟨e,_,wrong,_⟩ | ⟨hints,x,found,_,rfl⟩
  · simp at wrong
  · obtain rfl := Option.some.inj found
    exact ⟨rfl,rfl,fun j other => by simp [Kernel.flushed,other],by simp [Kernel.flushed]⟩

/-! ## Calls that make a file -/

/-- A file that was not there. -/
structure Makes (k : Kernel) (fd : Fd) (k' : Kernel) : Prop where
  ino : fd.ino = k.next
  next : k'.next = k.next+1
  files : ∀ j, j ≠ k.next → k'.files j = k.files j

theorem exec_open_excl (answered : exec res k (.open_excl q mode) (.ok fd) k') :
    Makes k fd k' ∧ k.names.get (entry res q) = none ∧
      (∀ e, k'.names.get e = if e = entry res q then some fd.ino else k.names.get e) ∧
      (mode = 0o600 → Private (k'.files fd.ino).mode) ∧ (k'.files fd.ino).data = [] := by
  rcases exec_cases answered with ⟨e,_,wrong,_⟩ | ⟨hints,x,found,same,rfl⟩
  · simp at wrong
  · simp only [answer] at found
    split at found
    · rename_i absent
      obtain rfl := Option.some.inj found
      obtain rfl := Except.ok.inj same
      refine ⟨⟨rfl,rfl,fun j other => ?_⟩,absent,fun e => ?_,?_,?_⟩
      · simp [Kernel.assign,Kernel.newFile,Kernel.newFd,other]
      · exact Names.get_put _ _ _ _
      · rintro rfl
        simpa [Kernel.assign,Kernel.newFile,Kernel.newFd] using private_and
      · simp [Kernel.assign,Kernel.newFile,Kernel.newFd]
    · simp at found

theorem exec_open_tmpfile {d : Path} (answered : exec res k (.open_tmpfile d mode) (.ok fd) k') :
    Makes k fd k' ∧ k'.names = k.names := by
  rcases exec_cases answered with ⟨e,_,wrong,_⟩ | ⟨hints,x,found,same,rfl⟩
  · simp at wrong
  · obtain rfl := Option.some.inj found
    obtain rfl := Except.ok.inj same
    exact ⟨⟨rfl,rfl,fun j other => by simp [Kernel.newFile,Kernel.newFd,other]⟩,rfl⟩

theorem exec_mkstemp {x : Fd × Path} (answered : exec res k (.mkstemp p) (.ok x) k') :
    ∀ e, k'.names.get e = if e = entry res x.2 then some x.1.ino else k.names.get e := by
  rcases exec_cases answered with ⟨e,_,wrong,_⟩ | ⟨hints,y,found,same,rfl⟩
  · simp at wrong
  · simp only [answer] at found
    split at found
    · obtain rfl := Option.some.inj found
      obtain rfl := Except.ok.inj same
      exact fun e => Names.get_put _ _ _ _
    · simp at found

/-! ## Calls that make or take a name -/

/-- Nothing changes but names. -/
structure Renames (k k' : Kernel) : Prop where
  next : k'.next = k.next
  files : k'.files = k.files

theorem exec_unlink (answered : exec res k (.unlink q) (.ok ()) k') :
    Renames k k' ∧ (k.names.get (entry res q)).isSome = true ∧
      ∀ e, k'.names.get e = if e = entry res q then none else k.names.get e := by
  rcases exec_cases answered with ⟨e,_,wrong,_⟩ | ⟨hints,x,found,_,rfl⟩
  · simp at wrong
  · simp only [answer] at found
    split at found
    · rename_i there
      obtain rfl := Option.some.inj found
      refine ⟨⟨rfl,rfl⟩,?_,fun e => Names.get_drop _ _ _⟩
      rw [Kernel.fileAt] at there
      cases at_ : k.names.get (entry res q) with
      | none => simp [at_] at there
      | some i => rfl
    · simp at found

theorem exec_linkat (answered : exec res k (.linkat fd q) (.ok ()) k') :
    Renames k k' ∧ k.names.get (entry res q) = none ∧
      ∀ e, k'.names.get e = if e = entry res q then some fd.ino else k.names.get e := by
  rcases exec_cases answered with ⟨e,_,wrong,_⟩ | ⟨hints,x,found,_,rfl⟩
  · simp at wrong
  · simp only [answer] at found
    split at found
    · rename_i absent
      obtain rfl := Option.some.inj found
      exact ⟨⟨rfl,rfl⟩,absent,fun e => Names.get_put _ _ _ _⟩
    · simp at found

theorem fileAt_some {e : Entry} {i : Ino} (there : k.fileAt e = some i) : k.names.get e = some i := by
  rw [Kernel.fileAt,Option.filter_eq_some_iff] at there
  exact there.1

theorem exec_link (answered : exec res k (.link p q) (.ok ()) k') :
    Renames k k' ∧ k.names.get (entry res q) = none ∧ ∃ i, k.names.get (entry res p) = some i ∧
      ∀ e, k'.names.get e = if e = entry res q then some i else k.names.get e := by
  rcases exec_cases answered with ⟨e,_,wrong,_⟩ | ⟨hints,x,found,_,rfl⟩
  · simp at wrong
  · simp only [answer] at found
    split at found
    · rename_i i there absent
      obtain rfl := Option.some.inj found
      exact ⟨⟨rfl,rfl⟩,absent,i,fileAt_some there,fun e => Names.get_put _ _ _ _⟩
    · simp at found

/-- A name is moved onto another. -/
theorem get_move (ns : Names) (a b : Entry) (i : Ino) (e : Entry) :
    (ns.apply [(b,some i),(a,none)]).get e = if e = a then none else if e = b then some i else ns.get e := by
  simp only [Names.apply,List.foldl_cons,List.foldl_nil,Names.assign,Names.get_drop,Names.get_put]

theorem exec_rename (answered : exec res k (.rename p q) (.ok ()) k') :
    Renames k k' ∧ ∃ i, k.names.get (entry res p) = some i ∧
      (k.names.get (entry res q) = some i ∧ k'.names = k.names ∨
        k.names.get (entry res q) ≠ some i ∧
          ∀ e, k'.names.get e = if e = entry res p then none else if e = entry res q then some i else k.names.get e) := by
  rcases exec_cases answered with ⟨e,_,wrong,_⟩ | ⟨hints,x,found,_,rfl⟩
  · simp at wrong
  · simp only [answer] at found
    split at found
    · rename_i i there
      split at found
      · rename_i same
        obtain rfl := Option.some.inj found
        exact ⟨⟨rfl,rfl⟩,i,fileAt_some there,.inl ⟨same,rfl⟩⟩
      · rename_i other
        split at found
        · simp at found
        · obtain rfl := Option.some.inj found
          exact ⟨⟨rfl,rfl⟩,i,fileAt_some there,.inr ⟨other,fun e => get_move _ _ _ _ _⟩⟩
    · simp at found

theorem exec_noreplace (answered : exec res k (.rename_noreplace p q) (.ok ()) k') :
    Renames k k' ∧ k.names.get (entry res q) = none ∧ ∃ i, k.names.get (entry res p) = some i ∧
      ∀ e, k'.names.get e = if e = entry res p then none else if e = entry res q then some i else k.names.get e := by
  rcases exec_cases answered with ⟨e,_,wrong,_⟩ | ⟨hints,x,found,_,rfl⟩
  · simp at wrong
  · simp only [answer] at found
    split at found
    · rename_i i there absent
      obtain rfl := Option.some.inj found
      exact ⟨⟨rfl,rfl⟩,absent,i,fileAt_some there,fun e => get_move _ _ _ _ _⟩
    · simp at found

theorem exec_exchange (answered : exec res k (.rename_exchange p q) (.ok ()) k') :
    Renames k k' ∧ ∃ i j, k.names.get (entry res p) = some i ∧ k.names.get (entry res q) = some j ∧
      ∀ e, k'.names.get e = if e = entry res q then some i else if e = entry res p then some j else k.names.get e := by
  rcases exec_cases answered with ⟨e,_,wrong,_⟩ | ⟨hints,x,found,_,rfl⟩
  · simp at wrong
  · simp only [answer] at found
    split at found
    · rename_i i j one two
      obtain rfl := Option.some.inj found
      refine ⟨⟨rfl,rfl⟩,i,j,one,two,fun e => ?_⟩
      simp only [Kernel.assign,Names.apply,List.foldl_cons,List.foldl_nil,Names.assign,Names.get_put]
    · simp at found

theorem exec_mkdir (answered : exec res k (.mkdir q) (.ok ()) k') :
    k'.next = k.next ∧ (∀ j, j ≠ res q → k'.files j = k.files j) ∧ k.names.get (entry res q) = none ∧
      ∀ e, k'.names.get e = if e = entry res q then some (res q) else k.names.get e := by
  rcases exec_cases answered with ⟨e,_,wrong,_⟩ | ⟨hints,x,found,_,rfl⟩
  · simp at wrong
  · simp only [answer] at found
    split at found
    · rename_i absent
      obtain rfl := Option.some.inj found
      exact ⟨rfl,fun j other => by simp [Kernel.assign,Kernel.alter,other],absent,fun e => Names.get_put _ _ _ _⟩
    · simp at found

/-- The entries that a call makes, replaces or removes. -/
def touched (res : Path → Ino) : Event posix → List Entry
  | ⟨.open_excl q _,.ok _⟩ | ⟨.link _ q,.ok _⟩ | ⟨.linkat _ q,.ok _⟩ | ⟨.unlink q,.ok _⟩ | ⟨.mkdir q,.ok _⟩ => [entry res q]
  | ⟨.rename p q,.ok _⟩ | ⟨.rename_noreplace p q,.ok _⟩ | ⟨.rename_exchange p q,.ok _⟩ => [entry res p,entry res q]
  | ⟨.mkstemp _,.ok x⟩ => [entry res x.2]
  | _ => []

/-- Other entries stay as they are. -/
theorem exec_touched {r : posix.Res c} {e : Entry} (answered : exec res k c r k') (other : e ∉ touched res ⟨c,r⟩) :
    k'.names.get e = k.names.get e := by
  have one : ∀ {e' : Entry} {i : Option Ino}, (∀ x, k'.names.get x = if x = e' then i else k.names.get x) → e ≠ e' →
      k'.names.get e = k.names.get e := fun names different => by rw [names,if_neg different]
  have two : ∀ {a b : Entry} {i j : Option Ino},
      (∀ x, k'.names.get x = if x = a then i else if x = b then j else k.names.get x) → e ≠ a → e ≠ b →
      k'.names.get e = k.names.get e := fun names first second => by rw [names,if_neg first,if_neg second]
  have same : k'.names = k.names → k'.names.get e = k.names.get e := congrArg (Names.get · e)
  cases r with
  | error err => exact same (exec_error answered).2.1
  | ok x =>
    cases c with
    | open_excl q mode => exact one (exec_open_excl answered).2.2.1 (by simpa [touched] using other)
    | linkat fd q => exact one (exec_linkat answered).2.2 (by simpa [touched] using other)
    | mkdir q => exact one (exec_mkdir answered).2.2.2 (by simpa [touched] using other)
    | mkstemp p => exact one (exec_mkstemp answered) (by simpa [touched] using other)
    | unlink q => exact one (exec_unlink answered).2.2 (by simpa [touched] using other)
    | link p q =>
      obtain ⟨_,_,i,_,names⟩ := exec_link answered
      exact one names (by simpa [touched] using other)
    | rename p q =>
      obtain ⟨_,i,_,⟨_,stays⟩ | ⟨_,names⟩⟩ := exec_rename answered
      · exact same stays
      · obtain ⟨first,second⟩ : e ≠ entry res p ∧ e ≠ entry res q := by simpa [touched] using other
        exact two names first second
    | rename_noreplace p q =>
      obtain ⟨_,_,i,_,names⟩ := exec_noreplace answered
      obtain ⟨first,second⟩ : e ≠ entry res p ∧ e ≠ entry res q := by simpa [touched] using other
      exact two names first second
    | rename_exchange p q =>
      obtain ⟨_,i,j,_,_,names⟩ := exec_exchange answered
      obtain ⟨first,second⟩ : e ≠ entry res p ∧ e ≠ entry res q := by simpa [touched] using other
      exact two names second first
    | fchmod fd mode => exact same (exec_fchmod answered).names
    | open_tmpfile dir mode => exact same (exec_open_tmpfile answered).2
    | memfd_create =>
      rcases exec_cases answered with ⟨_,_,wrong,_⟩ | ⟨hints,y,found,_,rfl⟩
      · simp at wrong
      · obtain rfl := Option.some.inj found
        rfl
    | splice src dst len =>
      rcases exec_cases answered with ⟨_,_,wrong,_⟩ | ⟨hints,y,found,_,rfl⟩
      · simp at wrong
      · simp only [answer] at found
        split at found
        · obtain rfl := Option.some.inj found
          rfl
        · simp at found
    | fchown | ftruncate | fallocate | copy_file_range | sendfile | write | pwrite => exact same (exec_altered rfl answered).names
    | _ => exact same (exec_still rfl answered).1

/-- Numbers of files are given out in order. -/
theorem exec_next {r : posix.Res c} (answered : exec res k c r k') : k.next ≤ k'.next := by
  cases r with
  | error err => exact Nat.le_of_eq (exec_error answered).2.2.2.symm
  | ok x =>
    have same : k'.next = k.next → k.next ≤ k'.next := fun same => Nat.le_of_eq same.symm
    have more : k'.next = k.next + 1 → k.next ≤ k'.next := fun more => more ▸ Nat.le_succ _
    cases c with
    | open_excl q mode => exact more (exec_open_excl answered).1.next
    | open_tmpfile d mode => exact more (exec_open_tmpfile answered).1.next
    | linkat fd q => exact same (exec_linkat answered).1.next
    | mkdir q => exact same (exec_mkdir answered).1
    | unlink q => exact same (exec_unlink answered).1.next
    | link p q => exact same (exec_link answered).1.next
    | rename p q => exact same (exec_rename answered).1.next
    | rename_noreplace p q => exact same (exec_noreplace answered).1.next
    | rename_exchange p q => exact same (exec_exchange answered).1.next
    | fchmod fd mode => exact same (exec_fchmod answered).next
    | mkstemp p | memfd_create | splice =>
      rcases exec_cases answered with ⟨_,_,wrong,_⟩ | ⟨hints,y,found,_,rfl⟩
      · simp at wrong
      · simp only [answer] at found
        first
        | (obtain rfl := Option.some.inj found; exact more rfl)
        | (split at found
           · obtain rfl := Option.some.inj found
             first | exact more rfl | exact same rfl
           · simp at found)
    | fchown | ftruncate | fallocate | copy_file_range | sendfile | write | pwrite => exact same (exec_altered rfl answered).next
    | _ => exact (exec_still rfl answered).2.1

end Newfile.Answers
