import Newfile.Flush

/-!
The set of directories to flush, whatever the calls answer. The system keeps a
record of the calls; `Inv` compares it with the failures that the program has
noted, and `Done` says what has become of a directory.
-/
namespace Newfile.Dirs
open Newfile.Program Newfile.Posix Newfile.Process Newfile.Flush

abbrev Trace := List (Event posix)

variable {res : Path → Ino} {spins : Prop}

/-! ## The system -/

/-- A descriptor of a directory is on the inode that its name refers to, and is not
    the one of an earlier directory. -/
def honest (res : Path → Ino) (tr : Trace) : (c : Call) → posix.Res c → Prop
  | .open_dir dir, .ok fd => fd.ino = res dir ∧ ∀ dir', ⟨.open_dir dir',.ok fd⟩ ∉ tr
  | .fstat fd, .ok st => st.ino = fd.ino
  | .stat path, .ok st => st.ino = res path
  | _, _ => True

/-- Any answers, recorded. -/
def logged (res : Path → Ino) : System posix Trace := fun tr c r tr' => honest res tr c r ∧ tr' = tr ++ [⟨c,r⟩]

theorem wp_logged {c : Call} {Q : posix.Res c → Trace → Memory → Prop} {tr : Trace} {m : Memory}
    (fine : ∀ r, honest res tr c r → Q r (tr ++ [⟨c,r⟩]) m) : wp (logged res) spins (perform c) Q tr m := by
  rintro r tr' ⟨kept,rfl⟩
  exact fine r kept

/-! ## Failures -/

/-- No right to open a directory is no failure. -/
def refusal (e : Errno) : Bool := e = .EACCES || e = .EPERM

/-- A failure that `flush_set_failures` is to count. -/
def counted : Event posix → Bool
  | ⟨.open_dir _,.error e⟩ => !refusal e
  | ⟨.fsync _,.error e⟩ => e != .EINTR && (sync_err e true).isSome
  | _ => false

/-- An event of the directories themselves. -/
def telling : Event posix → Bool
  | ⟨.open_dir _,_⟩ | ⟨.fsync _,_⟩ | ⟨.fstat _,_⟩ => true
  | _ => false

theorem counted_telling {ev : Event posix} (quiet : telling ev = false) : counted ev = false := by
  rcases ev with ⟨c,r⟩
  cases c <;> first | rfl | simp [telling] at quiet

/-- A failure is noted, or is still to be. -/
def Noted (m : Memory) (owed : List (Path × Option Ino)) (name : Path) (known : Option Ino) : Prop :=
  m.failures_lost = true ∨ (⟨name,known⟩ : DirFailure) ∈ m.failures ∨ (name,known) ∈ owed

/-- What the memory has noted of a trace; the failures `owed` are in the trace and
    still to be noted. -/
structure Inv (before : Nat) (tr : Trace) (m : Memory) (owed : List (Path × Option Ino)) : Prop where
  count : m.dirs_nfailed+owed.length = before+tr.countP counted
  opened : ∀ name e, ⟨.open_dir name,.error e⟩ ∈ tr → refusal e = false → ∃ known, Noted m owed name known
  synced : ∀ name fd e, ⟨.open_dir name,.ok fd⟩ ∈ tr → ⟨.fsync fd,.error e⟩ ∈ tr →
    counted ⟨.fsync fd,.error e⟩ = true →
    ∃ known, Noted m owed name known ∧ ((∃ st, ⟨.fstat fd,.ok st⟩ ∈ tr) → known = some fd.ino)
  source : ∀ fd r, ⟨.fsync fd,r⟩ ∈ tr → ∃ name, ⟨.open_dir name,.ok fd⟩ ∈ tr
  stated : ∀ fd r, ⟨.fstat fd,r⟩ ∈ tr → ∃ name, ⟨.open_dir name,.ok fd⟩ ∈ tr
  one : ∀ name name' fd, ⟨.open_dir name,.ok fd⟩ ∈ tr → ⟨.open_dir name',.ok fd⟩ ∈ tr → name = name'

theorem inv_nil (m : Memory) : Inv m.dirs_nfailed [] m [] :=
  ⟨rfl,by simp,by simp,by simp,by simp,by simp⟩

/-- What is noted stays noted. -/
structure Grows (m m' : Memory) : Prop where
  failures : ∀ f ∈ m.failures, f ∈ m'.failures
  lost : m.failures_lost = true → m'.failures_lost = true

theorem Grows.refl (m : Memory) : Grows m m := ⟨fun _ member => member,fun lost => lost⟩

theorem Grows.trans {m m' m'' : Memory} (one : Grows m m') (two : Grows m' m'') : Grows m m'' :=
  ⟨fun f member => two.failures f (one.failures f member),fun lost => two.lost (one.lost lost)⟩

section
variable {before : Nat} {tr : Trace} {m : Memory} {owed : List (Path × Option Ino)}

theorem mem_quiet {ev quiet : Event posix} (unsaid : telling quiet = false) (told : telling ev = true) :
    ev ∈ tr ++ [quiet] ↔ ev ∈ tr := by
  rw [List.mem_append,List.mem_singleton]
  constructor
  · rintro (member | rfl)
    · exact member
    · rw [told] at unsaid
      exact absurd unsaid (by simp)
  · exact .inl

/-- Other calls than those of directories change nothing. -/
theorem Inv.quiet (inv : Inv before tr m owed) {ev : Event posix} (unsaid : telling ev = false) :
    Inv before (tr ++ [ev]) m owed := by
  have same : ∀ {e : Event posix}, telling e = true → (e ∈ tr ++ [ev] ↔ e ∈ tr) := mem_quiet unsaid
  refine ⟨?_,fun name e member refused => ?_,fun name fd e opened synced bad => ?_,fun fd r member => ?_,
    fun fd r member => ?_,fun name name' fd opened opened' => ?_⟩
  · rw [List.countP_append,List.countP_singleton,counted_telling unsaid]
    exact inv.count
  · exact inv.opened name e ((same rfl).mp member) refused
  · obtain ⟨known,noted,stated⟩ := inv.synced name fd e ((same rfl).mp opened) ((same rfl).mp synced) bad
    exact ⟨known,noted,fun ⟨st,member⟩ => stated ⟨st,(same rfl).mp member⟩⟩
  · obtain ⟨name,opened⟩ := inv.source fd r ((same rfl).mp member)
    exact ⟨name,(same rfl).mpr opened⟩
  · obtain ⟨name,opened⟩ := inv.stated fd r ((same rfl).mp member)
    exact ⟨name,(same rfl).mpr opened⟩
  · exact inv.one name name' fd ((same rfl).mp opened) ((same rfl).mp opened')

/-- The memory may change in other places, and note more. -/
theorem Inv.memory {m' : Memory} {owed' : List (Path × Option Ino)} (inv : Inv before tr m owed)
    (count : m'.dirs_nfailed+owed'.length = m.dirs_nfailed+owed.length)
    (noted : ∀ name known, Noted m owed name known → Noted m' owed' name known) : Inv before tr m' owed' := by
  refine ⟨count.trans inv.count,fun name e member refused => ?_,fun name fd e opened synced bad => ?_,inv.source,
    inv.stated,inv.one⟩
  · obtain ⟨known,was⟩ := inv.opened name e member refused
    exact ⟨known,noted name known was⟩
  · obtain ⟨known,was,stated⟩ := inv.synced name fd e opened synced bad
    exact ⟨known,noted name known was,stated⟩

/-- Nothing was asked of directories. -/
def Quietly (tr tr' : Trace) : Prop := ∃ es, tr' = tr ++ es ∧ ∀ ev ∈ es, telling ev = false

theorem Quietly.refl (tr : Trace) : Quietly tr tr := ⟨[],by simp,by simp⟩

theorem Quietly.one (tr : Trace) {ev : Event posix} (unsaid : telling ev = false) : Quietly tr (tr ++ [ev]) :=
  ⟨[ev],rfl,fun _ member => by rw [List.mem_singleton.mp member]; exact unsaid⟩

theorem Quietly.trans {tr tr' tr'' : Trace} (first : Quietly tr tr') (second : Quietly tr' tr'') : Quietly tr tr'' := by
  obtain ⟨es,rfl,quiet⟩ := first
  obtain ⟨es',rfl,quiet'⟩ := second
  refine ⟨es ++ es',by simp,fun ev member => ?_⟩
  rcases List.mem_append.mp member with member | member
  · exact quiet ev member
  · exact quiet' ev member

theorem dir_failed_spec {name : Path} {e : Errno} {known : Option Ino} (inv : Inv before tr m ((name,known) :: owed)) :
    wp (logged res) spins (dir_failed name e known) (fun _ tr' m' => Inv before tr' m' owed ∧ Grows m m' ∧
      Noted m' [] name known ∧ m'.dirs = m.dirs ∧ m'.dirs_max = m.dirs_max ∧ Quietly tr tr') tr m := by
  have lose : ∀ {tr'}, Inv before tr' m ((name,known) :: owed) → Quietly tr tr' →
      Inv before tr' { m with
        log := .cannot_flush name e :: m.log, dirs_nfailed := m.dirs_nfailed+1, failures_lost := true } owed ∧
      Grows m { m with
        log := .cannot_flush name e :: m.log, dirs_nfailed := m.dirs_nfailed+1, failures_lost := true } ∧
      Noted { m with
        log := .cannot_flush name e :: m.log, dirs_nfailed := m.dirs_nfailed+1, failures_lost := true } [] name known ∧
      m.dirs = m.dirs ∧ m.dirs_max = m.dirs_max ∧ Quietly tr tr' := by
    intro tr' inv quietly
    refine ⟨inv.memory ?_ fun _ _ _ => .inl rfl,⟨fun _ member => member,fun _ => rfl⟩,.inl rfl,rfl,rfl,quietly⟩
    simp only [List.length_cons]
    omega
  rw [dir_failed,say,wp_bind,wp_modify,wp_bind,wp_modify,wp_bind,wp_get]
  dsimp only
  split
  · rw [wp_modify]
    exact lose inv (Quietly.refl tr)
  · rw [wp_bind,allocate]
    refine wp_logged fun r _ => ?_
    have inv' : Inv before (tr ++ [⟨.alloc,r⟩]) m ((name,known) :: owed) := inv.quiet rfl
    cases r with
    | error _ =>
      dsimp only
      rw [wp_modify]
      exact lose inv' (Quietly.one tr rfl)
    | ok _ =>
      dsimp only
      rw [wp_modify]
      refine ⟨inv'.memory ?_ fun name' known' noted => ?_,⟨fun f member => ?_,fun lost => lost⟩,
        .inr (.inl (by simp)),rfl,rfl,Quietly.one tr rfl⟩
      · simp only [List.length_cons]
        omega
      · rcases noted with lost | member | pending
        · exact .inl lost
        · exact .inr (.inl (List.mem_append_left _ member))
        · rcases List.mem_cons.mp pending with here | there
          · obtain ⟨rfl,rfl⟩ := Prod.mk.inj here
            exact .inr (.inl (by simp))
          · exact .inr (.inr there)
      · exact List.mem_append_left _ member

end

/-! ## Flushing -/

/-- A descriptor with what the program knows of it: the name it was opened by, and its
    inode if `fstat` told it. -/
structure Opened (tr : Trace) (o : OpenDir) : Prop where
  opened : ⟨.open_dir o.name,.ok o.fd⟩ ∈ tr
  known : ∀ ino, o.known = some ino → ino = o.fd.ino
  unknown : o.known = none → ∀ st, ⟨.fstat o.fd,.ok st⟩ ∉ tr

/-- The last `fsync` of a descriptor did its work, or the directory cannot be flushed. -/
def Synced (tr : Trace) (ino : Ino) : Prop :=
  ∃ fd r, ⟨.fsync fd,r⟩ ∈ tr ∧ fd.ino = ino ∧ ∀ e, r = .error e → e ≠ .EINTR ∧ sync_err e true = none

/-- A flush of the inode has failed. -/
def Unsynced (tr : Trace) (ino : Ino) : Prop :=
  ∃ fd e, ⟨.fsync fd,.error e⟩ ∈ tr ∧ fd.ino = ino ∧ counted ⟨.fsync fd,.error e⟩ = true

/-- The descriptors whose `fsync` has come to an end, in order. -/
def flushed (tr : Trace) : List Fd := tr.filterMap fun ev =>
  match ev with
  | ⟨.fsync fd,.error e⟩ => if e = .EINTR then none else some fd
  | ⟨.fsync fd,.ok _⟩ => some fd
  | _ => none

/-- What a failed `fsync` leaves to be noted. -/
def debts (results : List (OpenDir × Option Errno)) : List (Path × Option Ino) :=
  results.filterMap fun x => x.2.map fun _ => (x.1.name,x.1.known)

section
variable {before : Nat} {tr : Trace} {m : Memory} {owed : List (Path × Option Ino)}

/-- An `fsync` that changes nothing yet. -/
theorem Inv.sync (inv : Inv before tr m owed) {o : OpenDir} (opened : Opened tr o) {r : Except Errno Unit}
    (fine : counted ⟨.fsync o.fd,r⟩ = false) : Inv before (tr ++ [⟨.fsync o.fd,r⟩]) m owed := by
  refine ⟨?_,fun name e member refused => ?_,fun name fd e member synced bad => ?_,fun fd r' member => ?_,
    fun fd r' member => ?_,fun name name' fd member member' => ?_⟩
  · rw [List.countP_append,List.countP_singleton,fine]
    exact inv.count
  · exact inv.opened name e (by simpa using member) refused
  · rcases List.mem_append.mp synced with old | new
    · obtain ⟨known,noted,stated⟩ := inv.synced name fd e (by simpa using member) old bad
      exact ⟨known,noted,fun ⟨st,member⟩ => stated ⟨st,by simpa using member⟩⟩
    · rw [List.mem_singleton] at new
      obtain ⟨rfl,rfl⟩ : fd = o.fd ∧ Except.error e = r := by simpa using new
      rw [bad] at fine
      exact absurd fine (by simp)
  · rcases List.mem_append.mp member with old | new
    · obtain ⟨name,known⟩ := inv.source fd r' old
      exact ⟨name,List.mem_append_left _ known⟩
    · rw [List.mem_singleton] at new
      obtain ⟨rfl,-⟩ : fd = o.fd ∧ r' = r := by simpa using new
      exact ⟨o.name,List.mem_append_left _ opened.opened⟩
  · obtain ⟨name,known⟩ := inv.stated fd r' (by simpa using member)
    exact ⟨name,List.mem_append_left _ known⟩
  · exact inv.one name name' fd (by simpa using member) (by simpa using member')

/-- An `fsync` that fails for good: its failure is owed. -/
theorem Inv.sync_fails (inv : Inv before tr m owed) {o : OpenDir} (opened : Opened tr o) {e : Errno}
    (bad : counted ⟨.fsync o.fd,.error e⟩ = true) :
    Inv before (tr ++ [⟨.fsync o.fd,.error e⟩]) m ((o.name,o.known) :: owed) := by
  have more : ∀ {name known}, Noted m owed name known → Noted m ((o.name,o.known) :: owed) name known := by
    rintro name known (lost | member | pending)
    · exact .inl lost
    · exact .inr (.inl member)
    · exact .inr (.inr (List.mem_cons_of_mem _ pending))
  refine ⟨?_,fun name e member refused => ?_,fun name fd e' member synced bad' => ?_,fun fd r' member => ?_,
    fun fd r' member => ?_,fun name name' fd member member' => ?_⟩
  · rw [List.countP_append,List.countP_singleton,if_pos bad,List.length_cons]
    have := inv.count
    omega
  · obtain ⟨known,noted⟩ := inv.opened name e (by simpa using member) refused
    exact ⟨known,more noted⟩
  · rcases List.mem_append.mp synced with old | new
    · obtain ⟨known,noted,stated⟩ := inv.synced name fd e' (by simpa using member) old bad'
      exact ⟨known,more noted,fun ⟨st,member⟩ => stated ⟨st,by simpa using member⟩⟩
    · rw [List.mem_singleton] at new
      obtain ⟨rfl,-⟩ : fd = o.fd ∧ e' = e := by simpa using new
      obtain rfl := inv.one name o.name o.fd (by simpa using member) opened.opened
      refine ⟨o.known,.inr (.inr List.mem_cons_self),fun ⟨st,stated⟩ => ?_⟩
      have stated' : ⟨.fstat o.fd,.ok st⟩ ∈ tr := by simpa using stated
      cases known : o.known with
      | none => exact absurd stated' (opened.unknown known st)
      | some ino => rw [opened.known ino known]
  · rcases List.mem_append.mp member with old | new
    · obtain ⟨name,known⟩ := inv.source fd r' old
      exact ⟨name,List.mem_append_left _ known⟩
    · rw [List.mem_singleton] at new
      obtain ⟨rfl,-⟩ : fd = o.fd ∧ r' = .error e := by simpa using new
      exact ⟨o.name,List.mem_append_left _ opened.opened⟩
  · obtain ⟨name,known⟩ := inv.stated fd r' (by simpa using member)
    exact ⟨name,List.mem_append_left _ known⟩
  · exact inv.one name name' fd (by simpa using member) (by simpa using member')

theorem Opened.later {o : OpenDir} (opened : Opened tr o) {es : Trace} (unstated : ∀ st, ⟨.fstat o.fd,.ok st⟩ ∉ es) :
    Opened (tr ++ es) o :=
  ⟨List.mem_append_left _ opened.opened,opened.known,fun unknown st member => by
    rcases List.mem_append.mp member with old | new
    · exact opened.unknown unknown st old
    · exact unstated st new⟩

/-- What one `sync_one` leaves. -/
structure SyncedOne (before : Nat) (tr : Trace) (m : Memory) (owed : List (Path × Option Ino)) (o : OpenDir)
    (err : Option Errno) (tr' : Trace) (m' : Memory) : Prop where
  inv : Inv before tr' m' (debts [(o,err)] ++ owed)
  memory : m' = m
  flushed : flushed tr' = flushed tr ++ [o.fd]
  settled : err = none → Synced tr' o.fd.ino
  failed : ∀ e, err = some e → Unsynced tr' o.fd.ino
  grown : ∃ es, tr' = tr ++ es ∧ ∀ ev ∈ es, ∃ r, ev = ⟨.fsync o.fd,r⟩

theorem sync_one_spec (o : OpenDir) : ∀ (fuel : Nat) (tr : Trace), Inv before tr m owed → Opened tr o →
    wp (logged res) True (sync_one fuel o.fd true) (SyncedOne before tr m owed o) tr m := by
  intro fuel
  induction fuel with
  | zero => exact fun _ _ _ => trivial
  | succ fuel ih =>
    intro tr inv opened
    rw [sync_one,wp_bind]
    refine wp_logged fun r _ => ?_
    have same : ∀ (r : Except Errno Unit) (st : Stat), (⟨.fstat o.fd,.ok st⟩ : Event posix) ∉ [⟨.fsync o.fd,r⟩] := by simp
    cases r with
    | ok u =>
      refine ⟨inv.sync opened rfl,rfl,by simp [flushed],fun _ => ⟨o.fd,.ok u,by simp,rfl,by simp⟩,by simp,_,rfl,?_⟩
      intro ev member
      exact ⟨.ok u,List.mem_singleton.mp member⟩
    | error e =>
      change wp (logged res) True (if e = .EINTR then sync_one fuel o.fd true else pure (sync_err e true)) _ _ m
      by_cases again : e = .EINTR
      · rw [if_pos again]
        have quiet : counted ⟨.fsync o.fd,.error e⟩ = false := by simp [counted,again]
        refine wp_mono (ih _ (inv.sync opened quiet) (opened.later (same _))) fun err tr' m' done => ?_
        obtain ⟨inv',memory,flushed',settled,failed,es,rfl,only⟩ := done
        refine ⟨inv',memory,?_,settled,failed,⟨.fsync o.fd,.error e⟩ :: es,by simp,?_⟩
        · rw [flushed']
          simp [flushed,again]
        · intro ev member
          rcases List.mem_cons.mp member with rfl | rest
          · exact ⟨_,rfl⟩
          · exact only ev rest
      · rw [if_neg again]
        have last : flushed (tr ++ [⟨.fsync o.fd,.error e⟩]) = flushed tr ++ [o.fd] := by simp [flushed,again]
        have only : ∀ ev ∈ ([⟨.fsync o.fd,.error e⟩] : Trace), ∃ r, ev = ⟨.fsync o.fd,r⟩ := fun ev member =>
          ⟨.error e,List.mem_singleton.mp member⟩
        cases outcome : sync_err e true with
        | none =>
          have quiet : counted ⟨.fsync o.fd,.error e⟩ = false := by simp [counted,outcome]
          refine ⟨inv.sync opened quiet,rfl,last,fun _ => ⟨o.fd,.error e,by simp,rfl,?_⟩,by simp,_,rfl,only⟩
          rintro _ ⟨⟩
          exact ⟨again,outcome⟩
        | some e' =>
          have bad : counted ⟨.fsync o.fd,.error e⟩ = true := by simp [counted,outcome,again]
          exact ⟨inv.sync_fails opened bad,rfl,last,fun none_ => by simp at none_,fun _ _ => ⟨o.fd,e,by simp,rfl,bad⟩,_,rfl,only⟩

theorem debts_cons (o : OpenDir) (err : Option Errno) (rest : List (OpenDir × Option Errno)) :
    debts ((o,err) :: rest) = debts [(o,err)] ++ debts rest := by
  cases err with
  | none => rfl
  | some e => rfl

/-- The order of what is owed does not matter. -/
theorem Inv.perm {owed' : List (Path × Option Ino)} (inv : Inv before tr m owed) (perm : owed.Perm owed') :
    Inv before tr m owed' := by
  refine inv.memory (by rw [perm.length_eq]) fun name known noted => ?_
  rcases noted with lost | member | pending
  · exact .inl lost
  · exact .inr (.inl member)
  · exact .inr (.inr (perm.mem_iff.mp pending))

/-- What `flush_fds` leaves. -/
structure SyncedAll (before : Nat) (tr : Trace) (m : Memory) (owed : List (Path × Option Ino)) (os : List OpenDir)
    (errs : List (Option Errno)) (tr' : Trace) (m' : Memory) : Prop where
  inv : Inv before tr' m' (debts (os.zip errs) ++ owed)
  memory : m' = m
  length : errs.length = os.length
  flushed : flushed tr' = flushed tr ++ os.map (·.fd)
  settled : ∀ x ∈ os.zip errs, x.2 = none → Synced tr' x.1.fd.ino
  failed : ∀ x ∈ os.zip errs, ∀ e, x.2 = some e → Unsynced tr' x.1.fd.ino
  grown : ∃ es, tr' = tr ++ es ∧ ∀ ev ∈ es, ∃ fd r, ev = ⟨.fsync fd,r⟩

theorem Synced.later {ino : Ino} (synced : Synced tr ino) (es : Trace) : Synced (tr ++ es) ino := by
  obtain ⟨fd,r,member,same,fine⟩ := synced
  exact ⟨fd,r,List.mem_append_left _ member,same,fine⟩

theorem Unsynced.later {ino : Ino} (unsynced : Unsynced tr ino) (es : Trace) : Unsynced (tr ++ es) ino := by
  obtain ⟨fd,e,member,same,bad⟩ := unsynced
  exact ⟨fd,e,List.mem_append_left _ member,same,bad⟩

theorem flush_fds_spec {fuel : Nat} : ∀ (os : List OpenDir) (owed : List (Path × Option Ino)) (tr : Trace),
    Inv before tr m owed → (∀ o ∈ os, Opened tr o) →
    wp (logged res) True (flush_fds fuel true (os.map (·.fd))) (SyncedAll before tr m owed os) tr m := by
  intro os
  induction os with
  | nil => exact fun owed tr inv _ => ⟨inv,rfl,rfl,by simp,by simp,by simp,[],by simp,by simp⟩
  | cons o os ih =>
    intro owed tr inv opened
    rw [List.map_cons,flush_fds]
    refine wp_seq (sync_one_spec o fuel tr inv (opened o List.mem_cons_self)) fun err tr' m' one => ?_
    obtain ⟨inv',rfl,flushed',settled,failed,es,rfl,only⟩ := one
    have unstated : ∀ fd st, (⟨.fstat fd,.ok st⟩ : Event posix) ∉ es := by
      intro fd st member
      obtain ⟨r,same⟩ := only _ member
      simp at same
    refine wp_seq (ih _ _ inv' fun o' member => (opened o' (List.mem_cons_of_mem _ member)).later (unstated _)) ?_
    rintro errs tr' m' ⟨inv'',rfl,length,flushed'',settled',failed',es',rfl,only'⟩
    refine ⟨?_,rfl,by simp [length],?_,fun x member none_ => ?_,fun x member e some_ => ?_,es ++ es',by simp,fun ev member => ?_⟩
    · rw [List.zip_cons_cons,debts_cons]
      refine inv''.perm ?_
      rw [← List.append_assoc]
      exact (List.perm_append_comm).append_right owed
    · rw [flushed'',flushed']
      simp
    · rw [List.zip_cons_cons] at member
      rcases List.mem_cons.mp member with rfl | rest
      · exact (settled none_).later _
      · exact settled' x rest none_
    · rw [List.zip_cons_cons] at member
      rcases List.mem_cons.mp member with rfl | rest
      · exact (failed e some_).later _
      · exact failed' x rest e some_
    · rcases List.mem_append.mp member with member | member
      · obtain ⟨r,same⟩ := only ev member
        exact ⟨_,r,same⟩
      · exact only' ev member

theorem Noted.grows {m' : Memory} {name : Path} {known : Option Ino} (noted : Noted m [] name known) (grows : Grows m m') :
    Noted m' [] name known := by
  rcases noted with lost | member | pending
  · exact .inl (grows.lost lost)
  · exact .inr (.inl (grows.failures _ member))
  · exact absurd pending (by simp)

/-- What has to be noted is noted in the end. -/
theorem closeDirs_spec : ∀ (xs : List (OpenDir × Option Errno)) (tr : Trace) (m : Memory), Inv before tr m (debts xs ++ owed) →
    wp (logged res) spins (closeDirs xs) (fun _ tr' m' => Inv before tr' m' owed ∧ Grows m m' ∧
      (∀ x ∈ xs, x.2 ≠ none → Noted m' [] x.1.name x.1.known) ∧ m'.dirs = m.dirs ∧ m'.dirs_max = m.dirs_max ∧
      Quietly tr tr') tr m := by
  intro xs
  induction xs with
  | nil => exact fun tr m inv => ⟨inv,Grows.refl m,by simp,rfl,rfl,Quietly.refl tr⟩
  | cons x xs ih =>
    intro tr m inv
    obtain ⟨o,err⟩ := x
    have close : ∀ (tr : Trace) (m : Memory), Inv before tr m (debts xs ++ owed) →
        wp (logged res) spins (do let _ ← perform (.close o.fd); closeDirs xs) (fun _ tr' m' => Inv before tr' m' owed ∧
          Grows m m' ∧ (∀ x ∈ xs, x.2 ≠ none → Noted m' [] x.1.name x.1.known) ∧ m'.dirs = m.dirs ∧
          m'.dirs_max = m.dirs_max ∧ Quietly tr tr') tr m := by
      intro tr m inv
      rw [wp_bind]
      refine wp_logged fun r _ => ?_
      refine wp_mono (ih _ m (inv.quiet rfl)) fun _ tr' m' done => ?_
      obtain ⟨inv',grows,noted,dirs,max,quietly⟩ := done
      exact ⟨inv',grows,noted,dirs,max,(Quietly.one tr rfl).trans quietly⟩
    cases err with
    | none =>
      rw [closeDirs]
      refine wp_mono (close tr m inv) fun _ tr' m' done => ?_
      obtain ⟨inv',grows,noted,dirs,max,quietly⟩ := done
      refine ⟨inv',grows,fun x member failed => ?_,dirs,max,quietly⟩
      rcases List.mem_cons.mp member with rfl | rest
      · exact absurd rfl failed
      · exact noted x rest failed
    | some e =>
      rw [closeDirs]
      refine wp_seq (dir_failed_spec inv) fun _ tr' m' done => ?_
      obtain ⟨inv',grows,mine,dirs,max,quietly⟩ := done
      refine wp_mono (close tr' m' inv') fun _ tr'' m'' done => ?_
      obtain ⟨inv'',grows',noted,dirs',max',quietly'⟩ := done
      refine ⟨inv'',grows.trans grows',fun x member failed => ?_,dirs'.trans dirs,max'.trans max,quietly.trans quietly'⟩
      rcases List.mem_cons.mp member with rfl | rest
      · exact mine.grows grows'
      · exact noted x rest failed

/-! ## Opening -/

/-- Opening was refused. -/
def Refused (tr : Trace) (name : Path) : Prop := ∃ e, ⟨.open_dir name,.error e⟩ ∈ tr ∧ refusal e = true

/-- Opening the directory has failed, or a flush of its inode. -/
def Missed (res : Path → Ino) (tr : Trace) (name : Path) : Prop :=
  (∃ e, ⟨.open_dir name,.error e⟩ ∈ tr ∧ refusal e = false) ∨ Unsynced tr (res name)

theorem Missed.later {name : Path} (missed : Missed res tr name) (es : Trace) : Missed res (tr ++ es) name := by
  rcases missed with ⟨e,member,wrong⟩ | unsynced
  · exact .inl ⟨e,List.mem_append_left _ member,wrong⟩
  · exact .inr (unsynced.later es)

/-- What was missed is counted. -/
theorem Missed.counted {name : Path} (missed : Missed res tr name) : 0 < tr.countP counted := by
  refine List.countP_pos_iff.mpr ?_
  rcases missed with ⟨e,member,wrong⟩ | ⟨fd,e,member,_,bad⟩
  · exact ⟨_,member,by simp [Dirs.counted,wrong]⟩
  · exact ⟨_,member,bad⟩

/-- A failure that stands for a directory is noted. -/
def Marked (res : Path → Ino) (m : Memory) (name : Path) : Prop :=
  ∃ name' known, Noted m [] name' known ∧ (name' = name ∨ known = some (res name))

theorem Marked.grows {m' : Memory} {name : Path} (marked : Marked res m name) (grows : Grows m m') : Marked res m' name := by
  obtain ⟨name',known,noted,stands⟩ := marked
  exact ⟨name',known,noted.grows grows,stands⟩

theorem Noted.marked {name : Path} {known : Option Ino} (noted : Noted m [] name known) : Marked res m name :=
  ⟨name,known,noted,.inl rfl⟩

theorem Refused.later {name : Path} (refused : Refused tr name) (es : Trace) : Refused (tr ++ es) name := by
  obtain ⟨e,member,right⟩ := refused
  exact ⟨e,List.mem_append_left _ member,right⟩

/-- A descriptor that was not opened before has not been flushed, nor asked about. -/
theorem Inv.unused (inv : Inv before tr m owed) {fd : Fd} (fresh : ∀ dir, ⟨.open_dir dir,.ok fd⟩ ∉ tr) :
    (∀ r, ⟨.fsync fd,r⟩ ∉ tr) ∧ ∀ r, ⟨.fstat fd,r⟩ ∉ tr := by
  refine ⟨fun r member => ?_,fun r member => ?_⟩
  · obtain ⟨name,opened⟩ := inv.source fd r member
    exact fresh name opened
  · obtain ⟨name,opened⟩ := inv.stated fd r member
    exact fresh name opened

theorem Inv.open_ok (inv : Inv before tr m owed) {name : Path} {fd : Fd} (fresh : ∀ dir, ⟨.open_dir dir,.ok fd⟩ ∉ tr) :
    Inv before (tr ++ [⟨.open_dir name,.ok fd⟩]) m owed := by
  refine ⟨?_,fun name' e member refused => ?_,fun name' fd' e member synced bad => ?_,fun fd' r member => ?_,
    fun fd' r member => ?_,fun n n' fd' member member' => ?_⟩
  · rw [List.countP_append,List.countP_singleton]
    exact inv.count
  · exact inv.opened name' e (by simpa using member) refused
  · have synced' : ⟨.fsync fd',.error e⟩ ∈ tr := by simpa using synced
    rcases List.mem_append.mp member with old | new
    · obtain ⟨known,noted,stated⟩ := inv.synced name' fd' e old synced' bad
      exact ⟨known,noted,fun ⟨st,member⟩ => stated ⟨st,by simpa using member⟩⟩
    · obtain ⟨-,rfl⟩ : name' = name ∧ fd' = fd := by simpa using new
      exact absurd synced' ((inv.unused fresh).1 _)
  · obtain ⟨n,known⟩ := inv.source fd' r (by simpa using member)
    exact ⟨n,List.mem_append_left _ known⟩
  · obtain ⟨n,known⟩ := inv.stated fd' r (by simpa using member)
    exact ⟨n,List.mem_append_left _ known⟩
  · rcases List.mem_append.mp member with old | new
    · rcases List.mem_append.mp member' with old' | new'
      · exact inv.one n n' fd' old old'
      · obtain ⟨-,rfl⟩ : n' = name ∧ fd' = fd := by simpa using new'
        exact absurd old (fresh n)
    · obtain ⟨rfl,rfl⟩ : n = name ∧ fd' = fd := by simpa using new
      rcases List.mem_append.mp member' with old' | new'
      · exact absurd old' (fresh n')
      · obtain rfl : n' = n := by simpa using new'
        rfl

/-- An `open` that fails: owed, unless it was refused. -/
theorem Inv.open_error (inv : Inv before tr m owed) {name : Path} {e : Errno} {owed' : List (Path × Option Ino)}
    (debt : owed' = if refusal e = true then owed else (name,none) :: owed) :
    Inv before (tr ++ [⟨.open_dir name,.error e⟩]) m owed' := by
  have more : ∀ {name known}, Noted m owed name known → Noted m owed' name known := by
    rintro name' known (lost | member | pending)
    · exact .inl lost
    · exact .inr (.inl member)
    · refine .inr (.inr ?_)
      rw [debt]
      split
      · exact pending
      · exact List.mem_cons_of_mem _ pending
  refine ⟨?_,fun name' e' member refused => ?_,fun name' fd e' member synced bad => ?_,fun fd r member => ?_,
    fun fd r member => ?_,fun n n' fd member member' => ?_⟩
  · rw [List.countP_append,List.countP_singleton,debt]
    have := inv.count
    by_cases refused : refusal e = true
    · simp only [counted,refused,Bool.not_true,Bool.false_eq_true,if_false,if_true]
      exact inv.count
    · simp only [counted,refused,Bool.not_false,if_true,List.length_cons,Bool.false_eq_true,if_false]
      omega
  · rcases List.mem_append.mp member with old | new
    · obtain ⟨known,noted⟩ := inv.opened name' e' old refused
      exact ⟨known,more noted⟩
    · obtain ⟨rfl,rfl⟩ : name' = name ∧ e' = e := by simpa using new
      refine ⟨none,.inr (.inr ?_)⟩
      rw [debt,if_neg (by simp [refused])]
      exact List.mem_cons_self
  · obtain ⟨known,noted,stated⟩ := inv.synced name' fd e' (by simpa using member) (by simpa using synced) bad
    exact ⟨known,more noted,fun ⟨st,member⟩ => stated ⟨st,by simpa using member⟩⟩
  · obtain ⟨n,known⟩ := inv.source fd r (by simpa using member)
    exact ⟨n,List.mem_append_left _ known⟩
  · obtain ⟨n,known⟩ := inv.stated fd r (by simpa using member)
    exact ⟨n,List.mem_append_left _ known⟩
  · exact inv.one n n' fd (by simpa using member) (by simpa using member')

theorem Inv.stat (inv : Inv before tr m owed) {name : Path} {fd : Fd} (opened : ⟨.open_dir name,.ok fd⟩ ∈ tr)
    (unflushed : ∀ r, ⟨.fsync fd,r⟩ ∉ tr) (r : Except Errno Stat) : Inv before (tr ++ [⟨.fstat fd,r⟩]) m owed := by
  refine ⟨?_,fun name' e member refused => ?_,fun name' fd' e member synced bad => ?_,fun fd' r' member => ?_,
    fun fd' r' member => ?_,fun n n' fd' member member' => ?_⟩
  · rw [List.countP_append,List.countP_singleton]
    exact inv.count
  · exact inv.opened name' e (by simpa using member) refused
  · have synced' : ⟨.fsync fd',.error e⟩ ∈ tr := by simpa using synced
    obtain ⟨known,noted,stated⟩ := inv.synced name' fd' e (by simpa using member) synced' bad
    refine ⟨known,noted,fun ⟨st,member⟩ => ?_⟩
    rcases List.mem_append.mp member with old | new
    · exact stated ⟨st,old⟩
    · rw [List.mem_singleton] at new
      obtain ⟨rfl,-⟩ : fd' = fd ∧ Except.ok st = r := by simpa using new
      exact absurd synced' (unflushed _)
  · obtain ⟨n,known⟩ := inv.source fd' r' (by simpa using member)
    exact ⟨n,List.mem_append_left _ known⟩
  · rcases List.mem_append.mp member with old | new
    · obtain ⟨n,known⟩ := inv.stated fd' r' old
      exact ⟨n,List.mem_append_left _ known⟩
    · rw [List.mem_singleton] at new
      obtain ⟨rfl,-⟩ : fd' = fd ∧ r' = r := by simpa using new
      exact ⟨name,List.mem_append_left _ opened⟩
  · exact inv.one n n' fd' (by simpa using member) (by simpa using member')

/-- What stands for a directory after its name was looked at: a refusal, a failure, or
    an open descriptor. -/
def Covered (res : Path → Ino) (tr : Trace) (m : Memory) (os : List OpenDir) (dir : Path) : Prop :=
  Refused tr dir ∨ (Missed res tr dir ∧ Marked res m dir) ∨ ∃ o ∈ os, o.fd.ino = res dir ∧ (o.name = dir ∨ o.known = some (res dir))

/-- The descriptors opened so far: no inode that `fstat` told is there twice. -/
structure Held (tr : Trace) (os : List OpenDir) : Prop where
  opened : ∀ o ∈ os, Opened tr o
  failed : ∀ o ∈ os, o.known = none → ∃ e, ⟨.fstat o.fd,.error e⟩ ∈ tr
  apart : os.Pairwise fun o o' => o.fd.ino = o'.fd.ino → o.known = none ∨ o'.known = none

theorem Held.later {os : List OpenDir} (held : Held tr os) {es : Trace}
    (unstated : ∀ o ∈ os, ∀ st, ⟨.fstat o.fd,.ok st⟩ ∉ es) : Held (tr ++ es) os := by
  refine ⟨fun o member => (held.opened o member).later (unstated o member),fun o member unknown => ?_,held.apart⟩
  obtain ⟨e,failed⟩ := held.failed o member unknown
  exact ⟨e,List.mem_append_left _ failed⟩

theorem Covered.later {m' : Memory} {os os' : List OpenDir} {dir : Path} (covered : Covered res tr m os dir) (es : Trace)
    (grows : Grows m m') (more : ∀ o ∈ os, o ∈ os') : Covered res (tr ++ es) m' os' dir := by
  rcases covered with refused | ⟨missed,marked⟩ | ⟨o,member,stands⟩
  · exact .inl (refused.later es)
  · exact .inr (.inl ⟨missed.later es,marked.grows grows⟩)
  · exact .inr (.inr ⟨o,more o member,stands⟩)

/-- What the loop that opens the directories leaves. -/
structure OpenedAll (res : Path → Ino) (before : Nat) (tr : Trace) (m : Memory) (dirs : List Path) (os : List OpenDir)
    (os' : List OpenDir) (tr' : Trace) (m' : Memory) : Prop where
  inv : Inv before tr' m' []
  held : Held tr' os'
  kept : ∀ o ∈ os, o ∈ os'
  covered : ∀ dir ∈ dirs, Covered res tr' m' os' dir
  grows : Grows m m'
  dirs : m'.dirs = m.dirs
  max : m'.dirs_max = m.dirs_max
  flushed : flushed tr' = flushed tr
  grown : ∃ es, tr' = tr ++ es

theorem flushed_quietly {tr' : Trace} (quietly : Quietly tr tr') : flushed tr' = flushed tr := by
  obtain ⟨es,rfl,quiet⟩ := quietly
  have none_ : ∀ ev ∈ es, (match ev with
      | ⟨.fsync fd,.error e⟩ => if e = .EINTR then none else some fd
      | ⟨.fsync fd,.ok _⟩ => some fd
      | _ => (none : Option Fd)) = none := by
    intro ev member
    have unsaid := quiet ev member
    rcases ev with ⟨c,r⟩
    cases c <;> first | rfl | simp [telling] at unsaid
  rw [flushed,List.filterMap_append,List.filterMap_eq_nil_iff.mpr none_,List.append_nil]
  rfl

/-- One directory is covered, and then the others. -/
theorem OpenedAll.cons {dir : Path} {dirs : List Path} {os os₁ os' : List OpenDir} {es : Trace} {m₁ m' : Memory} {tr' : Trace}
    (rest : OpenedAll res before (tr ++ es) m₁ dirs os₁ os' tr' m') (kept : ∀ o ∈ os, o ∈ os₁)
    (covered : Covered res (tr ++ es) m₁ os₁ dir) (grows : Grows m m₁) (same : m₁.dirs = m.dirs)
    (max : m₁.dirs_max = m.dirs_max) (unflushed : Dirs.flushed (tr ++ es) = Dirs.flushed tr) :
    OpenedAll res before tr m (dir :: dirs) os os' tr' m' := by
  obtain ⟨es',rfl⟩ := rest.grown
  refine ⟨rest.inv,rest.held,fun o member => rest.kept o (kept o member),fun d member => ?_,grows.trans rest.grows,
    rest.dirs.trans same,rest.max.trans max,rest.flushed.trans unflushed,es ++ es',by simp⟩
  rcases List.mem_cons.mp member with rfl | later
  · exact covered.later es' rest.grows rest.kept
  · exact rest.covered d later

theorem openDirs_spec : ∀ (dirs : List Path) (os : List OpenDir) (tr : Trace) (m : Memory), Inv before tr m [] → Held tr os →
    wp (logged res) spins (openDirs dirs os) (OpenedAll res before tr m dirs os) tr m := by
  intro dirs
  induction dirs with
  | nil =>
    exact fun os tr m inv held =>
      ⟨inv,held,fun _ member => member,by simp,Grows.refl m,rfl,rfl,rfl,[],(List.append_nil tr).symm⟩
  | cons dir dirs ih =>
    intro os tr m inv held
    rw [openDirs,wp_bind]
    refine wp_logged fun r kept => ?_
    cases r with
    | error e =>
      have held' : Held (tr ++ [⟨.open_dir dir,.error e⟩]) os := held.later (by simp)
      have unflushed : flushed (tr ++ [⟨.open_dir dir,.error e⟩]) = flushed tr := by simp [flushed]
      dsimp only
      by_cases refused : refusal e = true
      · have granted : ¬(e ≠ .EACCES ∧ e ≠ .EPERM) := by
          simp only [refusal,Bool.or_eq_true,decide_eq_true_eq] at refused
          tauto
        rw [if_neg granted]
        refine wp_mono (ih os _ m (inv.open_error (by rw [if_pos refused])) held') fun os' tr' m' rest => ?_
        exact rest.cons (fun _ member => member) (.inl ⟨e,by simp,refused⟩) (Grows.refl m) rfl rfl unflushed
      · have failed : e ≠ .EACCES ∧ e ≠ .EPERM := by
          simp only [refusal,Bool.or_eq_true,decide_eq_true_eq] at refused
          tauto
        rw [if_pos failed]
        refine wp_seq (dir_failed_spec (inv.open_error (by rw [if_neg refused]))) fun _ tr₁ m₁ done => ?_
        obtain ⟨inv₁,grows,noted,same,max,quietly⟩ := done
        have silent := flushed_quietly quietly
        obtain ⟨es,rfl,quiet⟩ := quietly
        have unstated : ∀ o ∈ os, ∀ st, (⟨.fstat o.fd,.ok st⟩ : Event posix) ∉ es := by
          intro o _ st member
          have := quiet _ member
          simp [telling] at this
        refine wp_mono (ih os _ m₁ inv₁ (held'.later unstated)) fun os' tr' m' rest => ?_
        rw [List.append_assoc] at rest silent
        have missed : Missed res (tr ++ ([⟨.open_dir dir,.error e⟩] ++ es)) dir :=
          .inl ⟨e,by simp,Bool.eq_false_iff.mpr refused⟩
        exact rest.cons (fun _ member => member) (.inr (.inl ⟨missed,noted.marked⟩)) grows same max (silent.trans unflushed)
    | ok fd =>
      obtain ⟨there,fresh⟩ := kept
      have inv₁ : Inv before (tr ++ [⟨.open_dir dir,.ok fd⟩]) m [] := inv.open_ok fresh
      have opened : ⟨.open_dir dir,.ok fd⟩ ∈ tr ++ [(⟨.open_dir dir,.ok fd⟩ : Event posix)] := by simp
      obtain ⟨unsynced,unasked⟩ := inv.unused fresh
      have unsynced' : ∀ r, (⟨.fsync fd,r⟩ : Event posix) ∉ tr ++ [⟨.open_dir dir,.ok fd⟩] := by
        intro r member
        exact unsynced r (by simpa using member)
      have others : ∀ o ∈ os, o.fd ≠ fd := by
        rintro o member rfl
        exact fresh _ (held.opened o member).opened
      dsimp only
      rw [wp_bind]
      refine wp_logged fun r kept => ?_
      have inv₂ := inv₁.stat opened unsynced' r
      have unflushed : flushed (tr ++ [⟨.open_dir dir,.ok fd⟩] ++ [⟨.fstat fd,r⟩]) = flushed tr := by simp [flushed]
      have held₂ : Held (tr ++ [⟨.open_dir dir,.ok fd⟩] ++ [⟨.fstat fd,r⟩]) os := by
        rw [List.append_assoc]
        refine held.later fun o member st => ?_
        simp [others o member]
      have asked : ∀ st, (⟨.fstat fd,.ok st⟩ : Event posix) ∈ tr ++ [⟨.open_dir dir,.ok fd⟩] ++ [⟨.fstat fd,r⟩] → r = .ok st := by
        intro st member
        rcases List.mem_append.mp member with old | new
        · exact absurd (show (⟨.fstat fd,.ok st⟩ : Event posix) ∈ tr by simpa using old) (unasked _)
        · rw [List.mem_singleton] at new
          exact (eq_of_heq (Event.mk.inj new).2).symm
      -- The descriptor joins those opened so far.
      have join : ∀ known : Option Ino, (∀ ino, known = some ino → ino = fd.ino) →
          (known = none → ∃ e, r = .error e) → (∀ o ∈ os, o.fd.ino = fd.ino → o.known = none ∨ known = none) →
          wp (logged res) spins (openDirs dirs (os ++ [⟨dir,fd,known⟩])) (OpenedAll res before tr m (dir :: dirs) os)
            (tr ++ [⟨.open_dir dir,.ok fd⟩] ++ [⟨.fstat fd,r⟩]) m := by
        intro known same unknown alone
        have held₃ : Held (tr ++ [⟨.open_dir dir,.ok fd⟩] ++ [⟨.fstat fd,r⟩]) (os ++ [⟨dir,fd,known⟩]) := by
          refine ⟨fun o member => ?_,fun o member failed => ?_,?_⟩
          · rcases List.mem_append.mp member with old | new
            · exact held₂.opened o old
            · obtain rfl := List.mem_singleton.mp new
              refine ⟨by simp,same,fun none_ st member => ?_⟩
              obtain ⟨e,error⟩ := unknown none_
              have told := asked st member
              rw [error] at told
              simp at told
          · rcases List.mem_append.mp member with old | new
            · exact held₂.failed o old failed
            · obtain rfl := List.mem_singleton.mp new
              obtain ⟨e,error⟩ := unknown failed
              exact ⟨e,by simp [error]⟩
          · refine List.pairwise_append.mpr ⟨held.apart,by simp,fun o member o' new same => ?_⟩
            obtain rfl := List.mem_singleton.mp new
            exact alone o member same
        refine wp_mono (ih _ _ m inv₂ held₃) fun os' tr' m' rest => ?_
        rw [List.append_assoc] at rest unflushed
        exact rest.cons (fun o member => List.mem_append_left _ member)
          (.inr (.inr ⟨⟨dir,fd,known⟩,by simp,there,.inl rfl⟩)) (Grows.refl m) rfl rfl unflushed
      cases r with
      | error e =>
        exact join none (by simp) (fun _ => ⟨e,rfl⟩) fun _ _ _ => .inr rfl
      | ok st =>
        have told : st.ino = fd.ino := kept
        dsimp only
        by_cases double : (os.any fun o => o.known = some st.ino) = true
        · rw [if_pos double,wp_bind]
          refine wp_logged fun r' _ => ?_
          have held₃ : Held (tr ++ [⟨.open_dir dir,.ok fd⟩] ++ [⟨.fstat fd,.ok st⟩] ++ [⟨.close fd,r'⟩]) os :=
            held₂.later (by simp)
          refine wp_mono (ih os _ m (inv₂.quiet rfl) held₃) fun os' tr' m' rest => ?_
          have silent : flushed (tr ++ [⟨.open_dir dir,.ok fd⟩] ++ [⟨.fstat fd,.ok st⟩] ++ [⟨.close fd,r'⟩]) = flushed tr := by
            simp [flushed]
          obtain ⟨o,member,same⟩ := List.any_eq_true.mp double
          have same' : o.known = some st.ino := by simpa using same
          rw [List.append_assoc,List.append_assoc] at rest silent
          refine rest.cons (fun _ member => member) (.inr (.inr ⟨o,member,?_,.inr ?_⟩)) (Grows.refl m) rfl rfl silent
          · rw [← (held.opened o member).known _ same',told,there]
          · rw [same',told,there]
        · rw [if_neg double]
          refine join (some st.ino) (by rintro _ ⟨⟩; exact told) (by simp) fun o member same => ?_
          cases known : o.known with
          | none => exact .inl rfl
          | some ino =>
            refine absurd (List.any_eq_true.mpr ⟨o,member,?_⟩) double
            rw [known,(held.opened o member).known ino known,same,told]
            simp

end

end Newfile.Dirs
