import Newfile.Effects
import Newfile.Simulation

/-!
The ledger of a run: which names it has made and not settled, which files it is
still writing, and what it has done for good. `Move` and `Step` say when a call and
a step on the memory are in order, so that a run that keeps the ledger can be judged
by the ledger alone. The ledger knows nothing of the system.
-/
namespace Newfile.Ledger
open Newfile.Program Newfile.Posix Newfile.Process Newfile.Pending Newfile.Place Newfile.Backup Newfile.Batch
open Newfile.Effects Newfile.Simulation Function

/-! ## The names that a run makes -/

/-- `q` is a temporary name beside `p`. -/
def TempOf (p q : Path) : Prop :=
  ∃ suffix : Path, q = p.take (path_dir_len p) ++ TEMP_STEM ++ suffix ∧ suffix.length = TEMP_RAND ∧
    ∀ c ∈ suffix, c ∈ tempChars

/-- `b` is a backup name of `p`. -/
def BackupOf (p b : Path) : Prop :=
  b = p ++ "~".toList ∨ ∃ digits : List Char, (∀ c ∈ digits, c.isDigit = true) ∧ b = backupText p digits

/-- `q` is a directory on the way to `p`. -/
def ParentOf (p q : Path) : Prop := ∃ i, p[i]? = some '/' ∧ q = p.take i

/-- Whether an operand is given content. -/
def hasContent (spec : FileSpec) : Bool := spec.tmpl.isSome || spec.size_given

/-- Operands are opened under their own names. -/
def opensPlain (spec : FileSpec) : Prop :=
  hasContent spec = false ∧ spec.set_owner = false ∧ spec.absolute_given = false ∧ spec.force_mode = false

/-! ## The ledger -/

/-- What a name was made for. -/
inductive Role where
  | plain
  | probe
  | temp
  /-- The old file, after an exchange. -/
  | spare
  | backup
  /-- A temporary name for a simple backup, and the same once it was renamed. -/
  | twin
  | twinned
  | holder
  deriving DecidableEq

structure Rec where
  path : Path
  ino : Ino
  role : Role
  deriving DecidableEq

/-- How far a file is: without a name, within the owner's permissions, or with nothing left to change. -/
inductive Phase where
  | raw
  | secret
  | sealed
  deriving DecidableEq

structure Work where
  ino : Ino
  phase : Phase
  /-- Whether the file was given a name. -/
  named : Bool
  deriving DecidableEq

/-- What cannot be undone. -/
inductive Deed where
  | file (path : Path) (ino : Ino)
  | backup (path name : Path) (ino : Ino)
  /-- A backup name that was there is given to another file. -/
  | reused (path name : Path) (ino : Ino)
  | dir (path : Path)
  /-- A name that could not be removed, and was reported. -/
  | kept (path : Path) (ino : Ino)
  | keptOld (path : Path) (ino : Ino)
  /-- A name that could not be removed, and was not reported. -/
  | lost (path : Path) (ino : Ino)
  deriving DecidableEq

/-- The slot of a name that is not armed yet, or never is. -/
def FRESH : Nat := PENDING_SLOTS

structure Book where
  /-- The names made and not settled, by pending slot. -/
  live : Nat → Option Rec := fun _ => none
  work : Nat → Option Work := fun _ => none
  /-- The files that may be given their names. -/
  finished : List Ino := []
  /-- The modes that files were given in the end. -/
  moded : List (Ino × Mode) := []
  /-- The slots whose entry in `pending` is out of date. -/
  lag : List Nat := []
  /-- The slot that each string was allocated for. -/
  owner : Nat → Nat := fun _ => 0
  /-- The latest deed first. -/
  trail : List Deed := []
  /-- The file about to be backed up. -/
  old : Option (Path × Ino) := none
  /-- A backup name that is taken. -/
  taken : Option Path := none
  /-- An allocation was refused when an old file was about to be removed. -/
  refused : Bool := false

/-- The name in a slot is gone, and the slot not cleared yet. -/
def Book.drop (g : Book) (j : Nat) : Book :=
  { g with live := update g.live j none, lag := if j = FRESH then [] else [j], taken := none }

def Book.fresh (g : Book) (r : Rec) : Book := { g with live := update g.live FRESH (some r) }

/-- What a pending slot holds. -/
def armed (m : Memory) (j : Nat) : Option (Path × Ino) :=
  (m.pending j).path.map fun s => (s.text,(m.pending j).ino)

/-- No backup has been renamed over another whose temporary name is not settled yet. -/
def Untwinned (g : Book) : Prop := ∀ a o, g.live PENDING_BACKUP ≠ some ⟨a,o,.twinned⟩

/-! ## Moves -/

/-- The calls whose success matters to names or files. -/
def matters : Call → Bool
  | .open_excl _ _ | .open_tmpfile _ _ | .memfd_create | .mkstemp _ | .unlink _ | .link _ _ | .linkat _ _ | .rename _ _
  | .rename_noreplace _ _ | .rename_exchange _ _ | .mkdir _ | .fchmod _ _ | .splice _ _ _ => true
  | c => (altered c).isSome

section
variable (paths : List Path) (spec : FileSpec)

/-- What a new file may be opened for under a name. -/
def Opens (q : Path) (mode : Mode) : Role → Prop
  | .plain => q ∈ paths ∧ mode = spec.mode ∧ opensPlain spec
  | .probe => ∃ p ∈ paths, TempOf p q
  | .temp => (∃ p ∈ paths, TempOf p q) ∧ mode = 0o600
  | .holder => q ∈ paths ∧ mode = 0o600 ∧ spec.force_mode = false
  | _ => False

/-- The name is not there, or not with this file: as told of by `lstat` or by `unlink`. -/
def Gone (q : Path) (n : Ino) : (c : Call) → posix.Res c → Prop
  | .lstat q', r => q' = q ∧ (r = .error .ENOENT ∨ ∃ st : Stat, r = .ok st ∧ st.ino ≠ n)
  | .unlink q', r => q' = q ∧ r = .error .ENOENT
  | _, _ => False

/-- No backup is under way, or that of the file about to be replaced is. -/
def Backed (g : Book) (p : Path) : Prop :=
  g.live PENDING_BACKUP = none ∨
    ∃ b o, g.live PENDING_BACKUP = some ⟨b,o,.backup⟩ ∧ BackupOf p b ∧ g.old = some (p,o)

/-- The deeds of a replacement: the backup is there for good as well. -/
def backupDeeds (g : Book) (p : Path) : List Deed :=
  match g.live PENDING_BACKUP with
  | some r => [.backup p r.path r.ino]
  | none => []

/-- The last call has looked at the name, and the file was there. -/
def Seen (evs : List (Event posix)) (q : Path) (n : Ino) : Prop :=
  ∃ before st, evs = before ++ [⟨.lstat q,.ok st⟩] ∧ st.ino = n

/-- The last calls have opened a file under the name, looked at it and closed it. -/
def JustOpened (evs : List (Event posix)) (q : Path) (n : Ino) (looked : Bool) : Prop :=
  ∃ before mode fd st r, evs = before ++ [⟨.open_excl q mode,.ok fd⟩,⟨.fstat fd,st⟩,⟨.close fd,r⟩] ∧ fd.ino = n ∧
    st.isOk = looked

/-- The calls that are in order after others, and the ledger after them. -/
inductive Move (evs : List (Event posix)) : Book → Memory → (c : Call) → posix.Res c → Book → Prop
  | quiet {g m c r} (still : matters c = false ∨ ∃ e, r = .error e) : Move evs g m c r g
  | refuse {g m e p rest} (dropping : m.told = .dropping p :: rest) : Move evs g m .alloc (.error e) { g with refused := true }
  | alter {g m c r fd i phase named} (alters : altered c = some fd) (mine : g.work i = some ⟨fd.ino,phase,named⟩)
      (unsealed : phase ≠ .sealed) : Move evs g m c r g
  | create {g m q mode fd i role} (blocked : m.blocked = true) (room : g.live FRESH = none) (clean : g.lag = [])
      (whole : Untwinned g) (opens : Opens paths spec q mode role) :
      Move evs g m (.open_excl q mode) (.ok fd) { g.fresh ⟨q,fd.ino,role⟩ with
        work := if role = .temp then update g.work i (some ⟨fd.ino,.secret,true⟩) else g.work
        finished := if role = .plain then fd.ino :: g.finished else g.finished }
  | rollback {g m q n role} (made : g.live FRESH = some ⟨q,n,role⟩) (clean : g.lag = []) (just : JustOpened evs q n false) :
      Move evs g m (.unlink q) (.ok ()) (g.drop FRESH)
  | lose {g m q n role e} (made : g.live FRESH = some ⟨q,n,role⟩) (clean : g.lag = []) (just : JustOpened evs q n false) :
      Move evs g m (.unlink q) (.error e) { g.drop FRESH with trail := .lost q n :: g.trail }
  | anon {g m d mode fd i} : Move evs g m (.open_tmpfile d mode) (.ok fd)
      { g with work := update g.work i (some ⟨fd.ino,.raw,false⟩) }
  | conceal {g m fd i named} (mine : g.work i = some ⟨fd.ino,.raw,named⟩) :
      Move evs g m (.fchmod fd 0o600) (.ok ()) { g with work := update g.work i (some ⟨fd.ino,.secret,named⟩) }
  | finish {g m fd i phase named mode} (mine : g.work i = some ⟨fd.ino,phase,named⟩) (unsealed : phase ≠ .sealed)
      (final : ∃ granted, mode = finalMode spec granted) :
      Move evs g m (.fchmod fd mode) (.ok ()) { g with
        work := update g.work i (some ⟨fd.ino,.sealed,named⟩)
        finished := if hasContent spec then g.finished else fd.ino :: g.finished
        moded := (fd.ino,mode) :: g.moded }
  | flush {g m fd i named} (mine : g.work i = some ⟨fd.ino,.sealed,named⟩) :
      Move evs g m (.fsync fd) (.ok ()) { g with finished := fd.ino :: g.finished }
  | tempLink {g m fd q i phase} (blocked : m.blocked = true) (room : g.live FRESH = none) (clean : g.lag = [])
      (whole : Untwinned g) (temp : ∃ p ∈ paths, TempOf p q) (mine : g.work i = some ⟨fd.ino,phase,false⟩)
      (ready : phase = .secret ∨ phase = .sealed ∧ fd.ino ∈ g.finished) :
      Move evs g m (.linkat fd q) (.ok ()) { g.fresh ⟨q,fd.ino,.temp⟩ with work := update g.work i (some ⟨fd.ino,phase,true⟩) }
  | regard {g m p st} (fresh : g.live FRESH = none) (room : g.live PENDING_BACKUP = none) :
      Move evs g m (.lstat p) (.ok st) { g with old := some (p,st.ino) }
  | exists_ {g m p b} : Move evs g m (.link p b) (.error .EEXIST) { g with taken := some b }
  | backLink {g m p b o} (blocked : m.blocked = true) (room : g.live FRESH = none) (clean : g.lag = [])
      (whole : Untwinned g) (force : spec.force_mode = true) (member : p ∈ paths) (name : BackupOf p b) (old : g.old = some (p,o)) :
      Move evs g m (.link p b) (.ok ()) (g.fresh ⟨b,o,.backup⟩)
  | twinLink {g m p a o} (blocked : m.blocked = true) (room : g.live FRESH = none) (clean : g.lag = [])
      (whole : Untwinned g) (force : spec.force_mode = true) (member : p ∈ paths) (temp : TempOf p a) (old : g.old = some (p,o)) :
      Move evs g m (.link p a) (.ok ()) (g.fresh ⟨a,o,.twin⟩)
  | twinMove {g m p a b o} (room : g.live FRESH = none) (clean : g.lag = []) (force : spec.force_mode = true) (member : p ∈ paths)
      (name : BackupOf p b) (old : g.old = some (p,o)) (made : g.live PENDING_BACKUP = some ⟨a,o,.twin⟩)
      (temp : TempOf p a) (taken : g.taken = some b) :
      Move evs g m (.rename a b) (.ok ()) { g with
        live := update g.live PENDING_BACKUP (some ⟨a,o,.twinned⟩), trail := .reused p b o :: g.trail
        taken := none }
  | remove {g m j q n role} (clean : g.lag = []) (made : g.live j = some ⟨q,n,role⟩) (seen : Seen evs q n) :
      Move evs g m (.unlink q) (.ok ()) (g.drop j)
  | vanish {g m j q n role c r} (clean : g.lag = []) (made : g.live j = some ⟨q,n,role⟩) (gone : Gone q n c r) :
      Move evs g m c r (g.drop j)
  | linkCommit {g m fd p i} (clean : g.lag = []) (unforced : spec.force_mode = false) (member : p ∈ paths)
      (mine : g.work i = some ⟨fd.ino,.sealed,false⟩) (finished : fd.ino ∈ g.finished) :
      Move evs g m (.linkat fd p) (.ok ()) { g with
        work := update g.work i (some ⟨fd.ino,.sealed,true⟩), trail := .file p fd.ino :: g.trail }
  | noReplace {g m i t p n} (clean : g.lag = []) (unforced : spec.force_mode = false) (member : p ∈ paths)
      (made : g.live i = some ⟨t,n,.temp⟩) (slot : i ≠ FRESH) (finished : n ∈ g.finished) :
      Move evs g m (.rename_noreplace t p) (.ok ()) { g.drop i with trail := .file p n :: g.trail }
  | linkAlso {g m i t p n} (clean : g.lag = []) (unforced : spec.force_mode = false) (member : p ∈ paths)
      (made : g.live i = some ⟨t,n,.temp⟩) (finished : n ∈ g.finished) :
      Move evs g m (.link t p) (.ok ()) { g with trail := .file p n :: g.trail }
  | overHolder {g m i t p n h} (blocked : m.blocked = true) (clean : g.lag = []) (unforced : spec.force_mode = false)
      (member : p ∈ paths) (made : g.live i = some ⟨t,n,.temp⟩) (slot : i ≠ FRESH)
      (holder : g.live FRESH = some ⟨p,h,.holder⟩) (just : JustOpened evs p h true) (finished : n ∈ g.finished) :
      Move evs g m (.rename t p) (.ok ()) { g with
        live := update (update g.live FRESH none) i none, lag := [i], trail := .file p n :: g.trail
        taken := none }
  | force {g m i t p n} (blocked : m.blocked = true) (clean : g.lag = []) (forced : spec.force_mode = true)
      (member : p ∈ paths) (made : g.live i = some ⟨t,n,.temp⟩) (temp : TempOf p t) (room : g.live FRESH = none)
      (slot : i ≠ FRESH) (other : i ≠ PENDING_BACKUP) (backed : Backed g p) (finished : n ∈ g.finished) :
      Move evs g m (.rename t p) (.ok ()) { g with
        live := update (update g.live PENDING_BACKUP none) i none, lag := [i,PENDING_BACKUP]
        trail := .file p n :: (backupDeeds g p ++ g.trail), old := none, taken := none }
  | exchange {g m i t p n o} (blocked : m.blocked = true) (clean : g.lag = []) (forced : spec.force_mode = true)
      (member : p ∈ paths) (made : g.live i = some ⟨t,n,.temp⟩) (temp : TempOf p t) (room : g.live FRESH = none)
      (slot : i ≠ FRESH) (other : i ≠ PENDING_BACKUP) (old : g.old = some (p,o)) (backed : Backed g p)
      (finished : n ∈ g.finished) :
      Move evs g m (.rename_exchange t p) (.ok ()) { g with
        live := update (update g.live PENDING_BACKUP none) i (some ⟨t,o,.spare⟩), lag := [i,PENDING_BACKUP]
        trail := .file p n :: (backupDeeds g p ++ g.trail), old := none, taken := none }
  | mkdir {g m q} (parent : ∃ p ∈ paths, ParentOf p q) :
      Move evs g m (.mkdir q) (.ok ()) { g with trail := .dir q :: g.trail }

/-- What holds of the static variables of `backup.c` and `flush.c` at any time. -/
structure Tidy (m : Memory) : Prop where
  digits : ∀ bd ∈ m.backups, ∀ e ∈ bd.entries, ∀ c ∈ e.digits, c.isDigit = true
  failed : m.failures ≠ [] ∨ m.failures_lost = true → 0 < m.dirs_nfailed

/-- A step that leaves alone what the ledger speaks of. -/
structure Same (m m' : Memory) : Prop where
  pending : m'.pending = m.pending
  blocked : m'.blocked = m.blocked
  heap : m'.heap = m.heap
  freed : m'.freed = m.freed
  told : m'.told = m.told
  log : ∃ new, m'.log = new ++ m.log
  failed : m.dirs_nfailed ≤ m'.dirs_nfailed
  tidy : Tidy m → Tidy m'

theorem Same.refl (m : Memory) : Same m m := ⟨rfl,rfl,rfl,rfl,rfl,⟨[],rfl⟩,Nat.le_refl _,id⟩

theorem Same.trans {m m' m'' : Memory} (one : Same m m') (two : Same m' m'') : Same m m'' := by
  obtain ⟨new,first⟩ := one.log
  obtain ⟨new',second⟩ := two.log
  exact ⟨two.pending.trans one.pending,two.blocked.trans one.blocked,two.heap.trans one.heap,two.freed.trans one.freed,
    two.told.trans one.told,⟨new' ++ new,by rw [second,first,List.append_assoc]⟩,Nat.le_trans one.failed two.failed,
    fun tidy => two.tidy (one.tidy tidy)⟩

/-- A string that was allocated for a slot and is not freed. -/
def Whole (g : Book) (m : Memory) (j : Nat) (s : Str) : Prop :=
  ∀ b, s.block = some b → g.owner b = j ∧ b < m.heap ∧ b ∉ m.freed

/-- The steps on the memory that are in order. -/
inductive Step : Book → Memory → Memory → Book → Prop
  | quiet {g m m'} (same : Same m m') : Step g m m' g
  | hold {g m} : Step g m { m with blocked := true } g
  | release {g m} {old : Bool} (closed : old = false → g.live FRESH = none ∧ g.lag = []) :
      Step g m { m with blocked := old } g
  | arm {g m j s r} (clean : g.lag = []) (made : g.live FRESH = some r) (text : s.text = r.path) (room : g.live j = none)
      (slot : j < FRESH) (whole : Whole g m j s) :
      Step g m (Memory.setPending m j ⟨some s,r.ino⟩) { g with live := update (update g.live FRESH none) j (some r) }
  | retarget {g m j s r} (made : g.live j = some r) (armed : (m.pending j).path = some s) (text : s.text = r.path) :
      Step g m (Memory.setPending m j ⟨(m.pending j).path,r.ino⟩) { g with lag := g.lag.filter (· ≠ j) }
  | clear {g m j} (gone : g.live j = none) :
      Step g m (Memory.setPending m j ⟨none,(m.pending j).ino⟩) { g with lag := g.lag.filter (· ≠ j) }
  | settle {g m j p n} (clean : g.lag = []) (made : g.live j = some ⟨p,n,.plain⟩) (slot : j ≠ FRESH) :
      Step g m (Memory.setPending m j ⟨none,(m.pending j).ino⟩)
        { g.drop j with lag := [], trail := .file p n :: g.trail }
  | alloc {g m j} : Step g m { m with heap := m.heap+1 } { g with owner := update g.owner m.heap j }
  | free {g m} {s : Str} (loose : ∀ b, s.block = some b → b < m.heap ∧ ∀ j t, (m.pending j).path = some t → t.block ≠ some b) :
      Step g m { m with freed := s.block.toList ++ m.freed } g
  | keep {g m j q n role e} (clean : g.lag = []) (made : g.live j = some ⟨q,n,role⟩) :
      Step g m { m with log := .cannot_remove q e :: m.log } { g.drop j with trail := .kept q n :: g.trail }
  | keepOld {g m j q p n} (clean : g.lag = []) (made : g.live j = some ⟨q,n,.spare⟩)
      (why : 0 < m.dirs_nfailed ∨ g.refused = true) :
      Step g m { m with log := .kept_old q p :: m.log } { g.drop j with trail := .keptOld q n :: g.trail }
  | named {g m p} (done : ∃ n, .file p n ∈ g.trail) : Step g m { m with told := .named p :: m.told } g
  | dropping {g m p} : Step g m { m with told := .dropping p :: m.told } g
  | report {g m p fail left} (done : fail = none → ∃ n, .file p n ∈ g.trail) :
      Step g m { m with told := .report p fail left :: m.told } g

/-! ## The invariant -/

/-- What the names in the ledger look like. -/
def Shape (r : Rec) : Prop :=
  match r.role with
  | .plain | .holder => r.path ∈ paths ∧ spec.force_mode = false
  | .backup => ∃ p ∈ paths, BackupOf p r.path ∧ spec.force_mode = true
  | .spare | .twin | .twinned => (∃ p ∈ paths, TempOf p r.path) ∧ spec.force_mode = true
  | .probe | .temp => ∃ p ∈ paths, TempOf p r.path

/-- What the deeds rest on. -/
def Attested (g : Book) (m : Memory) : Deed → Prop
  | .file p n => p ∈ paths ∧ n ∈ g.finished
  | .backup p b _ => BackupOf p b ∧ spec.force_mode = true ∧ ∃ n, .file p n ∈ g.trail
  | .reused p b _ => p ∈ paths ∧ BackupOf p b ∧ spec.force_mode = true
  | .dir q => ∃ p ∈ paths, ParentOf p q
  | .kept q _ => ∃ e, .cannot_remove q e ∈ m.log
  | .keptOld q _ => (∃ p, .kept_old q p ∈ m.log) ∧ (∃ p ∈ paths, TempOf p q) ∧ spec.force_mode = true ∧
      (0 < m.dirs_nfailed ∨ g.refused = true)
  | .lost _ _ => True

structure Inv (m : Memory) (g : Book) : Prop where
  synced : ∀ j, j ≠ FRESH → j ∉ g.lag → armed m j = (g.live j).map fun r => (r.path,r.ino)
  closed : m.blocked = false → g.live FRESH = none ∧ ∀ j ∈ g.lag, g.live j = none
  whole : ∀ j s, (m.pending j).path = some s → Whole g m j s
  freed : ∀ b ∈ m.freed, b < m.heap
  shape : ∀ j r, g.live j = some r → Shape paths spec r
  plain : ∀ j r, g.live j = some r → r.role = .plain → r.ino ∈ g.finished
  trail : ∀ d ∈ g.trail, Attested paths spec g m d
  reports : ∀ p left, .report p none left ∈ m.told → ∃ n, .file p n ∈ g.trail
  tidy : Tidy m

end

variable {paths : List Path} {spec : FileSpec} {m m' : Memory} {g g' : Book}

theorem Attested.mono (finished : g.finished ⊆ g'.finished) (trail : g.trail ⊆ g'.trail) (log : m.log ⊆ m'.log)
    (failed : m.dirs_nfailed ≤ m'.dirs_nfailed) (refused : g.refused = true → g'.refused = true) {d : Deed}
    (attested : Attested paths spec g m d) : Attested paths spec g' m' d := by
  cases d with
  | file p n => exact ⟨attested.1,finished attested.2⟩
  | backup p b o =>
    obtain ⟨name,force,n,done⟩ := attested
    exact ⟨name,force,n,trail done⟩
  | kept q n =>
    obtain ⟨e,said⟩ := attested
    exact ⟨e,log said⟩
  | keptOld q n =>
    obtain ⟨⟨p,said⟩,temp,force,why⟩ := attested
    exact ⟨⟨p,log said⟩,temp,force,why.imp (Nat.lt_of_lt_of_le · failed) refused⟩
  | _ => exact attested

/-- What a move has to show for the invariant. -/
theorem Inv.move (inv : Inv paths spec m g) (owner : g'.owner = g.owner) (finished : g.finished ⊆ g'.finished)
    (refused : g.refused = true → g'.refused = true) (new : List Deed) (trail : g'.trail = new ++ g.trail) (attested : ∀ d ∈ new, Attested paths spec g' m d)
    (synced : ∀ j, j ≠ FRESH → j ∉ g'.lag →
      j ∉ g.lag ∧ (g'.live j).map (fun r => (r.path,r.ino)) = (g.live j).map fun r => (r.path,r.ino))
    (closed : m.blocked = false → g'.live FRESH = none ∧ ∀ j ∈ g'.lag, g'.live j = none)
    (shape : ∀ j r, g'.live j = some r →
      g.live j = some r ∨ Shape paths spec r ∧ (r.role = .plain → r.ino ∈ g'.finished)) : Inv paths spec m g' := by
  have longer : g.trail ⊆ g'.trail := by
    rw [trail]
    exact List.subset_append_right new g.trail
  constructor
  · intro j slot current
    obtain ⟨before,same⟩ := synced j slot current
    rw [same]
    exact inv.synced j slot before
  · exact closed
  · intro j s armed b block
    rw [owner]
    exact inv.whole j s armed b block
  · exact inv.freed
  · intro j r live
    rcases shape j r live with before | now
    · exact inv.shape j r before
    · exact now.1
  · intro j r live role
    rcases shape j r live with before | now
    · exact finished (inv.plain j r before role)
    · exact now.2 role
  · intro d member
    rw [trail] at member
    rcases List.mem_append.mp member with fresh | before
    · exact attested d fresh
    · exact (inv.trail d before).mono finished longer (List.Subset.refl _) (Nat.le_refl _) refused
  · intro p left told
    obtain ⟨n,done⟩ := inv.reports p left told
    exact ⟨n,longer done⟩
  · exact inv.tidy

@[simp] theorem drop_live (g : Book) (j i : Nat) : (g.drop j).live i = if i = j then none else g.live i :=
  update_apply g.live j none i

@[simp] theorem fresh_live (g : Book) (r : Rec) (i : Nat) : (g.fresh r).live i = if i = FRESH then some r else g.live i :=
  update_apply g.live FRESH (some r) i

theorem drop_lag {g : Book} {j i : Nat} (slot : i ≠ FRESH) : i ∈ (g.drop j).lag ↔ i = j := by
  by_cases fresh : j = FRESH
  · have other : i ≠ j := fun same => slot (same.trans fresh)
    simp [Book.drop,fresh,slot]
  · simp [Book.drop,fresh]

/-- A name that is made and not armed, with signals blocked. -/
theorem Inv.fresh (inv : Inv paths spec m g) (blocked : m.blocked = true) (clean : g.lag = []) {r : Rec} {work' finished'}
    (finished : g.finished ⊆ finished') (shape : Shape paths spec r) (plain : r.role = .plain → r.ino ∈ finished') :
    Inv paths spec m { g.fresh r with work := work', finished := finished' } := by
  refine inv.move rfl finished id [] rfl (by simp) ?_ (by simp [blocked]) ?_
  · intro j slot _
    simp [clean,slot]
  · intro j r' live
    by_cases slot : j = FRESH
    · have same : r' = r := by simpa [slot,eq_comm] using live
      rw [same]
      exact .inr ⟨shape,plain⟩
    · exact .inl (by simpa [slot] using live)

/-- A name that is gone, with deeds that say what became of it. -/
theorem Inv.drop (inv : Inv paths spec m g) (clean : g.lag = []) (j : Nat) (new : List Deed)
    (attested : ∀ d ∈ new, Attested paths spec { g.drop j with trail := new ++ g.trail } m d) :
    Inv paths spec m { g.drop j with trail := new ++ g.trail } := by
  refine inv.move rfl (List.Subset.refl _) id new rfl attested ?_ ?_ ?_
  · intro i slot current
    have other : i ≠ j := by
      intro same
      have lag : i ∈ (g.drop j).lag := (drop_lag slot).mpr same
      exact current lag
    simp [clean,other]
  · intro unblocked
    obtain ⟨dead,_⟩ := inv.closed unblocked
    refine ⟨by simp [dead],fun i lag => ?_⟩
    by_cases slot : j = FRESH
    · simp [Book.drop,slot] at lag
    · have same : i = j := by simpa [Book.drop,slot] using lag
      simp [same]
  · intro i r live
    by_cases same : i = j
    · simp [same] at live
    · exact .inl (by simpa [same] using live)

/-- Deeds that leave the names made as they are. -/
theorem Inv.grow (inv : Inv paths spec m g) (new : List Deed) {work' finished' moded' old' taken' refused'}
    (finished : g.finished ⊆ finished') (refused : g.refused = true → refused' = true)
    (attested : ∀ d ∈ new, Attested paths spec { g with
      work := work', finished := finished', moded := moded', trail := new ++ g.trail, old := old', taken := taken'
      refused := refused' } m d) :
    Inv paths spec m { g with
      work := work', finished := finished', moded := moded', trail := new ++ g.trail, old := old', taken := taken'
      refused := refused' } :=
  inv.move rfl finished refused new rfl attested (fun _ _ current => ⟨current,rfl⟩) (fun unblocked => inv.closed unblocked)
    fun _ _ live => .inl live

/-- What every answer tells truly. -/
def Sane : (c : Call) → posix.Res c → Prop
  | .fstat fd, .ok st => st.ino = fd.ino
  | .getentropy length, .ok rnd => rnd.length = length
  | _, _ => True

theorem Inv.commit (inv : Inv paths spec m g) (blocked : m.blocked = true) (clean : g.lag = []) {i : Nat} {p : Path}
    {n : Ino} {r : Option Rec} (member : p ∈ paths) (finished : n ∈ g.finished) (backed : Backed g p)
    (force : spec.force_mode = true)
    (shape : ∀ r', r = some r' → Shape paths spec r' ∧ r'.role ≠ .plain) :
    Inv paths spec m { g with
      live := update (update g.live PENDING_BACKUP none) i r, lag := [i,PENDING_BACKUP]
      trail := .file p n :: (backupDeeds g p ++ g.trail), old := none, taken := none } := by
  refine inv.move rfl (List.Subset.refl _) id (.file p n :: backupDeeds g p) rfl ?_ ?_ (by simp [blocked]) ?_
  · intro d member'
    rcases List.mem_cons.mp member' with rfl | member'
    · exact ⟨member,finished⟩
    · rcases backed with dead | ⟨b,o,made,name,_⟩
      · simp [backupDeeds,dead] at member'
      · have same : d = .backup p b o := by simpa [backupDeeds,made] using member'
        rw [same]
        exact ⟨name,force,n,List.mem_cons_self⟩
  · intro j slot current
    simp only [List.mem_cons,List.not_mem_nil,or_false,not_or] at current
    simp [clean,current]
  · intro j r' live
    by_cases same : j = i
    · have is : r = some r' := by simpa [same] using live
      obtain ⟨fits,role⟩ := shape r' is
      exact .inr ⟨fits,fun plain => absurd plain role⟩
    · by_cases backup : j = PENDING_BACKUP
      · subst backup
        simp [same] at live
      · exact .inl (by simpa [same,backup] using live)

theorem keeps_call {evs : List (Event posix)} {c : Call} {r : posix.Res c} (inv : Inv paths spec m g)
    (move : Move paths spec evs g m c r g') : Inv paths spec m g' := by
  cases move with
  | quiet => exact inv
  | refuse => exact inv.grow [] (List.Subset.refl _) (fun _ => rfl) (by simp)
  | alter => exact inv
  | create blocked room clean whole opens =>
    refine inv.fresh blocked clean ?_ ?_ ?_
    · split
      · exact List.subset_cons_self _ _
      · exact List.Subset.refl _
    · rename_i role
      cases role with
      | plain => exact ⟨opens.1,opens.2.2.2.2.2⟩
      | probe => exact opens
      | temp => exact opens.1
      | holder => exact ⟨opens.1,opens.2.2⟩
      | _ => exact opens.elim
    · intro plain
      simp at plain
      simp [plain]
  | rollback made clean just => exact inv.drop clean FRESH [] (by simp)
  | lose made clean just => exact inv.drop clean FRESH [_] (by simp [Attested])
  | anon => exact inv.grow [] (List.Subset.refl _) id (by simp)
  | conceal => exact inv.grow [] (List.Subset.refl _) id (by simp)
  | finish =>
    refine inv.grow [] ?_ id (by simp)
    split
    · exact List.Subset.refl _
    · exact List.subset_cons_self _ _
  | flush => exact inv.grow [] (List.subset_cons_self _ _) id (by simp)
  | tempLink blocked room clean whole temp mine ready => exact inv.fresh blocked clean (List.Subset.refl _) temp (by simp)
  | regard => exact inv.grow [] (List.Subset.refl _) id (by simp)
  | exists_ => exact inv.grow [] (List.Subset.refl _) id (by simp)
  | backLink blocked room clean whole force member name old =>
    exact inv.fresh blocked clean (List.Subset.refl _) ⟨_,member,name,force⟩ (by simp)
  | twinLink blocked room clean whole force member temp old =>
    exact inv.fresh blocked clean (List.Subset.refl _) ⟨⟨_,member,temp⟩,force⟩ (by simp)
  | twinMove room clean force member name old made temp taken =>
    rename_i p a b o
    refine inv.move rfl (List.Subset.refl _) id [.reused p b o] rfl ?_ ?_ ?_ ?_
    · simpa [Attested] using ⟨member,name,force⟩
    · intro j slot current
      refine ⟨current,?_⟩
      by_cases backup : j = PENDING_BACKUP
      · simp [backup,made]
      · simp [backup]
    · intro unblocked
      exact ⟨(inv.closed unblocked).1,by simp [clean]⟩
    · intro j r live
      by_cases backup : j = PENDING_BACKUP
      · have same : r = ⟨a,o,.twinned⟩ := by simpa [backup,eq_comm] using live
        rw [same]
        exact .inr ⟨⟨⟨p,member,temp⟩,force⟩,by simp⟩
      · exact .inl (by simpa [backup] using live)
  | remove clean made seen => exact inv.drop clean _ [] (by simp)
  | vanish clean made gone => exact inv.drop clean _ [] (by simp)
  | linkCommit clean unforced member mine finished =>
    exact inv.grow [_] (List.Subset.refl _) id (by simpa [Attested] using ⟨member,finished⟩)
  | noReplace clean unforced member made slot finished =>
    exact inv.drop clean _ [_] (by simpa [Attested] using ⟨member,finished⟩)
  | linkAlso clean unforced member made finished =>
    exact inv.grow [_] (List.Subset.refl _) id (by simpa [Attested] using ⟨member,finished⟩)
  | overHolder blocked clean unforced member made slot holder just finished =>
    rename_i i t p n h
    refine inv.move rfl (List.Subset.refl _) id [_] rfl (by simpa [Attested] using ⟨member,finished⟩) ?_
      (by simp [blocked]) ?_
    · intro j fresh current
      simp only [List.mem_cons,List.not_mem_nil,or_false] at current
      simp [clean,fresh,current]
    · intro j r live
      by_cases same : j = i
      · simp [same] at live
      · by_cases fresh : j = FRESH
        · subst fresh
          simp [same] at live
        · exact .inl (by simpa [same,fresh] using live)
  | force blocked clean forced member made temp room slot other backed finished =>
    exact inv.commit blocked clean member finished backed forced (by simp)
  | exchange blocked clean forced member made temp room slot other old backed finished =>
    refine inv.commit blocked clean member finished backed forced ?_
    rintro r ⟨⟩
    exact ⟨⟨⟨_,member,temp⟩,forced⟩,by simp⟩
  | mkdir parent => exact inv.grow [_] (List.Subset.refl _) id (by simpa [Attested] using parent)

/-- What a step that leaves the trail alone has to show for the invariant. -/
theorem Inv.step (inv : Inv paths spec m g) (log : ∃ new, m'.log = new ++ m.log) (told : m'.told = m.told)
    (failed : m.dirs_nfailed ≤ m'.dirs_nfailed) (refused : g'.refused = g.refused) (tidy : Tidy m → Tidy m') (finished : g'.finished = g.finished) (trail : g'.trail = g.trail)
    (synced : ∀ j, j ≠ FRESH → j ∉ g'.lag → armed m' j = (g'.live j).map fun r => (r.path,r.ino))
    (closed : m'.blocked = false → g'.live FRESH = none ∧ ∀ j ∈ g'.lag, g'.live j = none)
    (whole : ∀ j s, (m'.pending j).path = some s → Whole g' m' j s) (freed : ∀ b ∈ m'.freed, b < m'.heap)
    (live : ∀ j r, g'.live j = some r → ∃ i, g.live i = some r) : Inv paths spec m' g' := by
  obtain ⟨new,longer⟩ := log
  refine ⟨synced,closed,whole,freed,?_,?_,?_,?_,tidy inv.tidy⟩
  · intro j r found
    obtain ⟨i,before⟩ := live j r found
    exact inv.shape i r before
  · intro j r found role
    obtain ⟨i,before⟩ := live j r found
    rw [finished]
    exact inv.plain i r before role
  · intro d member
    rw [trail] at member
    refine (inv.trail d member).mono ?_ ?_ ?_ failed (refused ▸ id)
    · rw [finished]
      exact List.Subset.refl _
    · rw [trail]
      exact List.Subset.refl _
    · rw [longer]
      exact List.subset_append_right new m.log
  · intro p left member
    rw [told] at member
    rw [trail]
    exact inv.reports p left member

theorem setPending_pending (m : Memory) (j : Nat) (p : PendingName) (i : Nat) :
    (Memory.setPending m j p).pending i = if i = j then p else m.pending i := rfl

/-- One slot of `pending` is brought up to date. -/
theorem Inv.slot (inv : Inv paths spec m g) {j : Nat} {p : PendingName}
    (others : ∀ i, i ≠ j → i ≠ FRESH → i ∉ g'.lag → i ∉ g.lag ∧ g'.live i = g.live i)
    (this : p.path.map (fun s => (s.text,p.ino)) = (g'.live j).map fun r => (r.path,r.ino)) :
    ∀ i, i ≠ FRESH → i ∉ g'.lag → armed (Memory.setPending m j p) i = (g'.live i).map fun r => (r.path,r.ino) := by
  intro i slot current
  by_cases same : i = j
  · simpa [armed,setPending_pending,same] using this
  · obtain ⟨before,live⟩ := others i same slot current
    rw [live,← inv.synced i slot before]
    simp [armed,setPending_pending,same]

theorem whole_setPending (inv : Inv paths spec m g) {j : Nat} {p : PendingName} (owner : g'.owner = g.owner)
    (this : ∀ s, p.path = some s → Whole g m j s) :
    ∀ i s, ((Memory.setPending m j p).pending i).path = some s → Whole g' (Memory.setPending m j p) i s := by
  intro i s found b block
  rw [owner]
  by_cases same : i = j
  · subst same
    exact this s (by simpa [setPending_pending] using found) b block
  · exact inv.whole i s (by simpa [setPending_pending,same] using found) b block

/-- A name left behind, as a message says. -/
theorem Inv.leave (inv : Inv paths spec m g) (clean : g.lag = []) {j : Nat} {msg : Message} {d : Deed}
    (attested : Attested paths spec { g.drop j with trail := d :: g.trail } { m with log := msg :: m.log } d) :
    Inv paths spec { m with log := msg :: m.log } { g.drop j with trail := d :: g.trail } := by
  have said : Inv paths spec { m with log := msg :: m.log } g :=
    inv.step ⟨[msg],rfl⟩ rfl (Nat.le_refl _) rfl (fun ⟨d,f⟩ => ⟨d,f⟩) rfl rfl inv.synced inv.closed inv.whole inv.freed fun j r live => ⟨j,live⟩
  refine said.drop clean j [d] ?_
  simpa using attested

theorem keeps_mem (inv : Inv paths spec m g) (step : Step g m m' g') : Inv paths spec m' g' := by
  have still : ∀ j r, g.live j = some r → ∃ i, g.live i = some r := fun j r live => ⟨j,live⟩
  cases step with
  | quiet same =>
    refine inv.step same.log same.told same.failed rfl same.tidy rfl rfl ?_ ?_ ?_ ?_ still
    · intro j slot current
      rw [← inv.synced j slot current,armed,armed,same.pending]
    · rw [same.blocked]
      exact inv.closed
    · intro j s found b block
      rw [same.heap,same.freed]
      exact inv.whole j s (by rw [← same.pending]; exact found) b block
    · rw [same.freed,same.heap]
      exact inv.freed
  | hold => exact inv.step ⟨[],rfl⟩ rfl (Nat.le_refl _) rfl (fun ⟨d,f⟩ => ⟨d,f⟩) rfl rfl inv.synced (by simp) inv.whole inv.freed still
  | release closed =>
    refine inv.step ⟨[],rfl⟩ rfl (Nat.le_refl _) rfl (fun ⟨d,f⟩ => ⟨d,f⟩) rfl rfl inv.synced ?_ inv.whole inv.freed still
    intro unblocked
    obtain ⟨dead,clean⟩ := closed unblocked
    exact ⟨dead,by simp [clean]⟩
  | arm clean made text room slot whole =>
    rename_i j s r
    refine inv.step ⟨[],rfl⟩ rfl (Nat.le_refl _) rfl (fun ⟨d,f⟩ => ⟨d,f⟩) rfl rfl ?_ ?_ ?_ inv.freed ?_
    · refine inv.slot ?_ (by simp [text])
      intro i other fresh _
      simp [clean,other,fresh]
    · intro unblocked
      exact ⟨by simp [slot.ne'],by simp [clean]⟩
    · exact whole_setPending inv rfl (by rintro _ ⟨⟩; exact whole)
    · intro i r' live
      by_cases same : i = j
      · exact ⟨FRESH,by simpa [same,made] using live⟩
      · by_cases fresh : i = FRESH
        · subst fresh
          simp [same] at live
        · exact ⟨i,by simpa [same,fresh] using live⟩
  | retarget made armed text =>
    rename_i j s r
    refine inv.step ⟨[],rfl⟩ rfl (Nat.le_refl _) rfl (fun ⟨d,f⟩ => ⟨d,f⟩) rfl rfl ?_ ?_ ?_ inv.freed still
    · refine inv.slot ?_ (by simp [armed,made,text])
      intro i other fresh current
      exact ⟨by simpa [other] using current,rfl⟩
    · intro unblocked
      obtain ⟨dead,lag⟩ := inv.closed unblocked
      exact ⟨dead,fun i member => lag i (List.mem_of_mem_filter member)⟩
    · refine whole_setPending inv rfl ?_
      intro s' found
      exact inv.whole j s' found
  | clear gone =>
    rename_i j
    refine inv.step ⟨[],rfl⟩ rfl (Nat.le_refl _) rfl (fun ⟨d,f⟩ => ⟨d,f⟩) rfl rfl ?_ ?_ ?_ inv.freed still
    · refine inv.slot ?_ (by simp [gone])
      intro i other fresh current
      exact ⟨by simpa [other] using current,rfl⟩
    · intro unblocked
      obtain ⟨dead,lag⟩ := inv.closed unblocked
      exact ⟨dead,fun i member => lag i (List.mem_of_mem_filter member)⟩
    · exact whole_setPending inv rfl (by simp)
  | settle clean made slot =>
    rename_i j p n
    have done : n ∈ g.finished := inv.plain j _ made rfl
    have member : p ∈ paths := (inv.shape j _ made).1
    have gone : Inv paths spec m { g.drop j with trail := .file p n :: g.trail } :=
      inv.drop clean j [_] (by simpa [Attested] using ⟨member,done⟩)
    refine gone.step ⟨[],rfl⟩ rfl (Nat.le_refl _) rfl (fun ⟨d,f⟩ => ⟨d,f⟩) rfl rfl ?_ ?_ ?_ gone.freed fun i r live => ⟨i,live⟩
    · refine gone.slot ?_ (by simp)
      intro i other fresh _
      have current : i ∉ (g.drop j).lag := fun lag => other ((drop_lag fresh).mp lag)
      exact ⟨current,rfl⟩
    · intro unblocked
      exact ⟨(gone.closed unblocked).1,by simp⟩
    · exact whole_setPending gone rfl (by simp)
  | alloc =>
    refine inv.step ⟨[],rfl⟩ rfl (Nat.le_refl _) rfl (fun ⟨d,f⟩ => ⟨d,f⟩) rfl rfl inv.synced inv.closed ?_ ?_ still
    · intro j s found b block
      obtain ⟨owner,below,unfreed⟩ := inv.whole j s found b block
      exact ⟨by simpa [Nat.ne_of_lt below] using owner,Nat.lt_succ_of_lt below,unfreed⟩
    · intro b member
      exact Nat.lt_succ_of_lt (inv.freed b member)
  | free loose =>
    refine inv.step ⟨[],rfl⟩ rfl (Nat.le_refl _) rfl (fun ⟨d,f⟩ => ⟨d,f⟩) rfl rfl inv.synced inv.closed ?_ ?_ still
    · intro j s found b block
      obtain ⟨owner,below,unfreed⟩ := inv.whole j s found b block
      refine ⟨owner,below,?_⟩
      simp only [List.mem_append,Option.mem_toList,not_or]
      exact ⟨fun this => (loose b this).2 j s found block,unfreed⟩
    · intro b member
      rcases List.mem_append.mp member with this | before
      · exact (loose b (by simpa using this)).1
      · exact inv.freed b before
  | keep clean made => exact inv.leave clean ⟨_,List.mem_cons_self⟩
  | keepOld clean made why =>
    have shape := inv.shape _ _ made
    exact inv.leave clean ⟨⟨_,List.mem_cons_self⟩,shape.1,shape.2,why⟩
  | named done =>
    refine ⟨inv.synced,inv.closed,inv.whole,inv.freed,inv.shape,inv.plain,inv.trail,?_,⟨inv.tidy.digits,inv.tidy.failed⟩⟩
    intro p left member
    exact inv.reports p left (by simpa using member)
  | dropping =>
    refine ⟨inv.synced,inv.closed,inv.whole,inv.freed,inv.shape,inv.plain,inv.trail,?_,⟨inv.tidy.digits,inv.tidy.failed⟩⟩
    intro p left member
    exact inv.reports p left (by simpa using member)
  | report done =>
    refine ⟨inv.synced,inv.closed,inv.whole,inv.freed,inv.shape,inv.plain,inv.trail,?_,⟨inv.tidy.digits,inv.tidy.failed⟩⟩
    intro p left member
    rcases List.mem_cons.mp member with same | before
    · cases same
      exact done rfl
    · exact inv.reports p left before

/-- The protocol that a run keeps with its operands and options. -/
def ledger (paths : List Path) (spec : FileSpec) : Protocol posix Memory Book where
  call := Move paths spec
  mem := Step
  sane := Sane
  inv := Inv paths spec
  keeps_call inv _ move := keeps_call inv move
  keeps_mem inv step := keeps_mem inv step

end Newfile.Ledger
