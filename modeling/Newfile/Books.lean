import Newfile.Calls
import Newfile.Batch

/-!
The books that are kept of a run: which descriptors are open, what mode each file
has and which operands were reported. The system here answers every call in every
way, but a new descriptor is one not in use, a directory maps the permission bits
of its new files by some function of its own, and no mode is changed otherwise
than by `fchmod`, `fchown` and writes.
-/
namespace Newfile.Books
open Newfile.Program Newfile.Posix Newfile.Process Newfile.Pending Newfile.Fastio Newfile.Template Newfile.Flush
open Newfile.Place Newfile.Backup Newfile.Batch Newfile.Calls

/-! ## The system -/

structure Book where
  opened : List Nat
  modes : Ino → Mode
  /-- The inodes from here on are unused. -/
  next : Ino

/-- A directory as its new files see it: what it makes of the nine permission bits. -/
abbrev Image := Path → Mode → Mode

/-- The mode of a new file: the set-ID and sticky bits are kept. -/
def created (image : Image) (dir : Path) (mode : Mode) : Mode :=
  (image dir (mode &&& 0o777) &&& 0o777) ||| (mode &&& 0o7000)

def Book.chmod (k : Book) (i : Ino) (mode : Mode) : Book :=
  { k with modes := fun j => if j = i then mode else k.modes j }

def Book.close (k : Book) (fd : Fd) : Book := { k with opened := k.opened.filter (· != fd.num) }

/-- A descriptor that was not in use. -/
def Opens (k : Book) (fd : Fd) (k' : Book) : Prop :=
  fd.num ∉ k.opened ∧ k' = { k with opened := fd.num :: k.opened }

/-- A file that was not there, and a descriptor. -/
def Makes (k : Book) (fd : Fd) (mode : Mode) (k' : Book) : Prop :=
  fd.num ∉ k.opened ∧ fd.ino = k.next ∧
    k' = { opened := fd.num :: k.opened, modes := fun j => if j = k.next then mode else k.modes j, next := k.next+1 }

/-- A change of content or owner clears the set-ID bits, or does not. -/
def Touches (k : Book) (i : Ino) (k' : Book) : Prop := k' = k ∨ k' = k.chmod i (dropIds (k.modes i))

/-- Every answer is possible that fits the books. The limit on descriptors is always the
    same. Where the modes are `steady`, `fstat` tells what the mode was set to. -/
def books (limit : Except Errno (Option Nat)) (image : Image) (steady : Prop) : System posix Book := fun k c r k' =>
  match c, r with
  | .getrlimit_nofile, r => r = limit ∧ k' = k
  | .open_excl path mode, .ok fd => Makes k fd (created image (dirText path) mode) k'
  | .open_tmpfile dir mode, .ok fd => Makes k fd (created image dir mode) k'
  | .memfd_create, .ok fd => ∃ mode, Makes k fd mode k'
  | .mkstemp _, .ok x => Makes k x.1 0o600 k'
  | .open_dir _, .ok fd | .open_read _, .ok fd => Opens k fd k'
  | .close fd, _ => k' = k.close fd
  | .fstat fd, .ok st => (steady → st.mode = k.modes fd.ino) ∧ k' = k
  | .fchmod fd mode, .ok _ => k' = k.chmod fd.ino mode
  | .fchown fd _ _, .ok _ | .ftruncate fd _, .ok _ | .fallocate fd _ _, .ok _ | .write fd _, .ok _
  | .pwrite fd _ _, .ok _ | .copy_file_range _ _ fd _ _, .ok _ | .sendfile fd _ _ _, .ok _
  | .splice _ fd _, .ok _ => Touches k fd.ino k'
  | _, _ => k' = k

/-- What `report_one` was told, the first operand first: its path, and whether it succeeded. -/
def reports (m : Memory) : List (Path × Bool) :=
  m.told.reverse.filterMap fun
    | .report path fail _ => some (path,fail.isNone)
    | _ => none

/-! ## What is kept in order -/

/-- What a run is about: the limit on descriptors, the directories, whether the modes are
    steady, the size of a batch, the mode that is asked for, how many directories are queued and how many
    listings held at the most, and an inode that was used. -/
structure Terms where
  limit : Except Errno (Option Nat)
  image : Image
  steady : Prop
  batch : Nat
  mode : Mode
  queue : Nat
  listings : Nat
  used : Ino

/-- No table is longer than its array, and the descriptors are few: there is one to
    spare for the stream that a listing has open. -/
structure Within (batch : Nat) (k : Book) (m : Memory) : Prop where
  opened : k.opened.length+1 ≤ 2*batch+2
  dirs : m.dirs.length ≤ m.dirs_max
  dirs_max : m.dirs_max ≤ NEWFILE_BATCH
  failures : m.failures.length ≤ NEWFILE_BATCH
  probes : m.probes.length ≤ NEWFILE_BATCH
  backups : m.backups.length ≤ NEWFILE_BATCH

/-- The books are in order: no descriptor is open but those of `base`, the tables have
    room, the probes tell what the directories grant, and since `start` no mode has
    changed and no operand but those of `told` was reported. -/
structure Tidy (T : Terms) (base : List Nat) (start : Book) (told : List (Path × Bool)) (k : Book) (m : Memory) :
    Prop where
  few : base.length ≤ 2*T.batch+1
  positive : 0 < T.batch
  nodup : k.opened.Nodup
  known : ∀ n ∈ k.opened, n ∈ base
  dirs : m.dirs.length ≤ T.queue
  queue : T.queue ≤ T.batch
  dirs_max : m.dirs_max = T.batch
  small : T.batch ≤ NEWFILE_BATCH
  failures : m.failures.length ≤ NEWFILE_BATCH
  probes : m.probes.length ≤ NEWFILE_BATCH
  granted : T.steady → ∀ p ∈ m.probes, p.granted = created T.image p.dir T.mode
  backups : m.backups.length ≤ T.listings
  listings : T.listings ≤ NEWFILE_BATCH
  used : T.used ≤ k.next
  next : start.next ≤ k.next
  modes : ∀ j < start.next, k.modes j = start.modes j
  told : reports m = told

variable {T : Terms} {base : List Nat} {start k : Book} {told : List (Path × Bool)} {m : Memory} {α β : Type}

theorem Tidy.within (tidy : Tidy T base start told k m) : Within T.batch k m := by
  have opened : k.opened.length ≤ base.length := (tidy.nodup.subperm tidy.known).length_le
  exact ⟨Nat.succ_le_succ (Nat.le_trans opened tidy.few),tidy.dirs_max ▸ Nat.le_trans tidy.dirs tidy.queue,tidy.dirs_max ▸ tidy.small,
    tidy.failures,tidy.probes,Nat.le_trans tidy.backups tidy.listings⟩

/-- There is room for one descriptor more than the operands and the template have. -/
theorem Tidy.room (tidy : Tidy T base start told k m) (few : base.length ≤ T.batch+1) : base.length ≤ 2*T.batch := by
  have positive := tidy.positive
  omega

/-- From here on nothing has happened yet. -/
theorem Tidy.restart (tidy : Tidy T base start told k m) : Tidy T base k told k m :=
  { tidy with next := Nat.le_refl _, modes := fun _ _ => rfl }

theorem Tidy.since {base' : List Nat} {k' : Book} {m' : Memory} {told' : List (Path × Bool)}
    (before : Tidy T base start told k m) (after : Tidy T base' k told' k' m') : Tidy T base' start told' k' m' :=
  { after with
    next := Nat.le_trans before.next after.next
    modes := fun j old => (after.modes j (Nat.lt_of_lt_of_le old before.next)).trans (before.modes j old) }

/-- The descriptors may be more. -/
theorem Tidy.wider {base' : List Nat} (tidy : Tidy T base start told k m) (more : ∀ n ∈ base, n ∈ base')
    (few : base'.length ≤ 2*T.batch+1) : Tidy T base' start told k m :=
  { tidy with few, known := fun n open_ => more n (tidy.known n open_) }

theorem Tidy.closed {fd : Fd} (tidy : Tidy T (fd.num :: base) start told k m) : Tidy T base start told (k.close fd) m :=
  { tidy with
    few := Nat.le_of_succ_le tidy.few
    nodup := tidy.nodup.filter _
    known := fun n open_ => by
      simp only [Book.close,List.mem_filter,bne_iff_ne,ne_eq] at open_
      exact (List.mem_cons.mp (tidy.known n open_.1)).resolve_left open_.2 }

theorem Tidy.opens {fd : Fd} {k' : Book} (tidy : Tidy T base start told k m) (room : base.length ≤ 2*T.batch)
    (opens : Opens k fd k') : Tidy T (fd.num :: base) start told k' m := by
  obtain ⟨new,rfl⟩ := opens
  exact { tidy with
    few := Nat.succ_le_succ room
    nodup := List.nodup_cons.mpr ⟨new,tidy.nodup⟩
    known := fun n open_ => by
      rcases List.mem_cons.mp open_ with rfl | old
      · exact List.mem_cons_self
      · exact List.mem_cons_of_mem _ (tidy.known n old) }

/-- A file made since `start`, with a mode. -/
structure New (start : Book) (fd : Fd) (mode : Mode) (k : Book) : Prop where
  after : start.next ≤ fd.ino
  before : fd.ino < k.next
  mode : k.modes fd.ino = mode

theorem Tidy.makes {fd : Fd} {mode : Mode} {k' : Book} (tidy : Tidy T base start told k m)
    (room : base.length ≤ 2*T.batch) (makes : Makes k fd mode k') :
    Tidy T (fd.num :: base) start told k' m ∧ New start fd mode k' := by
  obtain ⟨new,ino,rfl⟩ := makes
  refine ⟨{ tidy with
    few := Nat.succ_le_succ room
    nodup := List.nodup_cons.mpr ⟨new,tidy.nodup⟩
    known := fun n open_ => ?_
    used := Nat.le_succ_of_le tidy.used
    next := Nat.le_succ_of_le tidy.next
    modes := fun j old => ?_ },?_,?_,?_⟩
  · rcases List.mem_cons.mp open_ with rfl | old
    · exact List.mem_cons_self
    · exact List.mem_cons_of_mem _ (tidy.known n old)
  · have other : j ≠ k.next := Nat.ne_of_lt (Nat.lt_of_lt_of_le old tidy.next)
    simp only [other,↓reduceIte]
    exact tidy.modes j old
  · rw [ino]
    exact tidy.next
  · rw [ino]
    exact Nat.lt_succ_self _
  · simp [ino]

theorem Tidy.chmod {i : Ino} (tidy : Tidy T base start told k m) (own : start.next ≤ i) (mode : Mode) :
    Tidy T base start told (k.chmod i mode) m :=
  { tidy with
    modes := fun j old => by
      have other : j ≠ i := Nat.ne_of_lt (Nat.lt_of_lt_of_le old own)
      simp only [Book.chmod,other,↓reduceIte]
      exact tidy.modes j old }

theorem Tidy.touches {i : Ino} {k' : Book} (tidy : Tidy T base start told k m) (own : start.next ≤ i)
    (touches : Touches k i k') : Tidy T base start told k' m := by
  rcases touches with rfl | rfl
  · exact tidy
  · exact tidy.chmod own _

/-! ## Plain programs -/

/-- The calls that open and close nothing, and change no file before `own`. -/
def Plain (own : Ino) : Call → Prop
  | .open_excl _ _ | .open_tmpfile _ _ | .memfd_create | .mkstemp _ | .open_dir _ | .open_read _ | .close _ => False
  | .fchmod fd _ | .fchown fd _ _ | .ftruncate fd _ | .fallocate fd _ _ | .write fd _ | .pwrite fd _ _
  | .copy_file_range _ _ fd _ _ | .sendfile fd _ _ _ | .splice _ fd _ => own ≤ fd.ino
  | _ => True

/-- The tables and the reports stay as they are. -/
structure Still (m m' : Memory) : Prop where
  dirs : m'.dirs = m.dirs
  dirs_max : m'.dirs_max = m.dirs_max
  failures : m'.failures = m.failures
  probes : m'.probes = m.probes
  backups : m'.backups = m.backups
  told : reports m' = reports m

theorem Still.refl (m : Memory) : Still m m := ⟨rfl,rfl,rfl,rfl,rfl,rfl⟩

theorem Tidy.still {m' : Memory} (tidy : Tidy T base start told k m) (still : Still m m') :
    Tidy T base start told k m' := by
  obtain ⟨dirs,dirs_max,failures,probes,backups,same⟩ := still
  exact { tidy with
    dirs := dirs ▸ tidy.dirs
    dirs_max := dirs_max ▸ tidy.dirs_max
    failures := failures ▸ tidy.failures
    probes := probes ▸ tidy.probes
    granted := probes ▸ tidy.granted
    backups := backups ▸ tidy.backups
    told := same.trans tidy.told }

theorem Tidy.plain {c : Call} {r : posix.Res c} {k' : Book} (tidy : Tidy T base start told k m)
    (plain : Plain start.next c) (answered : books T.limit T.image T.steady k c r k') : Tidy T base start told k' m := by
  cases c <;> cases r <;> simp only [books,Plain] at plain answered <;>
    first
      | exact plain.elim
      | exact tidy.touches plain answered
      | (subst answered; first | exact tidy | exact tidy.chmod plain _)
      | (obtain ⟨_,rfl⟩ := answered; exact tidy)

/-- A plain program keeps the books in order. -/
theorem always_plain {p : P α} (plain : uses (Plain start.next) Still p) (tidy : Tidy T base start told k m) :
    always (books T.limit T.image T.steady) (Within T.batch) p (fun _ k' m' => Tidy T base start told k' m') k m :=
  always_uses (S := fun k m => Tidy T base start told k m) plain (fun _ _ => Tidy.within)
    (fun _ _ _ _ _ tidy plain answered => tidy.plain plain answered) (fun _ _ _ tidy still => tidy.still still) tidy

end Newfile.Books
