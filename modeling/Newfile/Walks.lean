import Newfile.Calls
import Newfile.Batch

/-!
The functions of the program, each walked through once: a property that sequences of
programs keep holds of a function as soon as it holds of its calls and of its steps on
the memory.
-/
namespace Newfile.Walks
open Newfile.Program Newfile.Posix Newfile.Process Newfile.Pending Newfile.Fastio Newfile.Flush Newfile.Place Newfile.Backup
open Newfile.Batch Newfile.Calls

variable {T : (α : Type) → P α → Prop} {α β ε : Type}

/-- A property that holds of a sequence of programs if it holds of each of them. -/
structure Composes (T : (α : Type) → P α → Prop) : Prop where
  pure : ∀ {α : Type} (a : α), T α (Pure.pure a)
  bind : ∀ {α β : Type} {p : P α} {f : α → P β}, T α p → (∀ a, T β (f a)) → T β (p >>= f)
  get : T Memory get
  alloc : T _ allocate

/-- The rule for a choice. -/
theorem Composes.choose (_ : Composes T) {c : Prop} [Decidable c] {p q : P α} (yes : T _ p) (no : T _ q) :
    T _ (if c then p else q) := by
  split
  · exact yes
  · exact no

namespace Composes
variable (composes : Composes T)
include composes

/-- The rule for a part of a program that may fail. -/
theorem attempt {p : P (Except ε α)} {f : Except ε α → P β} (first : T _ p) (failed : ∀ e, T _ (f (.error e)))
    (fine : ∀ a, T _ (f (.ok a))) : T _ (p >>= f) :=
  composes.bind first fun r => by
    cases r with
    | error e => exact failed e
    | ok a => exact fine a

theorem path_dir (path : Path) : T _ (path_dir path) :=
  composes.attempt composes.alloc (fun _ => composes.pure _) fun _ => composes.pure _

/-- The rule for the directory of a path, of which the rest may know the text. -/
theorem directory {path : Path} {f : Except Errno Path → P β} (failed : ∀ e, T _ (f (.error e)))
    (fine : T _ (f (.ok (dirText path)))) : T _ (Flush.path_dir path >>= f) := by
  rw [Flush.path_dir,Prog.bind_assoc]
  exact composes.attempt composes.alloc failed fun _ => fine

/-! ## Listings -/

theorem digits_inc (digits : List Char) : T _ (digits_inc digits) :=
  composes.choose (composes.attempt composes.alloc (fun _ => composes.pure _) fun _ => composes.pure _) (composes.pure _)

theorem number (best : Option (List Char)) : T _ (backup_next.number best) := by
  cases best with
  | none => exact composes.attempt composes.alloc (fun _ => composes.pure _) fun _ => composes.pure _
  | some best => exact composes.attempt (composes.digits_inc best) (fun _ => composes.pure _) fun _ => composes.pure _

theorem copyEntry (entries : List BackupEntry) (base : Path) (digits : List Char) : T _ (copyEntry entries base digits) := by
  refine composes.bind composes.alloc fun one => composes.bind composes.alloc fun two => ?_
  cases one with
  | error e => exact composes.pure _
  | ok _ =>
    cases two with
    | error e => exact composes.pure _
    | ok _ => exact composes.pure _

theorem listLoop : ∀ names entries cap, T _ (listLoop names entries cap) := by
  intro names
  induction names with
  | nil => exact fun _ _ => composes.pure _
  | cons name names ih =>
    intro entries cap
    rw [Backup.listLoop]
    split
    · exact ih _ _
    · exact composes.attempt (composes.choose composes.alloc (composes.pure _)) (fun _ => composes.pure _) fun _ =>
        composes.attempt (composes.copyEntry _ _ _) (fun _ => composes.pure _) fun _ => ih _ _

theorem backup_dir_list {dir : Path} (list : T _ (perform (.list dir))) : T _ (backup_dir_list dir) :=
  composes.attempt list (fun _ => composes.pure _) fun _ =>
    composes.attempt (composes.listLoop _ _ _) (fun _ => composes.pure _) fun _ => composes.pure _

/-- The listings are read and replaced by the functions of `backup.c` only. -/
theorem backup_dir_get {filepath : Path} (listed : T _ (backup_dir_get.listed (dirText filepath))) (reset : T _ backup_cache_reset) :
    T _ (backup_dir_get filepath) := by
  refine composes.directory (fun _ => composes.pure _) (composes.bind composes.get fun m => ?_)
  split
  · exact composes.pure _
  · exact composes.choose (composes.bind reset fun _ => listed) listed

theorem backup_best {filepath : Path} (got : T _ (Backup.backup_dir_get filepath)) : T _ (backup_best filepath) := by
  refine composes.attempt got (fun _ => composes.pure _) fun bd => ?_
  dsimp only
  split
  · exact composes.pure _
  · exact composes.attempt composes.alloc (fun _ => composes.pure _) fun _ => composes.pure _

theorem backup_note {filepath : Path} {digits : List Char} (got : T _ (Backup.backup_dir_get filepath))
    (noted : ∀ dir entries, T _ (modify (setEntries · dir entries))) : T _ (backup_note filepath digits) := by
  refine composes.attempt got (fun _ => composes.pure _) fun bd => ?_
  refine composes.attempt composes.alloc (fun _ => composes.pure _) fun _ => ?_
  dsimp only
  split
  · exact composes.choose (noted _ _) (composes.pure _)
  · refine composes.bind composes.alloc fun base => composes.bind composes.alloc fun grown => ?_
    cases base with
    | error e => exact composes.pure _
    | ok _ =>
      cases grown with
      | error e => exact composes.pure _
      | ok _ => exact noted _ _

end Composes

/-! ## Names -/

/-- A property that holds of the steps on strings, messages and pending names, and of the
    calls that look at a name or remove it. -/
structure Handles (T : (α : Type) → P α → Prop) : Prop extends Composes T where
  heap : T _ (modify fun m => { m with heap := m.heap + 1 })
  counter : T _ (modify fun m => { m with counter := m.counter + 1 })
  free : ∀ s, T _ (free s)
  say : ∀ msg, T _ (say msg)
  block : T _ (modify fun m => { m with blocked := true })
  release : ∀ old, T _ (pending_release old)
  arm : ∀ slot path ino, T _ (pending_arm slot path ino)
  retarget : ∀ slot ino, T _ (pending_retarget slot ino)
  clear : ∀ slot, T _ (pending_clear slot)
  lstat : ∀ path, T _ (perform (.lstat path))
  unlink : ∀ path, T _ (perform (.unlink path))
  entropy : ∀ n, T _ (perform (.getentropy n))

namespace Handles
variable (handles : Handles T)
include handles

theorem newStr (text : Path) : T _ (newStr text) :=
  handles.attempt handles.alloc (fun _ => handles.pure _) fun _ => handles.bind handles.get fun _ =>
    handles.bind handles.heap fun _ => handles.pure _

/-- What holds of all these programs holds of them under a weaker property. -/
theorem lift {T' : (α : Type) → P α → Prop} (bind : ∀ {α β : Type} {p : P α} {f : α → P β}, T' α p → (∀ a, T' β (f a)) → T' β (p >>= f))
    (weaker : ∀ {α : Type} {p : P α}, T α p → T' α p) : Handles T' where
  pure a := weaker (handles.pure a)
  bind := bind
  get := weaker handles.get
  alloc := weaker handles.alloc
  heap := weaker handles.heap
  counter := weaker handles.counter
  free s := weaker (handles.free s)
  say msg := weaker (handles.say msg)
  block := weaker handles.block
  release old := weaker (handles.release old)
  arm slot path ino := weaker (handles.arm slot path ino)
  retarget slot ino := weaker (handles.retarget slot ino)
  clear slot := weaker (handles.clear slot)
  lstat path := weaker (handles.lstat path)
  unlink path := weaker (handles.unlink path)
  entropy n := weaker (handles.entropy n)

/-- The rule for an allocated string, of which the rest may know the text. -/
theorem string {text : Path} {f : Except Errno Str → P β} (failed : ∀ e, T _ (f (.error e)))
    (fine : ∀ block, T _ (f (.ok ⟨text,some block⟩))) : T _ (Process.newStr text >>= f) := by
  rw [Process.newStr,Prog.bind_assoc]
  refine handles.bind handles.alloc fun r => ?_
  cases r with
  | error e => exact failed e
  | ok _ =>
    change T _ (get >>= fun m => (modify fun m => { m with heap := m.heap + 1 }) >>= fun _ => f (.ok ⟨text,some m.heap⟩))
    exact handles.bind handles.get fun m => handles.bind handles.heap fun _ => fine m.heap

theorem pending_hold : T _ pending_hold :=
  handles.bind handles.get fun _ => handles.bind handles.block fun _ => handles.pure _

theorem remove_ours (path : Path) (ino : Ino) : T _ (remove_ours path ino) :=
  handles.attempt (handles.lstat path) (fun _ => handles.pure _) fun _ => handles.choose (handles.pure _)
    (handles.attempt (handles.unlink path) (fun _ => handles.pure _) fun _ => handles.pure _)

theorem pending_remove (slot : Nat) : T _ (pending_remove slot) := by
  refine handles.bind handles.get fun m => ?_
  split
  · exact handles.pure _
  · refine handles.bind (handles.remove_ours _ _) fun removal => ?_
    cases removal with
    | gone => exact handles.bind (handles.clear slot) fun _ => handles.pure _
    | other => exact handles.bind (handles.say _) fun _ => handles.bind (handles.clear slot) fun _ => handles.pure _
    | failed e => exact handles.bind (handles.say _) fun _ => handles.bind (handles.clear slot) fun _ => handles.pure _

theorem dir_failed (counted : T _ (modify fun m => { m with dirs_nfailed := m.dirs_nfailed + 1 }))
    (lost : T _ (modify fun m => { m with failures_lost := true }))
    (kept : ∀ f, T _ (modify fun m => { m with failures := m.failures ++ [f] })) (name : Path) (e : Errno) (known : Option Ino) :
    T _ (dir_failed name e known) :=
  handles.bind (handles.say _) fun _ => handles.bind counted fun _ => handles.bind handles.get fun _ =>
    handles.choose lost (handles.attempt handles.alloc (fun _ => lost) fun _ => kept _)

theorem temp_fill : T _ temp_fill :=
  handles.attempt (handles.entropy _) (fun _ => handles.bind handles.counter fun _ => handles.bind handles.get fun _ =>
    handles.pure _) fun _ => handles.pure _

theorem tryMake {make : Path → P (Except Errno Made)} (slot : Nat) {name : Str} (made : T _ (make name.text)) :
    T _ (tryMake slot make name) :=
  handles.bind handles.pending_hold fun old =>
    handles.attempt made (fun _ => handles.bind (handles.release old) fun _ => handles.pure _) fun _ =>
      handles.bind (handles.arm slot _ _) fun _ => handles.bind (handles.release old) fun _ => handles.pure _

/-- The names that are tried end in a suffix of random characters. -/
theorem makeLoop {make : Path → P (Except Errno Made)} (slot : Nat) {front : Path} {block : Option Nat}
    (made : ∀ rnd, T _ (make (front ++ suffixOf rnd))) : ∀ n e, T _ (makeLoop slot make front block n e) := by
  intro n
  induction n with
  | zero => exact fun _ => handles.pure _
  | succ n ih =>
    intro e
    have tried : ∀ rnd, T _ (Place.tryMake slot make ⟨front ++ suffixOf rnd,block⟩) := fun rnd => handles.tryMake slot (made rnd)
    rw [Place.makeLoop,Place.temp_fill,Prog.bind_assoc]
    refine handles.attempt (handles.entropy _) (fun _ => ?_) fun rnd => ?_
    · simp only [Prog.bind_assoc]
      exact handles.bind handles.counter fun _ => handles.bind handles.get fun _ =>
        handles.attempt (tried _) (fun _ => handles.choose (ih _) (handles.pure _)) fun _ => handles.pure _
    · exact handles.attempt (tried rnd) (fun _ => handles.choose (ih _) (handles.pure _)) fun _ => handles.pure _

theorem temp_make {make : Path → P (Except Errno Made)} {target : Path} (slot : Nat)
    (made : ∀ front rnd, T _ (make (front ++ TEMP_STEM ++ suffixOf rnd))) : T _ (temp_make target slot make) :=
  handles.attempt (handles.newStr _) (fun _ => handles.pure _) fun name =>
    handles.attempt (handles.makeLoop slot (made _) _ _) (fun _ => handles.bind (handles.free name) fun _ => handles.pure _)
      fun _ => handles.pure _

theorem place_temp {target : Path} {mode : Mode} (slot : Nat) (made : ∀ name, T _ (make_open mode name)) :
    T _ (place_temp target mode slot) :=
  handles.attempt (handles.temp_make slot fun _ _ => made _) (fun _ => handles.pure _) fun _ => handles.pure _

theorem place_probe_mode {target : Path} {mode : Mode} (slot : Nat) (made : ∀ name, T _ (make_open mode name))
    (close : ∀ fd, T _ (perform (.close fd)))
    (noted : ∀ dir granted, T _ (modify fun m =>
      if m.probes.length < NEWFILE_BATCH then { m with probes := m.probes ++ [⟨dir,granted⟩] } else m)) :
    T _ (place_probe_mode target mode slot) := by
  have closed : ∀ x, T _ (place_probe_mode.closeMade x) := fun x => by
    rw [place_probe_mode.closeMade]
    split
    · exact close _
    · exact handles.pure _
  refine handles.attempt (handles.path_dir target) (fun _ => handles.pure _) fun dir => handles.bind handles.get fun m => ?_
  split
  · exact handles.pure _
  · refine handles.attempt (handles.temp_make slot fun _ _ => made _) (fun _ => handles.pure _) fun x => ?_
    refine handles.bind (closed x.2) fun ret => handles.bind (handles.pending_remove slot) fun _ => handles.bind (handles.free _) fun _ => ?_
    cases ret with
    | error e => exact handles.pure _
    | ok _ => exact handles.bind (noted _ _) fun _ => handles.pure _

theorem place_temp_link {fd : Fd} {target : Path} (slot : Nat) (fstat : T _ (perform (.fstat fd)))
    (linked : ∀ name, T _ (perform (.linkat fd name))) : T _ (place_temp_link fd target slot) :=
  handles.attempt fstat (fun _ => handles.pure _) fun _ =>
    handles.attempt (handles.temp_make slot fun _ _ =>
      handles.attempt (linked _) (fun _ => handles.pure _) fun _ => handles.pure _)
      (fun _ => handles.pure _) fun _ => handles.pure _

theorem place_temp_alias {src : Path} {st : Stat} (slot : Nat)
    (linked : ∀ front rnd, T _ (perform (.link src (front ++ TEMP_STEM ++ suffixOf rnd)))) : T _ (place_temp_alias src st slot) :=
  handles.attempt (handles.temp_make slot fun _ _ =>
    handles.attempt (linked _ _) (fun _ => handles.pure _) fun _ => handles.pure _)
    (fun _ => handles.pure _) fun _ => handles.pure _

theorem place_over {tmp target : Path} (slot : Nat) (made : T _ (create_excl target 0o600))
    (close : ∀ fd, T _ (perform (.close fd))) (renamed : T _ (perform (.rename tmp target))) : T _ (place_over tmp target slot) := by
  refine handles.bind handles.pending_hold fun old => ?_
  refine handles.attempt made (fun _ => handles.bind (handles.release old) fun _ => handles.pure _) fun x =>
    handles.bind (close x.1) fun _ => handles.attempt renamed (fun e => ?_) fun _ =>
      handles.bind (handles.clear slot) fun _ => handles.bind (handles.release old) fun _ => handles.pure _
  refine handles.bind (handles.remove_ours _ _) fun removal => ?_
  cases removal with
  | failed e' => exact handles.bind (handles.say _) fun _ => handles.bind (handles.release old) fun _ => handles.pure _
  | gone => exact handles.bind (handles.release old) fun _ => handles.pure _
  | other => exact handles.bind (handles.release old) fun _ => handles.pure _

theorem place_commit {tmp target : Path} (slot : Nat) (renamed : T _ (perform (.rename_noreplace tmp target)))
    (linked : T _ (perform (.link tmp target))) (replaced : T _ (Place.place_over tmp target slot)) : T _ (place_commit tmp target slot) := by
  have fast : T _ (fast_rename_noreplace tmp target) :=
    handles.attempt renamed (fun _ => handles.pure _) fun _ => handles.pure _
  refine handles.attempt fast (fun _ => handles.pure _) fun fast => ?_
  cases fast with
  | done => exact handles.bind (handles.clear slot) fun _ => handles.pure _
  | cannot =>
    exact handles.attempt linked (fun _ => handles.choose (handles.pure _)
      (handles.attempt replaced (fun _ => handles.pure _) fun _ => handles.pure _)) fun _ => handles.pure _

theorem place_rename {tmp target : Path} (slot : Nat) (renamed : T _ (perform (.rename tmp target))) :
    T _ (place_rename tmp target slot) :=
  handles.bind handles.pending_hold fun old =>
    handles.attempt renamed (fun _ => handles.bind (handles.release old) fun _ => handles.pure _) fun _ =>
      handles.bind (handles.clear _) fun _ => handles.bind (handles.clear _) fun _ =>
        handles.bind (handles.release old) fun _ => handles.pure _

theorem place_exchange {tmp target : Path} (slot : Nat) (old_st : Stat) (exchanged : T _ (perform (.rename_exchange tmp target))) :
    T _ (place_exchange tmp target slot old_st) := by
  refine handles.bind handles.pending_hold fun old =>
    handles.attempt (handles.attempt exchanged (fun _ => handles.pure _) fun _ => handles.pure _)
      (fun _ => handles.bind (handles.release old) fun _ => handles.pure _) fun fast => ?_
  cases fast with
  | done =>
    exact handles.bind (handles.retarget _ _) fun _ => handles.bind (handles.clear _) fun _ =>
      handles.bind (handles.release old) fun _ => handles.pure _
  | cannot => exact handles.bind (handles.release old) fun _ => handles.pure _

/-! ## Backups -/

theorem first_backup_exists (filepath : Path) : T _ (first_backup_exists filepath) :=
  handles.attempt (handles.newStr _) (fun _ => handles.pure _) fun name => handles.bind (handles.lstat _) fun found =>
    handles.bind (handles.free name) fun _ => by
      cases found with
      | error e => exact handles.pure _
      | ok _ => exact handles.pure _

theorem backup_next {filepath : Path} (control : String) (best : T _ (Backup.backup_best filepath)) :
    T _ (backup_next filepath control) := by
  refine handles.choose (handles.pure _) (handles.attempt best (fun e => ?_) fun best =>
    handles.choose (handles.number _) (handles.pure _))
  exact handles.choose (handles.pure _) (handles.choose (handles.number _)
    (handles.bind (handles.first_backup_exists filepath) fun _ => handles.choose (handles.number _) (handles.pure _)))

theorem backup_link {filepath : Path} {name : Str} (st : Stat) (linked : T _ (perform (.link filepath name.text))) :
    T _ (backup_link filepath name st) :=
  handles.bind handles.pending_hold fun old =>
    handles.attempt linked (fun _ => handles.bind (handles.release old) fun _ => handles.pure _) fun _ =>
      handles.bind (handles.arm _ _ _) fun _ => handles.bind (handles.release old) fun _ => handles.pure _

theorem backup_numbered {filepath : Path} (st : Stat) (linked : ∀ name, T _ (perform (.link filepath name)))
    (noted : ∀ digits, T _ (backup_note filepath digits)) (spin : T (Except Errno Str) .spin) :
    ∀ fuel digits, T _ (backup_numbered filepath st fuel digits) := by
  intro fuel
  induction fuel with
  | zero => exact fun _ => spin
  | succ fuel ih =>
    intro digits
    refine handles.attempt (handles.newStr _) (fun _ => handles.pure _) fun name => ?_
    refine handles.attempt (handles.backup_link st (linked _)) (fun _ => ?_) fun _ => handles.bind (noted _) fun _ => handles.pure _
    exact handles.bind (handles.free name) fun _ => handles.choose (handles.pure _)
      (handles.attempt (handles.digits_inc digits) (fun _ => handles.pure _) fun digits => ih digits)

theorem backup_simple {filepath : Path} (st : Stat) (linked : T _ (perform (.link filepath (filepath ++ "~".toList))))
    (aliased : T _ (Place.place_temp_alias filepath st PENDING_BACKUP)) (renamed : ∀ src dst, T _ (perform (.rename src dst))) :
    T _ (backup_simple filepath st) := by
  refine handles.string (fun _ => handles.pure _) fun block => ?_
  refine handles.attempt (@backup_link T handles filepath ⟨filepath ++ "~".toList,some block⟩ st linked) (fun e => ?_)
    fun _ => handles.pure _
  refine handles.choose (handles.bind (handles.free _) fun _ => handles.pure _) ?_
  refine handles.attempt aliased (fun _ => handles.bind (handles.free _) fun _ => handles.pure _) fun tmp => ?_
  exact handles.attempt (renamed _ _)
    (fun _ => handles.bind (handles.pending_remove _) fun _ => handles.bind (handles.free tmp) fun _ =>
      handles.bind (handles.free _) fun _ => handles.pure _)
    fun _ => handles.bind (handles.pending_remove _) fun _ => handles.bind (handles.free tmp) fun _ => handles.pure _

theorem backup_make (fuel : Nat) {filepath : Path} {control : String} (next : T _ (Backup.backup_next filepath control))
    (simple : ∀ st, T _ (Backup.backup_simple filepath st)) (numbered : ∀ st digits, T _ (Backup.backup_numbered filepath st fuel digits)) :
    T _ (backup_make fuel filepath control) := by
  refine handles.choose (handles.pure _) (handles.attempt (handles.lstat _) (fun _ => handles.pure _) fun st => ?_)
  refine handles.choose (handles.pure _) (handles.attempt next (fun _ => handles.pure _) fun digits => ?_)
  cases digits with
  | none => exact handles.attempt (simple st) (fun _ => handles.pure _) fun _ => handles.pure _
  | some digits => exact handles.attempt (numbered st digits) (fun _ => handles.pure _) fun _ => handles.pure _

/-! ## Operands -/

theorem op_fail (op : Op) (slot : Nat) (what : String) (e : Errno) (close : ∀ fd, T _ (perform (.close fd))) :
    T _ (op_fail op slot what e) := by
  have freed : ∀ op, T _ (freeTmp op) := fun op => by
    rw [freeTmp]
    split
    · exact handles.bind (handles.free _) fun _ => handles.pure _
    · exact handles.pure _
  refine handles.bind ?_ fun op => handles.choose (handles.bind (handles.pending_remove slot) fun _ => freed op) (freed op)
  rw [closeOp]
  split
  · exact handles.bind (close _) fun _ => handles.pure _
  · exact handles.pure _

theorem open_built {op : Op} (slot : Nat) (spec : FileSpec) (usable : T _ procUsable)
    (opened : ∀ mode, T _ (perform (.open_tmpfile (dirText op.path.text) mode))) (stat : ∀ fd, T _ (perform (.fstat fd)))
    (close : ∀ fd, T _ (perform (.close fd))) (temp : ∀ mode, T _ (Place.place_temp op.path.text mode slot))
    (probed : ∀ mode, T _ (Place.place_probe_mode op.path.text mode slot)) : T _ (open_built op slot spec) := by
  have failed : ∀ (op : Op) e, T _ (Batch.op_fail op slot "cannot create" e >>= fun op => Pure.pure (op,(none : Option Mode))) := fun op e =>
    handles.bind (handles.op_fail op slot _ e close) fun _ => handles.pure _
  have named : ∀ (op' : Op) granted, op'.path = op.path → T _ (openTemp op' slot granted) := fun op' granted same =>
    handles.attempt (by rw [same]; exact temp _) (fun e => failed _ e) fun _ => handles.pure _
  have tmpfile : ∀ mode, T _ (fast_tmpfile (dirText op.path.text) mode) := fun mode =>
    handles.bind usable fun _ => handles.choose (handles.attempt (opened mode) (fun _ => handles.pure _) fun _ => handles.pure _)
      (handles.pure _)
  refine handles.directory (fun e => failed op e) (handles.attempt (tmpfile _) (fun e => failed op e) fun fd => ?_)
  cases fd with
  | some fd => exact handles.attempt (stat fd) (fun e => failed _ e) fun _ => handles.pure _
  | none =>
    refine handles.choose (named _ _ rfl) (handles.attempt (probed _) (fun e => failed _ e) fun x => named _ _ ?_)
    split <;> rfl

end Handles

/-! ## Flushing -/

/-- A property that holds of the calls on directories that are opened to be flushed, all of
    them as `D` says, and of the steps on the queue of them. -/
structure Flushes (T : (α : Type) → P α → Prop) (D : Path → Prop) : Prop extends Composes T where
  spin : ∀ {α : Type}, T α .spin
  read : ∀ {α : Type} {f : Memory → P α}, (∀ m, (∀ dir ∈ m.dirs, D dir) → T α (f m)) → T α (Program.get >>= f)
  open_dir : ∀ dir, D dir → T _ (perform (.open_dir dir))
  fstat : ∀ fd, T _ (perform (.fstat fd))
  fsync : ∀ fd, T _ (perform (.fsync fd))
  close : ∀ fd, T _ (perform (.close fd))
  failed : ∀ name e known, T _ (dir_failed name e known)
  emptied : T _ (modify fun m => { m with dirs := [] })
  queued : ∀ dir, D dir → T _ (modify fun m => { m with dirs := m.dirs ++ [dir] })

theorem Composes.sync_one (composes : Composes T) (spin : T (Option Errno) .spin) {fd : Fd} (fsync : T _ (perform (.fsync fd))) (dir : Bool) :
    ∀ fuel, T _ (Flush.sync_one fuel fd dir) := by
  intro fuel
  induction fuel with
  | zero => exact spin
  | succ fuel ih =>
    exact composes.attempt fsync (fun _ => composes.choose ih (composes.pure _)) fun _ => composes.pure _

namespace Flushes
variable {D : Path → Prop} {dir : Path} (flushes : Flushes T D)
include flushes

theorem sync_one (fd : Fd) (dir : Bool) (fuel : Nat) : T _ (sync_one fuel fd dir) :=
  flushes.toComposes.sync_one flushes.spin (flushes.fsync fd) dir fuel

theorem flush_fds (fuel : Nat) (dir : Bool) : ∀ fds, T _ (flush_fds fuel dir fds) := by
  intro fds
  induction fds with
  | nil => exact flushes.pure _
  | cons fd fds ih => exact flushes.bind (flushes.sync_one fd dir fuel) fun _ => flushes.bind ih fun _ => flushes.pure _

theorem flush_dir (fuel : Nat) (here : D dir) : T _ (flush_dir fuel dir) := by
  refine flushes.attempt (flushes.open_dir dir here) (fun _ => flushes.pure _) fun fd => ?_
  refine flushes.bind (flushes.sync_one fd true fuel) fun err => flushes.bind (flushes.close fd) fun _ => ?_
  cases err with
  | none => exact flushes.pure _
  | some e => exact flushes.pure _

theorem openDirs : ∀ dirs opened, (∀ dir ∈ dirs, D dir) → T _ (openDirs dirs opened) := by
  intro dirs
  induction dirs with
  | nil => exact fun _ _ => flushes.pure _
  | cons dir dirs ih =>
    intro opened all
    have later : ∀ opened, T _ (Flush.openDirs dirs opened) := fun opened => ih opened fun d here => all d (List.mem_cons_of_mem _ here)
    refine flushes.attempt (flushes.open_dir dir (all dir List.mem_cons_self)) (fun e => ?_) fun fd => ?_
    · exact flushes.choose (flushes.bind (flushes.failed _ _ _) fun _ => later _) (later _)
    · exact flushes.attempt (flushes.fstat fd) (fun _ => later _) fun _ =>
        flushes.choose (flushes.bind (flushes.close fd) fun _ => later _) (later _)

theorem closeDirs : ∀ opened, T _ (closeDirs opened) := by
  intro opened
  induction opened with
  | nil => exact flushes.pure _
  | cons x opened ih =>
    obtain ⟨o,err⟩ := x
    cases err with
    | none => exact flushes.bind (flushes.close _) fun _ => ih
    | some e => exact flushes.bind (flushes.failed _ _ _) fun _ => flushes.bind (flushes.close _) fun _ => ih

theorem flush_set_run (fuel : Nat) : T _ (flush_set_run fuel) :=
  flushes.read fun _ all => flushes.bind (flushes.openDirs _ _ all) fun _ => flushes.bind flushes.emptied fun _ =>
    flushes.bind (flushes.flush_fds _ _ _) fun _ => flushes.closeDirs _

theorem addDir (fuel : Nat) (here : D dir) : T _ (addDir fuel dir) :=
  flushes.attempt flushes.alloc
    (fun _ => flushes.attempt (flushes.flush_dir _ here) (fun _ => flushes.failed _ _ _) fun _ => flushes.pure _)
    fun _ => flushes.queued dir here

theorem flush_set_add (fuel : Nat) (here : D dir) : T _ (flush_set_add fuel dir) :=
  flushes.bind flushes.get fun _ => flushes.choose (flushes.pure _)
    (flushes.choose (flushes.bind (flushes.flush_set_run _) fun _ => flushes.addDir _ here) (flushes.addDir _ here))

end Flushes

namespace Composes
variable (composes : Composes T)
include composes

theorem failedLoop {dir : Path} (stat : T _ (perform (.stat dir))) : ∀ failures stated, T _ (failedLoop dir failures stated) := by
  intro failures
  induction failures with
  | nil => exact fun _ => composes.pure _
  | cons f failures ih =>
    intro stated
    unfold Flush.failedLoop
    refine composes.choose (composes.pure _) ?_
    split
    · exact ih _
    · exact composes.choose (composes.pure _) (ih _)
    · exact composes.attempt stat (fun _ => composes.pure _) fun st => composes.choose (composes.pure _) (ih _)

theorem flush_set_failed {dir : Path} (stat : T _ (perform (.stat dir))) : T _ (flush_set_failed dir) :=
  composes.bind composes.get fun _ => composes.choose (composes.pure _) (composes.failedLoop stat _ _)

/-! ## Parents -/

theorem makeParent (fuel : Nat) {buf : Path} (mkdir : T _ (perform (.mkdir buf))) (stat : T _ (perform (.stat buf)))
    (added : ∀ dir, T _ (flush_set_add fuel dir)) : T _ (makeParent fuel buf) :=
  composes.attempt mkdir
    (fun _ => composes.choose (composes.attempt stat (fun _ => composes.pure _) fun _ => composes.pure _) (composes.pure _))
    fun _ => composes.attempt (composes.path_dir buf) (fun _ => composes.pure _) fun parent =>
      composes.bind (added parent) fun _ => composes.pure _

theorem path_make_parents (fuel : Nat) (path : Path) (parent : ∀ buf, T _ (Flush.makeParent fuel buf)) :
    T _ (path_make_parents fuel path) := by
  have loop : ∀ buf behind, T _ (parentsLoop fuel buf behind) := by
    intro buf behind
    induction behind with
    | zero => exact parent buf
    | succ behind ih =>
      rw [parentsLoop]
      exact composes.choose (composes.attempt (parent _) (fun _ => composes.pure _) fun _ => ih) ih
  refine composes.attempt composes.alloc (fun _ => composes.pure _) fun _ => ?_
  dsimp only
  split
  · exact composes.pure _
  · exact composes.choose (composes.pure _) (loop _ _)

end Composes

/-! ## Naming -/

/-- A property that holds of the calls that give an operand its name as well. -/
structure Naming (T : (α : Type) → P α → Prop) (D : Path → Prop) : Prop extends Handles T, Flushes T D where
  rename : ∀ src dst, T _ (perform (.rename src dst))
  exchange : ∀ a b, T _ (perform (.rename_exchange a b))
  linkat : ∀ fd name, T _ (perform (.linkat fd name))
  hold : ∀ old, T _ (modify fun m => { m with spare_mask := old, spare_held := true })
  unhold : T _ (modify fun m => { m with spare_held := false })
  told : ∀ path, T _ (tell (.named path))

namespace Naming
variable {D : Path → Prop} {dir : Path} (naming : Naming T D)
include naming

theorem op_failed (op : Op) (slot : Nat) (what : String) (e : Errno) : T _ (op_fail op slot what e) :=
  naming.op_fail op slot what e naming.close

theorem renameOver (op : Op) (slot : Nat) (tmp : Str) : T _ (renameOver op slot tmp) :=
  naming.attempt (naming.place_rename slot (naming.rename _ _))
    (fun _ => naming.bind (naming.pending_remove _) fun _ => naming.bind (naming.op_failed _ _ _ _) fun _ => naming.pure _)
    fun _ => naming.bind (naming.free _) fun _ => naming.pure _

theorem replaceBy (fuel : Nat) (op : Op) (slot : Nat) (here : D dir) (tmp : Str) (cannot : Bool) :
    T _ (replaceBy fuel op slot dir tmp cannot) := by
  rw [Batch.replaceBy]
  split
  · exact naming.attempt (naming.flush_dir fuel here)
      (fun _ => naming.bind (naming.pending_remove _) fun _ => naming.bind (naming.op_failed _ _ _ _) fun _ => naming.pure _)
      fun _ => naming.renameOver op slot tmp
  · exact naming.renameOver op slot tmp

theorem replaceKeeping (fuel : Nat) (op : Op) (slot : Nat) (here : D dir) (tmp : Str) (old : Stat) :
    T _ (replaceKeeping fuel op slot dir tmp old) := by
  have released : ∀ held, T _ (releaseSpare held) := fun held =>
    naming.choose (naming.pure _) (naming.bind naming.unhold fun _ => naming.bind naming.get fun _ => naming.release _)
  refine naming.bind naming.get fun m => naming.bind (naming.choose (naming.pure _)
    (naming.bind naming.pending_hold fun _ => naming.hold _)) fun _ => ?_
  refine naming.attempt (naming.place_exchange slot old (naming.exchange _ _)) (fun e => ?_) fun how => ?_
  · exact naming.bind (released _) fun _ => naming.bind (naming.pending_remove _) fun _ =>
      naming.bind (naming.op_failed _ _ _ _) fun _ => naming.pure _
  · cases how with
    | done => exact naming.pure _
    | cannot => exact naming.bind (released _) fun _ => naming.replaceBy fuel _ slot here tmp true

theorem replace_one (fuel : Nat) {op : Op} (slot : Nat) {spec : FileSpec} (here : D dir)
    (made : T _ (backup_make fuel op.path.text spec.backup_control)) : T _ (replace_one fuel op slot dir spec) := by
  rw [Batch.replace_one]
  split
  · exact naming.pure _
  · refine naming.choose (naming.attempt made (fun _ => naming.bind (naming.op_failed _ _ _ _) fun _ => naming.pure _) fun made => ?_)
      (naming.replaceBy _ _ _ here _ _)
    cases made with
    | some made => exact naming.replaceKeeping _ _ _ here _ _
    | none => exact naming.replaceBy _ _ _ here _ _

theorem named (fuel : Nat) (op : Op) (slot : Nat) (here : D dir) : T _ (named fuel op slot dir) := by
  have queued : T _ (named.queued fuel op dir) :=
    naming.bind (naming.told _) fun _ => naming.bind (naming.flush_set_add _ here) fun _ => naming.pure _
  exact naming.choose (naming.bind (naming.clear _) fun _ => queued) queued

theorem nameForced (fuel : Nat) {op : Op} (slot : Nat) {spec : FileSpec} (here : D dir)
    (made : T _ (backup_make fuel op.path.text spec.backup_control)) : T _ (nameForced fuel op slot dir spec) := by
  refine naming.bind (naming.replace_one fuel slot here made) fun r => ?_
  obtain ⟨op',replaced⟩ := r
  cases replaced with
  | true => exact naming.named _ _ _ here
  | false => exact naming.pure _

/-- The backup is made with `-f`, and without it a name that is taken stays. -/
theorem name_one (fuel : Nat) {op : Op} (slot : Nat) {spec : FileSpec} (here : D (dirText op.path.text))
    (made : spec.force_mode = true → T _ (backup_make fuel op.path.text spec.backup_control))
    (placed : spec.force_mode = false → ∀ tmp, T _ (Place.place_commit tmp op.path.text slot)) :
    T _ (name_one fuel op slot spec) := by
  have failed : ∀ (op : Op) e, T _ (op_fail op slot "cannot create" e) := fun op e => naming.op_failed op slot _ e
  refine naming.choose (naming.pure _) (naming.directory (fun e => failed _ e) ?_)
  dsimp only
  cases force : spec.force_mode with
  | true =>
    rw [if_pos rfl]
    split
    · exact naming.attempt (naming.place_temp_link slot (naming.fstat _) (naming.linkat _)) (fun e => failed _ e) fun _ =>
        naming.nameForced fuel slot here (made force)
    · exact naming.nameForced fuel slot here (made force)
  | false =>
    rw [if_neg (by simp)]
    split
    · exact naming.attempt (naming.linkat _ _) (fun e => failed _ e) fun _ => naming.named _ _ _ here
    · refine naming.attempt (placed force _) (fun e => failed _ e) fun kept => ?_
      cases kept with
      | true => exact naming.named _ _ _ here
      | false => exact naming.bind (naming.free _) fun _ => naming.named _ _ _ here
    · exact naming.named _ _ _ here

end Naming

/-! ## Plain calls and steps -/

section
variable {C : Call → Prop} {R : Memory → Memory → Prop}

theorem composes_uses (same : ∀ m, R m m) (alloc : C .alloc) : Composes fun _ p => uses C R p where
  pure _ := uses_pure _
  bind := uses_bind
  get := uses_get same
  alloc := uses_sys alloc

/-- The tables of the program and what was told of the operands are as before. -/
structure Tables (m m' : Memory) : Prop where
  dirs : m'.dirs = m.dirs
  dirs_max : m'.dirs_max = m.dirs_max
  dirs_nfailed : m'.dirs_nfailed = m.dirs_nfailed
  failures : m'.failures = m.failures
  failures_lost : m'.failures_lost = m.failures_lost
  probes : m'.probes = m.probes
  backups : m'.backups = m.backups
  told : m'.told = m.told

/-- The calls that look at a name or remove it, and those that make none. -/
def handling : Call → Bool
  | .alloc | .lstat _ | .unlink _ | .getentropy _ => true
  | _ => false

theorem handles_uses (calls : ∀ {c}, handling c = true → C c) (steps : ∀ {m m'}, Tables m m' → R m m') :
    Handles fun _ p => uses C R p where
  toComposes := composes_uses (fun _ => steps ⟨rfl,rfl,rfl,rfl,rfl,rfl,rfl,rfl⟩) (calls rfl)
  heap := uses_modify fun _ => steps ⟨rfl,rfl,rfl,rfl,rfl,rfl,rfl,rfl⟩
  counter := uses_modify fun _ => steps ⟨rfl,rfl,rfl,rfl,rfl,rfl,rfl,rfl⟩
  free _ := uses_modify fun _ => steps ⟨rfl,rfl,rfl,rfl,rfl,rfl,rfl,rfl⟩
  say _ := uses_modify fun _ => steps ⟨rfl,rfl,rfl,rfl,rfl,rfl,rfl,rfl⟩
  block := uses_modify fun _ => steps ⟨rfl,rfl,rfl,rfl,rfl,rfl,rfl,rfl⟩
  release _ := uses_modify fun _ => steps ⟨rfl,rfl,rfl,rfl,rfl,rfl,rfl,rfl⟩
  arm _ _ _ := uses_modify fun _ => steps ⟨rfl,rfl,rfl,rfl,rfl,rfl,rfl,rfl⟩
  retarget _ _ := uses_modify fun _ => steps ⟨rfl,rfl,rfl,rfl,rfl,rfl,rfl,rfl⟩
  clear _ := uses_modify fun _ => steps ⟨rfl,rfl,rfl,rfl,rfl,rfl,rfl,rfl⟩
  lstat _ := uses_sys (calls rfl)
  unlink _ := uses_sys (calls rfl)
  entropy _ := uses_sys (calls rfl)

end

end Newfile.Walks
