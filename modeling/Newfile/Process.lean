import Newfile.Posix

/-!
The memory of the program: the static variables of its modules, the strings that
it has allocated, the signal mask, and what it has printed.
-/
namespace Newfile.Process
open Newfile.Program Newfile.Posix

/-- A string in memory. Those of the command line are in no block of the heap. -/
structure Str where
  text : Path
  block : Option Nat
  deriving DecidableEq, Repr

/-- `struct pending_name`; `ino` stands for `dev` and `ino`. -/
structure PendingName where
  path : Option Str
  ino : Ino
  deriving DecidableEq, Repr

/-- `struct dir_failure`, with the device and inode when they are known. -/
structure DirFailure where
  name : Path
  known : Option Ino
  deriving DecidableEq, Repr

/-- `struct probe_entry`. -/
structure ProbeEntry where
  dir : Path
  granted : Mode
  deriving DecidableEq, Repr

/-- `struct backup_entry`. -/
structure BackupEntry where
  base : Path
  digits : List Char
  deriving DecidableEq, Repr

/-- `struct backup_dir`. -/
structure BackupDir where
  dir : Path
  entries : List BackupEntry
  deriving DecidableEq, Repr

/-- What is printed. An error number stands for its text. -/
inductive Message where
  /-- `cannot remove '%s': %s` -/
  | cannot_remove (path : Path) (e : Errno)
  /-- `kept '%s': it now holds a different file` -/
  | kept (path : Path)
  /-- `warning: kept '%s', the old '%s'` -/
  | kept_old (spare path : Path)
  /-- `warning: cannot remove '%s': %s` -/
  | cannot_remove_spool (path : Path) (e : Errno)
  /-- `cannot flush directory '%s': %s` -/
  | cannot_flush (dir : Path) (e : Errno)
  /-- `%s '%s': %s`, of an operand that failed -/
  | failed (what : String) (path : Path) (e : Errno)
  /-- `created '%s'`, and `(backup: '%s')` when there is one -/
  | created (path : Path) (backup : Option Path)
  deriving DecidableEq, Repr

/-- How the operands have fared: which were named, whose old file was about to be
    removed, and what `report_one` was told of each, its failure and whether a
    temporary name was left behind. -/
inductive Told where
  | named (path : Path)
  | dropping (path : Path)
  | report (path : Path) (fail : Option String) (leftover : Bool)
  deriving DecidableEq, Repr

structure Memory where
  /-- Whether all signals are blocked. -/
  blocked : Bool := false
  pending : Nat → PendingName := fun _ => ⟨none,0⟩
  spare_mask : Bool := false
  spare_held : Bool := false
  dirs : List Path := []
  dirs_max : Nat := 1
  dirs_nfailed : Nat := 0
  failures : List DirFailure := []
  failures_lost : Bool := false
  probes : List ProbeEntry := []
  backups : List BackupDir := []
  counter : Nat := 0
  proc_usable : Option Bool := none
  /-- The file size limit, once it is known. -/
  size_limit : Option (Option Nat) := none
  /-- The blocks from here on have not been handed out. -/
  heap : Nat := 0
  freed : List Nat := []
  /-- The latest message first. -/
  log : List Message := []
  /-- Not a variable of the program: it keeps what a run has come to, the latest first. -/
  told : List Told := []
  pid : Nat := 0

/-- The programs of this development. -/
abbrev P := Prog posix Memory

def perform (c : Call) : P (Except Errno c.Val) := @sys posix Memory c

/-- `error_print`, and `printf` in `report_one`. -/
def say (msg : Message) : P Unit := modify fun m => { m with log := msg :: m.log }

/-- An allocation of which only the failure matters. -/
def allocate : P (Except Errno Unit) := perform .alloc

/-- An allocated string. -/
def newStr (text : Path) : P (Except Errno Str) := do
  match ← perform .alloc with
  | .error e => return .error e
  | .ok () =>
    let m ← get
    modify fun m => { m with heap := m.heap+1 }
    return .ok ⟨text,some m.heap⟩

def free (s : Str) : P Unit :=
  modify fun m => { m with freed := s.block.toList ++ m.freed }

def tell (t : Told) : P Unit := modify fun m => { m with told := t :: m.told }

def NEWFILE_BATCH : Nat := 64

end Newfile.Process
