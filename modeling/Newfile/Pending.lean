import Newfile.Process

/-!
`pending.c`: the names that a run has made and not committed, and the handler
that removes them.
-/
namespace Newfile.Pending
open Newfile.Program Newfile.Posix Newfile.Process

def PENDING_BACKUP : Nat := NEWFILE_BATCH
def PENDING_SLOTS : Nat := NEWFILE_BATCH+1

/-- What `remove_ours` returns: 0, 1 when the path holds another file, or -1. -/
inductive Removal where
  | gone
  | other
  | failed (e : Errno)
  deriving DecidableEq, Repr

def remove_ours (path : Path) (ino : Ino) : P Removal := do
  match ← perform (.lstat path) with
  | .error e => return if e = .ENOENT then .gone else .failed e
  | .ok st =>
    if st.ino ≠ ino then return .other
    else
      match ← perform (.unlink path) with
      | .ok () => return .gone
      | .error e => return if e = .ENOENT then .gone else .failed e

/-- The loop of `cleanup_handler` from a slot on, with `n` slots to go. -/
def cleanupFrom : Nat → Nat → P Unit
  | 0, _ => pure ()
  | n+1, i => do
    let m ← get
    match (m.pending i).path with
    | some path =>
      let _ ← remove_ours path.text (m.pending i).ino
      cleanupFrom n (i+1)
    | none => cleanupFrom n (i+1)

/-- `cleanup_handler`, up to the signal that it raises against its own process. -/
def cleanup_handler : P Unit := cleanupFrom PENDING_SLOTS 0

/-- The old mask is returned. -/
def pending_hold : P Bool := do
  let m ← get
  modify fun m => { m with blocked := true }
  return m.blocked

def pending_release (old : Bool) : P Unit := modify fun m => { m with blocked := old }

def Memory.setPending (m : Memory) (slot : Nat) (p : PendingName) : Memory :=
  { m with pending := fun i => if i = slot then p else m.pending i }

def pending_arm (slot : Nat) (path : Str) (ino : Ino) : P Unit := modify fun m => Memory.setPending m slot ⟨some path,ino⟩

def pending_retarget (slot : Nat) (ino : Ino) : P Unit :=
  modify fun m => Memory.setPending m slot ⟨(m.pending slot).path,ino⟩

def pending_clear (slot : Nat) : P Unit :=
  modify fun m => Memory.setPending m slot ⟨none,(m.pending slot).ino⟩

/-- Whether nothing was left behind. -/
def pending_remove (slot : Nat) : P Bool := do
  let m ← get
  match (m.pending slot).path with
  | none => return true
  | some path =>
    match ← remove_ours path.text (m.pending slot).ino with
    | .gone =>
      pending_clear slot
      return true
    | .other =>
      say (.kept path.text)
      pending_clear slot
      return false
    | .failed e =>
      say (.cannot_remove path.text e)
      pending_clear slot
      return false

def pending_unlink (path : Path) (ino : Ino) : P Removal := remove_ours path ino

end Newfile.Pending
