import Newfile.Fastio
import Newfile.Flush
import Newfile.Pending

/-!
`place.c`: how a file comes to hold its name.
-/
namespace Newfile.Place
open Newfile.Program Newfile.Posix Newfile.Process Newfile.Pending Newfile.Fastio Newfile.Flush

def TEMP_STEM : Path := ".newfile.".toList
def TEMP_RAND : Nat := 6
def TEMP_TRIES : Nat := 100
def SEED_PID_SHIFT : Nat := 16
def LCG_MUL : Nat := 1103515245
def LCG_INC : Nat := 12345
def LCG_OUT_SHIFT : Nat := 16

/-- The descriptor and its `fstat`. -/
def create_excl (path : Path) (mode : Mode) : P (Except Errno (Fd × Stat)) := do
  match ← perform (.open_excl path mode) with
  | .error e => return .error e
  | .ok fd =>
    match ← perform (.fstat fd) with
    | .ok st => return .ok (fd,st)
    | .error e =>
      let _ ← perform (.close fd)
      let _ ← perform (.unlink path)
      return .error e

def tempChars : List Char := "ABCDEFGHIJKLMNOPQRSTUVWXYZabcdefghijklmnopqrstuvwxyz0123456789".toList

/-- The bytes that are made up when there is no entropy. -/
def lcgBytes : Nat → Nat → List Nat
  | 0, _ => []
  | n+1, seed =>
    let seed := (seed*LCG_MUL+LCG_INC)%2^64
    (seed/2^LCG_OUT_SHIFT)%256 :: lcgBytes n seed

def suffixOf (rnd : List Nat) : List Char := rnd.map fun b => tempChars.getD (b%tempChars.length) 'A'

def temp_fill : P (List Char) := do
  match ← perform (.getentropy TEMP_RAND) with
  | .ok rnd => return suffixOf rnd
  | .error _ =>
    modify fun m => { m with counter := m.counter+1 }
    let m ← get
    return suffixOf (lcgBytes TEMP_RAND (Nat.xor (m.pid*2^SEED_PID_SHIFT%2^64) m.counter))

/-- `struct make_ctx`, as a successful `make` leaves it. -/
structure Made where
  st : Stat
  fd : Option Fd

def make_open (mode : Mode) (name : Path) : P (Except Errno Made) := do
  match ← create_excl name mode with
  | .error e => return .error e
  | .ok (fd,st) => return .ok ⟨st,some fd⟩

def make_fdlink (fd : Fd) (st : Stat) (name : Path) : P (Except Errno Made) := do
  match ← fast_link fd name with
  | .error e => return .error e
  | .ok () => return .ok ⟨st,some fd⟩

def make_link (src : Path) (st : Stat) (name : Path) : P (Except Errno Made) := do
  match ← perform (.link src name) with
  | .error e => return .error e
  | .ok () => return .ok ⟨st,none⟩

/-- One round of the loop of `temp_make`. -/
def tryMake (slot : Nat) (make : Path → P (Except Errno Made)) (name : Str) : P (Except Errno Made) := do
  let old ← pending_hold
  match ← make name.text with
  | .ok made =>
    pending_arm slot name made.st.ino
    pending_release old
    return .ok made
  | .error e =>
    pending_release old
    return .error e

/-- The loop of `temp_make`, with the errno that stands before it. -/
def makeLoop (slot : Nat) (make : Path → P (Except Errno Made)) (front : Path) (block : Option Nat) :
    Nat → Errno → P (Except Errno (Str × Made))
  | 0, e => return .error e
  | tries+1, _ => do
    let suffix ← temp_fill
    let name : Str := ⟨front ++ suffix,block⟩
    match ← tryMake slot make name with
    | .ok made => return .ok (name,made)
    | .error e => if e = .EEXIST then makeLoop slot make front block tries e else return .error e

def temp_make (target : Path) (slot : Nat) (make : Path → P (Except Errno Made)) : P (Except Errno (Str × Made)) := do
  let front := target.take (path_dir_len target) ++ TEMP_STEM
  match ← newStr front with
  | .error e => return .error e
  | .ok name =>
    match ← makeLoop slot make front name.block TEMP_TRIES .EEXIST with
    | .ok made => return .ok made
    | .error e =>
      free name
      return .error e

def place_create (path : Str) (mode : Mode) (slot : Nat) : P (Except Errno Fd) := do
  let old ← pending_hold
  match ← create_excl path.text mode with
  | .ok (fd,st) =>
    pending_arm slot path st.ino
    pending_release old
    return .ok fd
  | .error e =>
    pending_release old
    return .error e

def place_temp (target : Path) (mode : Mode) (slot : Nat) : P (Except Errno (Str × Option Fd)) := do
  match ← temp_make target slot (make_open mode) with
  | .error e => return .error e
  | .ok (name,made) => return .ok (name,made.fd)

def place_temp_link (fd : Fd) (target : Path) (slot : Nat) : P (Except Errno Str) := do
  match ← perform (.fstat fd) with
  | .error e => return .error e
  | .ok st =>
    match ← temp_make target slot (make_fdlink fd st) with
    | .error e => return .error e
    | .ok (name,_) => return .ok name

def place_temp_alias (src : Path) (st : Stat) (slot : Nat) : P (Except Errno Str) := do
  match ← temp_make src slot (make_link src st) with
  | .error e => return .error e
  | .ok (name,_) => return .ok name

def place_over (tmp target : Path) (slot : Nat) : P (Except Errno Unit) := do
  let old ← pending_hold
  match ← create_excl target 0o600 with
  | .error e =>
    pending_release old
    return .error e
  | .ok (fd,st) =>
    let _ ← perform (.close fd)
    match ← perform (.rename tmp target) with
    | .ok () =>
      pending_clear slot
      pending_release old
      return .ok ()
    | .error e =>
      match ← pending_unlink target st.ino with
      | .failed e' =>
        say (.cannot_remove target e')
        pending_release old
        return .error e
      | _ =>
        pending_release old
        return .error e

/-- Whether `tmp` still names the file. -/
def place_commit (tmp target : Path) (slot : Nat) : P (Except Errno Bool) := do
  match ← fast_rename_noreplace tmp target with
  | .error e => return .error e
  | .ok .done =>
    pending_clear slot
    return .ok false
  | .ok .cannot =>
    match ← perform (.link tmp target) with
    | .ok () => return .ok true
    | .error e =>
      if e ≠ .EPERM ∧ e ≠ .EOPNOTSUPP ∧ e ≠ .ENOSYS ∧ e ≠ .EINVAL then return .error e
      else
        match ← place_over tmp target slot with
        | .error e => return .error e
        | .ok () => return .ok false

def place_rename (tmp target : Path) (slot : Nat) : P (Except Errno Unit) := do
  let old ← pending_hold
  match ← perform (.rename tmp target) with
  | .ok () =>
    pending_clear slot
    pending_clear PENDING_BACKUP
    pending_release old
    return .ok ()
  | .error e =>
    pending_release old
    return .error e

def place_exchange (tmp target : Path) (slot : Nat) (old_st : Stat) : P (Except Errno Fast) := do
  let old ← pending_hold
  match ← fast_exchange tmp target with
  | .ok .done =>
    pending_retarget slot old_st.ino
    pending_clear PENDING_BACKUP
    pending_release old
    return .ok .done
  | .ok .cannot =>
    pending_release old
    return .ok .cannot
  | .error e =>
    pending_release old
    return .error e

/-- The mode granted, and whether the probe file is left behind. -/
def place_probe_mode (target : Path) (mode : Mode) (slot : Nat) : P (Except Errno (Mode × Bool)) := do
  match ← path_dir target with
  | .error e => return .error e
  | .ok dir =>
    let m ← get
    match m.probes.find? fun p => p.dir = dir with
    | some p => return .ok (p.granted,false)
    | none =>
      match ← temp_make target slot (make_open mode) with
      | .error e => return .error e
      | .ok (name,made) =>
        let ret ← closeMade made
        let removed ← pending_remove slot
        free name
        match ret with
        | .error e => return .error e
        | .ok () =>
          modify fun m =>
            if m.probes.length < NEWFILE_BATCH then { m with probes := m.probes ++ [⟨dir,made.st.mode⟩] } else m
          return .ok (made.st.mode,!removed)
where
  closeMade (made : Made) : P (Except Errno Unit) :=
    match made.fd with
    | some fd => perform (.close fd)
    | none => return .ok ()

def place_probe_reset : P Unit := modify fun m => { m with probes := [] }

end Newfile.Place
