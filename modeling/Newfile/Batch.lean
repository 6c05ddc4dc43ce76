import Newfile.Backup
import Newfile.Template

/-!
`batch.c`: build, flush, name and report the operands, a batch at a time.
-/
namespace Newfile.Batch
open Newfile.Program Newfile.Posix Newfile.Process Newfile.Pending Newfile.Fastio Newfile.Flush Newfile.Place
open Newfile.Backup Newfile.Template

def FD_RESERVE : Nat := 16

/-- `struct file_spec`, as far as a batch reads it. -/
structure FileSpec where
  size : Nat := 0
  tmpl : Option Tmpl := none
  backup_control : String := "existing"
  mode : Mode := 0o666
  uid : Nat := 0
  gid : Nat := 0
  verbose : Bool := false
  absolute_given : Bool := false
  force_mode : Bool := false
  parents_mode : Bool := false
  sparse_mode : Bool := false
  size_given : Bool := false
  backup_given : Bool := false
  set_owner : Bool := false
  set_uid : Bool := false
  set_gid : Bool := false
  uid_changes : Bool := false

inductive Way where
  | WAY_PLAIN
  | WAY_UNNAMED
  | WAY_TEMP
  deriving DecidableEq, Repr

/-- `struct op`. -/
structure Op where
  path : Str
  tmppath : Option Str := none
  backup_name : Option Str := none
  spare : Option Str := none
  fail : Option String := none
  err : Errno := .other 0
  fd : Option Fd := none
  way : Way := .WAY_PLAIN
  leftover : Bool := false
  deriving DecidableEq, Repr

def batch_size : P Nat := do
  match ← perform .getrlimit_nofile with
  | .error _ => return NEWFILE_BATCH
  | .ok none => return NEWFILE_BATCH
  | .ok (some cur) =>
    if 2*NEWFILE_BATCH+FD_RESERVE ≤ cur then return NEWFILE_BATCH
    else
      let room := if FD_RESERVE < cur then (cur-FD_RESERVE)/2 else 0
      return if 0 < room then room else 1

def closeOp (op : Op) : P Op := do
  match op.fd with
  | some fd =>
    let _ ← perform (.close fd)
    return { op with fd := none }
  | none => return op

def freeTmp (op : Op) : P Op := do
  match op.tmppath with
  | some tmppath =>
    free tmppath
    return { op with tmppath := none }
  | none => return op

def op_fail (op : Op) (slot : Nat) (what : String) (e : Errno) : P Op := do
  let op ← closeOp { op with fail := some what, err := e }
  if op.spare.isNone then
    let _ ← pending_remove slot
    freeTmp op
  else freeTmp op

/-! ## Building -/

/-- The final mode of a file made beside others of the mode `granted`. -/
def finalMode (spec : FileSpec) (granted : Mode) : Mode :=
  if spec.absolute_given then spec.mode else (granted &&& 0o777) ||| (spec.mode &&& 0o7000)

/-- `WAY_TEMP` in `open_built`, once the mode that new files get is known. -/
def openTemp (op : Op) (slot : Nat) (granted : Mode) : P (Op × Option Mode) := do
  match ← place_temp op.path.text 0o600 slot with
  | .ok (tmppath,fd) => return ({ op with tmppath := some tmppath, fd },some granted)
  | .error e =>
    let op ← op_fail op slot "cannot create" e
    return (op,none)

/-- The mode that a new file gets, unless the operand failed. -/
def open_built (op : Op) (slot : Nat) (spec : FileSpec) : P (Op × Option Mode) := do
  let open_mode := if spec.absolute_given then 0o600 else spec.mode
  match ← path_dir op.path.text with
  | .error e =>
    let op ← op_fail op slot "cannot create" e
    return (op,none)
  | .ok dir =>
    match ← fast_tmpfile dir open_mode with
    | .error e =>
      let op ← op_fail op slot "cannot create" e
      return (op,none)
    | .ok (some fd) =>
      let op := { op with fd := some fd, way := .WAY_UNNAMED }
      match ← perform (.fstat fd) with
      | .ok st => return (op,some st.mode)
      | .error e =>
        let op ← op_fail op slot "cannot create" e
        return (op,none)
    | .ok none =>
      let op := { op with way := .WAY_TEMP }
      if spec.absolute_given then openTemp op slot spec.mode
      else
        match ← place_probe_mode op.path.text open_mode slot with
        | .error e =>
          let op ← op_fail op slot "cannot create" e
          return (op,none)
        | .ok (granted,left) => openTemp (if left then { op with leftover := true } else op) slot granted

def apply_size (fuel : Nat) (fd : Fd) (target : Nat) (sparse tail_hole filled : Bool) : P (Except Errno Unit) := do
  if filled then
    match ← perform (.fstat fd) with
    | .error e => return .error e
    | .ok st => sized st.size
  else sized 0
where
  sized (size : Nat) : P (Except Errno Unit) := do
    if target ≤ size ∨ sparse ∨ tail_hole then perform (.ftruncate fd target)
    else io_fill fuel fd size (target-size)

/-- The step that failed, 1 or 2. -/
def fill_one (fuel : Nat) (fd : Fd) (spec : FileSpec) : P (Except (Nat × Errno) Unit) := do
  match spec.tmpl with
  | some tmpl =>
    match ← tmpl_apply fuel tmpl fd with
    | .error e => return .error (1,e)
    | .ok () => sized
  | none => sized
where
  sized : P (Except (Nat × Errno) Unit) := do
    if spec.size_given then
      match ← apply_size fuel fd spec.size spec.sparse_mode (tmpl_tail_hole spec.tmpl) spec.tmpl.isSome with
      | .error e => return .error (2,e)
      | .ok () => return .ok ()
    else return .ok ()

/-- `finish_built` from the `fchmod` on. -/
def setMode (op : Op) (slot : Nat) (fd : Fd) (content : Bool) (final_mode : Mode) : P Op := do
  match ← perform (.fchmod fd final_mode) with
  | .error e => op_fail op slot "cannot set permissions of" e
  | .ok () =>
    if content then
      fast_writeback fd
      return op
    else return op

/-- `finish_built` from `fill_one` on. -/
def fillBuilt (fuel : Nat) (op : Op) (slot : Nat) (spec : FileSpec) (fd : Fd) (content : Bool) (final_mode : Mode) :
    P Op := do
  match ← fill_one fuel fd spec with
  | .error (step,e) => op_fail op slot (if step = 1 then "cannot copy template to" else "cannot set size of") e
  | .ok () =>
    if spec.set_owner then
      match ← perform (.fchown fd (if spec.set_uid then some spec.uid else none)
        (if spec.set_gid then some spec.gid else none)) with
      | .error e => op_fail op slot "cannot change ownership of" e
      | .ok () => setMode op slot fd content final_mode
    else setMode op slot fd content final_mode

def finish_built (fuel : Nat) (op : Op) (slot : Nat) (spec : FileSpec) (content : Bool) (granted : Mode) : P Op := do
  match op.fd with
  | none => return op
  | some fd =>
    if op.way = .WAY_UNNAMED ∧ spec.uid_changes then
      match ← perform (.fchmod fd 0o600) with
      | .error e => op_fail op slot "cannot set permissions of" e
      | .ok () =>
        match ← place_temp_link fd op.path.text slot with
        | .error e => op_fail op slot "cannot create" e
        | .ok tmppath =>
          fillBuilt fuel { op with tmppath := some tmppath, way := .WAY_TEMP } slot spec fd content
            (finalMode spec granted)
    else fillBuilt fuel op slot spec fd content (finalMode spec granted)

/-- `build_one` from the choice of the way on. -/
def buildFile (fuel : Nat) (op : Op) (slot : Nat) (spec : FileSpec) (content : Bool) : P Op := do
  match ← open_built op slot spec with
  | (op,some granted) => finish_built fuel op slot spec content granted
  | (op,none) => return op

/-- `build_one` once the directories of the path are there. -/
def buildIn (fuel : Nat) (op : Op) (slot : Nat) (spec : FileSpec) : P Op := do
  let content := spec.tmpl.isSome || spec.size_given
  if !content ∧ !spec.set_owner ∧ !spec.absolute_given ∧ !spec.force_mode then
    match ← place_create op.path spec.mode slot with
    | .ok fd => return { op with fd := some fd }
    | .error e => op_fail op slot "cannot create" e
  else if content ∧ !spec.force_mode then
    match ← perform (.lstat op.path.text) with
    | .ok _ => op_fail op slot "cannot create" .EEXIST
    | .error _ => buildFile fuel op slot spec content
  else buildFile fuel op slot spec content

def build_one (fuel : Nat) (path : Path) (slot : Nat) (spec : FileSpec) : P Op := do
  let op : Op := { path := ⟨path,none⟩ }
  if path = [] ∨ path.getLast? = some '/' then
    op_fail op slot "cannot create" (if path = [] then .ENOENT else .EISDIR)
  else if spec.parents_mode then
    match ← path_make_parents fuel path with
    | .error e => op_fail op slot "cannot create parent directories for" e
    | .ok () => buildIn fuel op slot spec
  else buildIn fuel op slot spec

/-! ## Flushing -/

/-- The array of operands. -/
abbrev Ops := Nat → Op

def Ops.set (ops : Ops) (i : Nat) (op : Op) : Ops := fun j => if j = i then op else ops j

/-- The operands to flush among the first `n`, with their descriptors. -/
def flushable (ops : Ops) (n : Nat) : List (Nat × Fd) :=
  (List.range n).filterMap fun i => if (ops i).fail.isNone then (ops i).fd.map fun fd => (i,fd) else none

/-- The last loop of `flush_ops`. -/
def failFlushed : List (Nat × Option Errno) → Ops → P (Ops × List Nat)
  | [], ops => return (ops,[])
  | (i,some e) :: rest, ops => do
    let op ← op_fail (ops i) i "cannot flush" e
    failFlushed rest (ops.set i op)
  | (i,none) :: rest, ops => do
    let (ops,kept) ← failFlushed rest ops
    return (ops,i :: kept)

/-- The operands that were flushed. -/
def flush_ops (fuel : Nat) (ops : Ops) (n : Nat) : P (Ops × List Nat) := do
  let idx := flushable ops n
  let errs ← flush_fds fuel false (idx.map (·.2))
  failFlushed ((idx.map (·.1)).zip errs) ops

/-- Whether the descriptor was closed without an error. -/
def close_op (op : Op) (slot : Nat) (what : String) : P (Op × Bool) := do
  match op.fd with
  | none => return (op,true)
  | some fd =>
    match ← perform (.close fd) with
    | .error e =>
      let op ← op_fail { op with fd := none } slot what e
      return (op,false)
    | .ok () => return ({ op with fd := none },true)

/-- The loop of `flush_batch`. -/
def closePlain : List Nat → Ops → P Ops
  | [], ops => return ops
  | i :: idx, ops => do
    if (ops i).way = .WAY_PLAIN then
      let (op,_) ← close_op (ops i) i "cannot write"
      closePlain idx (ops.set i op)
    else closePlain idx ops

def flush_batch (fuel : Nat) (ops : Ops) (n : Nat) : P Ops := do
  let (ops,idx) ← flush_ops fuel ops n
  closePlain idx ops

/-! ## Naming -/

/-- The end of `replace_one`, from `place_rename` on. -/
def renameOver (op : Op) (slot : Nat) (tmp : Str) : P (Op × Bool) := do
  match ← place_rename tmp.text op.path.text slot with
  | .error e =>
    let _ ← pending_remove PENDING_BACKUP
    let op ← op_fail op slot "cannot replace" e
    return (op,false)
  | .ok () =>
    free tmp
    return ({ op with tmppath := none },true)

/-- `replace_one` with what `place_exchange` said of an attempt. -/
def replaceBy (fuel : Nat) (op : Op) (slot : Nat) (dir : Path) (tmp : Str) (cannot : Bool) : P (Op × Bool) := do
  let flushed ← if cannot then flush_dir fuel dir else pure (.ok ())
  match flushed with
  | .error e =>
    let _ ← pending_remove PENDING_BACKUP
    let op ← op_fail op slot "cannot back up" e
    return (op,false)
  | .ok () => renameOver op slot tmp

/-- Signals stay blocked while a spare is held. -/
def holdSpare (held : Bool) : P Unit := do
  if held then pure ()
  else
    let old ← pending_hold
    modify fun m => { m with spare_mask := old, spare_held := true }

def releaseSpare (held : Bool) : P Unit := do
  if held then pure ()
  else
    modify fun m => { m with spare_held := false }
    let m ← get
    pending_release m.spare_mask

/-- `replace_one` with a backup made. -/
def replaceKeeping (fuel : Nat) (op : Op) (slot : Nat) (dir : Path) (tmp : Str) (old : Stat) : P (Op × Bool) := do
  let m ← get
  let held := m.spare_held
  holdSpare held
  match ← place_exchange tmp.text op.path.text slot old with
  | .ok .done => return ({ op with spare := some tmp, tmppath := none },true)
  | .ok .cannot =>
    releaseSpare held
    replaceBy fuel op slot dir tmp true
  | .error e =>
    releaseSpare held
    let _ ← pending_remove PENDING_BACKUP
    let op ← op_fail op slot "cannot replace" e
    return (op,false)

/-- Whether the operand has got its name. -/
def replace_one (fuel : Nat) (op : Op) (slot : Nat) (dir : Path) (spec : FileSpec) : P (Op × Bool) := do
  match op.tmppath with
  | none => return (op,false)
  | some tmp =>
    if spec.backup_given then
      match ← backup_make fuel op.path.text spec.backup_control with
      | .error e =>
        let op ← op_fail op slot "cannot back up" e
        return (op,false)
      | .ok (some made) =>
        let op := { op with backup_name := some made.name, leftover := op.leftover || made.left }
        replaceKeeping fuel op slot dir tmp made.old
      | .ok none => replaceBy fuel op slot dir tmp false
    else replaceBy fuel op slot dir tmp false

/-- The end of `name_one`: the operand has its name. -/
def named (fuel : Nat) (op : Op) (slot : Nat) (dir : Path) : P Op := do
  if op.way = .WAY_PLAIN then
    pending_clear slot
    queued
  else queued
where
  queued : P Op := do
    tell (.named op.path.text)
    flush_set_add fuel dir
    return op

/-- `name_one` with `-f`, once a temporary name is there. -/
def nameForced (fuel : Nat) (op : Op) (slot : Nat) (dir : Path) (spec : FileSpec) : P Op := do
  match ← replace_one fuel op slot dir spec with
  | (op,true) => named fuel op slot dir
  | (op,false) => return op

def name_one (fuel : Nat) (op : Op) (slot : Nat) (spec : FileSpec) : P Op := do
  if op.fail.isSome then return op
  else
    match ← path_dir op.path.text with
    | .error e => op_fail op slot "cannot create" e
    | .ok dir =>
      if spec.force_mode then
        match op.way, op.fd with
        | .WAY_UNNAMED, some fd =>
          match ← place_temp_link fd op.path.text slot with
          | .error e => op_fail op slot "cannot create" e
          | .ok tmppath => nameForced fuel { op with tmppath := some tmppath } slot dir spec
        | _, _ => nameForced fuel op slot dir spec
      else
        match op.way, op.fd, op.tmppath with
        | .WAY_UNNAMED, some fd, _ =>
          match ← fast_link fd op.path.text with
          | .error e => op_fail op slot "cannot create" e
          | .ok () => named fuel op slot dir
        | .WAY_TEMP, _, some tmp =>
          match ← place_commit tmp.text op.path.text slot with
          | .error e => op_fail op slot "cannot create" e
          | .ok true => named fuel op slot dir
          | .ok false =>
            free tmp
            named fuel { op with tmppath := none } slot dir
        | _, _, _ => named fuel op slot dir

/-! ## Settling and reporting -/

/-- The loop of `settle_batch`. -/
def settleLoop : List Nat → Ops → P Ops
  | [], ops => return ops
  | i :: idx, ops => do
    let (op,closed) ← close_op (ops i) i "cannot close"
    if closed then
      match op.tmppath with
      | some tmp =>
        let removed ← pending_remove i
        free tmp
        settleLoop idx (ops.set i { op with tmppath := none, leftover := op.leftover || !removed })
      | none => settleLoop idx (ops.set i op)
    else settleLoop idx (ops.set i op)

def settle_batch (fuel : Nat) (ops : Ops) (n : Nat) : P Ops := do
  let (ops,idx) ← flush_ops fuel ops n
  settleLoop idx ops

def dir_unflushed (path : Path) : P Bool := do
  match ← path_dir path with
  | .error _ => return true
  | .ok dir => flush_set_failed dir

/-- `drop_spares` for one operand. -/
def dropSpare (op : Op) (slot : Nat) : P Op := do
  match op.spare with
  | none => return op
  | some spare =>
    tell (.dropping op.path.text)
    if ← dir_unflushed op.path.text then
      say (.kept_old spare.text op.path.text)
      pending_clear slot
      free spare
      return { op with spare := none }
    else
      let removed ← pending_remove slot
      free spare
      return { op with spare := none, leftover := op.leftover || !removed }

/-- A loop over the operands from `i` on, `n` of them. -/
def eachOp (f : Op → Nat → P Op) : Nat → Nat → Ops → P Ops
  | 0, _, ops => return ops
  | n+1, i, ops => do
    let op ← f (ops i) i
    eachOp f n (i+1) (ops.set i op)

def drop_spares (ops : Ops) (n : Nat) : P Ops := do
  let ops ← eachOp dropSpare n 0 ops
  let m ← get
  if m.spare_held then
    modify fun m => { m with spare_held := false }
    pending_release m.spare_mask
    return ops
  else return ops

/-- Whether the operand succeeded and left no temporary name behind. -/
def report_one (op : Op) (spec : FileSpec) : P Bool := do
  tell (.report op.path.text op.fail op.leftover)
  match op.fail with
  | some what => say (.failed what op.path.text op.err)
  | none => if spec.verbose then say (.created op.path.text (op.backup_name.map (·.text))) else pure ()
  match op.backup_name with
  | some name => free name
  | none => pure ()
  return op.fail.isNone && !op.leftover

/-- The last loop over a batch, from `i` on. -/
def reportLoop (spec : FileSpec) (ops : Ops) : Nat → Nat → P Bool
  | 0, _ => return true
  | n+1, i => do
    let one ← report_one (ops i) spec
    let rest ← reportLoop spec ops n (i+1)
    return one && rest

/-- The operands of a batch in their slots. -/
def buildLoop (fuel : Nat) (spec : FileSpec) : List Path → Nat → Ops → P Ops
  | [], _, ops => return ops
  | path :: paths, i, ops => do
    let op ← build_one fuel path i spec
    buildLoop fuel spec paths (i+1) (ops.set i op)

/-- One round of the loop of `batch_run`. -/
def batchOnce (fuel : Nat) (paths : List Path) (spec : FileSpec) (ops : Ops) : P (Ops × Bool) := do
  flush_set_forget
  place_probe_reset
  let ops ← buildLoop fuel spec paths 0 ops
  let ops ← flush_batch fuel ops paths.length
  backup_cache_reset
  let ops ← eachOp (fun op i => name_one fuel op i spec) paths.length 0 ops
  let ops ← settle_batch fuel ops paths.length
  flush_set_run fuel
  let ops ← drop_spares ops paths.length
  let ok ← reportLoop spec ops paths.length 0
  return (ops,ok)

/-- The loop of `batch_run`, with at most `rounds` batches to go. -/
def batchLoop (fuel batch : Nat) (spec : FileSpec) : Nat → List Path → Ops → P Bool
  | 0, _, _ => return true
  | rounds+1, paths, ops => do
    if paths = [] then return true
    else
      let (ops,ok) ← batchOnce fuel (paths.take batch) spec ops
      let rest ← batchLoop fuel batch spec rounds (paths.drop batch) ops
      return ok && rest

/-- The array before the first batch. -/
def noOps : Ops := fun _ => { path := ⟨[],none⟩ }

def batch_run (fuel : Nat) (paths : List Path) (spec : FileSpec) : P Bool := do
  let batch ← batch_size
  flush_set_init batch
  match ← allocate with
  | .error _ => .exit
  | .ok () =>
    let ok ← batchLoop fuel batch spec paths.length paths noOps
    flush_set_forget
    place_probe_reset
    backup_cache_reset
    let failures ← flush_set_failures
    return ok && failures = 0

end Newfile.Batch
