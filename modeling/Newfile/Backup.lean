import Newfile.Place

/-!
`backup.c`: a second name for a file about to be replaced.
-/
namespace Newfile.Backup
open Newfile.Program Newfile.Posix Newfile.Process Newfile.Pending Newfile.Place Newfile.Flush

/-! ## Numerals and names -/

/-- The sign of `strcmp`. -/
def strcmp : Path → Path → Ordering
  | [], [] => .eq
  | [], _ :: _ => .lt
  | _ :: _, [] => .gt
  | a :: s, b :: t => if a.toNat < b.toNat then .lt else if b.toNat < a.toNat then .gt else strcmp s t

def digits_cmp (a b : List Char) : Ordering :=
  if a.length ≠ b.length then (if a.length < b.length then .lt else .gt) else strcmp a b

/-- The loop of `digits_inc` over the digits, the last one first: the digits after
    it, and whether a digit has to be put in front. -/
def incLoop : List Char → List Char × Bool
  | [] => ([],true)
  | d :: ds => if d ≠ '9' then (Char.ofNat (d.toNat+1) :: ds,false) else ('0' :: (incLoop ds).1,(incLoop ds).2)

def digits_inc (digits : List Char) : P (Except Errno (List Char)) := do
  let (ds,carry) := incLoop digits.reverse
  if carry then
    match ← allocate with
    | .error e => return .error e
    | .ok () => return .ok ('1' :: ds.reverse)
  else return .ok ds.reverse

/-- The base and the digits of a name `base.~n~`, n from 1 up. -/
def backup_split (name : Path) : Option (Path × List Char) :=
  let len := name.length
  if len < "x.~1~".length ∨ name.getLast? ≠ some '~' then none
  else
    let digits := (name.dropLast.reverse.takeWhile Char.isDigit).reverse
    let p := len-1-digits.length
    if digits = [] ∨ digits.head? = some '0' ∨ p < 3 ∨ name[p-1]? ≠ some '~' ∨ name[p-2]? ≠ some '.' then none
    else some (name.take (p-2),digits)

/-! ## Listings -/

/-- An entry of two allocated strings at the end of the array. -/
def copyEntry (entries : List BackupEntry) (base : Path) (digits : List Char) : P (Except Errno (List BackupEntry)) := do
  let one ← allocate
  let two ← allocate
  match one, two with
  | .ok (), .ok () => return .ok (entries ++ [⟨base,digits⟩])
  | _, _ => return .error .ENOMEM

/-- The entries of a listing, in an array that grows. -/
def listLoop : List Path → List BackupEntry → Nat → P (Except Errno (List BackupEntry))
  | [], entries, _ => return .ok entries
  | name :: names, entries, cap =>
    match backup_split name with
    | none => listLoop names entries cap
    | some (base,digits) => do
      let full : Bool := entries.length = cap
      match ← (if full then allocate else pure (.ok ())) with
      | .error e => return .error e
      | .ok () =>
        match ← copyEntry entries base digits with
        | .error e => return .error e
        | .ok entries => listLoop names entries (if full then (if cap = 0 then 16 else cap*2) else cap)

/-- `qsort` by `entry_cmp`. -/
def insertEntry (e : BackupEntry) : List BackupEntry → List BackupEntry
  | [] => [e]
  | x :: xs => if strcmp e.base x.base = .gt then x :: insertEntry e xs else e :: x :: xs

def sortEntries (entries : List BackupEntry) : List BackupEntry := entries.foldr insertEntry []

/-- The loop of `entries_keep_highest` over sorted entries, with the entries kept
    so far, the last one first. -/
def keepLoop : List BackupEntry → List BackupEntry → List BackupEntry
  | kept, [] => kept.reverse
  | [], e :: es => keepLoop [e] es
  | k :: kept, e :: es =>
    if k.base = e.base then
      if digits_cmp e.digits k.digits = .gt then keepLoop ({ k with digits := e.digits } :: kept) es
      else keepLoop (k :: kept) es
    else keepLoop (e :: k :: kept) es

def entries_keep_highest (entries : List BackupEntry) : List BackupEntry := keepLoop [] (sortEntries entries)

def backup_dir_list (dir : Path) : P (Except Errno (List BackupEntry)) := do
  match ← perform (.list dir) with
  | .error e => return .error e
  | .ok names =>
    match ← listLoop names [] 0 with
    | .error e => return .error e
    | .ok entries => return .ok (entries_keep_highest entries)

def backup_cache_reset : P Unit := modify fun m => { m with backups := [] }

/-- The listing of the directory of a file. -/
def backup_dir_get (filepath : Path) : P (Except Errno BackupDir) := do
  match ← path_dir filepath with
  | .error e => return .error e
  | .ok dir =>
    let m ← get
    match m.backups.find? fun bd => bd.dir = dir with
    | some bd => return .ok bd
    | none =>
      if m.backups.length = NEWFILE_BATCH then
        backup_cache_reset
        listed dir
      else listed dir
where
  listed (dir : Path) : P (Except Errno BackupDir) := do
    match ← backup_dir_list dir with
    | .error e => return .error e
    | .ok entries =>
      modify fun m => { m with backups := m.backups ++ [⟨dir,entries⟩] }
      return .ok ⟨dir,entries⟩

/-- `bsearch` among sorted entries. -/
def searchEntries (base : Path) : Nat → List BackupEntry → Option BackupEntry
  | 0, _ => none
  | fuel+1, entries =>
    match entries[entries.length/2]? with
    | none => none
    | some e =>
      match strcmp base e.base with
      | .eq => some e
      | .lt => searchEntries base fuel (entries.take (entries.length/2))
      | .gt => searchEntries base fuel (entries.drop (entries.length/2+1))

def backup_find (bd : BackupDir) (filepath : Path) : Option BackupEntry :=
  searchEntries (baseText filepath) bd.entries.length bd.entries

/-- The highest number of the file's backups. -/
def backup_best (filepath : Path) : P (Except Errno (Option (List Char))) := do
  match ← backup_dir_get filepath with
  | .error e => return .error e
  | .ok bd =>
    match backup_find bd filepath with
    | none => return .ok none
    | some e =>
      match ← allocate with
      | .error e => return .error e
      | .ok () => return .ok (some e.digits)

/-- The loop of `backup_note` that makes room in front of the greater entries. -/
def insertNote (e : BackupEntry) (entries : List BackupEntry) : List BackupEntry :=
  let greater := (entries.reverse.takeWhile fun x => strcmp x.base e.base = .gt).length
  entries.take (entries.length-greater) ++ e :: entries.drop (entries.length-greater)

/-- The entries of one directory of the cache replaced. -/
def setEntries (m : Memory) (dir : Path) (entries : List BackupEntry) : Memory :=
  { m with backups := m.backups.map fun bd => if bd.dir = dir then { bd with entries } else bd }

def backup_note (filepath : Path) (digits : List Char) : P Unit := do
  match ← backup_dir_get filepath with
  | .error _ => pure ()
  | .ok bd =>
    match ← allocate with
    | .error _ => pure ()
    | .ok () =>
      match backup_find bd filepath with
      | some e =>
        if digits_cmp digits e.digits = .gt then
          modify fun m => setEntries m bd.dir
            (bd.entries.map fun x => if x.base = e.base then { x with digits } else x)
        else pure ()
      | none =>
        let base ← allocate
        let grown ← allocate
        match base, grown with
        | .ok (), .ok () => modify fun m => setEntries m bd.dir (insertNote ⟨baseText filepath,digits⟩ bd.entries)
        | _, _ => pure ()

/-! ## Making a backup -/

def backupText (filepath : Path) (digits : List Char) : Path := filepath ++ ".~".toList ++ digits ++ "~".toList

def backup_name (filepath : Path) (digits : List Char) : P (Except Errno Str) := newStr (backupText filepath digits)

def first_backup_exists (filepath : Path) : P Bool := do
  match ← backup_name filepath "1".toList with
  | .error _ => return false
  | .ok name =>
    let found ← perform (.lstat name.text)
    free name
    match found with
    | .ok _ => return true
    | .error _ => return false

/-- The digits to make a numbered backup with, none for a simple backup. -/
def backup_next (filepath : Path) (control : String) : P (Except Errno (Option (List Char))) := do
  if control = "simple" ∨ control = "never" then return .ok none
  else
    let numbered : Bool := control = "numbered" ∨ control = "t"
    match ← backup_best filepath with
    | .error e =>
      if e ≠ .EACCES ∧ e ≠ .EPERM then return .error e
      else if numbered then number none
      else
        let first ← first_backup_exists filepath
        if first then number none else return .ok none
    | .ok best => if numbered ∨ best.isSome then number best else return .ok none
where
  number : Option (List Char) → P (Except Errno (Option (List Char)))
    | none => do
      match ← allocate with
      | .error e => return .error e
      | .ok () => return .ok (some "1".toList)
    | some best => do
      match ← digits_inc best with
      | .error e => return .error e
      | .ok digits => return .ok (some digits)

def backup_link (filepath : Path) (name : Str) (st : Stat) : P (Except Errno Unit) := do
  let old ← pending_hold
  match ← perform (.link filepath name.text) with
  | .ok () =>
    pending_arm PENDING_BACKUP name st.ino
    pending_release old
    return .ok ()
  | .error e =>
    pending_release old
    return .error e

def backup_numbered (filepath : Path) (st : Stat) : Nat → List Char → P (Except Errno Str)
  | 0, _ => .spin
  | fuel+1, digits => do
    match ← backup_name filepath digits with
    | .error e => return .error e
    | .ok name =>
      match ← backup_link filepath name st with
      | .ok () =>
        backup_note filepath digits
        return .ok name
      | .error e =>
        free name
        if e ≠ .EEXIST then return .error e
        else
          match ← digits_inc digits with
          | .error e => return .error e
          | .ok digits => backup_numbered filepath st fuel digits

/-- The name, and whether a temporary name was left behind. -/
def backup_simple (filepath : Path) (st : Stat) : P (Except Errno (Str × Bool)) := do
  match ← newStr (filepath ++ "~".toList) with
  | .error e => return .error e
  | .ok name =>
    match ← backup_link filepath name st with
    | .ok () => return .ok (name,false)
    | .error e =>
      if e ≠ .EEXIST then
        free name
        return .error e
      else
        match ← place_temp_alias filepath st PENDING_BACKUP with
        | .error e =>
          free name
          return .error e
        | .ok tmp =>
          match ← perform (.rename tmp.text name.text) with
          | .error e =>
            let _ ← pending_remove PENDING_BACKUP
            free tmp
            free name
            return .error e
          | .ok () =>
            let removed ← pending_remove PENDING_BACKUP
            free tmp
            return .ok (name,!removed)

/-- A backup that was made, with what `lstat` told of the file. -/
structure MadeBackup where
  name : Str
  left : Bool
  old : Stat

def backup_make (fuel : Nat) (filepath : Path) (control : String) : P (Except Errno (Option MadeBackup)) := do
  if control = "none" ∨ control = "off" then return .ok none
  else
    match ← perform (.lstat filepath) with
    | .error e => return if e = .ENOENT then .ok none else .error e
    | .ok st =>
      if st.kind ≠ .regular then return .error (if st.kind = .directory then .EISDIR else .EINVAL)
      else
        match ← backup_next filepath control with
        | .error e => return .error e
        | .ok none =>
          match ← backup_simple filepath st with
          | .error e => return .error e
          | .ok (name,left) => return .ok (some ⟨name,left,st⟩)
        | .ok (some digits) =>
          match ← backup_numbered filepath st fuel digits with
          | .error e => return .error e
          | .ok name => return .ok (some ⟨name,false,st⟩)

end Newfile.Backup
