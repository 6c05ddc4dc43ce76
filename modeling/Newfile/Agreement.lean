import Newfile.Answers
import Newfile.Crowds
import Newfile.Entries
import Newfile.Evidence

/-!
The ledger and the system agree. Each move with its answer comes to one of a dozen
effects on names, ledger and deeds (`Effect`); where every run without `-f` may have
others beside it and a run with `-f` is alone (`Company`), the names that the ledgers
have are where they say (`Holds`).
-/
namespace Newfile.Agreement
open Newfile.Program Newfile.Posix Newfile.Process Newfile.Pending Newfile.Place Newfile.Backup Newfile.Batch
open Newfile.Effects Newfile.Simulation Newfile.Ledger Newfile.Batches Newfile.Evidence Newfile.Answers Newfile.Crowds Newfile.Numbers
open Function

/-! ## Entries -/

/-- The last part of a temporary name. -/
def isTemp (name : Path) : Prop :=
  ∃ suffix : Path, name = TEMP_STEM ++ suffix ∧ suffix.length = TEMP_RAND ∧ ∀ c ∈ suffix, c ∈ tempChars

section
variable {p q b : Path}

theorem tempChars_plain : '/' ∉ tempChars ∧ '~' ∉ tempChars := by decide

theorem isTemp_slash {name : Path} (temp : isTemp name) : '/' ∉ name := by
  obtain ⟨suffix,rfl,_,chars⟩ := temp
  simp only [List.mem_append,not_or]
  exact ⟨by decide,fun here => tempChars_plain.1 (chars _ here)⟩

/-- A temporary name does not end like a backup. -/
theorem isTemp_tilde {name : Path} : ¬isTemp (name ++ "~".toList) := by
  rintro ⟨suffix,same,length,chars⟩
  cases suffix using List.reverseRecOn with
  | nil => simp [TEMP_RAND] at length
  | append_singleton front c =>
    rw [← List.append_assoc] at same
    have last : '~' = c := by simpa using (List.append_inj' same rfl).2
    exact tempChars_plain.2 (last ▸ chars c (by simp))

/-- The entry of a name beside a path. -/
theorem entry_beside (res : Path → Ino) (path : Path) {name : Path} (plain : '/' ∉ name) :
    entry res (path.take (path_dir_len path) ++ name) = (res (dirText path),name) := by
  have inside := path_dir_len_le path
  have base : '/' ∉ baseText path := Entries.baseText_slash path
  have front : path_dir_len (path.take (path_dir_len path)) = path_dir_len path := by
    conv_rhs => rw [← Entries.take_baseText path]
    exact (path_dir_len_append _ base).symm
  have length : (path.take (path_dir_len path)).length = path_dir_len path := List.length_take_of_le inside
  rw [entry,Accounts.dirText_beside path plain,baseText,path_dir_len_append _ plain,front,
    List.drop_append_of_le_length (Nat.le_of_eq length.symm),List.drop_of_length_le (Nat.le_of_eq length),List.nil_append]

theorem temp_entry (res : Path → Ino) (temp : TempOf p q) : isTemp (entry res q).2 := by
  obtain ⟨suffix,rfl,length,chars⟩ := temp
  have shape : isTemp (TEMP_STEM ++ suffix) := ⟨suffix,rfl,length,chars⟩
  rw [List.append_assoc,entry_beside res p (isTemp_slash shape)]
  exact shape

/-- A backup name is the path with an end that is no part of a directory. -/
theorem backup_suffix (backup : BackupOf p b) : ∃ s : Path, '/' ∉ s ++ "~".toList ∧ b = p ++ (s ++ "~".toList) := by
  rcases backup with rfl | ⟨digits,all,rfl⟩
  · exact ⟨[],by decide,rfl⟩
  · refine ⟨".~".toList ++ digits,fun here => ?_,?_⟩
    · have digit : '/' ∈ digits := by simpa using here
      exact absurd (all _ digit) (by decide)
    · rw [backupText,List.append_assoc,List.append_assoc,List.append_assoc]

theorem backup_entry (res : Path → Ino) (backup : BackupOf p b) : ¬isTemp (entry res b).2 := by
  obtain ⟨s,plain,rfl⟩ := backup_suffix backup
  rw [entry_append res p plain,← List.append_assoc]
  exact isTemp_tilde

/-- A backup name is not that of the file. -/
theorem backup_apart (res : Path → Ino) (backup : BackupOf p b) : entry res b ≠ entry res p := by
  obtain ⟨s,plain,rfl⟩ := backup_suffix backup
  intro same
  have length := congrArg (·.2.length) same
  rw [entry_append res p plain] at length
  simp [entry] at length

end

/-! ## What a call comes to -/

/-- One name is given to a file, or taken. -/
def Sets (ns ns' : Names) (e : Entry) (now : Option Ino) : Prop := ∀ e', ns'.get e' = if e' = e then now else ns.get e'

/-- A name is moved onto another, unless both are of one file. -/
def Moves (ns ns' : Names) (a b : Entry) (i : Ino) : Prop :=
  ns.get a = some i ∧ (ns.get b = some i ∧ ns' = ns ∨
    ns.get b ≠ some i ∧ ∀ e, ns'.get e = if e = a then none else if e = b then some i else ns.get e)

/-- What the calls of a run come to for the names on the system, the names in its ledger and its deeds. -/
inductive Effect (res : Path → Ino) (paths : List Path) (spec : FileSpec) (k : Kernel) (g : Book) (k' : Kernel) (g' : Book) : Prop
  | still (names : k'.names = k.names) (live : g'.live = g.live) (trail : g'.trail = g.trail)
      (old : g'.old = g.old ∨ ∃ p o, g'.old = some (p,o) ∧ k.names.get (entry res p) = some o)
  | forget {j r} (made : g.live j = some r) (absent : k.names.get (entry res r.path) ≠ some r.ino) (names : k'.names = k.names)
      (live : g'.live = update g.live j none) (trail : g'.trail = g.trail) (old : g'.old = g.old)
  | lose {r} (made : g.live FRESH = some r) (names : k'.names = k.names) (live : g'.live = update g.live FRESH none)
      (trail : g'.trail = .lost r.path r.ino :: g.trail) (old : g'.old = g.old)
  | make {r} (room : g.live FRESH = none) (whole : Untwinned g) (untwinned : r.role ≠ .twinned)
      (absent : k.names.get (entry res r.path) = none) (names : Sets k.names k'.names (entry res r.path) (some r.ino))
      (live : g'.live = update g.live FRESH (some r)) (trail : g'.trail = g.trail) (old : g'.old = g.old)
  | remove {j r} (made : g.live j = some r) (names : Sets k.names k'.names (entry res r.path) none)
      (live : g'.live = update g.live j none) (trail : g'.trail = g.trail) (old : g'.old = g.old)
  | link {p n} (unforced : spec.force_mode = false) (member : p ∈ paths) (finished : n ∈ g.finished)
      (absent : k.names.get (entry res p) = none) (names : Sets k.names k'.names (entry res p) (some n))
      (live : g'.live = g.live) (trail : g'.trail = .file p n :: g.trail) (old : g'.old = g.old)
  | move {j t p n} (unforced : spec.force_mode = false) (member : p ∈ paths) (finished : n ∈ g.finished)
      (made : g.live j = some ⟨t,n,.temp⟩) (absent : k.names.get (entry res p) = none)
      (names : Moves k.names k'.names (entry res t) (entry res p) n)
      (live : g'.live = update g.live j none) (trail : g'.trail = .file p n :: g.trail) (old : g'.old = g.old)
  | cover {j t p n h} (unforced : spec.force_mode = false) (member : p ∈ paths) (finished : n ∈ g.finished)
      (made : g.live j = some ⟨t,n,.temp⟩) (slot : j ≠ FRESH) (holder : g.live FRESH = some ⟨p,h,.holder⟩)
      (names : Moves k.names k'.names (entry res t) (entry res p) n)
      (live : g'.live = update (update g.live FRESH none) j none) (trail : g'.trail = .file p n :: g.trail) (old : g'.old = g.old)
  | replace {j t p n} (forced : spec.force_mode = true) (member : p ∈ paths) (finished : n ∈ g.finished)
      (made : g.live j = some ⟨t,n,.temp⟩) (other : j ≠ PENDING_BACKUP) (backed : Backed g p)
      (names : Moves k.names k'.names (entry res t) (entry res p) n)
      (live : g'.live = update (update g.live PENDING_BACKUP none) j none)
      (trail : g'.trail = .file p n :: (backupDeeds g p ++ g.trail)) (old : g'.old = none)
  | exchange {j t p n o} (forced : spec.force_mode = true) (member : p ∈ paths) (finished : n ∈ g.finished)
      (made : g.live j = some ⟨t,n,.temp⟩) (other : j ≠ PENDING_BACKUP) (backed : Backed g p)
      (was : k.names.get (entry res p) = some o)
      (names : ∀ e, k'.names.get e = if e = entry res p then some n else if e = entry res t then some o else k.names.get e)
      (live : g'.live = update (update g.live PENDING_BACKUP none) j (some ⟨t,o,.spare⟩))
      (trail : g'.trail = .file p n :: (backupDeeds g p ++ g.trail)) (old : g'.old = none)
  | twin {a b o p} (forced : spec.force_mode = true) (member : p ∈ paths) (name : BackupOf p b)
      (made : g.live PENDING_BACKUP = some ⟨a,o,.twin⟩) (names : Moves k.names k'.names (entry res a) (entry res b) o)
      (live : g'.live = update g.live PENDING_BACKUP (some ⟨a,o,.twinned⟩)) (trail : g'.trail = .reused p b o :: g.trail)
      (old : g'.old = g.old)
  | dir {q} (parent : ∃ p ∈ paths, ParentOf p q) (absent : k.names.get (entry res q) = none)
      (names : Sets k.names k'.names (entry res q) (some (res q))) (live : g'.live = g.live) (trail : g'.trail = .dir q :: g.trail)
      (old : g'.old = g.old)

section
variable {res : Path → Ino} {paths : List Path} {spec : FileSpec} {k k' : Kernel} {m : Memory} {g g' : Book} {evs : List (Event posix)} {c : Call}
  {r : posix.Res c}

theorem Moves.of_rename {ns ns' : Names} {a b : Entry} {i j : Ino} (there : ns.get a = some i) (is : ns.get a = some j)
    (names : ns.get b = some j ∧ ns' = ns ∨
      ns.get b ≠ some j ∧ ∀ e, ns'.get e = if e = a then none else if e = b then some j else ns.get e) : Moves ns ns' a b i := by
  obtain rfl : j = i := Option.some.inj (is.symm.trans there)
  exact ⟨there,names⟩

/-- A move and the answer to its call have one of the effects, if the temporary names of the ledger and the file that is
    about to be replaced are where the ledger has them. -/
theorem move_effect (move : Move paths spec evs g m c r g') (answered : exec res k c r k')
    (temps : ∀ j t n, (g.live j = some ⟨t,n,.temp⟩ ∨ g.live j = some ⟨t,n,.twin⟩) → k.names.get (entry res t) = some n)
    (known : ∀ p o, g.old = some (p,o) → p ∈ paths → spec.force_mode = true → k.names.get (entry res p) = some o) :
    Effect res paths spec k g k' g' := by
  cases move with
  | quiet still =>
    have names : k'.names = k.names := by
      rcases still with silent | ⟨e,rfl⟩
      · exact (exec_still silent answered).1
      · exact (exec_error answered).2.1
    exact .still names rfl rfl (.inl rfl)
  | refuse => exact .still (exec_error answered).2.1 rfl rfl (.inl rfl)
  | alter alters mine unsealed => exact .still (exec_altered alters answered).names rfl rfl (.inl rfl)
  | create blocked room clean whole opens =>
    rename_i q mode fd i role
    obtain ⟨_,absent,names,_⟩ := exec_open_excl answered
    refine .make (r := ⟨q,fd.ino,role⟩) room whole ?_ absent names rfl rfl rfl
    rintro rfl
    exact opens
  | rollback made clean just =>
    obtain ⟨_,_,names⟩ := exec_unlink answered
    exact .remove made names rfl rfl rfl
  | lose made clean just => exact .lose made (exec_error answered).2.1 rfl rfl rfl
  | anon => exact .still (exec_open_tmpfile answered).2 rfl rfl (.inl rfl)
  | conceal mine | finish mine => exact .still (exec_fchmod answered).names rfl rfl (.inl rfl)
  | flush mine => exact .still (exec_fsync answered).1 rfl rfl (.inl rfl)
  | tempLink blocked room clean whole temp mine ready =>
    rename_i fd q i phase
    obtain ⟨_,absent,names⟩ := exec_linkat answered
    exact .make (r := ⟨q,fd.ino,.temp⟩) room whole (by simp) absent names rfl rfl rfl
  | regard =>
    have names : k'.names = k.names := (exec_still rfl answered).1
    exact .still names rfl rfl (.inr ⟨_,_,rfl,exec_lstat answered⟩)
  | exists_ => exact .still (exec_error answered).2.1 rfl rfl (.inl rfl)
  | backLink blocked room clean whole force member name old =>
    rename_i p b o
    obtain ⟨_,absent,i,there,names⟩ := exec_link answered
    obtain rfl := Option.some.inj (there.symm.trans (known _ _ old member force))
    exact .make (r := ⟨b,i,.backup⟩) room whole (by simp) absent names rfl rfl rfl
  | twinLink blocked room clean whole force member temp old =>
    rename_i p a o
    obtain ⟨_,absent,i,there,names⟩ := exec_link answered
    obtain rfl := Option.some.inj (there.symm.trans (known _ _ old member force))
    exact .make (r := ⟨a,i,.twin⟩) room whole (by simp) absent names rfl rfl rfl
  | twinMove room clean force member name old made temp taken =>
    obtain ⟨_,i,there,names⟩ := exec_rename answered
    exact .twin force member name made (.of_rename (temps _ _ _ (.inr made)) there names) rfl rfl rfl
  | remove clean made seen =>
    obtain ⟨_,_,names⟩ := exec_unlink answered
    exact .remove made names rfl rfl rfl
  | vanish clean made gone =>
    cases c with
    | lstat q' =>
      obtain ⟨rfl,rfl | ⟨st,rfl,other⟩⟩ := gone
      · obtain ⟨may,names,_⟩ := exec_error answered
        refine .forget made ?_ names rfl rfl rfl
        have absent : (k.names.get (entry res q')).isNone = true := may
        simp [Option.isNone_iff_eq_none.mp absent]
      · refine .forget made ?_ (exec_still rfl answered).1 rfl rfl rfl
        rw [exec_lstat answered]
        simpa using other
    | unlink q' =>
      obtain ⟨rfl,rfl⟩ := gone
      obtain ⟨may,names,_⟩ := exec_error answered
      refine .forget made ?_ names rfl rfl rfl
      have absent : (k.names.get (entry res q')).isNone = true := may
      simp [Option.isNone_iff_eq_none.mp absent]
    | _ => exact gone.elim
  | linkCommit clean unforced member mine finished =>
    obtain ⟨_,absent,names⟩ := exec_linkat answered
    exact .link unforced member finished absent names rfl rfl rfl
  | noReplace clean unforced member made slot finished =>
    obtain ⟨_,absent,i,there,names⟩ := exec_noreplace answered
    refine .move unforced member finished made absent (.of_rename (temps _ _ _ (.inl made)) there (.inr ⟨?_,names⟩)) rfl rfl rfl
    simp [absent]
  | linkAlso clean unforced member made finished =>
    obtain ⟨_,absent,i,there,names⟩ := exec_link answered
    obtain rfl := Option.some.inj (there.symm.trans (temps _ _ _ (.inl made)))
    exact .link unforced member finished absent names rfl rfl rfl
  | overHolder blocked clean unforced member made slot holder just finished =>
    obtain ⟨_,i,there,names⟩ := exec_rename answered
    exact .cover unforced member finished made slot holder (.of_rename (temps _ _ _ (.inl made)) there names) rfl rfl rfl
  | force blocked clean forced member made temp room slot other backed finished =>
    obtain ⟨_,i,there,names⟩ := exec_rename answered
    exact .replace forced member finished made other backed (.of_rename (temps _ _ _ (.inl made)) there names) rfl rfl rfl
  | exchange blocked clean forced member made temp room slot other old backed finished =>
    obtain ⟨_,i,j,one,two,names⟩ := exec_exchange answered
    obtain rfl := Option.some.inj (one.symm.trans (temps _ _ _ (.inl made)))
    have was := known _ _ old member forced
    obtain rfl := Option.some.inj (two.symm.trans was)
    exact .exchange forced member finished made other backed was names rfl rfl rfl
  | mkdir parent =>
    obtain ⟨_,_,absent,names⟩ := exec_mkdir answered
    exact .dir parent absent names rfl rfl rfl

end

/-! ## Where the names of the ledgers are -/

section
variable {ι : Type} [DecidableEq ι]

/-- Runs without `-f` may be many. A run with `-f` is alone, and its operands are named neither like temporary
    files nor like backups of each other. -/
structure Company (res : Path → Ino) (paths : ι → List Path) (spec : ι → FileSpec) : Prop where
  alone : ∀ i, (spec i).force_mode = true → ∀ j, j = i
  plain : ∀ i, (spec i).force_mode = true → ∀ p ∈ paths i, ¬isTemp (entry res p).2
  apart : ∀ i, (spec i).force_mode = true → ∀ p ∈ paths i, ∀ p' ∈ paths i, ∀ b, BackupOf p' b → entry res b ≠ entry res p

omit [DecidableEq ι] in
theorem company_unforced {res : Path → Ino} {paths : ι → List Path} {spec : ι → FileSpec} (unforced : ∀ i, (spec i).force_mode = false) :
    Company res paths spec where
  alone i forced := by simp [unforced i] at forced
  plain i forced := by simp [unforced i] at forced
  apart i forced := by simp [unforced i] at forced

/-- The names of the ledgers, but for those of backups, are no other run's, and refer to the files that the
    ledgers have for them. -/
structure Holds (res : Path → Ino) (paths : ι → List Path) (spec : ι → FileSpec) (k : Kernel) (g : ι → Book) : Prop where
  there : ∀ i j r, (g i).live j = some r → r.role ≠ .backup → r.role ≠ .twinned → k.names.get (entry res r.path) = some r.ino
  twinned : ∀ i j r, (g i).live j = some r → r.role = .twinned → j = PENDING_BACKUP
  apart : ∀ i j r i' j' r', (g i).live j = some r → (g i').live j' = some r' → r.role ≠ .backup → r'.role ≠ .backup →
    entry res r.path = entry res r'.path → i = i' ∧ j = j'
  old : ∀ i p o, (g i).old = some (p,o) → p ∈ paths i → (spec i).force_mode = true → k.names.get (entry res p) = some o

def Shaped (paths : ι → List Path) (spec : ι → FileSpec) (g : ι → Book) : Prop :=
  ∀ i j r, (g i).live j = some r → Shape (paths i) (spec i) r

variable {res : Path → Ino} {paths : ι → List Path} {spec : ι → FileSpec} {k k' : Kernel} {g g' : ι → Book} {i : ι} {b : Book}

omit [DecidableEq ι] in
/-- What a run with `-f` has made is at no operand. -/
theorem Company.forced_entry (company : Company res paths spec) (forced : (spec i).force_mode = true) {r : Rec}
    (shape : Shape (paths i) (spec i) r) {p : Path} (member : p ∈ paths i) : entry res r.path ≠ entry res p := by
  intro same
  have temps : (∃ p ∈ paths i, TempOf p r.path) → False := by
    rintro ⟨p',_,temp⟩
    exact company.plain i forced p member (same ▸ temp_entry res temp)
  obtain ⟨q,n,role⟩ := r
  cases role with
  | plain | holder => exact absurd shape.2 (by simp [forced])
  | backup =>
    obtain ⟨p',member',backup,_⟩ := shape
    exact company.apart i forced p member p' member' q backup same
  | probe | temp => exact temps shape
  | spare | twin | twinned => exact temps shape.1

omit [DecidableEq ι] in
/-- A backup name is none of the other names of the ledgers. -/
theorem Company.backup_entry (company : Company res paths spec) (shaped : Shaped paths spec g) {j j' : Nat} {i' : ι} {r r' : Rec}
    (live : (g i).live j = some r) (backup : r.role = .backup) (live' : (g i').live j' = some r') (other : r'.role ≠ .backup) :
    entry res r.path ≠ entry res r'.path := by
  intro same
  have shape := shaped i j r live
  have shape' := shaped i' j' r' live'
  rw [Shape,backup] at shape
  obtain ⟨p,_,name,forced⟩ := shape
  obtain rfl := company.alone i forced i'
  have temps : (∃ p ∈ paths i', TempOf p r'.path) → False := by
    rintro ⟨p',_,temp⟩
    exact Agreement.backup_entry res name (same ▸ temp_entry res temp)
  obtain ⟨q,n,role⟩ := r'
  cases role with
  | plain | holder => exact absurd shape'.2 (by simp [forced])
  | backup => exact absurd rfl other
  | probe | temp => exact temps shape'
  | spare | twin | twinned => exact temps shape'.1

/-- The names of a run after a move of one of them. -/
theorem live_update {i' : ι} {j : Nat} {r : Rec} (live : (update g i b i').live j = some r) :
    i' = i ∧ b.live j = some r ∨ i' ≠ i ∧ (g i').live j = some r := by
  by_cases mine : i' = i
  · subst mine
    exact .inl ⟨rfl,by simpa using live⟩
  · exact .inr ⟨mine,by simpa [mine] using live⟩

theorem old_update {i' : ι} {x : Path × Ino} (old : (update g i b i').old = some x) :
    i' = i ∧ b.old = some x ∨ i' ≠ i ∧ (g i').old = some x := by
  by_cases mine : i' = i
  · subst mine
    exact .inl ⟨rfl,by simpa using old⟩
  · exact .inr ⟨mine,by simpa [mine] using old⟩

omit [DecidableEq ι] in
/-- What holds of names still holds of those that are left. -/
theorem Holds.kept (holds : Holds res paths spec k g) (sub : ∀ i j r, (g' i).live j = some r → (g i).live j = some r)
    (names : ∀ i j r, (g' i).live j = some r → r.role ≠ .backup → r.role ≠ .twinned →
      k'.names.get (entry res r.path) = k.names.get (entry res r.path))
    (old : ∀ i p o, (g' i).old = some (p,o) → p ∈ paths i → (spec i).force_mode = true → k'.names.get (entry res p) = some o) :
    Holds res paths spec k' g' where
  there i j r live unbacked untwinned :=
    (names i j r live unbacked untwinned).trans (holds.there i j r (sub i j r live) unbacked untwinned)
  twinned i j r live := holds.twinned i j r (sub i j r live)
  apart i j r i' j' r' live live' := holds.apart i j r i' j' r' (sub i j r live) (sub i' j' r' live')
  old := old

omit [DecidableEq ι] in
/-- Another name of the ledgers is at another entry, unless it is a backup's. -/
theorem Holds.elsewhere (holds : Holds res paths spec k g) (company : Company res paths spec) (shaped : Shaped paths spec g)
    {j j' : Nat} {i' : ι} {r r' : Rec} (live : (g i).live j = some r) (live' : (g i').live j' = some r')
    (other : ¬(i' = i ∧ j' = j)) (unbacked : r'.role ≠ .backup) : entry res r'.path ≠ entry res r.path := by
  by_cases backup : r.role = .backup
  · exact (company.backup_entry shaped live backup live' unbacked).symm
  · exact fun same => other (holds.apart i' j' r' i j r live' live unbacked backup same)

theorem update_none {live : Nat → Option Rec} {j j' : Nat} {r : Rec} (found : update live j none j' = some r) :
    j' ≠ j ∧ live j' = some r := by
  by_cases same : j' = j
  · simp [same] at found
  · exact ⟨same,by simpa [same] using found⟩

theorem drop_sub {g : Book} {r : Rec} {j j' : Nat} (found : (g.drop j').live j = some r) : g.live j = some r :=
  (update_none found).2

/-- A name is taken, or two are exchanged or moved, at entries of names that are gone from the ledger. -/
theorem Holds.taken (holds : Holds res paths spec k g) (sub : ∀ j r, b.live j = some r → (g i).live j = some r)
    (old : b.old = none ∨ b.old = (g i).old)
    (names : ∀ i' j r, (update g i b i').live j = some r → (g i').live j = some r → r.role ≠ .backup → r.role ≠ .twinned →
      k'.names.get (entry res r.path) = k.names.get (entry res r.path))
    (operands : ∀ i' p o, (update g i b i').old = some (p,o) → (g i').old = some (p,o) → p ∈ paths i' →
      (spec i').force_mode = true → k'.names.get (entry res p) = k.names.get (entry res p)) :
    Holds res paths spec k' (update g i b) := by
  have within : ∀ i' j r, (update g i b i').live j = some r → (g i').live j = some r := by
    intro i' j r live
    rcases live_update live with ⟨rfl,mine⟩ | ⟨_,others⟩
    · exact sub j r mine
    · exact others
  refine holds.kept within (fun i' j r live => names i' j r live (within i' j r live)) fun i' p o now member forced => ?_
  have before : (g i').old = some (p,o) := by
    rcases old_update now with ⟨rfl,mine⟩ | ⟨_,others⟩
    · rcases old with absent | same
      · simp [absent] at mine
      · exact same ▸ mine
    · exact others
  exact (operands i' p o now before member forced).trans (holds.old i' p o before member forced)

omit [DecidableEq ι] in
/-- A name that is there is none that was not. -/
theorem Holds.present (holds : Holds res paths spec k g) {i' : ι} {j : Nat} {r : Rec} {e : Entry} (absent : k.names.get e = none)
    (live : (g i').live j = some r) (unbacked : r.role ≠ .backup) (untwinned : r.role ≠ .twinned) : entry res r.path ≠ e := by
  rintro rfl
  simp [holds.there i' j r live unbacked untwinned] at absent

theorem Holds.effect (holds : Holds res paths spec k g) (company : Company res paths spec) (shaped : Shaped paths spec g)
    (effect : Effect res (paths i) (spec i) k (g i) k' b) : Holds res paths spec k' (update g i b) := by
  have alone : ∀ i', (spec i').force_mode = true → i = i' := fun i' forced => company.alone i' forced i
  cases effect with
  | still names live trail old =>
    refine holds.kept (fun i' j r found => ?_) (fun i' j r _ _ _ => by rw [names]) fun i' p o found member forced => ?_
    · rcases live_update found with ⟨rfl,mine⟩ | ⟨_,others⟩
      · exact live ▸ mine
      · exact others
    · rw [names]
      rcases old_update found with ⟨rfl,mine⟩ | ⟨_,others⟩
      · rcases old with same | ⟨p',o',now,there⟩
        · exact holds.old i' p o (same ▸ mine) member forced
        · obtain ⟨rfl,rfl⟩ : p' = p ∧ o' = o := by simpa [now] using mine
          exact there
      · exact holds.old i' p o others member forced
  | forget made absent names live trail old =>
    exact holds.taken (fun j r found => (update_none (live ▸ found)).2) (.inr old) (fun _ _ _ _ _ _ _ => by rw [names])
      fun _ _ _ _ _ _ _ => by rw [names]
  | lose made names live trail old =>
    exact holds.taken (fun j r found => (update_none (live ▸ found)).2) (.inr old) (fun _ _ _ _ _ _ _ => by rw [names])
      fun _ _ _ _ _ _ _ => by rw [names]
  | make room whole untwinned absent names live trail old =>
    rename_i r
    have others : ∀ {i' j r'}, (update g i b i').live j = some r' → ¬(i' = i ∧ j = FRESH) → (g i').live j = some r' := by
      intro i' j r' found other
      rcases live_update found with ⟨rfl,mine⟩ | ⟨_,others⟩
      · have fresh : j ≠ FRESH := fun same => other ⟨rfl,same⟩
        simpa [live,fresh] using mine
      · exact others
    have this : ∀ {i' j r'}, (update g i b i').live j = some r' → i' = i ∧ j = FRESH → r' = r := by
      rintro i' j r' found ⟨rfl,rfl⟩
      simpa [live,eq_comm] using found
    -- No name is at the entry, not even one that was renamed over a backup.
    have free : ∀ {i' j r'}, (g i').live j = some r' → r'.role ≠ .backup → entry res r'.path ≠ entry res r.path := by
      intro i' j r' found unbacked
      by_cases twinned : r'.role = .twinned
      · have shape := shaped i' j r' found
        rw [Shape,twinned] at shape
        obtain rfl := alone i' shape.2
        obtain rfl := holds.twinned i j r' found twinned
        obtain ⟨a,o,role⟩ := r'
        obtain rfl : role = .twinned := twinned
        exact absurd found (whole a o)
      · exact holds.present absent found unbacked twinned
    constructor
    · intro i' j r' found unbacked untwinned'
      by_cases here : i' = i ∧ j = FRESH
      · obtain rfl := this found here
        rw [names,if_pos rfl]
      · have before := others found here
        rw [names,if_neg (free before unbacked)]
        exact holds.there i' j r' before unbacked untwinned'
    · intro i' j r' found twinned
      by_cases here : i' = i ∧ j = FRESH
      · obtain rfl := this found here
        exact absurd twinned untwinned
      · exact holds.twinned i' j r' (others found here) twinned
    · intro i₁ j₁ r₁ i₂ j₂ r₂ one two unbacked₁ unbacked₂ same
      by_cases here₁ : i₁ = i ∧ j₁ = FRESH
      · by_cases here₂ : i₂ = i ∧ j₂ = FRESH
        · exact ⟨here₁.1.trans here₂.1.symm,here₁.2.trans here₂.2.symm⟩
        · obtain rfl := this one here₁
          exact absurd same.symm (free (others two here₂) unbacked₂)
      · by_cases here₂ : i₂ = i ∧ j₂ = FRESH
        · obtain rfl := this two here₂
          exact absurd same (free (others one here₁) unbacked₁)
        · exact holds.apart i₁ j₁ r₁ i₂ j₂ r₂ (others one here₁) (others two here₂) unbacked₁ unbacked₂ same
    · intro i' p o found member forced
      have before : (g i').old = some (p,o) := by
        rcases old_update found with ⟨rfl,mine⟩ | ⟨_,others⟩
        · exact old ▸ mine
        · exact others
      have there := holds.old i' p o before member forced
      rw [names,if_neg,there]
      intro same
      simp [← same,there] at absent
  | remove made names live trail old =>
    refine holds.taken (fun j r found => (update_none (live ▸ found)).2) (.inr old) (fun i' j' r' found before unbacked _ => ?_)
      fun i' p o _ _ member forced => ?_
    · rw [names,if_neg]
      refine holds.elsewhere company shaped made before ?_ unbacked
      rintro ⟨rfl,rfl⟩
      simp [live] at found
    · obtain rfl := alone i' forced
      rw [names,if_neg]
      exact (company.forced_entry forced (shaped _ _ _ made) member).symm
  | link unforced member finished absent names live trail old =>
    refine holds.taken (fun j r found => live ▸ found) (.inr old) (fun i' j' r' _ before unbacked untwinned => ?_)
      fun i' p o _ _ _ forced => ?_
    · rw [names,if_neg (holds.present absent before unbacked untwinned)]
    · obtain rfl := alone i' forced
      simp [unforced] at forced
  | move unforced member finished made absent names live trail old =>
    refine holds.taken (fun j r found => (update_none (live ▸ found)).2) (.inr old)
      (fun i' j' r' found before unbacked untwinned => ?_) fun i' p o _ _ _ forced => ?_
    · obtain ⟨_,⟨_,names⟩ | ⟨_,names⟩⟩ := names
      · rw [names]
      · rw [names,if_neg,if_neg (holds.present absent before unbacked untwinned)]
        refine holds.elsewhere company shaped made before ?_ unbacked
        rintro ⟨rfl,rfl⟩
        simp [live] at found
    · obtain rfl := alone i' forced
      simp [unforced] at forced
  | cover unforced member finished made slot holder names live trail old =>
    refine holds.taken (fun j r found => (update_none (update_none (live ▸ found)).2).2) (.inr old)
      (fun i' j' r' found before unbacked untwinned => ?_) fun i' p o _ _ _ forced => ?_
    · obtain ⟨_,⟨_,names⟩ | ⟨_,names⟩⟩ := names
      · rw [names]
      · rw [names,if_neg,if_neg]
        · refine holds.elsewhere company shaped holder before ?_ unbacked
          rintro ⟨rfl,rfl⟩
          simp [live,slot.symm] at found
        · refine holds.elsewhere company shaped made before ?_ unbacked
          rintro ⟨rfl,rfl⟩
          simp [live] at found
    · obtain rfl := alone i' forced
      simp [unforced] at forced
  | replace forced member finished made other backed names live trail old =>
    refine holds.taken (fun j r found => (update_none (update_none (live ▸ found)).2).2) (.inl old)
      (fun i' j' r' found before unbacked untwinned => ?_) fun i' p o found _ _ forced' => ?_
    · obtain rfl := company.alone i forced i'
      obtain ⟨_,⟨_,names⟩ | ⟨_,names⟩⟩ := names
      · rw [names]
      · rw [names,if_neg,if_neg (company.forced_entry forced (shaped _ _ _ before) member)]
        refine holds.elsewhere company shaped made before ?_ unbacked
        rintro ⟨-,rfl⟩
        simp [live] at found
    · obtain rfl := alone i' forced'
      simp [old] at found
  | exchange forced member finished made other backed was names live trail old =>
    rename_i j t p n o
    have others : ∀ {i' j' r'}, (update g i b i').live j' = some r' → j' ≠ j → (g i').live j' = some r' := by
      intro i' j' r' found other'
      obtain rfl := company.alone i forced i'
      rw [update_self,live,update_of_ne other'] at found
      exact (update_none found).2
    have this : ∀ {i' r'}, (update g i b i').live j = some r' → r' = ⟨t,o,.spare⟩ := by
      intro i' r' found
      obtain rfl := company.alone i forced i'
      simpa [live,eq_comm] using found
    have apart : ∀ {i' j' r'}, (g i').live j' = some r' → j' ≠ j → r'.role ≠ .backup → entry res r'.path ≠ entry res t :=
      fun before other' unbacked => holds.elsewhere company shaped made before (fun both => other' both.2) unbacked
    have away : entry res t ≠ entry res p := company.forced_entry forced (shaped _ _ _ made) member
    constructor
    · intro i' j' r' found unbacked untwinned
      by_cases here : j' = j
      · subst here
        obtain rfl := this found
        rw [names,if_neg away,if_pos rfl]
      · have before := others found here
        obtain rfl := company.alone i forced i'
        rw [names,if_neg (company.forced_entry forced (shaped _ _ _ before) member),if_neg (apart before here unbacked)]
        exact holds.there _ _ _ before unbacked untwinned
    · intro i' j' r' found twinned
      by_cases here : j' = j
      · subst here
        obtain rfl := this found
        simp at twinned
      · exact holds.twinned i' j' r' (others found here) twinned
    · intro i₁ j₁ r₁ i₂ j₂ r₂ one two unbacked₁ unbacked₂ same
      refine ⟨(company.alone i forced i₁).trans (company.alone i forced i₂).symm,?_⟩
      by_cases here₁ : j₁ = j
      · by_cases here₂ : j₂ = j
        · exact here₁.trans here₂.symm
        · subst here₁
          obtain rfl := this one
          exact absurd same.symm (apart (others two here₂) here₂ unbacked₂)
      · by_cases here₂ : j₂ = j
        · subst here₂
          obtain rfl := this two
          exact absurd same (apart (others one here₁) here₁ unbacked₁)
        · exact (holds.apart i₁ j₁ r₁ i₂ j₂ r₂ (others one here₁) (others two here₂) unbacked₁ unbacked₂ same).2
    · intro i' p' o' found member' forced'
      obtain rfl := alone i' forced'
      simp [old] at found
  | twin forced member name made names live trail old =>
    rename_i a b' o p
    -- Every name is where it was, the renamed one with another role.
    have before : ∀ {i' j' r'}, (update g i b i').live j' = some r' → ∃ role, (g i').live j' = some ⟨r'.path,r'.ino,role⟩ ∧
        (role = r'.role ∨ j' = PENDING_BACKUP ∧ r' = ⟨a,o,.twinned⟩ ∧ role = .twin) := by
      intro i' j' r' found
      obtain rfl := company.alone i forced i'
      rw [update_self,live] at found
      by_cases here : j' = PENDING_BACKUP
      · subst here
        obtain rfl : _ = r' := by simpa using found
        exact ⟨.twin,made,.inr ⟨rfl,rfl,rfl⟩⟩
      · exact ⟨r'.role,by simpa [here] using found,.inl rfl⟩
    have operands : ∀ {r'}, Shape (paths i) (spec i) r' → r'.role ≠ .backup → entry res r'.path ≠ entry res b' := by
      intro r' shape unbacked same
      have temps : (∃ p ∈ paths i, TempOf p r'.path) → False := by
        rintro ⟨p',_,temp⟩
        exact Agreement.backup_entry res name (same ▸ temp_entry res temp)
      obtain ⟨q,n,role⟩ := r'
      cases role with
      | plain | holder => exact absurd shape.2 (by simp [forced])
      | backup => exact unbacked rfl
      | probe | temp => exact temps shape
      | spare | twin | twinned => exact temps shape.1
    have same : ∀ {e}, e ≠ entry res a → e ≠ entry res b' → k'.names.get e = k.names.get e := by
      intro e one two
      obtain ⟨_,⟨_,names⟩ | ⟨_,names⟩⟩ := names
      · rw [names]
      · rw [names,if_neg one,if_neg two]
    constructor
    · intro i' j' r' found unbacked untwinned
      obtain ⟨role,was,rfl | ⟨_,rfl,_⟩⟩ := before found
      · have other : ¬(i' = i ∧ j' = PENDING_BACKUP) := by
          rintro ⟨rfl,rfl⟩
          rw [update_self,live,update_self] at found
          exact untwinned (Option.some.inj found ▸ rfl)
        obtain rfl := company.alone i forced i'
        rw [same (holds.elsewhere company shaped made was other unbacked) (operands (shaped _ _ _ was) unbacked)]
        exact holds.there _ _ _ was unbacked untwinned
      · simp at untwinned
    · intro i' j' r' found twinned
      obtain ⟨role,was,rfl | ⟨here,_⟩⟩ := before found
      · exact holds.twinned i' j' _ was twinned
      · exact here
    · intro i₁ j₁ r₁ i₂ j₂ r₂ one two unbacked₁ unbacked₂ equal
      obtain ⟨role₁,was₁,is₁⟩ := before one
      obtain ⟨role₂,was₂,is₂⟩ := before two
      refine holds.apart i₁ j₁ _ i₂ j₂ _ was₁ was₂ ?_ ?_ equal
      · rcases is₁ with rfl | ⟨_,_,rfl⟩
        · exact unbacked₁
        · simp
      · rcases is₂ with rfl | ⟨_,_,rfl⟩
        · exact unbacked₂
        · simp
    · intro i' p' o' found member' forced'
      obtain rfl := alone i' forced'
      have was : (g i).old = some (p',o') := by simpa [old] using found
      rw [same (company.forced_entry forced (shaped _ _ _ made) member').symm (company.apart i forced p' member' p member b' name).symm]
      exact holds.old i p' o' was member' forced'
  | dir parent absent names live trail old =>
    refine holds.taken (fun j r found => live ▸ found) (.inr old) (fun i' j' r' _ before unbacked untwinned => ?_)
      fun i' p o _ before member forced => ?_
    · rw [names,if_neg (holds.present absent before unbacked untwinned)]
    · rw [names,if_neg]
      intro same
      simp [← same,holds.old i' p o before member forced] at absent

/-- A step on the memory of a run leaves the system as it is. -/
theorem Holds.step {m m' : Memory} (holds : Holds res paths spec k g) (step : Step (g i) m m' b) :
    Holds res paths spec k (update g i b) := by
  have dropped : ∀ j, b.live = update (g i).live j none → b.old = (g i).old → Holds res paths spec k (update g i b) :=
    fun j live old => holds.taken (fun j r found => (update_none (live ▸ found)).2) (.inr old) (fun _ _ _ _ _ _ _ => rfl)
      fun _ _ _ _ _ _ _ => rfl
  have same : b.live = (g i).live → b.old = (g i).old → Holds res paths spec k (update g i b) :=
    fun live old => holds.taken (fun j r found => live ▸ found) (.inr old) (fun _ _ _ _ _ _ _ => rfl) fun _ _ _ _ _ _ _ => rfl
  cases step with
  | settle | keep | keepOld => exact dropped _ rfl rfl
  | arm clean made text room slot whole =>
    rename_i j s r
    -- The name that was on its way is in its slot now.
    have before : ∀ {i' j' r'}, (update g i { g i with live := update (update (g i).live FRESH none) j (some r) } i').live j' = some r' →
        ∃ j'', (g i').live j'' = some r' ∧ (i' = i ∧ j' = j ∧ j'' = FRESH ∨ ¬(i' = i ∧ j' = j) ∧ j'' = j' ∧ ¬(i' = i ∧ j' = FRESH)) := by
      intro i' j' r' found
      rcases live_update found with ⟨rfl,mine⟩ | ⟨other,others⟩
      · by_cases here : j' = j
        · subst here
          obtain rfl : r = r' := by simpa using mine
          exact ⟨FRESH,made,.inl ⟨rfl,rfl,rfl⟩⟩
        · dsimp only at mine
          rw [update_of_ne here] at mine
          obtain ⟨fresh,was⟩ := update_none mine
          exact ⟨j',was,.inr ⟨fun both => here both.2,rfl,fun both => fresh both.2⟩⟩
      · exact ⟨j',others,.inr ⟨fun both => other both.1,rfl,fun both => other both.1⟩⟩
    constructor
    · intro i' j' r' found unbacked untwinned
      obtain ⟨j'',was,_⟩ := before found
      exact holds.there i' j'' r' was unbacked untwinned
    · intro i' j' r' found twinned
      obtain ⟨j'',was,⟨rfl,rfl,rfl⟩ | ⟨_,rfl,_⟩⟩ := before found
      · exact absurd (holds.twinned _ _ _ was twinned) (by decide)
      · exact holds.twinned _ _ _ was twinned
    · intro i₁ j₁ r₁ i₂ j₂ r₂ one two unbacked₁ unbacked₂ equal
      obtain ⟨k₁,was₁,is₁⟩ := before one
      obtain ⟨k₂,was₂,is₂⟩ := before two
      obtain ⟨rfl,rfl⟩ := holds.apart _ _ _ _ _ _ was₁ was₂ unbacked₁ unbacked₂ equal
      refine ⟨rfl,?_⟩
      rcases is₁ with ⟨_,rfl,rfl⟩ | ⟨_,rfl,unfresh₁⟩
      · rcases is₂ with ⟨_,rfl,_⟩ | ⟨_,rfl,unfresh₂⟩
        · rfl
        · exact absurd ⟨‹i₁ = i›,rfl⟩ unfresh₂
      · rcases is₂ with ⟨here,rfl,rfl⟩ | ⟨_,rfl,_⟩
        · exact absurd ⟨here,rfl⟩ unfresh₁
        · rfl
    · intro i' p o found member forced
      rcases old_update found with ⟨rfl,mine⟩ | ⟨_,others⟩
      · exact holds.old _ p o mine member forced
      · exact holds.old i' p o others member forced
  | _ => exact same rfl rfl

omit [DecidableEq ι] in
/-- A move has one of the effects. -/
theorem Holds.moved {m : Memory} {evs : List (Event posix)} {c : Call} {r : posix.Res c} (holds : Holds res paths spec k g)
    (move : Move (paths i) (spec i) evs (g i) m c r b) (answered : exec res k c r k') :
    Effect res (paths i) (spec i) k (g i) k' b := by
  refine move_effect move answered (fun j t n made => ?_) fun p o found member forced => holds.old i p o found member forced
  rcases made with temp | twin
  · exact holds.there i j _ temp (by simp) (by simp)
  · exact holds.there i j _ twin (by simp) (by simp)

/-! ## Runs in company -/

/-- Runs that have not begun. -/
structure Ready (fuel : ι → Nat) (paths : ι → List Path) (spec : ι → FileSpec) (s : Crowd ι posix Kernel Memory Bool) : Prop where
  prog : ∀ i, s.prog i = batch_run (fuel i) (paths i) (spec i)
  memory : ∀ i, Started (s.memory i)

/-- Runs that keep their ledgers, and with them an invariant of the system, the memories and the ledgers. -/
structure Booked (paths : ι → List Path) (spec : ι → FileSpec)
    (J : List (ι × Event posix) → Kernel → (ι → Memory) → (ι → Book) → Prop) (evs : List (ι × Event posix))
    (t : Crowd ι posix Kernel Memory Bool) (g : ι → Book) : Prop where
  evident : ∀ i, Evident (spec i) (own i evs) (g i)
  inv : ∀ i, Inv (paths i) (spec i) (t.memory i) (g i)
  after : ∀ i, After (ledger (paths i) (spec i)) (t.prog i) (Ran (paths i)) (own i evs) (t.memory i) (g i)
  more : J evs t.kernel t.memory g

variable {J : List (ι × Event posix) → Kernel → (ι → Memory) → (ι → Book) → Prop} {before evs : List (ι × Event posix)}
  {s t : Crowd ι posix Kernel Memory Bool}

theorem Ready.booked {fuel : ι → Nat} (ready : Ready fuel paths spec s) (start : J [] s.kernel s.memory fun _ => {}) :
    Booked paths spec J [] s fun _ => {} where
  evident _ := ⟨by simp,by simp,by simp,by simp,by simp,by simp,by simp⟩
  inv i := (ready.memory i).inv
  after i := by
    rw [ready.prog i]
    exact started_follows _ _
  more := start

/-- What every call and every step on a memory keep, runs keep. -/
theorem Booked.runs (booked : Booked paths spec J before s g) (runs : Runs (exec res) s evs t)
    (call : ∀ {evs k g} {m : ι → Memory} {i c r k' b}, J evs k m g → (∀ i, Inv (paths i) (spec i) (m i) (g i)) →
      (∀ i, Evident (spec i) (own i evs) (g i)) → exec res k c r k' → Move (paths i) (spec i) (own i evs) (g i) (m i) c r b →
      J (evs ++ [(i,⟨c,r⟩)]) k' m (update g i b))
    (mem : ∀ {evs k g} {m : ι → Memory} {i m' b}, J evs k m g → (∀ i, Inv (paths i) (spec i) (m i) (g i)) →
      (∀ i, Evident (spec i) (own i evs) (g i)) → Step (g i) (m i) m' b → J evs k (update m i m') (update g i b)) :
    ∃ g', Booked paths spec J (before ++ evs) t g' := by
  obtain ⟨g',⟨evident,more⟩,inv,after⟩ := follows_runs (P := fun i => ledger (paths i) (spec i))
    (Q := fun i => Ran (paths i))
    (J := fun evs k m g => (∀ i, Evident (spec i) (own i evs) (g i)) ∧ J evs k m g)
    (fun _ (answered : exec res _ _ _ _) => exec_sane answered)
    (fun {evs k m g i c r k' b} all inv answered move => by
      obtain ⟨evident,more⟩ := all
      refine ⟨fun j => ?_,call more inv evident answered move⟩
      rw [own_append]
      by_cases mine : j = i
      · subst mine
        rw [own_self,update_self]
        exact evident_call (evident j) move
      · rw [own_other (Ne.symm mine),List.append_nil,update_of_ne mine]
        exact evident j)
    (fun {evs k m g i m' b} all inv step => by
      obtain ⟨evident,more⟩ := all
      refine ⟨fun j => ?_,mem more inv evident step⟩
      by_cases mine : j = i
      · subst mine
        rw [update_self]
        exact evident_mem (evident j) (inv j) step
      · rw [update_of_ne mine]
        exact evident j)
    runs ⟨booked.evident,booked.more⟩ booked.inv booked.after
  exact ⟨g',evident,inv,after,more⟩

/-- The same of runs in company, whose names are where their ledgers have them. -/
structure Underway (res : Path → Ino) (paths : ι → List Path) (spec : ι → FileSpec)
    (J : List (ι × Event posix) → Kernel → (ι → Memory) → (ι → Book) → Prop) (evs : List (ι × Event posix))
    (t : Crowd ι posix Kernel Memory Bool) (g : ι → Book) : Prop extends Booked paths spec J evs t g where
  holds : Holds res paths spec t.kernel g

theorem Ready.underway {fuel : ι → Nat} (ready : Ready fuel paths spec s) (start : J [] s.kernel s.memory fun _ => {}) :
    Underway res paths spec J [] s fun _ => {} where
  toBooked := ready.booked start
  holds := ⟨by simp,by simp,by simp,by simp⟩

theorem Underway.runs (company : Company res paths spec) (underway : Underway res paths spec J before s g)
    (runs : Runs (exec res) s evs t)
    (call : ∀ {evs k g} {m : ι → Memory} {i c r k' b}, J evs k m g → Holds res paths spec k g → (∀ i, Inv (paths i) (spec i) (m i) (g i)) →
      (∀ i, Evident (spec i) (own i evs) (g i)) → exec res k c r k' → Move (paths i) (spec i) (own i evs) (g i) (m i) c r b →
      J (evs ++ [(i,⟨c,r⟩)]) k' m (update g i b))
    (mem : ∀ {evs k g} {m : ι → Memory} {i m' b}, J evs k m g → Holds res paths spec k g → (∀ i, Inv (paths i) (spec i) (m i) (g i)) →
      (∀ i, Evident (spec i) (own i evs) (g i)) → Step (g i) (m i) m' b → J evs k (update m i m') (update g i b)) :
    ∃ g', Underway res paths spec J (before ++ evs) t g' := by
  have both : Booked paths spec (fun evs k m g => Holds res paths spec k g ∧ J evs k m g) before s g :=
    { underway.toBooked with more := ⟨underway.holds,underway.more⟩ }
  obtain ⟨g',booked⟩ := both.runs runs
    (fun {evs k g m i c r k' b} all inv evident answered move => by
      obtain ⟨holds,more⟩ := all
      exact ⟨holds.effect company (fun i => (inv i).shape) (holds.moved move answered),call more holds inv evident answered move⟩)
    (fun {evs k g m i m' b} all inv evident step => by
      obtain ⟨holds,more⟩ := all
      exact ⟨holds.step step,mem more holds inv evident step⟩)
  obtain ⟨holds,more⟩ := booked.more
  exact ⟨g',{ booked with more },holds⟩

end

/-- A run of one operand that has not begun, with nobody beside it. -/
def sampleStart (path : Path) (spec : FileSpec) : Crowd Unit posix Kernel Memory Bool :=
  crowdOf ⟨batch_run 9 [path] spec,sampleKernel,{}⟩

theorem sample_ready (path : Path) (spec : FileSpec) :
    Ready (fun _ => 9) (fun _ => [path]) (fun _ => spec) (sampleStart path spec) :=
  ⟨fun _ => rfl,fun _ => sample_started⟩

theorem sample_runs (path : Path) (spec : FileSpec) (choices : List Choice) :
    ∃ trace, Runs (exec fun _ => 0) (sampleStart path spec) trace (crowdOf (sampleEnd path spec choices)) := by
  obtain ⟨evs,run⟩ := sample_run path spec choices
  exact ⟨_,.of_run run⟩

theorem sample_company : Company (fun _ => 0) (fun _ : Unit => ["b".toList]) fun _ => { force_mode := true } where
  alone _ _ _ := rfl
  plain _ _ p member temp := by
    obtain rfl := List.mem_singleton.mp member
    obtain ⟨suffix,same,_⟩ := temp
    have length := congrArg List.length same
    rw [List.length_append] at length
    have short : (entry (fun _ => 0) "b".toList).2.length = 1 := by decide
    have stem : TEMP_STEM.length = 9 := by decide
    omega
  apart _ _ p member p' member' b backup := by
    obtain rfl := List.mem_singleton.mp member
    obtain rfl := List.mem_singleton.mp member'
    exact backup_apart _ backup

end Newfile.Agreement
