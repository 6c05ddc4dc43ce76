import Newfile.Standing

/-!
The files of a run. A file that is still to change has no name, or a temporary one
while nobody but its owner may open it; from the moment it has any other name it
changes no more. Files that were there before are never written to.
-/
namespace Newfile.Files
open Newfile.Program Newfile.Posix Newfile.Process Newfile.Pending Newfile.Place Newfile.Backup Newfile.Batch
open Newfile.Effects Newfile.Simulation Newfile.Ledger Newfile.Batches Newfile.Evidence Newfile.Answers Newfile.Crowds Newfile.Agreement
open Newfile.Standing Function

/-! ## What runs still do to files -/

/-- The file is the same, or was flushed since. -/
def Since (before now : File) : Prop := now = before ∨ now = { before with synced := true }

theorem Since.refl (file : File) : Since file file := .inl rfl

theorem Since.synced {before now : File} (since : Since before now) (synced : before.synced = true) : now.synced = true := by
  rcases since with rfl | rfl
  · exact synced
  · rfl

theorem Since.mode {before now : File} (since : Since before now) : now.mode = before.mode := by
  rcases since with rfl | rfl <;> rfl

theorem Since.data {before now : File} (since : Since before now) : now.data = before.data := by
  rcases since with rfl | rfl <;> rfl

theorem Since.trans {one two three : File} (first : Since one two) (second : Since two three) : Since one three := by
  rcases first with rfl | rfl
  · exact second
  · rcases second with rfl | rfl
    · exact .inr rfl
    · exact .inr rfl

section
variable {ι : Type}

/-- No run is to change the file. -/
def Frozen (g : ι → Book) (n : Ino) : Prop := ∀ i j w, (g i).work j = some w → w.ino = n → w.phase = .sealed

/-- A run has completed the file. -/
def Complete (g : ι → Book) (n : Ino) : Prop := ∃ i, n ∈ (g i).finished

/-- An empty file that holds a name for a run without `-f`, and that no run is to change. -/
structure Placeholder (spec : ι → FileSpec) (k : Kernel) (g : ι → Book) (n : Ino) : Prop where
  creating : ∃ i, (spec i).force_mode = false
  used : n < k.next
  data : (k.files n).data = []
  mode : Private (k.files n).mode
  frozen : Frozen g n

/-- A file that is as it will be. -/
def Good (spec : ι → FileSpec) (k : Kernel) (g : ι → Book) (n : Ino) : Prop := Complete g n ∨ Placeholder spec k g n

/-- A file that may have a name though it was not completed: nobody else may open it, or it is empty, or its mode was
    set in the end. -/
def Fit (k : Kernel) (g : ι → Book) (n : Ino) : Prop :=
  Private (k.files n).mode ∨ (k.files n).data = [] ∨ ∃ i, (n,(k.files n).mode) ∈ (g i).moded

/-- A temporary name of the ledger from which a file is moved on, or that of a simple backup. -/
def Held (b : Book) (r : Rec) : Prop :=
  r.role = .temp ∧ (∃ j, b.live j = some r) ∨ r.role = .twin ∧ (b.live FRESH = some r ∨ b.live PENDING_BACKUP = some r)

theorem Held.sub {b b' : Book} {r : Rec} (sub : ∀ j r, b'.live j = some r → r.role = .temp ∨ r.role = .twin → b.live j = some r)
    (held : Held b' r) : Held b r := by
  rcases held with ⟨temp,j,live⟩ | ⟨twin,live | live⟩
  · exact .inl ⟨temp,j,sub j r live (.inl temp)⟩
  · exact .inr ⟨twin,.inl (sub _ r live (.inr twin))⟩
  · exact .inr ⟨twin,.inr (sub _ r live (.inr twin))⟩

theorem Held.live {b : Book} {r : Rec} (held : Held b r) : ∃ j, b.live j = some r := by
  rcases held with ⟨_,live⟩ | ⟨_,live | live⟩
  · exact live
  · exact ⟨_,live⟩
  · exact ⟨_,live⟩

theorem Held.untwinned {b : Book} {r : Rec} (held : Held b r) : r.role ≠ .twinned := by
  rcases held with ⟨role,_⟩ | ⟨role,_⟩ <;> simp [role]

theorem Held.shape {paths : List Path} {spec : FileSpec} {b : Book} {r : Rec} (held : Held b r) (shape : Shape paths spec r) :
    ∃ p ∈ paths, TempOf p r.path := by
  rcases held with ⟨role,_⟩ | ⟨role,_⟩
  · rwa [Shape,role] at shape
  · rw [Shape,role] at shape
    exact shape.1

/-- The names that files may have before they are completed: temporary ones, and what is made of such a name when an
    operand has it. -/
structure Veil (res : Path → Ino) (paths : ι → List Path) (spec : ι → FileSpec) (veil : Path → Prop) : Prop where
  temp : ∀ name, isTemp name → veil name
  backup : ∀ i, (spec i).force_mode = true → ∀ p ∈ paths i, ∀ b, BackupOf p b → veil (entry res p).2 → veil (entry res b).2

/-- No operand that is replaced has a name of this kind. -/
def Unveiled (res : Path → Ino) (paths : ι → List Path) (spec : ι → FileSpec) (veil : Path → Prop) : Prop :=
  ∀ i, (spec i).force_mode = true → ∀ p ∈ paths i, ¬veil (entry res p).2

/-- The entries at which runs make names. -/
inductive Site (res : Path → Ino) (paths : ι → List Path) (spec : ι → FileSpec) (e : Entry) : Prop
  | operand {i p} (member : p ∈ paths i) (here : e = entry res p)
  | backup {i p b} (member : p ∈ paths i) (forced : (spec i).force_mode = true) (name : BackupOf p b) (here : e = entry res b)
  | temp {i p q} (member : p ∈ paths i) (name : TempOf p q) (here : e = entry res q)

section
variable (res : Path → Ino) (paths : ι → List Path) (spec : ι → FileSpec) (veil : Path → Prop) (born : Entry → Ino → Prop)

/-- What is moved on from the name is the file that the ledger has there, or goes to a name of the same kind. -/
structure Fair (i : ι) (b : Book) (r : Rec) (n : Ino) : Prop where
  temp : r.role = .temp → r.ino = n
  twin : r.role = .twin → ∃ p o, b.old = some (p,o) ∧ p ∈ paths i ∧ (spec i).force_mode = true ∧ veil (entry res p).2

/-- A name under which a file may be that is still to change. It is the one under which the file was made. -/
structure Behind (g : ι → Book) (e : Entry) (n : Ino) : Prop where
  veiled : veil e.2
  made : Unveiled res paths spec veil → born e n
  fair : ∀ i r, Held (g i) r → e = entry res r.path → Fair res paths spec veil i (g i) r n

/-- The file has the mode that it was given in the end, or it was opened under the name of an operand and has it from
    the start. -/
def Settled (k : Kernel) (g : ι → Book) (i : ι) (n : Ino) : Prop :=
  (n,(k.files n).mode) ∈ (g i).moded ∨ opensPlain (spec i) ∧ ∃ p ∈ paths i, born (entry res p) n

/-- The invariant of the files: those from `first` on are the runs' own, and `snap` tells of files that do not change
    how they were. -/
structure Filed (first : Ino) (snap : Ino → File → Prop) (k : Kernel) (g : ι → Book) : Prop where
  next : first ≤ k.next
  names : ∀ e n, k.names.get e = some n → n < k.next
  work : ∀ i j w, (g i).work j = some w → first ≤ w.ino ∧ w.ino < k.next
  apart : ∀ i j w i' j' w', (g i).work j = some w → (g i').work j' = some w' → w.ino = w'.ino → i = i' ∧ j = j'
  raw : ∀ i j w, (g i).work j = some w → w.phase = .raw → w.named = false
  secret : ∀ i j w, (g i).work j = some w → w.phase = .secret → Private (k.files w.ino).mode
  done : ∀ i j w, (g i).work j = some w → w.phase = .sealed → (w.ino,(k.files w.ino).mode) ∈ (g i).moded
  unnamed : ∀ i j w, (g i).work j = some w → w.named = false → ∀ e, k.names.get e ≠ some w.ino
  finished : ∀ i, ∀ n ∈ (g i).finished, first ≤ n ∧ n < k.next ∧ Frozen g n ∧
    (hasContent (spec i) = true → (k.files n).synced = true)
  settled : ∀ i, ∀ n ∈ (g i).finished, Settled res paths spec born k g i n
  shown : ∀ e n, k.names.get e = some n → first ≤ n → Behind res paths spec veil born g e n ∨ Good spec k g n
  sites : ∀ e n, k.names.get e = some n → first ≤ n → Site res paths spec e
  fit : ∀ e n, k.names.get e = some n → first ≤ n → Frozen g n → Fit k g n
  kept : ∀ n file, snap n file → n < k.next ∧ (∀ q, n ≠ res q) ∧ Frozen g n ∧ Since file (k.files n)

end

variable {res : Path → Ino} {paths : ι → List Path} {spec : ι → FileSpec} {veil : Path → Prop} {born born' : Entry → Ino → Prop} {first : Ino} {snap : Ino → File → Prop}
  {k k' : Kernel} {g g' : ι → Book}

theorem Fit.since {n : Ino} (fit : Fit k g n) (since : Since (k.files n) (k'.files n)) : Fit k' g n := by
  rw [Fit,since.mode,since.data]
  exact fit

theorem Behind.mono (more : ∀ e n, born e n → born' e n) {e : Entry} {n : Ino} (behind : Behind res paths spec veil born g e n) :
    Behind res paths spec veil born' g e n :=
  ⟨behind.veiled,fun plain => more e n (behind.made plain),behind.fair⟩

theorem Filed.mono (more : ∀ e n, born e n → born' e n) (filed : Filed res paths spec veil born first snap k g) :
    Filed res paths spec veil born' first snap k g :=
  { filed with
    settled := fun i n member => (filed.settled i n member).imp id fun ⟨plain,p,operand,opened⟩ => ⟨plain,p,operand,more _ _ opened⟩
    shown := fun e n there own => (filed.shown e n there own).imp (Behind.mono more) id }

/-- What a run has sealed no run is to change. -/
theorem Filed.sealed (filed : Filed res paths spec veil born first snap k g) {i : ι} {j : Nat} {w : Work} (mine : (g i).work j = some w)
    (sealed : w.phase = .sealed) : Frozen g w.ino := by
  intro i' j' w' found same
  obtain ⟨rfl,rfl⟩ := filed.apart i' j' w' i j w found mine same
  rw [Option.some.inj (found.symm.trans mine)]
  exact sealed

/-- A file that has a name and is still to change is its owner's alone. -/
theorem Filed.private_ (filed : Filed res paths spec veil born first snap k g) {i : ι} {j : Nat} {w : Work} (mine : (g i).work j = some w)
    (unsealed : w.phase ≠ .sealed) {e : Entry} (there : k.names.get e = some w.ino) : w.phase = .secret := by
  have named : w.named = true := by
    by_contra unnamed
    exact filed.unnamed i j w mine (by simpa using unnamed) e there
  cases phase : w.phase with
  | raw => simp [filed.raw i j w mine phase] at named
  | secret => rfl
  | sealed => exact absurd phase unsealed

theorem Good.ledgers {n : Ino} (good : Good spec k g n) (work : ∀ i, (g' i).work = (g i).work)
    (finished : ∀ i, (g' i).finished = (g i).finished) : Good spec k g' n := by
  rcases good with ⟨i,member⟩ | ⟨creating,used,data,mode,ice⟩
  · exact .inl ⟨i,finished i ▸ member⟩
  · exact .inr ⟨creating,used,data,mode,fun i j w found => ice i j w (work i ▸ found)⟩

/-- Nothing but the names made and the deeds differs. -/
theorem Filed.ledgers (filed : Filed res paths spec veil born first snap k g) (work : ∀ i, (g' i).work = (g i).work)
    (finished : ∀ i, (g' i).finished = (g i).finished) (moded : ∀ i, (g' i).moded = (g i).moded)
    (behind : ∀ e n, k.names.get e = some n → first ≤ n → Behind res paths spec veil born g e n → Behind res paths spec veil born g' e n ∨ Good spec k g n) :
    Filed res paths spec veil born first snap k g' := by
  have frozen : ∀ {n}, Frozen g n → Frozen g' n := fun frozen i j w found => frozen i j w (work i ▸ found)
  have unfrozen : ∀ {n}, Frozen g' n → Frozen g n := fun frozen i j w found => frozen i j w ((work i).symm ▸ found)
  have good : ∀ {n}, Good spec k g n → Good spec k g' n := fun good => good.ledgers work finished
  constructor
  · exact filed.next
  · exact filed.names
  · exact fun i j w found => filed.work i j w (work i ▸ found)
  · exact fun i j w i' j' w' found found' => filed.apart i j w i' j' w' (work i ▸ found) (work i' ▸ found')
  · exact fun i j w found => filed.raw i j w (work i ▸ found)
  · exact fun i j w found => filed.secret i j w (work i ▸ found)
  · exact fun i j w found phase => (moded i).symm ▸ filed.done i j w (work i ▸ found) phase
  · exact fun i j w found => filed.unnamed i j w (work i ▸ found)
  · intro i n member
    rw [finished] at member
    obtain ⟨least,used,ice,synced⟩ := filed.finished i n member
    exact ⟨least,used,frozen ice,synced⟩
  · intro i n member
    rw [Settled,moded]
    exact filed.settled i n (finished i ▸ member)
  · intro e n there own
    rcases filed.shown e n there own with was | done
    · exact (behind e n there own was).imp id good
    · exact .inr (good done)
  · exact filed.sites
  · intro e n there own ice
    refine (filed.fit e n there own (unfrozen ice)).imp id (Or.imp id ?_)
    rintro ⟨i,member⟩
    exact ⟨i,(moded i).symm ▸ member⟩
  · intro n file before
    obtain ⟨used,plain,ice,since⟩ := filed.kept n file before
    exact ⟨used,plain,frozen ice,since⟩

/-- Nothing but names differs, and they are of files that may be named. -/
theorem Filed.renamed (filed : Filed res paths spec veil born first snap k g) (same : Renames k k')
    (names : ∀ e n, k'.names.get e = some n → k.names.get e = some n ∨
      ((∃ e', k.names.get e' = some n) ∨ n < k.next ∧ (∀ i j w, (g i).work j = some w → w.ino = n → w.named = true) ∧
          (Frozen g n → Fit k g n)) ∧
        (first ≤ n → Site res paths spec e ∧ (Behind res paths spec veil born g e n ∨ Good spec k g n))) :
    Filed res paths spec veil born first snap k' g := by
  have good : ∀ {n}, Good spec k g n → Good spec k' g n := by
    rintro n (complete | ⟨creating,used,data,mode,ice⟩)
    · exact .inl complete
    · exact .inr ⟨creating,same.next ▸ used,same.files ▸ data,same.files ▸ mode,ice⟩
  constructor
  · rw [same.next]
    exact filed.next
  · intro e n there
    rw [same.next]
    rcases names e n there with before | ⟨⟨e',before⟩ | ⟨used,_⟩,_⟩
    · exact filed.names e n before
    · exact filed.names e' n before
    · exact used
  · rw [same.next]
    exact filed.work
  · exact filed.apart
  · exact filed.raw
  · rw [same.files]
    exact filed.secret
  · rw [same.files]
    exact filed.done
  · intro i j w found unnamed e there
    rcases names e w.ino there with before | ⟨⟨e',before⟩ | ⟨_,given,_⟩,_⟩
    · exact filed.unnamed i j w found unnamed e before
    · exact filed.unnamed i j w found unnamed e' before
    · simp [given i j w found rfl] at unnamed
  · rw [same.files,same.next]
    exact filed.finished
  · intro i n member
    rw [Settled,same.files]
    exact filed.settled i n member
  · intro e n there own
    rcases names e n there with before | ⟨_,fine⟩
    · exact (filed.shown e n before own).imp id good
    · exact (fine own).2.imp id good
  · intro e n there own
    rcases names e n there with before | ⟨_,fine⟩
    · exact filed.sites e n before own
    · exact (fine own).1
  · intro e n there own ice
    rw [Fit,same.files]
    rcases names e n there with before | ⟨⟨e',before⟩ | ⟨_,_,fit⟩,_⟩
    · exact filed.fit e n before own ice
    · exact filed.fit e' n before own ice
    · exact fit ice
  · rw [same.files,same.next]
    exact filed.kept

/-- Files change that runs are to change, and directories. -/
theorem Filed.written (filed : Filed res paths spec veil born first snap k g) (next : k.next ≤ k'.next)
    (names : ∀ e n, k'.names.get e = some n → k.names.get e = some n ∨ n < first)
    (files : ∀ n, n < k.next → first ≤ n ∨ (∀ q, n ≠ res q) → Frozen g n → Since (k.files n) (k'.files n))
    (secret : ∀ i j w, (g i).work j = some w → w.phase = .secret → Private (k.files w.ino).mode → Private (k'.files w.ino).mode) :
    Filed res paths spec veil born first snap k' g := by
  have good : ∀ {n}, first ≤ n → Good spec k g n → Good spec k' g n := by
    rintro n own (complete | placeholder)
    · exact .inl complete
    · have since := files n placeholder.used (.inl own) placeholder.frozen
      exact .inr ⟨placeholder.creating,Nat.lt_of_lt_of_le placeholder.used next,since.data.trans placeholder.data,since.mode ▸ placeholder.mode,placeholder.frozen⟩
  constructor
  · exact Nat.le_trans filed.next next
  · intro e n there
    rcases names e n there with before | low
    · exact Nat.lt_of_lt_of_le (filed.names e n before) next
    · exact Nat.lt_of_lt_of_le low (Nat.le_trans filed.next next)
  · intro i j w found
    obtain ⟨least,used⟩ := filed.work i j w found
    exact ⟨least,Nat.lt_of_lt_of_le used next⟩
  · exact filed.apart
  · exact filed.raw
  · exact fun i j w found phase => secret i j w found phase (filed.secret i j w found phase)
  · intro i j w found phase
    obtain ⟨least,used⟩ := filed.work i j w found
    rw [(files w.ino used (.inl least) (filed.sealed found phase)).mode]
    exact filed.done i j w found phase
  · intro i j w found unnamed e there
    rcases names e w.ino there with before | low
    · exact filed.unnamed i j w found unnamed e before
    · exact absurd (filed.work i j w found).1 (Nat.not_le_of_lt low)
  · intro i n member
    obtain ⟨least,used,frozen,synced⟩ := filed.finished i n member
    exact ⟨least,Nat.lt_of_lt_of_le used next,frozen,fun content => (files n used (.inl least) frozen).synced (synced content)⟩
  · intro i n member
    obtain ⟨least,used,frozen,_⟩ := filed.finished i n member
    rw [Settled,(files n used (.inl least) frozen).mode]
    exact filed.settled i n member
  · intro e n there own
    rcases names e n there with before | low
    · exact (filed.shown e n before own).imp id (good own)
    · exact absurd own (Nat.not_le_of_lt low)
  · intro e n there own
    rcases names e n there with before | low
    · exact filed.sites e n before own
    · exact absurd own (Nat.not_le_of_lt low)
  · intro e n there own frozen
    rcases names e n there with before | low
    · exact (filed.fit e n before own frozen).since (files n (filed.names e n before) (.inl own) frozen)
    · exact absurd own (Nat.not_le_of_lt low)
  · intro n file before
    obtain ⟨used,plain,frozen,since⟩ := filed.kept n file before
    exact ⟨Nat.lt_of_lt_of_le used next,plain,frozen,since.trans (files n used (.inr plain) frozen)⟩

/-- No file changes but by a flush. -/
theorem Filed.quiet (filed : Filed res paths spec veil born first snap k g) (names : k'.names = k.names) (next : k.next ≤ k'.next)
    (files : ∀ n, Since (k.files n) (k'.files n)) : Filed res paths spec veil born first snap k' g := by
  refine filed.written next (fun e n there => .inl (names ▸ there)) (fun n _ _ _ => files n) fun i j w _ _ before => ?_
  rw [(files w.ino).mode]
  exact before

/-- A file that is to change changes. -/
theorem Filed.changed (filed : Filed res paths spec veil born first snap k g) {i : ι} {j : Nat} {w : Work} (mine : (g i).work j = some w)
    (unsealed : w.phase ≠ .sealed) (names : k'.names = k.names) (next : k'.next = k.next)
    (files : ∀ n, n ≠ w.ino → k'.files n = k.files n)
    (secret : w.phase = .secret → Private (k.files w.ino).mode → Private (k'.files w.ino).mode) :
    Filed res paths spec veil born first snap k' g := by
  refine filed.written (Nat.le_of_eq next.symm) (fun e n there => .inl (names ▸ there)) (fun n _ _ frozen => ?_) fun i' j' w' found phase before => ?_
  · exact .inl (files n fun same => unsealed (frozen i j w mine same.symm))
  · by_cases same : w'.ino = w.ino
    · obtain ⟨rfl,rfl⟩ := filed.apart i' j' w' i j w found mine same
      cases found.symm.trans mine
      exact secret phase before
    · rw [files _ same]
      exact before

/-- A directory is made. -/
theorem Filed.directory (filed : Filed res paths spec veil born first snap k g) {q : Path} (low : res q < first) (next : k'.next = k.next)
    (files : ∀ n, n ≠ res q → k'.files n = k.files n)
    (names : ∀ e, k'.names.get e = if e = entry res q then some (res q) else k.names.get e) :
    Filed res paths spec veil born first snap k' g := by
  refine filed.written (Nat.le_of_eq next.symm) (fun e n there => ?_) (fun n _ where_ _ => ?_) fun i j w found _ before => ?_
  · rw [names] at there
    split at there
    · exact .inr (Option.some.inj there ▸ low)
    · exact .inl there
  · refine .inl (files n fun same => ?_)
    rcases where_ with own | plain
    · exact absurd (same ▸ own) (Nat.not_le_of_lt low)
    · exact plain q same
  · rw [files w.ino fun same => absurd (same ▸ (filed.work i j w found).1) (Nat.not_le_of_lt low)]
    exact before

/-- Nothing rests on what becomes of the file. -/
structure Free (res : Path → Ino) (paths : ι → List Path) (spec : ι → FileSpec) (veil : Path → Prop) (born : Entry → Ino → Prop)
    (snap : Ino → File → Prop) (k : Kernel) (g : ι → Book) (n : Ino) : Prop where
  finished : ∀ i, n ∉ (g i).finished
  names : ∀ e, k.names.get e = some n → Behind res paths spec veil born g e n
  snap : ∀ file, ¬snap n file

theorem Filed.good_frozen (filed : Filed res paths spec veil born first snap k g) {n : Ino} (good : Good spec k g n) : Frozen g n := by
  rcases good with ⟨i,member⟩ | placeholder
  · exact (filed.finished i n member).2.2.1
  · exact placeholder.frozen

theorem Filed.free (filed : Filed res paths spec veil born first snap k g) {i : ι} {j : Nat} {w : Work} (mine : (g i).work j = some w)
    (unsealed : w.phase ≠ .sealed) : Free res paths spec veil born snap k g w.ino := by
  have unfrozen : ¬Frozen g w.ino := fun frozen => unsealed (frozen i j w mine rfl)
  have own := (filed.work i j w mine).1
  constructor
  · exact fun i' member => unfrozen (filed.finished i' _ member).2.2.1
  · exact fun e there => (filed.shown e _ there own).resolve_right fun good => unfrozen (filed.good_frozen good)
  · exact fun file snapped => unfrozen (filed.kept _ file snapped).2.2.1

/-- What a new file is like before a run has noted it. -/
theorem Filed.made (filed : Filed res paths spec veil born first snap k g) {fd : Fd} (makes : Makes k fd k') (names : k'.names = k.names) :
    Filed res paths spec veil born first snap k' g ∧ first ≤ fd.ino ∧ fd.ino < k'.next ∧
      (∀ i j w, (g i).work j = some w → w.ino ≠ fd.ino) ∧
      (∀ e, k'.names.get e ≠ some fd.ino) ∧ Free res paths spec veil born snap k' g fd.ino := by
  obtain ⟨ino,next,files⟩ := makes
  rw [ino]
  have low : ∀ n, n < k.next → n ≠ k.next := fun n => Nat.ne_of_lt
  have absent : ∀ e, k'.names.get e ≠ some k.next := by
    intro e there
    rw [names] at there
    exact low _ (filed.names e _ there) rfl
  refine ⟨?_,filed.next,next ▸ Nat.lt_succ_self _,fun i j w found => low _ (filed.work i j w found).2,absent,?_⟩
  · refine filed.written (next ▸ Nat.le_succ _) (fun e n there => .inl (names ▸ there)) (fun n used _ _ => .inl (files n (low n used)))
      fun i j w found _ before => ?_
    rw [files _ (low _ (filed.work i j w found).2)]
    exact before
  · constructor
    · exact fun i member => low _ (filed.finished i _ member).2.1 rfl
    · exact fun e there => absurd there (absent e)
    · exact fun file snapped => low _ (filed.kept _ file snapped).1 rfl

/-- A file is in one slot only. -/
theorem Filed.only (filed : Filed res paths spec veil born first snap k g) {i i' : ι} {j j' : Nat} {w w' : Work} (mine : (g i).work j = some w)
    (found : (g i').work j' = some w') (same : w'.ino = w.ino) : w' = w := by
  obtain ⟨rfl,rfl⟩ := filed.apart i' j' w' i j w found mine same
  exact Option.some.inj (found.symm.trans mine)

/-- A name is taken from a file. -/
theorem Filed.fewer (filed : Filed res paths spec veil born first snap k g) (same : Renames k k')
    (names : ∀ e n, k'.names.get e = some n → k.names.get e = some n) : Filed res paths spec veil born first snap k' g :=
  filed.renamed same fun e n there => .inl (names e n there)

/-- A name is given to a file that has one. -/
theorem Filed.moved (filed : Filed res paths spec veil born first snap k g) (same : Renames k k') {a e₀ : Entry} {n : Ino}
    (site : Site res paths spec e₀) (at_ : k.names.get a = some n) (fine : first ≤ n → Behind res paths spec veil born g e₀ n ∨ Good spec k g n)
    (names : ∀ e n', k'.names.get e = some n' → k.names.get e = some n' ∨ e = e₀ ∧ n' = n) : Filed res paths spec veil born first snap k' g := by
  refine filed.renamed same fun e n' there => ?_
  rcases names e n' there with before | ⟨rfl,rfl⟩
  · exact .inl before
  · exact .inr ⟨.inl ⟨a,at_⟩,fun own => ⟨site,fine own⟩⟩

/-- A name that is given to a file, or onto which one is moved, has this file and no other. -/
theorem sets_values {ns ns' : Names} {e : Entry} {n : Ino} (names : ∀ e', ns'.get e' = if e' = e then some n else ns.get e') :
    ∀ e' n', ns'.get e' = some n' → ns.get e' = some n' ∨ e' = e ∧ n' = n := by
  intro e' n' found
  rw [names] at found
  split at found
  · exact .inr ⟨‹_›,(Option.some.inj found).symm⟩
  · exact .inl found

theorem moves_values {ns ns' : Names} {a b : Entry} {n : Ino}
    (names : ns.get b = some n ∧ ns' = ns ∨ ns.get b ≠ some n ∧ ∀ e, ns'.get e = if e = a then none else if e = b then some n else ns.get e) :
    ∀ e n', ns'.get e = some n' → ns.get e = some n' ∨ e = b ∧ n' = n := by
  intro e n' found
  rcases names with ⟨_,rfl⟩ | ⟨_,names⟩
  · exact .inl found
  · rw [names] at found
    split at found
    · simp at found
    · split at found
      · exact .inr ⟨‹_›,(Option.some.inj found).symm⟩
      · exact .inl found

/-- A call that failed leaves the files as they are. -/
theorem Filed.failed (filed : Filed res paths spec veil born first snap k g) {c : Call} {e : Errno} (answered : exec res k c (.error e) k') :
    Filed res paths spec veil born first snap k' g := by
  obtain ⟨_,names,files,next⟩ := exec_error answered
  exact filed.quiet names (Nat.le_of_eq next.symm) fun n => .inl (congrFun files n)

theorem Filed.still (filed : Filed res paths spec veil born first snap k g) {c : Call} {r : posix.Res c} (still : matters c = false)
    (answered : exec res k c r k') : Filed res paths spec veil born first snap k' g := by
  obtain ⟨names,next,files⟩ := exec_still still answered
  exact filed.quiet names next files

/-! ## What a run notes of its files -/

/-- The names from which files are moved on are the same. -/
theorem Behind.same {e : Entry} {n : Ino} (behind : Behind res paths spec veil born g e n) (live : ∀ i, (g' i).live = (g i).live)
    (old : ∀ i, (g' i).old = (g i).old) : Behind res paths spec veil born g' e n where
  veiled := behind.veiled
  made := behind.made
  fair i r held here := by
    obtain ⟨temp,twin⟩ := behind.fair i r (held.sub fun j r found _ => live i ▸ found) here
    exact ⟨temp,by rw [old]; exact twin⟩

variable [DecidableEq ι]

/-- What a run has noted elsewhere stays. -/
theorem update_same {β : Type} {f : Book → β} {i : ι} {b : Book} (same : f b = f (g i)) (i' : ι) :
    f (update g i b i') = f (g i') := by
  by_cases mine : i' = i
  · rw [mine,update_self,same]
  · rw [update_of_ne mine]

/-- A run notes how far a file is that it may have changed, and the mode that it was given in the end. -/
theorem Filed.noted (filed : Filed res paths spec veil born first snap k g) {i : ι} {j : Nat} {w : Work} {moded : List (Ino × Mode)}
    (names : k'.names = k.names) (next : k'.next = k.next) (files : ∀ n, n ≠ w.ino → k'.files n = k.files n) (own : first ≤ w.ino)
    (used : w.ino < k.next) (apart : ∀ i' j' v, (g i').work j' = some v → v.ino = w.ino → i' = i ∧ j' = j)
    (raw : w.phase = .raw → w.named = false) (secret : w.phase = .secret → Private (k'.files w.ino).mode)
    (done : w.phase = .sealed → (w.ino,(k'.files w.ino).mode) ∈ moded) (more : (g i).moded ⊆ moded)
    (unnamed : w.named = false → ∀ e, k.names.get e ≠ some w.ino)
    (rests : Free res paths spec veil born snap k g w.ino ∨ w.phase = .sealed ∧ k'.files w.ino = k.files w.ino) :
    Filed res paths spec veil born first snap k' (update g i { g i with work := update (g i).work j (some w), moded := moded }) := by
  have finished := update_same (g := g) (f := Book.finished) (i := i)
    (b := { g i with work := update (g i).work j (some w), moded := moded }) rfl
  have live := update_same (g := g) (f := Book.live) (i := i) (b := { g i with work := update (g i).work j (some w), moded := moded }) rfl
  have old := update_same (g := g) (f := Book.old) (i := i) (b := { g i with work := update (g i).work j (some w), moded := moded }) rfl
  have before : ∀ {i' j' v},
      (update g i { g i with work := update (g i).work j (some w), moded := moded } i').work j' = some v →
      i' = i ∧ j' = j ∧ v = w ∨ ¬(i' = i ∧ j' = j) ∧ (g i').work j' = some v := by
    intro i' j' v found
    by_cases mine : i' = i
    · subst mine
      rw [update_self] at found
      by_cases here : j' = j
      · exact .inl ⟨rfl,here,by simpa [here,eq_comm] using found⟩
      · exact .inr ⟨fun both => here both.2,by simpa [here] using found⟩
    · exact .inr ⟨fun both => mine both.1,by simpa [mine] using found⟩
  have this : (update g i { g i with work := update (g i).work j (some w), moded := moded } i).work j = some w := by simp
  have kept : ∀ {i' x}, x ∈ (g i').moded → x ∈ (update g i { g i with work := update (g i).work j (some w), moded := moded } i').moded := by
    intro i' x member
    by_cases mine : i' = i
    · subst mine
      rw [update_self]
      exact more member
    · rwa [update_of_ne mine]
  have mine : ∀ {x}, x ∈ moded → x ∈ (update g i { g i with work := update (g i).work j (some w), moded := moded } i).moded := by
    intro x member
    rwa [update_self]
  generalize update g i { g i with work := update (g i).work j (some w), moded := moded } = g' at *
  -- A file on which something rests stays as it is.
  have same : ∀ {n}, (Free res paths spec veil born snap k g n → False) → k'.files n = k.files n := by
    intro n bound
    by_cases this : n = w.ino
    · subst this
      exact (rests.resolve_left bound).2
    · exact files n this
  have frozen : ∀ {n}, Frozen g n → (Free res paths spec veil born snap k g n → False) → Frozen g' n := by
    intro n ice bound i' j' v found ino
    rcases before found with ⟨_,_,rfl⟩ | ⟨_,was⟩
    · exact (rests.resolve_left fun free => bound (ino ▸ free)).1
    · exact ice i' j' v was ino
  have good : ∀ {n}, Good spec k g n → (Free res paths spec veil born snap k g n → False) → Good spec k' g' n := by
    rintro n (⟨i',member⟩ | ⟨creating,used,data,mode,ice⟩) bound
    · exact .inl ⟨i',finished i' ▸ member⟩
    · exact .inr ⟨creating,next ▸ used,same bound ▸ data,same bound ▸ mode,frozen ice bound⟩
  constructor
  · rw [next]
    exact filed.next
  · rw [names,next]
    exact filed.names
  · rw [next]
    intro i' j' v found
    rcases before found with ⟨_,_,rfl⟩ | ⟨_,was⟩
    · exact ⟨own,used⟩
    · exact filed.work i' j' v was
  · intro i₁ j₁ v₁ i₂ j₂ v₂ one two equal
    rcases before one with ⟨rfl,rfl,rfl⟩ | ⟨other,was₁⟩
    · rcases before two with ⟨rfl,rfl,rfl⟩ | ⟨other,was₂⟩
      · exact ⟨rfl,rfl⟩
      · exact absurd (apart _ _ _ was₂ equal.symm) other
    · rcases before two with ⟨rfl,rfl,rfl⟩ | ⟨_,was₂⟩
      · exact absurd (apart _ _ _ was₁ equal) other
      · exact filed.apart _ _ _ _ _ _ was₁ was₂ equal
  · intro i' j' v found
    rcases before found with ⟨_,_,rfl⟩ | ⟨_,was⟩
    · exact raw
    · exact filed.raw i' j' v was
  · intro i' j' v found phase
    rcases before found with ⟨_,_,rfl⟩ | ⟨other,was⟩
    · exact secret phase
    · rw [files _ fun same => other (apart i' j' v was same)]
      exact filed.secret i' j' v was phase
  · intro i' j' v found phase
    rcases before found with ⟨rfl,_,rfl⟩ | ⟨other,was⟩
    · exact mine (done phase)
    · rw [files _ fun same => other (apart i' j' v was same)]
      exact kept (filed.done i' j' v was phase)
  · rw [names]
    intro i' j' v found unnamed'
    rcases before found with ⟨_,_,rfl⟩ | ⟨_,was⟩
    · exact unnamed unnamed'
    · exact filed.unnamed i' j' v was unnamed'
  · rw [next]
    intro i' n member
    rw [finished] at member
    obtain ⟨least,used',ice,synced⟩ := filed.finished i' n member
    have bound : Free res paths spec veil born snap k g n → False := fun free => free.finished i' member
    exact ⟨least,used',frozen ice bound,fun content => same bound ▸ synced content⟩
  · intro i' n member
    rw [finished] at member
    rw [Settled,same fun free => free.finished i' member]
    exact (filed.settled i' n member).imp kept id
  · rw [names]
    intro e n there least
    by_cases hidden : Behind res paths spec veil born g e n
    · exact .inl (hidden.same live old)
    · exact .inr (good ((filed.shown e n there least).resolve_left hidden) fun free => hidden (free.names e there))
  · rw [names]
    exact filed.sites
  · rw [names]
    intro e n there least ice
    by_cases here : n = w.ino
    · subst here
      exact .inr (.inr ⟨i,mine (done (ice i j w this rfl))⟩)
    · rw [Fit,files n here]
      by_cases was : Frozen g n
      · exact (filed.fit e n there least was).imp id (Or.imp id fun ⟨i',member⟩ => ⟨i',kept member⟩)
      · -- The run has given the file up.
        simp only [Frozen,not_forall] at was
        obtain ⟨i',j',v,found,rfl,unsealed⟩ := was
        exact .inl (filed.secret i' j' v found (filed.private_ found unsealed there))
  · rw [next]
    intro n file snapped
    obtain ⟨used',plain,ice,since⟩ := filed.kept n file snapped
    have bound : Free res paths spec veil born snap k g n → False := fun free => free.snap file snapped
    exact ⟨used',plain,frozen ice bound,same bound ▸ since⟩

/-- A run has come further with a file, and may have changed it. -/
theorem Filed.reworked (filed : Filed res paths spec veil born first snap k g) {i : ι} {j : Nat} {w : Work} (mine : (g i).work j = some w)
    (names : k'.names = k.names) (next : k'.next = k.next) (files : ∀ n, n ≠ w.ino → k'.files n = k.files n) (phase : Phase)
    (named : Bool) (moded : List (Ino × Mode)) (raw : phase = .raw → named = false)
    (secret : phase = .secret → Private (k'.files w.ino).mode)
    (done : phase = .sealed → (w.ino,(k'.files w.ino).mode) ∈ moded) (more : (g i).moded ⊆ moded)
    (unnamed : named = false → w.named = false)
    (sealed : w.phase = .sealed → phase = .sealed ∧ k'.files w.ino = k.files w.ino) :
    Filed res paths spec veil born first snap k'
      (update g i { g i with work := update (g i).work j (some ⟨w.ino,phase,named⟩), moded := moded }) := by
  obtain ⟨own,used⟩ := filed.work i j w mine
  refine filed.noted names next files own used (fun i' j' v found same => filed.apart _ _ _ _ _ _ found mine same) raw secret done more
    (fun nameless => filed.unnamed i j w mine (unnamed nameless)) ?_
  by_cases finished : w.phase = .sealed
  · exact .inr (sealed finished)
  · have free : Free res paths spec veil born snap k g w.ino := filed.free mine finished
    exact .inl free

/-- A run has completed a file. -/
theorem Filed.completed {i : ι} {b : Book} {n : Ino} (filed : Filed res paths spec veil born first snap k (update g i b)) (least : first ≤ n)
    (used : n < k.next) (frozen : Frozen (update g i b) n) (synced : hasContent (spec i) = true → (k.files n).synced = true)
    (settled : Settled res paths spec born k (update g i b) i n) :
    Filed res paths spec veil born first snap k (update g i { b with finished := n :: b.finished }) := by
  have other : ∀ {β : Type} (f : Book → β), f { b with finished := n :: b.finished } = f b →
      ∀ i', f (update g i { b with finished := n :: b.finished } i') = f (update g i b i') := by
    intro β f same i'
    by_cases mine : i' = i
    · rw [mine,update_self,update_self,same]
    · rw [update_of_ne mine,update_of_ne mine]
  have work := other Book.work rfl
  have live := other Book.live rfl
  have old := other Book.old rfl
  have moded := other Book.moded rfl
  have finished : ∀ i' n', n' ∈ (update g i { b with finished := n :: b.finished } i').finished ↔
      i' = i ∧ n' = n ∨ n' ∈ (update g i b i').finished := by
    intro i' n'
    by_cases mine : i' = i
    · subst mine
      simp
    · simp [mine]
  generalize update g i { b with finished := n :: b.finished } = g' at *
  have ice : ∀ {n}, Frozen (update g i b) n → Frozen g' n := fun frozen i j w found => frozen i j w (work i ▸ found)
  have melt : ∀ {n}, Frozen g' n → Frozen (update g i b) n := fun frozen i j w found => frozen i j w ((work i).symm ▸ found)
  have good : ∀ {n}, Good spec k (update g i b) n → Good spec k g' n := by
    rintro n' (⟨i',member⟩ | ⟨creating,used,data,mode,frozen⟩)
    · exact .inl ⟨i',(finished i' n').mpr (.inr member)⟩
    · exact .inr ⟨creating,used,data,mode,ice frozen⟩
  constructor
  · exact filed.next
  · exact filed.names
  · exact fun i j w found => filed.work i j w (work i ▸ found)
  · exact fun i j w i' j' w' found found' => filed.apart i j w i' j' w' (work i ▸ found) (work i' ▸ found')
  · exact fun i j w found => filed.raw i j w (work i ▸ found)
  · exact fun i j w found => filed.secret i j w (work i ▸ found)
  · exact fun i j w found phase => (moded i).symm ▸ filed.done i j w (work i ▸ found) phase
  · exact fun i j w found => filed.unnamed i j w (work i ▸ found)
  · intro i' n' member
    rcases (finished i' n').mp member with ⟨rfl,rfl⟩ | was
    · exact ⟨least,used,ice frozen,synced⟩
    · obtain ⟨least',used',frozen',synced'⟩ := filed.finished i' n' was
      exact ⟨least',used',ice frozen',synced'⟩
  · intro i' n' member
    rw [Settled,moded]
    rcases (finished i' n').mp member with ⟨rfl,rfl⟩ | was
    · exact settled
    · exact filed.settled i' n' was
  · exact fun e n there own => (filed.shown e n there own).imp (fun behind => behind.same live old) good
  · exact filed.sites
  · intro e n there own frozen'
    refine (filed.fit e n there own (melt frozen')).imp id (Or.imp id ?_)
    rintro ⟨i',member⟩
    exact ⟨i',(moded i').symm ▸ member⟩
  · intro n file snapped
    obtain ⟨used',plain,frozen',since⟩ := filed.kept n file snapped
    exact ⟨used',plain,ice frozen',since⟩

/-- The other pages of a ledger do not matter, but for the names from which files are moved on. -/
theorem Filed.ledger {i : ι} {b b' : Book} (filed : Filed res paths spec veil born first snap k (update g i b)) (work : b'.work = b.work)
    (finished : b'.finished = b.finished) (moded : b'.moded = b.moded)
    (held : ∀ r, Held b' r → Held b r ∧ (b'.old = b.old ∨ r.role = .temp) ∨
      ∀ n, k.names.get (entry res r.path) = some n → first ≤ n →
        Fair res paths spec veil i b' r n ∨ Good spec k (update g i b) n) :
    Filed res paths spec veil born first snap k (update g i b') := by
  have other : ∀ {β : Type} (f : Book → β), f b' = f b → ∀ i', f (update g i b' i') = f (update g i b i') := by
    intro β f same i'
    by_cases mine : i' = i
    · rw [mine,update_self,update_self,same]
    · rw [update_of_ne mine,update_of_ne mine]
  refine filed.ledgers (other Book.work work) (other Book.finished finished) (other Book.moded moded) fun e n there own behind => ?_
  by_cases good : Good spec k (update g i b) n
  · exact .inr good
  refine .inl ⟨behind.veiled,behind.made,fun i' r held' here => ?_⟩
  by_cases mine : i' = i
  · subst mine
    rw [update_self] at held' ⊢
    rcases held r held' with ⟨was,same⟩ | fair
    · obtain ⟨temp,twin⟩ := behind.fair i' r (by rwa [update_self]) here
      refine ⟨temp,fun role => ?_⟩
      rcases same with old | temporary
      · rw [old]
        simpa using twin role
      · simp [temporary] at role
    · exact (fair n (here ▸ there) own).resolve_right good
  · rw [update_of_ne mine] at held' ⊢
    have fair := behind.fair i' r (by rwa [update_of_ne mine]) here
    rwa [update_of_ne mine] at fair

theorem Filed.self (filed : Filed res paths spec veil born first snap k g) (i : ι) :
    Filed res paths spec veil born first snap k (update g i (g i)) := by
  rw [update_eq_self]
  exact filed

end
end Newfile.Files
