import Newfile.Answers
import Newfile.Catalog

/-!
What the calls of a run have told of the numbered backups in a directory: the names of
its last listing, and each backup made since, once there was memory to note it.
Histories have the latest call first.
-/
namespace Newfile.Known
open Newfile.Program Newfile.Posix Newfile.Process Newfile.Backup Newfile.Numbers Newfile.Suffixes Newfile.Catalog
open Newfile.Answers (touched)

abbrev History := List (Event posix)

variable {base base' name path dir : Path} {names : List Path} {ds : List Char} {h h' : History} {e : Event posix}

/-! ## The numbers of names -/

instance (ds : List Char) : Decidable (Decimal ds) :=
  decidable_of_iff ((∀ c ∈ ds, c.isDigit = true) ∧ ds ≠ [] ∧ ds.head? ≠ some '0')
    ⟨fun ⟨digits,nonempty,front⟩ => ⟨digits,nonempty,front⟩,fun ⟨digits,nonempty,front⟩ => ⟨digits,nonempty,front⟩⟩

/-- The number of a backup of the file `base`, 0 for any other name. -/
def numberOf (base name : Path) : Nat :=
  let ds := (name.drop (base.length + 2)).dropLast
  if name = backupText base ds ∧ Decimal ds then number ds else 0

/-- The highest number of a backup of the file, 0 if there is none. -/
def highest (base : Path) (names : List Path) : Nat := names.foldr (fun name n => max (numberOf base name) n) 0

theorem numberOf_backupText (base : Path) (decimal : Decimal ds) : numberOf base (backupText base ds) = number ds := by
  have inner : ((backupText base ds).drop (base.length + 2)).dropLast = ds := by simp [backupText]
  rw [numberOf,inner,if_pos ⟨rfl,decimal⟩]

theorem numberOf_pos (positive : numberOf base name ≠ 0) :
    ∃ ds, Decimal ds ∧ name = backupText base ds ∧ number ds = numberOf base name := by
  rw [numberOf] at positive
  split at positive
  · rename_i both
    exact ⟨_,both.2,both.1,by rw [numberOf,if_pos both]⟩
  · exact absurd rfl positive

/-- A backup of another file has no number here. -/
theorem numberOf_other (decimal : Decimal ds) (other : base' ≠ base) : numberOf base (backupText base' ds) = 0 := by
  by_contra positive
  obtain ⟨ds',decimal',same,_⟩ := numberOf_pos positive
  exact other (backupText_inj decimal decimal' same).1

theorem highest_cons (base name : Path) (names : List Path) :
    highest base (name :: names) = max (numberOf base name) (highest base names) := rfl

theorem le_highest (decimal : Decimal ds) (here : backupText base ds ∈ names) : number ds ≤ highest base names := by
  induction names with
  | nil => simp at here
  | cons name names ih =>
    rw [highest_cons]
    rcases List.mem_cons.mp here with rfl | here
    · rw [numberOf_backupText base decimal]
      exact Nat.le_max_left _ _
    · exact Nat.le_trans (ih here) (Nat.le_max_right _ _)

theorem highest_mem (positive : highest base names ≠ 0) :
    ∃ ds, Decimal ds ∧ number ds = highest base names ∧ backupText base ds ∈ names := by
  induction names with
  | nil => exact absurd rfl positive
  | cons name names ih =>
    rw [highest_cons] at positive ⊢
    rcases Nat.le_total (numberOf base name) (highest base names) with least | most
    · rw [Nat.max_eq_right least] at positive ⊢
      obtain ⟨ds,decimal,same,here⟩ := ih positive
      exact ⟨ds,decimal,same,List.mem_cons_of_mem _ here⟩
    · rw [Nat.max_eq_left most] at positive ⊢
      obtain ⟨ds,decimal,rfl,same⟩ := numberOf_pos positive
      exact ⟨ds,decimal,same,List.mem_cons_self⟩

/-! ## What is known of a directory -/

/-- Names in a directory, the name of a backup that is noted after so many allocations,
    and whether the directory was listed at all. -/
structure Knowledge where
  names : List Path := []
  coming : Option (Path × Nat) := none
  listed : Bool := false

/-- Noting a backup takes two allocations, and two more for the first number of a file. -/
def cost (base : Path) (names : List Path) : Nat := if highest base names = 0 then 4 else 2

/-- What one call tells of the directory. A link to the name of a numbered backup is about
    to be noted, and it is once the allocations that follow it have all succeeded. -/
def Knowledge.next (dir : Path) (w : Knowledge) : Event posix → Knowledge
  | ⟨.list d,.ok names⟩ => if d = dir then ⟨names,none,true⟩ else { w with coming := none }
  | ⟨.link src dst,.ok _⟩ =>
    if dirText src = dir ∧ baseText src ≠ [] ∧ numberOf src dst ≠ 0 then
      { w with coming := some (baseText dst,cost (baseText src) w.names) }
    else { w with coming := none }
  | ⟨.alloc,.ok _⟩ =>
    match w.coming with
    | some (name,n+2) => { w with coming := some (name,n+1) }
    | some (name,_) => ⟨name :: w.names,none,w.listed⟩
    | none => w
  | _ => { w with coming := none }

def knowledge (dir : Path) : History → Knowledge
  | [] => {}
  | e :: h => (knowledge dir h).next dir e

/-- Only its own listing tells that a directory was listed. -/
theorem next_listed {w : Knowledge} (listing : ∀ names, e ≠ ⟨.list dir,.ok names⟩) : (w.next dir e).listed = w.listed := by
  obtain ⟨c,r⟩ := e
  cases r with
  | error err => cases c <;> rfl
  | ok x =>
    cases c with
    | list d =>
      have other : d ≠ dir := by
        rintro rfl
        exact listing x rfl
      rw [Knowledge.next,if_neg other]
    | link src dst =>
      rw [Knowledge.next]
      split <;> rfl
    | alloc =>
      rw [Knowledge.next]
      split <;> rfl
    | _ => rfl

/-- The highest number of a backup of the file that is known, 0 if none. -/
def known (path : Path) (h : History) : Nat := highest (baseText path) (knowledge (dirText path) h).names

/-- A directory of which a listing is known was listed. -/
theorem listed_mem (listed : (knowledge dir h).listed = true) : ∃ names, ⟨.list dir,.ok names⟩ ∈ h := by
  induction h with
  | nil => simp [knowledge] at listed
  | cons e h ih =>
    by_cases now : ∃ names, e = ⟨.list dir,.ok names⟩
    · obtain ⟨names,rfl⟩ := now
      exact ⟨names,List.mem_cons_self⟩
    · have before : (knowledge dir h).listed = true := by
        rw [knowledge,next_listed fun names same => now ⟨names,same⟩] at listed
        exact listed
      obtain ⟨names,here⟩ := ih before
      exact ⟨names,List.mem_cons_of_mem _ here⟩

/-! ## What disturbs it -/

/-- A numbered backup of a file that is called by the same directory. -/
def OwnBackup (dir : Path) (e : Event posix) : Prop :=
  ∃ src ds, e = ⟨.link src (backupText src ds),.ok ()⟩ ∧ dirText src = dir

/-- The call makes, replaces or removes a numbered backup of the file otherwise than by
    backing up a file of this directory. -/
def Disturbs (res : Path → Ino) (path : Path) (e : Event posix) : Prop :=
  (∃ ds, Decimal ds ∧ (res (dirText path),backupBase path ds) ∈ touched res e) ∧ ¬ OwnBackup (dirText path) e

/-- Since the directory of the file was listed, no call has disturbed its backups. -/
def Undisturbed (res : Path → Ino) (path : Path) (h : History) : Prop :=
  ∃ later names earlier, h = later ++ ⟨.list (dirText path),.ok names⟩ :: earlier ∧ ∀ e ∈ later, ¬ Disturbs res path e

/-! ## Calls that tell nothing -/

/-- No link to a name that ends like that of a backup, and no listing. -/
def Unmarked : Call → Prop
  | .link _ dst => dst.getLast? ≠ some '~'
  | .list _ => False
  | _ => True

theorem backupText_last (base : Path) (ds : List Char) : (backupText base ds).getLast? = some '~' := by
  rw [backupText,List.getLast?_append]
  rfl

theorem next_unmarked {w : Knowledge} (settled : w.coming = none) (unmarked : Unmarked e.call) : w.next dir e = w := by
  have still : { w with coming := none } = w := by rw [← settled]
  obtain ⟨c,r⟩ := e
  cases r with
  | error err => cases c <;> exact still
  | ok x =>
    cases c with
    | list d => exact absurd unmarked id
    | alloc => simp only [Knowledge.next,settled]
    | link src dst =>
      have zero : numberOf src dst = 0 := by
        by_contra positive
        obtain ⟨ds,_,rfl,_⟩ := numberOf_pos positive
        exact unmarked (backupText_last src ds)
      simp only [Knowledge.next,zero,ne_eq,not_true_eq_false,and_false,↓reduceIte]
      exact still
    | _ => exact still

/-- What has settled stays as it was. -/
def Silent (h h' : History) : Prop := ∀ dir, (knowledge dir h).coming = none → knowledge dir h' = knowledge dir h

theorem Silent.refl (h : History) : Silent h h := fun _ _ => rfl

theorem Silent.trans {h'' : History} (one : Silent h h') (two : Silent h' h'') : Silent h h'' := fun dir settled =>
  (two dir (by rw [one dir settled]; exact settled)).trans (one dir settled)

theorem silent_unmarked (unmarked : Unmarked e.call) : Silent h (e :: h) := fun _ settled => next_unmarked settled unmarked

theorem silent_error {c : Call} {err : Errno} : Silent h (⟨c,.error err⟩ :: h) := by
  intro dir settled
  have still : { knowledge dir h with coming := none } = knowledge dir h := by rw [← settled]
  cases c <;> exact still

/-- A link tells no name until it is noted. -/
theorem next_link (w : Knowledge) (dir src dst : Path) :
    (w.next dir ⟨.link src dst,.ok ()⟩).names = w.names ∧
      ∀ name n, (w.next dir ⟨.link src dst,.ok ()⟩).coming = some (name,n) → name = baseText dst := by
  simp only [Knowledge.next]
  split
  · refine ⟨rfl,fun name n coming => ?_⟩
    exact (congrArg Prod.fst (Option.some.inj coming)).symm
  · exact ⟨rfl,by simp⟩

/-- Other calls but listings of the directory tell of a backup that was about to be noted,
    if of any. -/
theorem next_other {w : Knowledge} (listing : ∀ names, e ≠ ⟨.list dir,.ok names⟩) (own : ¬ OwnBackup dir e) :
    (w.next dir e).names = w.names ∧ (∀ name n, (w.next dir e).coming = some (name,n) → ∃ n, w.coming = some (name,n)) ∨
      ∃ name n, w.coming = some (name,n) ∧ w.next dir e = ⟨name :: w.names,none,w.listed⟩ := by
  obtain ⟨c,r⟩ := e
  cases r with
  | error err => cases c <;> exact .inl ⟨rfl,by simp [Knowledge.next]⟩
  | ok x =>
    cases c with
    | list d =>
      have other : d ≠ dir := by
        rintro rfl
        exact listing x rfl
      rw [Knowledge.next,if_neg other]
      exact .inl ⟨rfl,by simp⟩
    | link src dst =>
      rw [Knowledge.next,if_neg]
      · exact .inl ⟨rfl,by simp⟩
      · rintro ⟨same,_,positive⟩
        obtain ⟨ds,_,rfl,_⟩ := numberOf_pos positive
        exact own ⟨src,ds,rfl,same⟩
    | alloc =>
      obtain ⟨names,coming,listed⟩ := w
      cases coming with
      | none => exact .inl ⟨rfl,by simp [Knowledge.next]⟩
      | some x =>
        obtain ⟨name,n⟩ := x
        match n with
        | 0 => exact .inr ⟨name,0,rfl,rfl⟩
        | 1 => exact .inr ⟨name,1,rfl,rfl⟩
        | n + 2 =>
          refine .inl ⟨rfl,fun name' n' same => ⟨n + 2,?_⟩⟩
          have equal : (name,n + 1) = (name',n') := Option.some.inj same
          rw [(Prod.mk.inj equal).1]
    | _ => exact .inl ⟨rfl,by simp [Knowledge.next]⟩

/-! ## The listings in memory -/

/-- The listing of a directory in memory is what is known of it. -/
structure Faithful (h : History) (bd : BackupDir) : Prop where
  settled : (knowledge bd.dir h).coming = none
  listed : (knowledge bd.dir h).listed = true
  represents : ∃ S, Represents bd.entries S ∧
    ∀ b, b ≠ [] → ∀ ds, S b ds ↔ Decimal ds ∧ backupText b ds ∈ (knowledge bd.dir h).names

theorem Faithful.same {bd : BackupDir} (faithful : Faithful h bd) (same : knowledge bd.dir h' = knowledge bd.dir h) :
    Faithful h' bd := by
  obtain ⟨settled,listed,S,represents,means⟩ := faithful
  exact ⟨by rw [same]; exact settled,by rw [same]; exact listed,S,represents,by rw [same]; exact means⟩

theorem Faithful.silent {bd : BackupDir} (faithful : Faithful h bd) (silent : Silent h h') : Faithful h' bd :=
  faithful.same (silent bd.dir faithful.settled)

/-- What is found in the listing is the highest number that is known. -/
theorem Faithful.find {bd : BackupDir} (faithful : Faithful h bd) (same : bd.dir = dirText path) :
    (∀ e, backup_find bd path = some e → Decimal e.digits) ∧
      (baseText path ≠ [] → ((backup_find bd path).map fun e => number e.digits).getD 0 = known path h) := by
  obtain ⟨dir,entries⟩ := bd
  obtain rfl : dir = dirText path := same
  obtain ⟨_,_,S,represents,means⟩ := faithful
  refine ⟨fun e found => represents.decimal e ((represents.find _ _).mp found).1,fun nonempty => ?_⟩
  have greatest := represents.search (dirText path) path
  cases found : backup_find ⟨dirText path,entries⟩ path with
  | none =>
    rw [found] at greatest
    by_contra positive
    obtain ⟨ds,decimal,_,here⟩ := highest_mem (Ne.symm positive)
    exact greatest ds ((means _ nonempty ds).mpr ⟨decimal,here⟩)
  | some e =>
    rw [found] at greatest
    obtain ⟨_,there,most⟩ := greatest
    obtain ⟨decimal,here⟩ := (means _ nonempty _).mp there
    have least : number e.digits ≤ known path h := le_highest decimal here
    have positive : known path h ≠ 0 := Nat.ne_of_gt (Nat.lt_of_lt_of_le (number_pos decimal) least)
    obtain ⟨ds,decimal',same,here'⟩ := highest_mem positive
    have bound := most ds ((means _ nonempty ds).mpr ⟨decimal',here'⟩)
    exact Nat.le_antisymm least (by rw [same] at bound; exact bound)

/-! ## A backup that is noted -/

theorem baseText_backupText (path : Path) (decimal : Decimal ds) : baseText (backupText path ds) = backupBase path ds :=
  congrArg Prod.snd (entry_backupText (fun _ => 0) path decimal)

/-- Between the link to a backup and its note, with so many allocations to go. -/
structure Awaits (path : Path) (ds : List Char) (h h' : History) (n : Nat) : Prop where
  others : ∀ dir, dir ≠ dirText path → (knowledge dir h).coming = none → knowledge dir h' = knowledge dir h
  own : knowledge (dirText path) h' =
    { knowledge (dirText path) h with coming := if baseText path = [] then none else some (backupBase path ds,n) }

/-- The backup is noted, unless it is one of a file without a name. -/
structure Noted (path : Path) (ds : List Char) (h h' : History) : Prop where
  others : ∀ dir, dir ≠ dirText path → (knowledge dir h).coming = none → knowledge dir h' = knowledge dir h
  own : knowledge (dirText path) h' =
    { knowledge (dirText path) h with
      names := if baseText path = [] then (knowledge (dirText path) h).names else
        backupBase path ds :: (knowledge (dirText path) h).names
      coming := none }

theorem awaits_link (h : History) (decimal : Decimal ds) :
    Awaits path ds h (⟨.link path (backupText path ds),.ok ()⟩ :: h)
      (cost (baseText path) (knowledge (dirText path) h).names) where
  others dir other settled := by
    rw [knowledge,Knowledge.next,if_neg fun both => other both.1.symm]
    rw [← settled]
  own := by
    have numbered : numberOf path (backupText path ds) ≠ 0 := by
      rw [numberOf_backupText path decimal]
      exact Nat.ne_of_gt (number_pos decimal)
    rw [knowledge,Knowledge.next,baseText_backupText path decimal]
    by_cases empty : baseText path = []
    · rw [if_neg fun both => both.2.1 empty,if_pos empty]
    · rw [if_pos ⟨rfl,empty,numbered⟩,if_neg empty]

theorem next_settled {w : Knowledge} (settled : w.coming = none) : w.next dir ⟨.alloc,.ok ()⟩ = w :=
  next_unmarked settled trivial

theorem Awaits.alloc {n : Nat} (awaits : Awaits path ds h h' (n + 2)) : Awaits path ds h (⟨.alloc,.ok ()⟩ :: h') (n + 1) where
  others dir other settled := by
    have same := awaits.others dir other settled
    rw [knowledge,next_settled (by rw [same]; exact settled),same]
  own := by
    rw [knowledge,awaits.own]
    by_cases empty : baseText path = []
    · rw [if_pos empty,if_pos empty]
      rfl
    · rw [if_neg empty,if_neg empty]
      rfl

theorem Awaits.noted (awaits : Awaits path ds h h' 1) : Noted path ds h (⟨.alloc,.ok ()⟩ :: h') where
  others dir other settled := by
    have same := awaits.others dir other settled
    rw [knowledge,next_settled (by rw [same]; exact settled),same]
  own := by
    rw [knowledge,awaits.own]
    by_cases empty : baseText path = []
    · rw [if_pos empty,if_pos empty]
      rfl
    · rw [if_neg empty,if_neg empty]
      rfl

/-- Nothing is noted once an allocation has failed. -/
theorem Awaits.failed {n : Nat} {c : Call} {err : Errno} (awaits : Awaits path ds h h' n) : Silent h (⟨c,.error err⟩ :: h') := by
  have dropped : ∀ w dir, Knowledge.next dir w ⟨c,.error err⟩ = { w with coming := none } := fun w dir => by cases c <;> rfl
  intro dir settled
  have still : { knowledge dir h with coming := none } = knowledge dir h := by rw [← settled]
  rw [knowledge,dropped]
  by_cases own : dir = dirText path
  · subst own
    rw [awaits.own]
    exact still
  · rw [awaits.others dir own settled]
    exact still

/-- Nothing is awaited for a file without a name. -/
theorem Awaits.nameless {n : Nat} (awaits : Awaits path ds h h' n) (empty : baseText path = []) (n' : Nat) :
    Awaits path ds h h' n' := ⟨awaits.others,by rw [awaits.own,if_pos empty,if_pos empty]⟩

/-- A listing that has noted the backup is what is known again. -/
theorem Noted.faithful {entries : List BackupEntry} {S : Path → List Char → Prop} (noted : Noted path ds h h') (decimal : Decimal ds)
    (listed : (knowledge (dirText path) h).listed = true) (represents : Represents entries (also S ⟨baseText path,ds⟩))
    (means : ∀ b, b ≠ [] → ∀ ds, S b ds ↔ Decimal ds ∧ backupText b ds ∈ (knowledge (dirText path) h).names) :
    Faithful h' ⟨dirText path,entries⟩ := by
  refine ⟨by rw [noted.own],by rw [noted.own]; exact listed,_,represents,fun b nonempty ds' => ?_⟩
  rw [noted.own]
  by_cases empty : baseText path = []
  · rw [if_pos empty,also,means b nonempty]
    exact or_iff_left fun both => nonempty (both.1.trans empty)
  · rw [if_neg empty,also,means b nonempty,List.mem_cons]
    constructor
    · rintro (⟨decimal',here⟩ | ⟨rfl,rfl⟩)
      · exact ⟨decimal',.inr here⟩
      · exact ⟨decimal,.inl rfl⟩
    · rintro ⟨decimal',same | here⟩
      · exact .inr (backupText_inj decimal' decimal same)
      · exact .inl ⟨decimal',here⟩

end Newfile.Known
