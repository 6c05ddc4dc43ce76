import Newfile.Catalog

/-!
The functions of `backup.c` keep the ledger.
-/
namespace Newfile.Backups
open Newfile.Program Newfile.Program.Prog Newfile.Posix Newfile.Process Newfile.Pending Newfile.Flush Newfile.Place
open Newfile.Backup Newfile.Batch Newfile.Effects Newfile.Ledger Newfile.Bookkeeping Newfile.Places Newfile.Numbers
open Newfile.Simulation Function
open Newfile.Catalog (merged_represents sortEntries_perm sortEntries_sorted searchEntries_bsearch)
open Newfile.Ordered (bsearch_mem)

variable {paths : List Path} {spec : FileSpec} {α : Type} {m m' : Memory} {g g' : Book}

/-! ## Listings -/

/-- Digits, and nothing else. -/
def Digits (ds : List Char) : Prop := ∀ c ∈ ds, c.isDigit = true

/-- The digits that a part returns are digits. -/
def Numeral (r : Except Errno (List Char)) : Prop := ∀ ds, r = .ok ds → Digits ds

theorem digits_inc_tame {ds : List Char} (digits : Digits ds) : Tame none Numeral (digits_inc ds) := by
  obtain ⟨inner,_⟩ := incLoop_spec ds.reverse fun c here => digits c (List.mem_reverse.mp here)
  have kept : Digits (incLoop ds.reverse).1.reverse := fun c here => inner c (List.mem_reverse.mp here)
  rw [digits_inc]
  cases carry : (incLoop ds.reverse).2 with
  | true =>
    simp only [carry,↓reduceIte]
    refine tame_perform rfl fun r _ => ?_
    cases r with
    | error e => exact tame_ret (by simp [Numeral])
    | ok _ =>
      refine tame_ret ?_
      rintro _ ⟨⟩ c here
      rcases List.mem_cons.mp here with rfl | here
      · decide
      · exact kept c here
  | false =>
    simp only [carry,Bool.false_eq_true,↓reduceIte]
    refine tame_ret ?_
    rintro _ ⟨⟩
    exact kept

/-- The entries that a part returns are of decimal digits. -/
def Read (r : Except Errno (List BackupEntry)) : Prop := ∀ es, r = .ok es → ∀ e ∈ es, Decimal e.digits

theorem read_error (e : Errno) : Read (.error e) := by simp [Read]

theorem read_ok {es : List BackupEntry} (decimal : ∀ e ∈ es, Decimal e.digits) : Read (.ok es) := by
  rintro _ ⟨⟩
  exact decimal

theorem copyEntry_tame {es : List BackupEntry} {ds : List Char} (base : Path) (entries : ∀ e ∈ es, Decimal e.digits)
    (decimal : Decimal ds) : Tame none Read (copyEntry es base ds) := by
  refine tame_perform rfl fun one _ => tame_perform rfl fun two _ => ?_
  cases one with
  | error e => exact tame_ret (read_error _)
  | ok _ =>
    cases two with
    | error e => exact tame_ret (read_error _)
    | ok _ =>
      refine tame_ret (read_ok fun e member => ?_)
      rcases List.mem_append.mp member with old | new
      · exact entries e old
      · obtain rfl := List.mem_singleton.mp new
        exact decimal

theorem listLoop_tame : ∀ (names : List Path) (es : List BackupEntry) (cap : Nat), (∀ e ∈ es, Decimal e.digits) →
    Tame none Read (listLoop names es cap) := by
  intro names
  induction names with
  | nil => exact fun es cap entries => tame_ret (read_ok entries)
  | cons name names ih =>
    intro es cap entries
    rw [listLoop]
    split
    · exact ih es cap entries
    · rename_i base ds split_
      have room : Tame none (fun _ => True) (if (decide (es.length = cap)) = true then allocate else pure (.ok ())) := by
        split
        · exact tame_perform rfl fun _ _ => tame_ret trivial
        · exact tame_ret trivial
      refine Tame.bind room fun r _ => ?_
      cases r with
      | error e => exact tame_ret (read_error _)
      | ok _ =>
        refine Tame.bind (copyEntry_tame base entries (backup_split_decimal split_)) fun r copied => ?_
        cases r with
        | error e => exact tame_ret (read_error _)
        | ok es' => exact ih es' _ (copied es' rfl)

theorem backup_dir_list_tame (dir : Path) : Tame none Read (backup_dir_list dir) := by
  refine tame_perform rfl fun r _ => ?_
  cases r with
  | error e => exact tame_ret (read_error _)
  | ok names =>
    refine Tame.bind (listLoop_tame _ [] 0 (by simp)) fun r read => ?_
    cases r with
    | error e => exact tame_ret (read_error _)
    | ok es => exact tame_ret (read_ok (merged_represents (sortEntries_perm es) (sortEntries_sorted es) (read es rfl)).decimal)

/-- The listings may be replaced by others of digits. -/
theorem same_backups {backups : List BackupDir}
    (digits : ∀ bd ∈ backups, ∀ e ∈ bd.entries, Digits e.digits) : Same m { m with backups } :=
  ⟨rfl,rfl,rfl,rfl,rfl,⟨[],rfl⟩,Nat.le_refl _,fun tidy => ⟨digits,tidy.failed⟩⟩

theorem same_unlisted (m : Memory) : Same m { m with backups := [] } := same_backups (by simp)

/-- The listing that a part returns is of digits. -/
def Directory (r : Except Errno BackupDir) : Prop := ∀ bd, r = .ok bd → ∀ e ∈ bd.entries, Digits e.digits

theorem backup_dir_get_tame (path : Path) : Tame none Directory (backup_dir_get path) := by
  have read : Tame none Directory (backup_dir_get.listed (dirText path)) := by
    refine Tame.bind (backup_dir_list_tame _) fun r listed => ?_
    cases r with
    | error e => exact tame_ret (by simp [Directory])
    | ok es =>
      have digits : ∀ e ∈ es, Digits e.digits := fun e member => (listed es rfl e member).digits
      refine tame_modify (fun m tidy => same_backups ?_) (tame_ret ?_)
      · intro bd member
        rcases List.mem_append.mp member with old | new
        · exact tidy.digits bd old
        · obtain rfl := List.mem_singleton.mp new
          exact digits
      · rintro _ ⟨⟩
        exact digits
  refine tame_perform rfl fun r _ => ?_
  cases r with
  | error e => exact tame_ret (by simp [Directory])
  | ok _ =>
    refine tame_get fun m tidy => ?_
    split
    · rename_i bd found
      refine tame_ret ?_
      rintro _ ⟨⟩
      exact tidy.digits bd (List.mem_of_find?_eq_some found)
    · split
      · exact tame_modify (fun m _ => same_unlisted m) read
      · exact read

theorem backup_find_mem {bd : BackupDir} {path : Path} {e : BackupEntry} (found : backup_find bd path = some e) :
    e ∈ bd.entries := bsearch_mem (by rw [← searchEntries_bsearch]; exact found)

/-- The highest number that a part returns is of digits. -/
def Highest (r : Except Errno (Option (List Char))) : Prop := ∀ ds, r = .ok (some ds) → Digits ds

theorem backup_best_tame (path : Path) : Tame none Highest (backup_best path) := by
  refine Tame.bind (backup_dir_get_tame path) fun r got => ?_
  cases r with
  | error e => exact tame_ret (by simp [Highest])
  | ok bd =>
    dsimp only
    cases found : backup_find bd path with
    | none => exact tame_ret (by simp [Highest])
    | some e =>
      refine tame_perform rfl fun r _ => ?_
      cases r with
      | error e => exact tame_ret (by simp [Highest])
      | ok _ =>
        refine tame_ret ?_
        rintro _ ⟨⟩
        exact got bd rfl e (backup_find_mem found)

theorem setEntries_same {dir : Path} {entries : List BackupEntry} (tidy : Ledger.Tidy m)
    (digits : ∀ e ∈ entries, Digits e.digits) : Same m (setEntries m dir entries) := by
  refine same_backups fun bd member => ?_
  obtain ⟨bd',there,rfl⟩ := List.mem_map.mp member
  split
  · exact digits
  · exact tidy.digits bd' there

theorem insertNote_digits {e : BackupEntry} {es : List BackupEntry} (digits : Digits e.digits)
    (others : ∀ x ∈ es, Digits x.digits) : ∀ x ∈ insertNote e es, Digits x.digits := by
  intro x member
  rw [insertNote] at member
  rcases List.mem_append.mp member with front | back
  · exact others x (List.mem_of_mem_take front)
  · rcases List.mem_cons.mp back with rfl | behind
    · exact digits
    · exact others x (List.mem_of_mem_drop behind)

theorem backup_note_tame {ds : List Char} (path : Path) (digits : Digits ds) :
    Tame none (fun _ => True) (backup_note path ds) := by
  refine Tame.bind (backup_dir_get_tame path) fun r got => ?_
  cases r with
  | error e => exact tame_ret trivial
  | ok bd =>
    have others := got bd rfl
    refine tame_perform rfl fun r _ => ?_
    cases r with
    | error e => exact tame_ret trivial
    | ok _ =>
      dsimp only
      cases found : backup_find bd path with
      | some e =>
        dsimp only
        split
        · refine fun m tidy => ⟨setEntries_same tidy fun x member => ?_,trivial⟩
          obtain ⟨y,there,rfl⟩ := List.mem_map.mp member
          split
          · exact digits
          · exact others y there
        · exact tame_ret trivial
      | none =>
        refine tame_perform rfl fun base _ => tame_perform rfl fun grown _ => ?_
        cases base with
        | error e => exact tame_ret trivial
        | ok _ =>
          cases grown with
          | error e => exact tame_ret trivial
          | ok _ =>
            exact fun m tidy => ⟨setEntries_same tidy (insertNote_digits digits others),trivial⟩

theorem number_tame {best : Option (List Char)} (digits : ∀ ds, best = some ds → Digits ds) :
    Tame none Highest (backup_next.number best) := by
  cases best with
  | none =>
    refine tame_perform rfl fun r _ => ?_
    cases r with
    | error e => exact tame_ret (by simp [Highest])
    | ok _ =>
      refine tame_ret ?_
      rintro _ ⟨⟩
      simp [Digits]
  | some ds =>
    refine Tame.bind (digits_inc_tame (digits ds rfl)) fun r next => ?_
    cases r with
    | error e => exact tame_ret (by simp [Highest])
    | ok ds' =>
      refine tame_ret ?_
      rintro _ ⟨⟩
      exact next ds' rfl

/-! ## Making a backup -/

theorem backup_inside : PENDING_BACKUP < FRESH := by decide

theorem backup_slot : PENDING_BACKUP ≠ FRESH := backup_inside.ne

/-- A part that makes no name and removes none, with the file about to be backed up
    still in view. -/
def Aside (m : Memory) (g : Book) (m' : Memory) (g' : Book) : Prop := Onward [] [] (Minor False) m g m' g' ∧ g'.old = g.old

theorem Aside.refl (m : Memory) (g : Book) : Aside m g m g := ⟨Onward.refl m g,rfl⟩

theorem Aside.trans {m'' : Memory} {g'' : Book} (one : Aside m g m' g') (two : Aside m' g' m'' g'') : Aside m g m'' g'' :=
  ⟨one.1.trans two.1,two.2.trans one.2⟩

theorem Same.aside (same : Same m m') (g : Book) : Aside m g m' g := ⟨same_onward same g,rfl⟩

theorem Aside.rest (aside : Aside m g m' g') (rest : Rest g) : Rest g' := rest.onward aside.1 (by simp) (by simp)

theorem Aside.room {j : Nat} (aside : Aside m g m' g') (room : g.live j = none) : g'.live j = none :=
  (aside.1.live j (by simp)).trans room

theorem owned_freed {j : Nat} {s t : Str} (owned : Owned g m j s) : Owned g { m with freed := t.block.toList ++ m.freed } j s := owned

theorem first_backup_exists_spec (path : Path) (rest : Rest g) (room : g.live PENDING_BACKUP = none) :
    Follows (ledger paths spec) (first_backup_exists path) (fun _ m' g' => Aside m g m' g') m g := by
  rw [first_backup_exists,backup_name]
  refine follows_newStr PENDING_BACKUP (fun e => follows_pure (Aside.refl m g)) fun freed => ?_
  have whole := newStr_whole g PENDING_BACKUP (backupText path "1".toList) freed
  refine follows_silent rfl fun found _ => follows_free (Whole.owned whole) backup_slot rest.2.1 room ?_
  have aside : Aside m g { m with heap := m.heap+1, freed := [m.heap] ++ m.freed }
      { g with owner := update g.owner m.heap PENDING_BACKUP } :=
    ⟨(newStr_onward m g PENDING_BACKUP).trans (free_onward _ _ ⟨[],some m.heap⟩),rfl⟩
  cases found with
  | error e => exact follows_pure aside
  | ok _ => exact follows_pure aside

theorem backup_next_spec (path : Path) (control : String) (rest : Rest g) (room : g.live PENDING_BACKUP = none) :
    Follows (ledger paths spec) (backup_next path control) (fun r m' g' => Aside m g m' g' ∧ Highest r) m g := by
  have numbered : ∀ {m : Memory} {g : Book} {best : Option (List Char)}, (∀ ds, best = some ds → Digits ds) →
      Follows (ledger paths spec) (backup_next.number best) (fun r m' g' => Aside m g m' g' ∧ Highest r) m g := by
    intro m g best digits
    refine follows_mono ((number_tame digits).follows (by simp [Writes])) ?_
    rintro r m' _ _ ⟨highest,same,rfl⟩
    exact ⟨Same.aside same _,highest⟩
  rw [backup_next]
  split
  · exact follows_pure ⟨Aside.refl m g,by simp [Highest]⟩
  · refine follows_tame (backup_best_tame path) fun r m₁ highest same => ?_
    have aside : Aside m g m₁ g := Same.aside same g
    cases r with
    | error e =>
      dsimp only
      split
      · exact follows_pure ⟨aside,by simp [Highest]⟩
      · split
        · refine follows_mono (numbered (by simp)) ?_
          rintro r m₂ g₂ _ ⟨aside',highest'⟩
          exact ⟨aside.trans aside',highest'⟩
        · refine follows_seq (first_backup_exists_spec path rest room) ?_
          rintro first m₂ g₂ _ aside'
          cases first with
          | true =>
            rw [if_pos rfl]
            refine follows_mono (numbered (by simp)) ?_
            rintro r m₃ g₃ _ ⟨aside'',highest'⟩
            exact ⟨(aside.trans aside').trans aside'',highest'⟩
          | false =>
            rw [if_neg (by simp)]
            exact follows_pure ⟨aside.trans aside',by simp [Highest]⟩
    | ok best =>
      dsimp only
      split
      · refine follows_mono (numbered fun ds is => highest ds (by rw [is])) ?_
        rintro r m₂ g₂ _ ⟨aside',highest'⟩
        exact ⟨aside.trans aside',highest'⟩
      · exact follows_pure ⟨aside,by simp [Highest]⟩

/-- A backup of a file that is in view, under a name that is armed. -/
structure Linked (path : Path) (n : Ino) (name : Str) (left : Prop) (m : Memory) (g : Book) (m' : Memory) (g' : Book) : Prop where
  onward : Onward [PENDING_BACKUP] [] (Minor left) m g m' g'
  live : g'.live PENDING_BACKUP = some ⟨name.text,n,.backup⟩
  old : g'.old = g.old

theorem backup_link_spec {path : Path} {name : Str} {st : Stat} (member : path ∈ paths) (force : spec.force_mode = true)
    (rest : Rest g) (room : g.live PENDING_BACKUP = none) (old : g.old = some (path,st.ino))
    (fits : BackupOf path name.text) (whole : Whole g m PENDING_BACKUP name) :
    Follows (ledger paths spec) (backup_link path name st) (fun r m' g' =>
      match r with
      | .ok _ => Linked path st.ino name False m g m' g'
      | .error e => m' = m ∧ Aside m g m g' ∧ g'.owner = g.owner ∧ (e = .EEXIST → g'.taken = some name.text)) m g := by
  rw [backup_link]
  refine follows_hold (follows_call fun _ _ r _ => ?_)
  cases r with
  | error e =>
    by_cases exist : e = .EEXIST
    · subst exist
      refine ⟨_,.exists_,follows_release rest.closed (follows_pure ⟨rfl,⟨?_,rfl⟩,rfl,fun _ => rfl⟩)⟩
      exact ⟨fun _ _ => rfl,fun _ _ => rfl,rfl,List.Subset.refl _,Nat.le_refl _,fun _ _ => rfl,Nat.le_refl _,
        List.Subset.refl _,⟨[],rfl,by simp⟩⟩
    · exact ⟨g,.quiet (.inr ⟨e,rfl⟩),follows_release rest.closed
        (follows_pure ⟨rfl,Aside.refl m g,rfl,fun same => absurd same exist⟩)⟩
  | ok _ =>
    have live : (g.fresh ⟨name.text,st.ino,.backup⟩).live FRESH = some ⟨name.text,st.ino,.backup⟩ := by simp
    have room' : (g.fresh ⟨name.text,st.ino,.backup⟩).live PENDING_BACKUP = none := by simpa [backup_slot] using room
    have onward : Onward [FRESH] [] (Minor False) { m with blocked := true } g { m with blocked := true }
        (g.fresh ⟨name.text,st.ino,.backup⟩) := fresh_onward _ (by simp)
    have clean : (g.fresh ⟨name.text,st.ino,.backup⟩).lag = [] := rest.2.1
    refine ⟨_,.backLink rfl rest.1 rest.2.1 rest.2.2 force member fits old,?_⟩
    refine follows_step (.arm clean live rfl room' backup_inside whole) (follows_release ?_ (follows_pure ?_))
    · exact ⟨by simp [backup_slot.symm],rest.2.1⟩
    · exact ⟨arm_onward (r := ⟨name.text,st.ino,.backup⟩) rest onward,by simp,rfl⟩

theorem Linked.after {path : Path} {n : Ino} {name : Str} {m₁ : Memory} {g₁ : Book} (aside : Aside m g m₁ g₁)
    (linked : Linked path n name False m₁ g₁ m' g') : Linked path n name False m g m' g' where
  onward := (aside.1.mono (by simp) (List.Subset.refl _) fun _ => id).trans linked.onward
  live := linked.live
  old := linked.old.trans aside.2

theorem Linked.before {path : Path} {n : Ino} {name : Str} {m₁ : Memory} {g₁ : Book}
    (linked : Linked path n name False m g m₁ g₁) (aside : Aside m₁ g₁ m' g') : Linked path n name False m g m' g' where
  onward := linked.onward.trans (aside.1.mono (by simp) (List.Subset.refl _) fun _ => id)
  live := (aside.1.live _ (by simp)).trans linked.live
  old := aside.2.trans linked.old

theorem newStr_aside (m : Memory) (g : Book) :
    Aside m g { m with heap := m.heap+1 } { g with owner := update g.owner m.heap PENDING_BACKUP } :=
  ⟨newStr_onward m g PENDING_BACKUP,rfl⟩

theorem free_aside (m : Memory) (g : Book) (s : Str) : Aside m g { m with freed := s.block.toList ++ m.freed } g :=
  ⟨free_onward m g s,rfl⟩

theorem backup_numbered_spec {path : Path} {st : Stat} (member : path ∈ paths) (force : spec.force_mode = true) :
    ∀ (fuel : Nat) (digits : List Char) (m : Memory) (g : Book), Digits digits → Rest g → g.live PENDING_BACKUP = none →
      g.old = some (path,st.ino) →
      Follows (ledger paths spec) (backup_numbered path st fuel digits) (fun r m' g' =>
        match r with
        | .ok name => Linked path st.ino name False m g m' g' ∧ BackupOf path name.text ∧ Owned g' m' PENDING_BACKUP name
        | .error _ => Aside m g m' g') m g := by
  intro fuel
  induction fuel with
  | zero => exact fun _ _ _ _ _ _ _ _ => trivial
  | succ fuel ih =>
    intro digits m g numeral rest room old
    rw [backup_numbered,backup_name]
    refine follows_newStr PENDING_BACKUP (fun e => follows_pure (Aside.refl m g)) fun freed => ?_
    have whole := newStr_whole g PENDING_BACKUP (backupText path digits) freed
    have fits : BackupOf path (backupText path digits) := .inr ⟨digits,numeral,rfl⟩
    have named := newStr_aside m g
    refine follows_seq (backup_link_spec member force rest room old fits whole) ?_
    rintro r m₁ g₁ _ result
    cases r with
    | ok _ =>
      refine follows_tame (backup_note_tame path numeral) fun _ m₂ _ same => follows_pure ?_
      have linked : Linked path st.ino ⟨backupText path digits,some m.heap⟩ False m g m₂ g₁ :=
        (result.before (Same.aside same g₁)).after named
      refine ⟨linked,fits,fun b block => ?_⟩
      obtain ⟨owner,below⟩ := (Whole.owned whole).onward result.onward b block
      exact ⟨owner,by rw [same.heap]; exact below⟩
    | error e =>
      obtain ⟨rfl,aside,owner,_⟩ := result
      have aside' := named.trans aside
      refine follows_free ((Whole.owned whole).onward aside.1) backup_slot (aside'.rest rest).2.1 (aside'.room room) ?_
      have done := aside'.trans (free_aside { m with heap := m.heap+1 } g₁ ⟨backupText path digits,some m.heap⟩)
      dsimp only
      split
      · exact follows_pure done
      · refine follows_tame (digits_inc_tame numeral) fun r m₂ next same => ?_
        have still := done.trans (Same.aside same g₁)
        cases r with
        | error e => exact follows_pure still
        | ok digits' =>
          refine follows_mono (ih digits' m₂ g₁ (next digits' rfl) (aside'.rest rest) (aside'.room room) (aside'.2.trans old)) ?_
          rintro r m₃ g₃ _ result
          cases r with
          | ok name => exact ⟨result.1.after still,result.2⟩
          | error e => exact still.trans result

/-- A backup of the file that is about to be replaced, and whether a temporary name was left. -/
structure BackedUp (path : Path) (n : Ino) (name : Str) (left : Bool) (m : Memory) (g : Book) (m' : Memory) (g' : Book) :
    Prop where
  onward : Onward [PENDING_BACKUP] [PENDING_BACKUP] (Minor (left = true)) m g m' g'
  old : g'.old = some (path,n)
  backed : Backed g' path
  owned : Owned g' m' PENDING_BACKUP name

/-- No backup was made, and no name for one is there that the ledger knows of. -/
def Unbacked (m : Memory) (g : Book) (m' : Memory) (g' : Book) : Prop :=
  Onward [PENDING_BACKUP] [PENDING_BACKUP] (Minor True) m g m' g' ∧ g'.live PENDING_BACKUP = none

theorem Aside.unbacked (aside : Aside m g m' g') (room : g.live PENDING_BACKUP = none) : Unbacked m g m' g' :=
  ⟨aside.1.mono (by simp) (by simp) fun _ => Minor.mono False.elim,aside.room room⟩

theorem Linked.backedUp {path : Path} {n : Ino} {name : Str} (linked : Linked path n name False m g m' g')
    (old : g.old = some (path,n)) (fits : BackupOf path name.text) (owned : Owned g' m' PENDING_BACKUP name) :
    BackedUp path n name false m g m' g' where
  onward := linked.onward.mono (List.Subset.refl _) (by simp) fun _ => Minor.mono False.elim
  old := linked.old.trans old
  backed := .inr ⟨name.text,n,linked.live,fits,linked.old.trans old⟩
  owned := owned

/-- A link to the old file is renamed over the name of a backup that is taken. -/
theorem twinMove_onward (a b : Path) (n : Ino) (path : Path) {left : Prop} {files : List Nat} :
    Onward [PENDING_BACKUP] files (Minor left) m g m { g with
      live := update g.live PENDING_BACKUP (some ⟨a,n,.twinned⟩), trail := .reused path b n :: g.trail, taken := none } := by
  refine ⟨?_,fun _ _ => rfl,rfl,List.Subset.refl _,Nat.le_refl _,fun _ _ => rfl,Nat.le_refl _,List.Subset.refl _,
    ⟨[.reused path b n],rfl,by simp [Minor]⟩⟩
  intro j other
  exact update_of_ne (by simpa using other) _ _

theorem backup_simple_spec {path : Path} {st : Stat} (member : path ∈ paths) (force : spec.force_mode = true)
    (rest : Rest g) (room : g.live PENDING_BACKUP = none) (old : g.old = some (path,st.ino)) :
    Follows (ledger paths spec) (backup_simple path st) (fun r m' g' =>
      match r with
      | .ok (name,left) => BackedUp path st.ino name left m g m' g'
      | .error _ => Unbacked m g m' g') m g := by
  rw [backup_simple]
  refine follows_newStr PENDING_BACKUP (fun e => follows_pure ((Aside.refl m g).unbacked room)) fun freed => ?_
  have whole := newStr_whole g PENDING_BACKUP (path ++ "~".toList) freed
  have fits : BackupOf path (path ++ "~".toList) := .inl rfl
  have named := newStr_aside m g
  refine follows_seq (backup_link_spec member force rest room old fits whole) ?_
  rintro r m₁ g₁ _ result
  cases r with
  | ok _ =>
    have linked : Linked path st.ino ⟨path ++ "~".toList,some m.heap⟩ False m g m₁ g₁ := Linked.after named result
    exact follows_pure (linked.backedUp old fits ((Whole.owned whole).onward result.onward))
  | error e =>
    obtain ⟨rfl,aside,owner,taken⟩ := result
    have aside' := named.trans aside
    have rest₁ := aside'.rest rest
    have room₁ := aside'.room room
    have owned₁ := (Whole.owned whole).onward aside.1
    dsimp only
    split
    · refine follows_free owned₁ backup_slot rest₁.2.1 room₁ (follows_pure ?_)
      exact (aside'.trans (free_aside _ g₁ ⟨path ++ "~".toList,some m.heap⟩)).unbacked room
    · rename_i exist
      have there : g₁.taken = some (path ++ "~".toList) := taken (by simpa using exist)
      refine follows_seq (place_temp_alias_spec member force backup_inside rest₁ room₁ (aside'.2.trans old) there) ?_
      rintro r m₂ g₂ _ result
      cases r with
      | error e =>
        have sofar : Onward [] [PENDING_BACKUP] (Minor False) m g m₂ g₂ :=
          (aside'.1.mono (List.Subset.refl _) (by simp) fun _ => id).trans result
        have gone := (result.live _ (by simp)).trans room₁
        refine follows_free (owned₁.onward result) backup_slot (result.lag.trans rest₁.2.1) gone (follows_pure ⟨?_,gone⟩)
        exact (sofar.trans (free_onward m₂ g₂ ⟨path ++ "~".toList,some m.heap⟩)).mono (by simp) (List.Subset.refl _)
          fun _ => Minor.mono False.elim
      | ok tmp =>
        obtain ⟨onward,live,old₂,there₂,owned₂,temp⟩ := result
        have sofar : ∀ left, Onward [PENDING_BACKUP] [PENDING_BACKUP] (Minor left) m g m₂ g₂ := fun left =>
          ((aside'.1.mono (by simp) (by simp) fun _ => id).trans onward).mono (List.Subset.refl _) (List.Subset.refl _)
            fun _ => Minor.mono False.elim
        have clean : g₂.lag = [] := onward.lag.trans rest₁.2.1
        have fresh : g₂.live FRESH = none := (onward.live FRESH (by decide)).trans rest₁.1
        have mine := owned₁.onward onward
        refine follows_call fun _ _ r _ => ?_
        cases r with
        | error e =>
          refine ⟨g₂,.quiet (.inr ⟨e,rfl⟩),follows_seq (pending_remove_spec backup_slot clean) ?_⟩
          rintro removed m₃ g₃ _ ⟨dropped,gone,_⟩
          have clean₃ : g₃.lag = [] := dropped.lag.trans clean
          refine follows_free (owned₂.onward dropped) backup_slot clean₃ gone ?_
          refine follows_free (owned_freed (mine.onward dropped)) backup_slot clean₃ gone (follows_pure ⟨?_,gone⟩)
          refine (sofar True).trans ((dropped.mono (List.Subset.refl _) (by simp) fun _ => Minor.mono fun _ => trivial).trans ?_)
          exact (free_onward m₃ g₃ tmp).trans (free_onward _ g₃ ⟨path ++ "~".toList,some m.heap⟩)
        | ok _ =>
          refine ⟨_,.twinMove fresh clean force member fits old₂ live temp there₂,?_⟩
          refine follows_seq (pending_remove_spec backup_slot clean) ?_
          rintro removed m₃ g₃ _ ⟨dropped,gone,old₃⟩
          have clean₃ : g₃.lag = [] := dropped.lag.trans clean
          have moved : ∀ left, Onward [PENDING_BACKUP] [PENDING_BACKUP] (Minor left) m₂ g₂ m₂ _ := fun _ =>
            twinMove_onward tmp.text (path ++ "~".toList) st.ino path
          refine follows_free ((owned₂.onward (moved False)).onward dropped) backup_slot clean₃ gone (follows_pure ?_)
          have all := (sofar (removed = false)).trans ((moved (removed = false)).trans
            (dropped.mono (List.Subset.refl _) (by simp) fun _ => id))
          refine ⟨?_,old₃.trans old₂,.inl gone,?_⟩
          · exact (all.trans (free_onward m₃ g₃ tmp)).mono (List.Subset.refl _) (List.Subset.refl _)
              fun _ => Minor.mono (by simp)
          · exact owned_freed ((mine.onward (moved False)).onward dropped)

/-- What there is to show of a backup for a file that is about to be replaced. -/
def Prepared (path : Path) (m : Memory) (g : Book) (r : Except Errno (Option MadeBackup)) (m' : Memory) (g' : Book) : Prop :=
  match r with
  | .ok (some made) => BackedUp path made.old.ino made.name made.left m g m' g'
  | .ok none => Aside m g m' g'
  | .error _ => Unbacked m g m' g'

theorem regard_onward {files : List Nat} {ok : Deed → Prop} (path : Path) (n : Ino) :
    Onward [] files ok m g m { g with old := some (path,n) } :=
  ⟨fun _ _ => rfl,fun _ _ => rfl,rfl,List.Subset.refl _,Nat.le_refl _,fun _ _ => rfl,Nat.le_refl _,List.Subset.refl _,
    ⟨[],rfl,by simp⟩⟩

theorem Unbacked.after {m₁ : Memory} {g₁ : Book} (before : Onward [] [PENDING_BACKUP] (Minor False) m g m₁ g₁)
    (unbacked : Unbacked m₁ g₁ m' g') : Unbacked m g m' g' :=
  ⟨(before.mono (by simp) (List.Subset.refl _) fun _ => Minor.mono False.elim).trans unbacked.1,unbacked.2⟩

theorem BackedUp.after {path : Path} {n : Ino} {name : Str} {left : Bool} {m₁ : Memory} {g₁ : Book}
    (before : Onward [] [PENDING_BACKUP] (Minor False) m g m₁ g₁) (made : BackedUp path n name left m₁ g₁ m' g') :
    BackedUp path n name left m g m' g' where
  onward := (before.mono (by simp) (List.Subset.refl _) fun _ => Minor.mono False.elim).trans made.onward
  old := made.old
  backed := made.backed
  owned := made.owned

theorem backup_make_spec {path : Path} (fuel : Nat) (control : String) (member : path ∈ paths) (force : spec.force_mode = true)
    (rest : Rest g) (room : g.live PENDING_BACKUP = none) :
    Follows (ledger paths spec) (backup_make fuel path control) (Prepared path m g) m g := by
  rw [backup_make]
  split
  · exact follows_pure (Aside.refl m g)
  · refine follows_perform (fun e => ?_) fun _ _ st _ => ⟨_,.regard rest.1 room,?_⟩
    · dsimp only
      split
      · exact follows_pure (Aside.refl m g)
      · exact follows_pure ((Aside.refl m g).unbacked room)
    · have before : Onward [] [PENDING_BACKUP] (Minor False) m g m { g with old := some (path,st.ino) } :=
        regard_onward path st.ino
      dsimp only
      split
      · exact follows_pure (Unbacked.after before ((Aside.refl m _).unbacked room))
      · refine follows_seq (backup_next_spec path control rest room) ?_
        rintro r m₁ g₁ _ ⟨aside,highest⟩
        have before₁ : Onward [] [PENDING_BACKUP] (Minor False) m g m₁ g₁ :=
          before.trans (aside.1.mono (List.Subset.refl _) (by simp) fun _ => id)
        have rest₁ := aside.rest (g := { g with old := some (path,st.ino) }) rest
        have room₁ := aside.room (g := { g with old := some (path,st.ino) }) room
        have old₁ : g₁.old = some (path,st.ino) := aside.2
        rcases r with e | digits
        · exact follows_pure (Unbacked.after before₁ ((Aside.refl m₁ g₁).unbacked room₁))
        · cases digits with
          | none =>
            refine follows_seq (backup_simple_spec member force rest₁ room₁ old₁) ?_
            rintro r m₂ g₂ _ result
            rcases r with e | ⟨name,left⟩
            · exact follows_pure (Unbacked.after before₁ result)
            · exact follows_pure (BackedUp.after before₁ result)
          | some digits =>
            refine follows_seq (backup_numbered_spec member force fuel digits m₁ g₁ (highest digits rfl) rest₁ room₁ old₁) ?_
            rintro r m₂ g₂ _ result
            rcases r with e | name
            · exact follows_pure (Unbacked.after before₁ (Aside.unbacked result room₁))
            · obtain ⟨linked,fits,owned⟩ := result
              exact follows_pure (BackedUp.after before₁ (linked.backedUp old₁ fits owned))

end Newfile.Backups
