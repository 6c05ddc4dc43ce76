import Newfile.Known
import Newfile.Traces
import Newfile.Walks

/-!
The naming phase of a batch with `-f`: every call that makes a backup, with what the
calls before it have told of the directory.
-/
namespace Newfile.Listings
open Newfile.Program Newfile.Posix Newfile.Process Newfile.Pending Newfile.Fastio Newfile.Flush
open Newfile.Place Newfile.Backup Newfile.Batch Newfile.Calls Newfile.Numbers Newfile.Known Newfile.Walks
open Newfile.Catalog (scanned scanned_decimal pairs_scanned merged_represents sortEntries_perm sortEntries_sorted also)
open Newfile.Suffixes (backupText_inj)
open Newfile.Answers (touched exec_touched exec_list exec_link)

variable {α β ε : Type} {res : Path → Ino} {control : String} {k k' : Kernel} {h h' : History} {m m' : Memory} {path : Path}

/-! ## The system and the condition -/

/-- Every directory can be listed, and an allocation fails for want of memory only. -/
def listable (res : Path → Ino) : System posix Kernel := fun k c r k' =>
  exec res k c r k' ∧ match c, r with
    | .list _, .error _ => False
    | .alloc, .error e => e = .ENOMEM
    | _, _ => True

def Numbered (control : String) : Prop := control = "numbered" ∨ control = "t"

/-- A numbered backup is made where there is one already. -/
def Existing (control : String) : Prop := control ≠ "simple" ∧ control ≠ "never" ∧ ¬ Numbered control

/-- At a link to the name of a backup: the directory was listed, and a number is tried
    after all those that are known, and the simple name where none is. -/
def Checked (res : Path → Ino) (control : String) (s : Kernel × History) : Call → Prop
  | .link src dst =>
    (∀ ds, dst = backupText src ds → Decimal ds ∧ (knowledge (dirText src) s.2).listed = true ∧ (baseText src ≠ [] →
      Tried res (Existing control) s.1 src (known src s.2) (number ds))) ∧
    (dst = src ++ "~".toList → ¬ Numbered control ∧ (Existing control → (knowledge (dirText src) s.2).listed = true ∧
      (baseText src ≠ [] → known src s.2 = 0)))
  | _ => True

abbrev Guards (res : Path → Ino) (control : String) (p : P α) (Q : α → Kernel × History → Memory → Prop) :
    Kernel × History → Memory → Prop :=
  guards (Traces.logged (listable res)) (fun s _ c => Checked res control s c) p Q

/-- The listings in memory are what is known, one for each directory. -/
structure Kept (h : History) (m : Memory) : Prop where
  faithful : ∀ bd ∈ m.backups, Faithful h bd
  unique : (m.backups.map BackupDir.dir).Nodup

theorem kept_blank (h : History) (blank : m.backups = []) : Kept h m := ⟨by simp [blank],by simp [blank]⟩

theorem Kept.same (kept : Kept h m) (same : m'.backups = m.backups) : Kept h m' :=
  ⟨by rw [same]; exact kept.faithful,by rw [same]; exact kept.unique⟩

theorem Kept.silent (kept : Kept h m) (silent : Silent h h') : Kept h' m :=
  ⟨fun bd here => (kept.faithful bd here).silent silent,kept.unique⟩

/-- The directory of a file has a listing. -/
def Cached (path : Path) (m : Memory) : Prop := ∃ bd ∈ m.backups, bd.dir = dirText path

theorem Cached.same (cached : Cached path m) (same : m'.backups = m.backups) : Cached path m' := by
  rw [Cached,same]
  exact cached

/-- Nothing is about to be noted in a directory that has a listing. -/
theorem Kept.settled (kept : Kept h m) (cached : Cached path m) : (knowledge (dirText path) h).coming = none := by
  obtain ⟨bd,here,same⟩ := cached
  rw [← same]
  exact (kept.faithful bd here).settled

theorem Kept.listed (kept : Kept h m) (cached : Cached path m) : (knowledge (dirText path) h).listed = true := by
  obtain ⟨bd,here,same⟩ := cached
  rw [← same]
  exact (kept.faithful bd here).listed

theorem Kept.known (kept : Kept h m) (cached : Cached path m) (silent : Silent h h') : known path h' = known path h := by
  rw [Known.known,silent _ (kept.settled cached)]
  rfl

/-! ## What has nothing to do with backups -/

/-- A program that makes no backup and leaves the listings alone. -/
abbrev Apart (p : P α) : Prop := uses Unmarked (fun m m' : Memory => m'.backups = m.backups) p

theorem Apart.kept {p : P α} {s : Kernel × History} (apart : Apart p) (kept : Kept s.2 m) :
    Guards res control p (fun _ s' m' => Kept s'.2 m') s m := by
  refine guards_uses (S := fun (s : Kernel × History) m => Kept s.2 m) apart (fun s _ c unmarked => ?_) (fun s m c r s' kept unmarked answered => ?_)
    (fun s m m' kept same => kept.same same) kept
  · cases c with
    | link src dst =>
      refine ⟨fun ds same => absurd ?_ unmarked,fun same => absurd ?_ unmarked⟩
      · rw [same]
        exact backupText_last src ds
      · simp [same]
    | _ => trivial
  · rw [answered.2]
    exact kept.silent (silent_unmarked unmarked)

theorem handles_apart : Handles fun _ p => Apart p :=
  handles_uses (fun {c} _ => by cases c <;> trivial) Tables.backups

theorem naming_apart : Naming (fun _ p => Apart p) fun _ => True where
  toHandles := handles_apart
  spin := uses_spin
  read rest m := ⟨rfl,rest m fun _ _ => trivial⟩
  open_dir _ _ := uses_sys trivial
  fstat _ := uses_sys trivial
  fsync _ := uses_sys trivial
  close _ := uses_sys trivial
  failed := handles_apart.dir_failed (uses_modify fun _ => rfl) (uses_modify fun _ => rfl) fun _ => uses_modify fun _ => rfl
  emptied := uses_modify fun _ => rfl
  queued _ _ := uses_modify fun _ => rfl
  rename _ _ := uses_sys trivial
  exchange _ _ := uses_sys trivial
  linkat _ _ := uses_sys trivial
  hold _ := uses_modify fun _ => rfl
  unhold := uses_modify fun _ => rfl
  told _ := uses_modify fun _ => rfl

/-- The name of a temporary file does not end like that of a backup. -/
theorem temporary_last (front : Path) (rnd : List Nat) : (front ++ TEMP_STEM ++ suffixOf rnd).getLast? ≠ some '~' := by
  intro last
  have chars : '~' ∉ tempChars := by decide
  have stem : '~' ∉ TEMP_STEM := by decide
  have member : '~' ∈ TEMP_STEM ++ suffixOf rnd := by
    rw [List.append_assoc,List.getLast?_append] at last
    obtain ⟨c,tail⟩ : ∃ c, (TEMP_STEM ++ suffixOf rnd).getLast? = some c := by
      rw [List.getLast?_append]
      cases (suffixOf rnd).getLast? with
      | none => exact ⟨'.',rfl⟩
      | some c => exact ⟨c,rfl⟩
    rw [tail] at last
    obtain rfl : c = '~' := by simpa using last
    exact List.mem_of_getLast? tail
  rcases List.mem_append.mp member with here | here
  · exact stem here
  · exact chars (Newfile.Places.suffixOf_chars rnd '~' here)

theorem place_temp_alias_apart (src : Path) (st : Stat) (slot : Nat) : Apart (place_temp_alias src st slot) :=
  handles_apart.place_temp_alias slot fun front rnd => uses_sys (temporary_last front rnd)

/-! ## Reading a listing -/

theorem guards_allocate {f : Except Errno Unit → P β} {Q : β → Kernel × History → Memory → Prop}
    (failed : Guards res control (f (.error .ENOMEM)) Q (k,⟨.alloc,.error .ENOMEM⟩ :: h) m)
    (fine : Guards res control (f (.ok ())) Q (k,⟨.alloc,.ok ()⟩ :: h) m) :
    Guards res control (allocate >>= f) Q (k,h) m := by
  refine ⟨trivial,fun r s answered => ?_⟩
  obtain ⟨k',h'⟩ := s
  obtain ⟨⟨answered,memory⟩,rfl⟩ := answered
  change exec res k .alloc r k' at answered
  rcases exec_cases answered with ⟨e,_,rfl,rfl⟩ | ⟨hints,x,found,rfl,rfl⟩
  · obtain rfl : e = .ENOMEM := memory
    exact failed
  · obtain rfl := Option.some.inj found
    exact fine

theorem guards_get {f : Memory → P β} {Q : β → Kernel × History → Memory → Prop} {s : Kernel × History}
    (rest : Guards res control (f m) Q s m) : Guards res control (get >>= f) Q s m := rest

theorem guards_step {g : Memory → Memory} {f : Unit → P β} {Q : β → Kernel × History → Memory → Prop} {s : Kernel × History}
    (rest : Guards res control (f ()) Q s (g m)) : Guards res control (modify g >>= f) Q s m := rest

/-- The rule for an allocation that notes nothing. -/
theorem guards_alloc {f : Except Errno Unit → P β} {Q : β → Kernel × History → Memory → Prop}
    (rest : ∀ r h', Silent h h' → (∀ e, r = .error e → e = .ENOMEM) → Guards res control (f r) Q (k,h') m) :
    Guards res control (allocate >>= f) Q (k,h) m :=
  guards_allocate (rest _ _ (silent_unmarked trivial) fun _ same => (Except.error.inj same).symm)
    (rest _ _ (silent_unmarked trivial) (by simp))

/-- What reading names comes to: nothing but memory can be wanting. -/
structure Read (k : Kernel) (h : History) (m : Memory) (entries : List BackupEntry) (r : Except Errno (List BackupEntry))
    (s : Kernel × History) (m' : Memory) : Prop where
  kernel : s.1 = k
  memory : m' = m
  silent : Silent h s.2
  failed : ∀ e, r = .error e → e = .ENOMEM
  fine : ∀ es, r = .ok es → es = entries

variable {entries es : List BackupEntry}

theorem Read.full (silent : Silent h h') : Read k h m entries (.error .ENOMEM) (k,h') m :=
  ⟨rfl,rfl,silent,fun _ same => (Except.error.inj same).symm,by simp⟩

theorem Read.done (silent : Silent h h') : Read k h m entries (.ok entries) (k,h') m :=
  ⟨rfl,rfl,silent,by simp,fun _ same => (Except.ok.inj same).symm⟩

theorem Read.later {r : Except Errno (List BackupEntry)} {s : Kernel × History} (silent : Silent h h') (read : Read k h' m entries r s m') :
    Read k h m entries r s m' := { read with silent := silent.trans read.silent }

theorem copyEntry_read (es : List BackupEntry) (base : Path) (ds : List Char) :
    Guards res control (copyEntry es base ds) (Read k h m (es ++ [⟨base,ds⟩])) (k,h) m := by
  refine guards_alloc fun one h' first _ => guards_alloc fun two h'' second _ => ?_
  have silent := first.trans second
  cases one with
  | error e => exact guards_pure (Read.full silent)
  | ok _ =>
    cases two with
    | error e => exact guards_pure (Read.full silent)
    | ok _ => exact guards_pure (Read.done silent)

theorem listLoop_read : ∀ (names : List Path) (es : List BackupEntry) (cap : Nat) {k h m},
    Guards res control (listLoop names es cap) (Read k h m (es ++ scanned names)) (k,h) m := by
  intro names
  induction names with
  | nil =>
    intro es cap k h m
    exact guards_pure (by simpa [scanned] using Read.done (Silent.refl h))
  | cons name names ih =>
    intro es cap k h m
    rw [listLoop]
    cases split_ : backup_split name with
    | none =>
      have same : scanned (name :: names) = scanned names := by simp [scanned,split_]
      rw [same]
      exact ih es cap
    | some x =>
      have more : es ++ scanned (name :: names) = es ++ [⟨x.1,x.2⟩] ++ scanned names := by simp [scanned,split_]
      rw [more]
      have room : Guards res control (if (decide (es.length = cap)) = true then allocate else pure (.ok ()))
          (fun r s m' => s.1 = k ∧ m' = m ∧ Silent h s.2 ∧ ∀ e, r = .error e → e = .ENOMEM) (k,h) m := by
        split
        · exact guards_alloc (f := pure) fun r h' silent failed => guards_pure ⟨rfl,rfl,silent,failed⟩
        · exact guards_pure ⟨rfl,rfl,Silent.refl h,by simp⟩
      refine guards_seq room ?_
      rintro r ⟨_,h'⟩ _ ⟨rfl,rfl,silent,failed⟩
      cases r with
      | error e =>
        obtain rfl := failed e rfl
        exact guards_pure (Read.full silent)
      | ok _ =>
        refine guards_seq (copyEntry_read es x.1 x.2) ?_
        rintro r ⟨_,h''⟩ _ ⟨rfl,rfl,silent',failed,fine⟩
        cases r with
        | error e =>
          obtain rfl := failed e rfl
          exact guards_pure (Read.full (silent.trans silent'))
        | ok es' =>
          obtain rfl := fine es' rfl
          exact guards_mono (ih _ _) fun _ _ _ read => Read.later (silent.trans silent') read

/-- What listing a directory comes to: what is read is what is known of it from now on. -/
structure Listed (k : Kernel) (h : History) (m : Memory) (dir : Path) (r : Except Errno (List BackupEntry))
    (s : Kernel × History) (m' : Memory) : Prop where
  kernel : s.1 = k
  memory : m' = m
  others : ∀ bd, bd.dir ≠ dir → Faithful h bd → Faithful s.2 bd
  failed : ∀ e, r = .error e → e = .ENOMEM
  fine : ∀ es, r = .ok es → Faithful s.2 ⟨dir,es⟩

/-- The entries that are kept of the names of a directory, after its listing. -/
theorem faithful_listed {dir : Path} {names : List Path} (silent : Silent (⟨.list dir,.ok names⟩ :: h) h') :
    Faithful h' ⟨dir,entries_keep_highest (scanned names)⟩ := by
  have fresh : knowledge dir (⟨.list dir,.ok names⟩ :: h) = ⟨names,none,true⟩ := by simp [knowledge,Knowledge.next]
  refine Faithful.silent ⟨by rw [fresh],by rw [fresh],_,(merged_represents (sortEntries_perm _) (sortEntries_sorted _)
    (scanned_decimal names)).congr (pairs_scanned names),fun b nonempty ds => ?_⟩ silent
  rw [fresh]
  constructor
  · rintro ⟨name,here,encodes⟩
    exact ⟨encodes.decimal,by rw [← encodes.text]; exact here⟩
  · rintro ⟨decimal,here⟩
    exact ⟨_,here,nonempty,decimal,rfl⟩

/-- The listing of one directory tells nothing of another. -/
theorem silent_listing {dir dir' : Path} {names : List Path} (other : dir' ≠ dir) (settled : (knowledge dir' h).coming = none) :
    knowledge dir' (⟨.list dir,.ok names⟩ :: h) = knowledge dir' h := by
  rw [knowledge,Knowledge.next,if_neg (Ne.symm other)]
  rw [← settled]

theorem backup_dir_list_listed (dir : Path) : Guards res control (backup_dir_list dir) (Listed k h m dir) (k,h) m := by
  refine ⟨trivial,fun r s answered => ?_⟩
  obtain ⟨k',h'⟩ := s
  obtain ⟨⟨answered,listed⟩,rfl⟩ := answered
  change exec res k _ r k' at answered
  cases r with
  | error e => exact listed.elim
  | ok names =>
    obtain ⟨rfl,_⟩ := exec_list answered
    refine guards_seq (p := listLoop names [] 0) (listLoop_read names [] 0) ?_
    rintro r ⟨_,h''⟩ _ ⟨rfl,rfl,silent,failed,fine⟩
    have others : ∀ bd : BackupDir, bd.dir ≠ dir → Faithful h bd → Faithful h'' bd := by
      intro bd other faithful
      have same : knowledge bd.dir (⟨.list dir,.ok names⟩ :: h) = knowledge bd.dir h :=
        silent_listing other faithful.settled
      refine faithful.same ?_
      exact (silent bd.dir (by rw [same]; exact faithful.settled)).trans same
    cases r with
    | error e => exact guards_pure ⟨rfl,rfl,others,failed,by simp⟩
    | ok es =>
      obtain rfl := fine es rfl
      refine guards_pure ⟨rfl,rfl,others,by simp,?_⟩
      rintro _ ⟨⟩
      exact faithful_listed silent

/-- What getting the listing of a directory comes to. -/
structure Got (k : Kernel) (path : Path) (r : Except Errno BackupDir) (s : Kernel × History) (m : Memory) : Prop where
  kernel : s.1 = k
  kept : Kept s.2 m
  failed : ∀ e, r = .error e → e = .ENOMEM
  fine : ∀ bd, r = .ok bd → bd ∈ m.backups ∧ bd.dir = dirText path

theorem Got.full (kept : Kept h m) : Got k path (.error .ENOMEM) (k,h) m :=
  ⟨rfl,kept,fun _ same => (Except.error.inj same).symm,by simp⟩

theorem backup_dir_get_got (path : Path) (kept : Kept h m) :
    Guards res control (backup_dir_get path) (Got k path) (k,h) m := by
  have read : ∀ {h m}, Kept h m → (∀ bd ∈ m.backups, bd.dir ≠ dirText path) →
      Guards res control (backup_dir_get.listed (dirText path)) (Got k path) (k,h) m := by
    intro h m kept absent
    refine guards_seq (backup_dir_list_listed _) ?_
    rintro r ⟨_,h'⟩ m' ⟨rfl,rfl,others,failed,fine⟩
    have still : ∀ bd ∈ m'.backups, Faithful h' bd := fun bd here => others bd (absent bd here) (kept.faithful bd here)
    cases r with
    | error e =>
      obtain rfl := failed e rfl
      exact guards_pure (Got.full ⟨still,kept.unique⟩)
    | ok es =>
      refine guards_step (guards_pure ⟨rfl,⟨?_,?_⟩,by simp,?_⟩)
      · intro bd member
        rcases List.mem_append.mp member with old | new
        · exact still bd old
        · obtain rfl := List.mem_singleton.mp new
          exact fine es rfl
      · rw [List.map_append,List.nodup_append]
        refine ⟨kept.unique,by simp,fun d here d' there same => ?_⟩
        obtain ⟨bd,member,rfl⟩ := List.mem_map.mp here
        exact absent bd member (same.trans (by simpa using there))
      · rintro _ ⟨⟩
        exact ⟨List.mem_append_right _ List.mem_cons_self,rfl⟩
  rw [backup_dir_get,path_dir,Prog.bind_assoc]
  refine guards_allocate ?_ ?_
  · exact guards_pure (Got.full (kept.silent (silent_unmarked trivial)))
  · have kept : Kept (⟨.alloc,.ok ()⟩ :: h) m := kept.silent (silent_unmarked trivial)
    refine guards_get ?_
    split
    · rename_i bd found
      refine guards_pure ⟨rfl,kept,by simp,?_⟩
      rintro _ ⟨⟩
      exact ⟨List.mem_of_find?_eq_some found,by simpa using List.find?_some found⟩
    · rename_i absent
      split
      · exact read (kept_blank _ rfl) (by simp)
      · exact read kept fun bd here => by simpa using List.find?_eq_none.mp absent bd here

/-! ## The number to begin with -/

/-- What looking for the highest number comes to. -/
structure Best (k : Kernel) (path : Path) (r : Except Errno (Option (List Char))) (s : Kernel × History) (m : Memory) : Prop where
  kernel : s.1 = k
  kept : Kept s.2 m
  failed : ∀ e, r = .error e → e = .ENOMEM
  cached : ∀ best, r = .ok best → Cached path m
  decimal : ∀ ds, r = .ok (some ds) → Decimal ds
  fine : ∀ best, r = .ok best → baseText path ≠ [] → known path s.2 = (best.map number).getD 0

theorem Best.full (kept : Kept h m) : Best k path (.error .ENOMEM) (k,h) m :=
  ⟨rfl,kept,fun _ same => (Except.error.inj same).symm,by simp,by simp,by simp⟩

theorem backup_best_found (path : Path) (kept : Kept h m) :
    Guards res control (backup_best path) (Best k path) (k,h) m := by
  refine guards_seq (backup_dir_get_got path kept) ?_
  rintro r ⟨_,h'⟩ m' ⟨rfl,kept,failed,got⟩
  cases r with
  | error e =>
    obtain rfl := failed e rfl
    exact guards_pure (Best.full kept)
  | ok bd =>
    obtain ⟨here,same⟩ := got bd rfl
    have cached : Cached path m' := ⟨bd,here,same⟩
    obtain ⟨decimal,value⟩ := (kept.faithful bd here).find same
    cases found : backup_find bd path with
    | none =>
      simp only [found] at value ⊢
      refine guards_pure ⟨rfl,kept,by simp,fun _ _ => cached,by simp,?_⟩
      rintro _ ⟨⟩ nonempty
      exact (value nonempty).symm
    | some e =>
      simp only [found] at value ⊢
      refine guards_alloc fun r h'' silent failed => ?_
      have kept' := kept.silent silent
      cases r with
      | error e =>
        obtain rfl := failed e rfl
        exact guards_pure (Best.full kept')
      | ok _ =>
        refine guards_pure ⟨rfl,kept',by simp,fun _ _ => cached,?_,?_⟩
        · rintro _ ⟨⟩
          exact decimal e found
        · rintro _ ⟨⟩ nonempty
          rw [kept.known cached silent]
          exact (value nonempty).symm

/-- What is to be made: a numbered backup with the digits after those that are known, or
    none where there is no number or none is wanted. -/
structure Chosen (control : String) (path : Path) (r : Except Errno (Option (List Char))) (s : Kernel × History)
    (m : Memory) : Prop where
  kept : Kept s.2 m
  simple : r = .ok none → ¬ Numbered control ∧ (Existing control → Cached path m ∧ (baseText path ≠ [] → known path s.2 = 0))
  cached : ∀ ds, r = .ok (some ds) → Cached path m
  decimal : ∀ ds, r = .ok (some ds) → Decimal ds
  next : ∀ ds, r = .ok (some ds) → baseText path ≠ [] →
    number ds = known path s.2 + 1 ∧ (Existing control → 0 < known path s.2)

theorem Chosen.full {e : Errno} {s : Kernel × History} (kept : Kept s.2 m) : Chosen control path (.error e) s m :=
  ⟨kept,by simp,by simp,by simp,by simp⟩

theorem Chosen.number {ds : List Char} {s : Kernel × History} (kept : Kept s.2 m) (cached : Cached path m) (decimal : Decimal ds)
    (next : baseText path ≠ [] → number ds = known path s.2 + 1 ∧ (Existing control → 0 < known path s.2)) :
    Chosen control path (.ok (some ds)) s m := by
  refine ⟨kept,by simp,fun _ _ => cached,?_,?_⟩
  · rintro _ ⟨⟩
    exact decimal
  · rintro _ ⟨⟩
    exact next

theorem guards_inc {ds : List Char} {f : Except Errno (List Char) → P β} {Q : β → Kernel × History → Memory → Prop}
    (failed : ∀ h', Silent h h' → Guards res control (f (.error .ENOMEM)) Q (k,h') m)
    (fine : ∀ h', Silent h h' → Guards res control (f (.ok (incremented ds))) Q (k,h') m) :
    Guards res control (digits_inc ds >>= f) Q (k,h) m := by
  rw [incremented] at fine
  rw [digits_inc]
  cases carry : (incLoop ds.reverse).2 with
  | true =>
    simp only [carry,↓reduceIte,Prog.bind_assoc] at fine ⊢
    refine guards_alloc fun r h' silent memory => ?_
    cases r with
    | error e =>
      obtain rfl := memory e rfl
      exact failed h' silent
    | ok _ => exact fine h' silent
  | false =>
    simp only [carry,Bool.false_eq_true,↓reduceIte] at fine ⊢
    exact fine h (Silent.refl h)

theorem number_chosen {best : Option (List Char)} (kept : Kept h m) (cached : Cached path m)
    (decimal : ∀ ds, best = some ds → Decimal ds) (value : baseText path ≠ [] → known path h = (best.map number).getD 0)
    (wanted : Numbered control ∨ best.isSome = true) :
    Guards res control (backup_next.number best) (Chosen control path) (k,h) m := by
  cases best with
  | none =>
    have numbered : Numbered control := by simpa using wanted
    have one : Decimal "1".toList := ⟨by simp,by simp,by simp⟩
    refine guards_alloc fun r h' silent _ => ?_
    cases r with
    | error e => exact guards_pure (Chosen.full (kept.silent silent))
    | ok _ =>
      refine guards_pure (Chosen.number (kept.silent silent) cached one fun nonempty => ⟨?_,fun existing => absurd numbered existing.2.2⟩)
      rw [kept.known cached silent,value nonempty]
      rfl
  | some ds =>
    obtain ⟨next,same⟩ := incremented_spec (decimal ds rfl)
    refine guards_inc (fun h' silent => guards_pure (Chosen.full (kept.silent silent))) fun h' silent => ?_
    refine guards_pure (Chosen.number (kept.silent silent) cached next fun nonempty => ?_)
    rw [kept.known cached silent,value nonempty,same]
    exact ⟨rfl,fun _ => number_pos (decimal ds rfl)⟩

theorem backup_next_chosen (path : Path) (kept : Kept h m) :
    Guards res control (backup_next path control) (Chosen control path) (k,h) m := by
  rw [backup_next]
  split
  · rename_i plain
    refine guards_pure ⟨kept,fun _ => ⟨?_,fun existing => ?_⟩,by simp,by simp,by simp⟩
    · rintro (rfl | rfl) <;> simp at plain
    · rcases plain with simple | never
      · exact absurd simple existing.1
      · exact absurd never existing.2.1
  · refine guards_seq (backup_best_found path kept) ?_
    rintro r ⟨_,h'⟩ m' ⟨rfl,kept,failed,cached,decimal,value⟩
    cases r with
    | error e =>
      obtain rfl := failed e rfl
      exact guards_pure (Chosen.full kept)
    | ok best =>
      dsimp only
      split
      · rename_i wanted
        refine number_chosen kept (cached best rfl) (fun ds same => decimal ds (by rw [same])) (value best rfl) ?_
        simpa [Numbered] using wanted
      · rename_i unwanted
        obtain ⟨other,absent⟩ := not_or.mp unwanted
        obtain rfl : best = none := by simpa using absent
        exact guards_pure ⟨kept,fun _ => ⟨by simpa [Numbered] using other,fun _ => ⟨cached none rfl,value none rfl⟩⟩,by simp,by simp,by simp⟩

/-! ## Making a backup -/

theorem guards_newStr {text : Path} {f : Except Errno Str → P β} {Q : β → Kernel × History → Memory → Prop}
    (failed : ∀ h', Silent h h' → Guards res control (f (.error .ENOMEM)) Q (k,h') m)
    (fine : ∀ block h' m', Silent h h' → m'.backups = m.backups → Guards res control (f (.ok ⟨text,block⟩)) Q (k,h') m') :
    Guards res control (newStr text >>= f) Q (k,h) m := by
  rw [newStr,Prog.bind_assoc]
  refine guards_alloc fun r h' silent memory => ?_
  cases r with
  | error e =>
    obtain rfl := memory e rfl
    exact failed h' silent
  | ok _ => exact fine (some m.heap) h' { m with heap := m.heap + 1 } silent rfl

/-- The rule for a link to the name of a backup: one that fails changes nothing, and a name
    that is said to be there is. -/
theorem guards_link {name : Str} (st : Stat) {f : Except Errno Unit → P β} {Q : β → Kernel × History → Memory → Prop}
    (now : Checked res control (k,h) (.link path name.text))
    (failed : ∀ e h' m', (e = .EEXIST → (k.names.get (entry res name.text)).isSome = true) → Silent h h' →
      m'.backups = m.backups → Guards res control (f (.error e)) Q (k,h') m')
    (fine : ∀ k' m', m'.backups = m.backups →
      Guards res control (f (.ok ())) Q (k',⟨.link path name.text,.ok ()⟩ :: h) m') :
    Guards res control (backup_link path name st >>= f) Q (k,h) m := by
  refine ⟨now,fun r s answered => ?_⟩
  obtain ⟨k',h'⟩ := s
  obtain ⟨⟨answered,_⟩,rfl⟩ := answered
  change exec res k _ r k' at answered
  rcases exec_cases answered with ⟨e,may,rfl,rfl⟩ | ⟨hints,x,found,rfl,rfl⟩
  · refine failed e _ _ (fun same => ?_) silent_error rfl
    subst same
    exact may
  · exact fine _ _ rfl

/-- The rule for the listing of a directory that has one. -/
theorem guards_cached {bd : BackupDir} {f : Except Errno BackupDir → P β} {Q : β → Kernel × History → Memory → Prop}
    (unique : (m.backups.map BackupDir.dir).Nodup) (here : bd ∈ m.backups) (same : bd.dir = dirText path)
    (failed : Guards res control (f (.error .ENOMEM)) Q (k,⟨.alloc,.error .ENOMEM⟩ :: h) m)
    (fine : Guards res control (f (.ok bd)) Q (k,⟨.alloc,.ok ()⟩ :: h) m) :
    Guards res control (backup_dir_get path >>= f) Q (k,h) m := by
  have found : m.backups.find? (fun bd => bd.dir = dirText path) = some bd := by
    cases found : m.backups.find? (fun bd => bd.dir = dirText path) with
    | none => exact absurd same (by simpa using List.find?_eq_none.mp found bd here)
    | some bd' =>
      have same' : bd'.dir = dirText path := by simpa using List.find?_some found
      rw [List.inj_on_of_nodup_map unique (List.mem_of_find?_eq_some found) here (same'.trans same.symm)]
  rw [backup_dir_get,path_dir,Prog.bind_assoc,Prog.bind_assoc]
  refine guards_allocate failed ?_
  simp only [pure_bind,Prog.bind_assoc]
  refine guards_get ?_
  simp only [found]
  exact fine

/-- The other listings are as they were, and the one of the file has noted the backup. -/
theorem Kept.noted {ds : List Char} (kept : Kept h m) (noted : Noted path ds h h')
    (own : ∀ bd ∈ m'.backups, bd.dir = dirText path → Faithful h' bd)
    (others : ∀ bd ∈ m'.backups, bd.dir ≠ dirText path → bd ∈ m.backups)
    (dirs : m'.backups.map BackupDir.dir = m.backups.map BackupDir.dir) : Kept h' m' := by
  refine ⟨fun bd here => ?_,by rw [dirs]; exact kept.unique⟩
  by_cases same : bd.dir = dirText path
  · exact own bd here same
  · have faithful := kept.faithful bd (others bd here same)
    exact faithful.same (noted.others bd.dir same faithful.settled)

theorem Kept.setEntries {dir : Path} {ds : List Char} {entries : List BackupEntry} (kept : Kept h m) (noted : Noted path ds h h')
    (same : dir = dirText path) (faithful : Faithful h' ⟨dirText path,entries⟩) : Kept h' (setEntries m dir entries) := by
  subst same
  have changed : ∀ bd ∈ (Backup.setEntries m (dirText path) entries).backups, ∃ bd' ∈ m.backups,
      bd = if bd'.dir = dirText path then { bd' with entries } else bd' := by
    intro bd here
    obtain ⟨bd',there,rfl⟩ := List.mem_map.mp here
    exact ⟨bd',there,rfl⟩
  refine kept.noted noted (fun bd here own => ?_) (fun bd here other => ?_) ?_
  · obtain ⟨⟨dir,es⟩,_,rfl⟩ := changed bd here
    by_cases mine : dir = dirText path
    · subst mine
      simpa using faithful
    · simp [mine] at own
  · obtain ⟨⟨dir,es⟩,there,rfl⟩ := changed bd here
    by_cases mine : dir = dirText path
    · exact absurd (by simp [mine]) other
    · simpa [mine] using there
  · rw [Backup.setEntries,List.map_map]
    refine List.map_congr_left fun bd _ => ?_
    dsimp only [Function.comp_apply]
    split <;> rfl

theorem backup_note_kept {ds : List Char} (decimal : Decimal ds) (kept : Kept h m) (cached : Cached path m) :
    Guards res control (backup_note path ds) (fun _ s m' => Kept s.2 m') (k,⟨.link path (backupText path ds),.ok ()⟩ :: h) m := by
  obtain ⟨bd,here,same⟩ := cached
  have awaits : Awaits path ds h _ _ := awaits_link h decimal
  have faithful := kept.faithful bd here
  have value := (faithful.find same).2
  obtain ⟨dir,entries⟩ := bd
  obtain rfl : dir = dirText path := same
  obtain ⟨_,listed,S,represents,means⟩ := faithful
  have one : ∀ bd ∈ m.backups, bd.dir = dirText path → bd = ⟨dirText path,entries⟩ := fun bd there same =>
    List.inj_on_of_nodup_map kept.unique there here same
  refine guards_cached kept.unique here rfl ?_ ?_
  · exact guards_pure (kept.silent awaits.failed)
  · cases found : backup_find ⟨dirText path,entries⟩ path with
    | some e =>
      obtain ⟨there,base⟩ := (represents.find _ _).mp found
      -- A file that has a number already takes two allocations.
      have awaits : Awaits path ds h (⟨.link path (backupText path ds),.ok ()⟩ :: h) 2 := by
        by_cases empty : baseText path = []
        · exact awaits.nameless empty 2
        · have positive : highest (baseText path) (knowledge (dirText path) h).names ≠ 0 := by
            have known := value empty
            rw [found] at known
            exact Ne.symm (Nat.ne_of_lt (Nat.lt_of_lt_of_eq (number_pos (represents.decimal e there)) known))
          rwa [cost,if_neg positive] at awaits
      refine guards_allocate ?_ ?_
      · exact guards_pure (kept.silent awaits.alloc.failed)
      · have noted := awaits.alloc.noted
        have compared := Decimals.digits_cmp_number decimal (represents.decimal e there)
        simp only [found]
        split
        · rename_i greater
          rw [compared] at greater
          refine Kept.setEntries kept noted rfl (noted.faithful decimal listed ?_ means)
          rw [base]
          exact represents.raise (e := ⟨baseText path,ds⟩) there base decimal (Nat.le_of_lt (Nat.compare_eq_gt.mp greater))
        · rename_i most
          rw [compared] at most
          refine guards_pure (kept.noted noted (fun bd there' same => ?_) (fun bd there' _ => there') rfl)
          rw [one bd there' same]
          exact noted.faithful decimal listed (represents.ignore (e := ⟨baseText path,ds⟩) there base
            (Nat.le_of_not_lt fun more => most (Nat.compare_eq_gt.mpr more))) means
    | none =>
      have absent : ∀ x ∈ entries, x.base ≠ baseText path := by
        intro x inside base
        have other := (represents.find (dirText path) path).mpr ⟨inside,base⟩
        rw [found] at other
        simp at other
      have awaits : Awaits path ds h (⟨.link path (backupText path ds),.ok ()⟩ :: h) 4 := by
        by_cases empty : baseText path = []
        · exact awaits.nameless empty 4
        · have zero : highest (baseText path) (knowledge (dirText path) h).names = 0 := by
            have known := value empty
            rw [found] at known
            exact known.symm
          rwa [cost,if_pos zero] at awaits
      refine guards_allocate ?_ ?_
      · exact guards_pure (kept.silent awaits.alloc.failed)
      · have awaits := awaits.alloc.alloc
        simp only [found]
        refine guards_allocate ?_ ?_
        · have silent : Silent h (⟨.alloc,.error .ENOMEM⟩ :: _) := awaits.failed
          refine guards_alloc fun r h' later _ => ?_
          cases r <;> exact guards_pure (kept.silent (silent.trans later))
        · refine guards_allocate ?_ ?_
          · exact guards_pure (kept.silent awaits.alloc.failed)
          · have noted := awaits.alloc.noted
            exact Kept.setEntries kept noted rfl
              (noted.faithful decimal listed (represents.note (e := ⟨baseText path,ds⟩) decimal absent) means)

/-- The number that is tried. -/
theorem tried_checked {ds : List Char} (decimal : Decimal ds) (listed : (knowledge (dirText path) h).listed = true)
    (tried : baseText path ≠ [] → Tried res (Existing control) k path (known path h) (number ds)) :
    Checked res control (k,h) (.link path (backupText path ds)) := by
  refine ⟨fun ds' same => ?_,fun same => ?_⟩
  · obtain rfl : ds' = ds := by simpa [backupText] using same.symm
    exact ⟨decimal,listed,tried⟩
  · have length := congrArg List.length same
    simp [backupText] at length

theorem backup_numbered_kept (st : Stat) : ∀ (fuel : Nat) (ds : List Char) {k h m}, Decimal ds → Kept h m → Cached path m →
    (baseText path ≠ [] → Tried res (Existing control) k path (known path h) (number ds)) →
    Guards res control (backup_numbered path st fuel ds) (fun _ s m' => Kept s.2 m') (k,h) m := by
  intro fuel
  induction fuel with
  | zero => exact fun _ _ _ _ _ _ _ _ => trivial
  | succ fuel ih =>
    intro ds k h m decimal kept cached tried
    rw [backup_numbered,backup_name]
    refine guards_newStr (fun h' silent => guards_pure (kept.silent silent)) fun block h' m' silent same => ?_
    have still := kept.known cached silent
    have kept' := (kept.silent silent).same same
    have cached' := cached.same same
    have tried' : baseText path ≠ [] → Tried res (Existing control) k path (known path h') (number ds) := by
      rw [still]
      exact tried
    refine guards_link st (tried_checked decimal (kept'.listed cached') tried') (fun e h'' m'' there silent' same' => ?_) fun k' m'' same' => ?_
    · have kept'' : Kept h'' { m'' with freed := block.toList ++ m''.freed } := (kept'.silent silent').same same'
      change Guards res control (if e ≠ .EEXIST then _ else _) _ _ { m'' with freed := block.toList ++ m''.freed }
      split
      · exact guards_pure kept''
      · rename_i exists_
        have taken : Taken res k path (number ds) :=
          ⟨ds,decimal,rfl,by rw [← entry_backupText res path decimal]; exact there (not_not.mp exists_)⟩
        obtain ⟨next,value⟩ := incremented_spec decimal
        refine guards_inc (fun _ later => guards_pure (kept''.silent later)) fun h₃ later => ?_
        have cached'' : Cached path { m'' with freed := block.toList ++ m''.freed } := cached'.same same'
        refine ih _ next (kept''.silent later) cached'' fun nonempty => ?_
        obtain ⟨above,passed,listed⟩ := tried' nonempty
        rw [kept''.known cached'' later,kept'.known cached' silent']
        refine ⟨by omega,fun i more less => ?_,listed⟩
        rw [value] at less
        rcases Nat.lt_or_eq_of_le (Nat.le_of_lt_succ less) with before | rfl
        · exact passed i more before
        · exact taken
    · refine guards_seq (backup_note_kept decimal (kept'.same same') (cached'.same same')) fun _ _ _ kept => ?_
      exact guards_pure kept

/-- The simple name, where no number is known. -/
theorem simple_checked (unnumbered : ¬ Numbered control)
    (zero : Existing control → (knowledge (dirText path) h).listed = true ∧ (baseText path ≠ [] → known path h = 0)) :
    Checked res control (k,h) (.link path (path ++ "~".toList)) := by
  refine ⟨fun ds same => ?_,fun _ => ⟨unnumbered,zero⟩⟩
  have length := congrArg List.length same
  simp [backupText] at length

/-- A link that is no numbered backup tells nothing. -/
theorem silent_simple (h : History) : Silent h (⟨.link path (path ++ "~".toList),.ok ()⟩ :: h) := by
  intro dir settled
  have zero : numberOf path (path ++ "~".toList) = 0 := by
    by_contra positive
    obtain ⟨ds,_,same,_⟩ := numberOf_pos positive
    have length := congrArg List.length same
    simp [backupText] at length
  rw [knowledge,Knowledge.next,if_neg fun both => both.2.2 zero]
  rw [← settled]

theorem backup_simple_kept (st : Stat) (kept : Kept h m) (unnumbered : ¬ Numbered control)
    (zero : Existing control → Cached path m ∧ (baseText path ≠ [] → known path h = 0)) :
    Guards res control (backup_simple path st) (fun _ s m' => Kept s.2 m') (k,h) m := by
  refine guards_newStr (fun h' silent => guards_pure (kept.silent silent)) fun block h' m' silent same => ?_
  have kept' := (kept.silent silent).same same
  refine @guards_link _ res control k h' m' path ⟨path ++ "~".toList,block⟩ st _ _ ?_ (fun e h'' m'' _ silent' same' => ?_) fun k' m'' same' => ?_
  · refine simple_checked unnumbered fun existing => ?_
    obtain ⟨cached,unknown⟩ := zero existing
    refine ⟨kept'.listed (cached.same same),fun nonempty => ?_⟩
    rw [kept.known cached silent]
    exact unknown nonempty
  · refine Apart.kept (p := if e ≠ .EEXIST then _ else _) ?_ ((kept'.silent silent').same same')
    refine uses_ite (uses_bind (handles_apart.free _) fun _ => uses_pure _) ?_
    refine uses_try (place_temp_alias_apart _ _ _) (fun _ => uses_bind (handles_apart.free _) fun _ => uses_pure _) fun tmp => ?_
    refine uses_try (uses_sys trivial) (fun _ => ?_) fun _ => ?_
    · exact uses_bind (handles_apart.pending_remove _) fun _ => uses_bind (handles_apart.free _) fun _ =>
        uses_bind (handles_apart.free _) fun _ => uses_pure _
    · exact uses_bind (handles_apart.pending_remove _) fun _ => uses_bind (handles_apart.free _) fun _ => uses_pure _
  · exact guards_pure ((kept'.silent (silent_simple h')).same same')

theorem backup_make_kept (fuel : Nat) (path : Path) {s : Kernel × History} (kept : Kept s.2 m) :
    Guards res control (backup_make fuel path control) (fun _ s m' => Kept s.2 m') s m := by
  rw [backup_make]
  split
  · exact guards_pure kept
  · refine guards_seq (Apart.kept (uses_sys trivial) kept) fun r s m kept => ?_
    cases r with
    | error e => exact guards_pure kept
    | ok st =>
      dsimp only
      split
      · exact guards_pure kept
      · refine guards_seq (backup_next_chosen path kept) fun r s m chosen => ?_
        obtain ⟨kept,simple,cached,decimal,next⟩ := chosen
        cases r with
        | error e => exact guards_pure kept
        | ok choice =>
          cases choice with
          | none =>
            obtain ⟨unnumbered,zero⟩ := simple rfl
            refine guards_seq (backup_simple_kept st kept unnumbered zero) fun r s m kept => ?_
            cases r <;> exact guards_pure kept
          | some ds =>
            have tried : baseText path ≠ [] → Tried res (Existing control) s.1 path (known path s.2) (number ds) := fun nonempty => by
              obtain ⟨value,listed⟩ := next ds rfl nonempty
              exact ⟨by omega,fun i more less => by omega,listed⟩
            refine guards_seq (backup_numbered_kept st fuel ds (decimal ds rfl) kept (cached ds rfl) tried) fun r s m kept => ?_
            cases r <;> exact guards_pure kept

/-! ## The naming phase -/

variable {s : Kernel × History}

theorem replace_one_kept {spec : FileSpec} (fuel : Nat) (op : Op) (slot : Nat) (dir : Path) (kept : Kept s.2 m) :
    Guards res spec.backup_control (replace_one fuel op slot dir spec) (fun _ s m' => Kept s.2 m') s m := by
  rw [replace_one]
  split
  · exact guards_pure kept
  · split
    · refine guards_seq (backup_make_kept fuel _ kept) fun r s m kept => ?_
      cases r with
      | error e => exact Apart.kept (uses_bind (naming_apart.op_failed _ _ _ _) fun _ => uses_pure _) kept
      | ok made =>
        cases made with
        | some made => exact Apart.kept (naming_apart.replaceKeeping _ _ _ trivial _ _) kept
        | none => exact Apart.kept (naming_apart.replaceBy _ _ _ trivial _ _) kept
    · exact Apart.kept (naming_apart.replaceBy _ _ _ trivial _ _) kept

theorem nameForced_kept {spec : FileSpec} (fuel : Nat) (op : Op) (slot : Nat) (dir : Path) (kept : Kept s.2 m) :
    Guards res spec.backup_control (nameForced fuel op slot dir spec) (fun _ s m' => Kept s.2 m') s m := by
  refine guards_seq (replace_one_kept fuel op slot dir kept) fun r s m kept => ?_
  obtain ⟨op',replaced⟩ := r
  cases replaced with
  | true => exact Apart.kept (naming_apart.named _ _ _ trivial) kept
  | false => exact guards_pure kept

theorem name_one_kept {spec : FileSpec} (force : spec.force_mode = true) (fuel : Nat) (op : Op) (slot : Nat) (kept : Kept s.2 m) :
    Guards res spec.backup_control (name_one fuel op slot spec) (fun _ s m' => Kept s.2 m') s m := by
  rw [name_one]
  split
  · exact guards_pure kept
  · refine guards_seq (Apart.kept (handles_apart.path_dir _) kept) fun r s m kept => ?_
    cases r with
    | error e => exact Apart.kept (naming_apart.op_failed _ _ _ _) kept
    | ok dir =>
      dsimp only
      split
      · refine guards_seq (Apart.kept (naming_apart.place_temp_link _ (naming_apart.fstat _) (naming_apart.linkat _)) kept) fun r s m kept => ?_
        cases r with
        | error e => exact Apart.kept (naming_apart.op_failed _ _ _ _) kept
        | ok tmppath => exact nameForced_kept fuel _ slot dir kept
      · exact nameForced_kept fuel op slot dir kept

theorem eachOp_kept {spec : FileSpec} (force : spec.force_mode = true) (fuel : Nat) : ∀ (n i : Nat) (ops : Ops) {s m},
    Kept s.2 m → Guards res spec.backup_control (eachOp (fun op i => name_one fuel op i spec) n i ops)
      (fun _ s m' => Kept s.2 m') s m := by
  intro n
  induction n with
  | zero => exact fun _ _ _ _ kept => guards_pure kept
  | succ n ih =>
    intro i ops s m kept
    exact guards_seq (name_one_kept force fuel _ i kept) fun _ _ _ kept => ih _ _ kept

/-! ## A directory that nothing disturbs -/

variable {existing : Prop}

/-- What a listing has just told is current. -/
theorem fresh_current {names : List Path} (listed : ∀ x, x ∈ names ↔ (k.names.get (res (dirText path),x)).isSome = true) :
    Current res existing k path (highest (baseText path) names) := by
  have least : ∀ {j}, Taken res k path j → j ≤ highest (baseText path) names := by
    rintro _ ⟨ds,decimal,rfl,there⟩
    exact le_highest decimal ((listed _).mpr there)
  refine ⟨?_,fun i j more less taken => absurd (least taken) (by omega),fun _ zero j taken => ?_⟩
  · by_cases zero : highest (baseText path) names = 0
    · exact .inl zero
    · obtain ⟨ds,decimal,same,here⟩ := highest_mem zero
      exact .inr ⟨_,Nat.le_refl _,ds,decimal,same,(listed _).mp here⟩
  · have bound := least taken
    have positive := taken.pos
    omega

/-- What is known of the file is current, and a backup that is about to be noted is there. -/
structure Steady (res : Path → Ino) (existing : Prop) (path : Path) (s : Kernel × History) : Prop where
  current : Current res existing s.1 path (known path s.2)
  coming : ∀ name n, (knowledge (dirText path) s.2).coming = some (name,n) → numberOf (baseText path) name ≠ 0 →
    Taken res s.1 path (numberOf (baseText path) name)

theorem steady_listing {names : List Path} (answered : exec res k (.list (dirText path)) (.ok names) k') :
    Steady res existing path (k',⟨.list (dirText path),.ok names⟩ :: h) := by
  obtain ⟨rfl,listed⟩ := exec_list answered
  have fresh : knowledge (dirText path) (⟨.list (dirText path),.ok names⟩ :: h) = ⟨names,none,true⟩ := by
    simp [knowledge,Knowledge.next]
  refine ⟨?_,by simp [fresh]⟩
  rw [known,fresh]
  exact fresh_current listed

/-- A backup of a file that is called by the same directory. -/
theorem Steady.own {src : Path} {ds : List Char} (steady : Steady res (Existing control) path (k,h)) (nonempty : baseText path ≠ [])
    (dir : dirText src = dirText path) (checked : Checked res control (k,h) (.link src (backupText src ds)))
    (answered : exec res k (.link src (backupText src ds)) (.ok ()) k') :
    Steady res (Existing control) path (k',⟨.link src (backupText src ds),.ok ()⟩ :: h) := by
  obtain ⟨current,_⟩ := steady
  obtain ⟨decimal,_,tried⟩ := checked.1 ds rfl
  obtain ⟨_,_,i,_,names⟩ := exec_link answered
  obtain ⟨told,coming⟩ := next_link (knowledge (dirText path) h) (dirText path) src (backupText src ds)
  have same : known path (⟨.link src (backupText src ds),.ok ()⟩ :: h) = known path h := congrArg (highest _) told
  have about : ∀ name n, (knowledge (dirText path) (⟨.link src (backupText src ds),.ok ()⟩ :: h)).coming = some (name,n) →
      name = backupText (baseText src) ds := fun name n is => (coming name n is).trans (baseText_backupText src decimal)
  have entries : ∀ ds', Decimal ds' → (res (dirText path),backupBase path ds') = entry res (backupText src ds) →
      baseText path = baseText src ∧ ds' = ds := by
    intro ds' decimal' is
    rw [entry_backupText res src decimal] at is
    exact backupText_inj decimal' decimal (congrArg Prod.snd is)
  by_cases base : baseText src = baseText path
  · have taken : ∀ j, Taken res k' path j ↔ Taken res k path j ∨ j = number ds := by
      intro j
      constructor
      · rintro ⟨ds',decimal',rfl,there⟩
        rw [names] at there
        split at there
        · rename_i is
          exact .inr (by rw [(entries ds' decimal' is).2])
        · exact .inl ⟨ds',decimal',rfl,there⟩
      · rintro (⟨ds',decimal',rfl,there⟩ | rfl)
        · refine ⟨ds',decimal',rfl,?_⟩
          rw [names]
          split
          · rfl
          · exact there
        · refine ⟨ds,decimal,rfl,?_⟩
          rw [names,entry_backupText res src decimal,backupBase,backupBase,base,dir,if_pos rfl]
          rfl
    have own := tried (by rw [base]; exact nonempty)
    have spelled : known src h = known path h := by rw [known,known,dir,base]
    have numbers : Taken res k src = Taken res k path := by
      funext j
      simp only [Taken,backupBase,dir,base]
    rw [spelled] at own
    refine ⟨?_,fun name n is positive => ?_⟩
    · rw [same]
      exact current.link ⟨own.above,fun i more less => by rw [← numbers]; exact own.passed i more less,own.listed⟩ taken
    · rw [about name n is,base,numberOf_backupText _ decimal]
      exact (taken _).mpr (.inr rfl)
  · have taken : ∀ j, Taken res k' path j ↔ Taken res k path j := fun j => taken_congr fun ds' decimal' => by
      rw [names,if_neg fun is => base (entries ds' decimal' is).1.symm]
    refine ⟨?_,fun name n is positive => absurd ?_ positive⟩
    · rw [same]
      exact current.congr taken
    · rw [about name n is]
      exact numberOf_other decimal base

/-- A call that does not disturb the backups of the file. -/
theorem Steady.other {c : Call} {r : posix.Res c} (steady : Steady res existing path (k,h)) (answered : exec res k c r k')
    (listing : ∀ names, (⟨c,r⟩ : Event posix) ≠ ⟨.list (dirText path),.ok names⟩) (own : ¬ OwnBackup (dirText path) ⟨c,r⟩)
    (quiet : ¬ Disturbs res path ⟨c,r⟩) : Steady res existing path (k',⟨c,r⟩ :: h) := by
  obtain ⟨current,coming⟩ := steady
  have taken : ∀ j, Taken res k' path j ↔ Taken res k path j := fun j => taken_congr fun ds decimal =>
    exec_touched answered fun touched => quiet ⟨⟨ds,decimal,touched⟩,own⟩
  rcases next_other (w := knowledge (dirText path) h) listing own with ⟨told,later⟩ | ⟨name,n,was,told⟩
  · have same : known path (⟨c,r⟩ :: h) = known path h := congrArg (highest _) told
    refine ⟨?_,fun name n is positive => ?_⟩
    · rw [same]
      exact current.congr taken
    · obtain ⟨n',was⟩ := later name n is
      exact (taken _).mpr (coming name n' was positive)
  · have more : known path (⟨c,r⟩ :: h) = max (numberOf (baseText path) name) (known path h) := by
      rw [known,knowledge,told,highest_cons]
      rfl
    refine ⟨?_,fun name n is => by rw [knowledge,told] at is; simp at is⟩
    rw [more]
    by_cases zero : numberOf (baseText path) name = 0
    · rw [zero,Nat.zero_max]
      exact current.congr taken
    · exact (current.congr taken).raise ((taken _).mpr (coming name n was zero))

/-- What is known of a file that no call has disturbed since its directory was listed. -/
def Settled (res : Path → Ino) (control : String) (s : Kernel × History) : Prop :=
  ∀ path, baseText path ≠ [] → Undisturbed res path s.2 → Steady res (Existing control) path s

theorem settled_step {c : Call} {r : posix.Res c} (settled : Settled res control (k,h)) (checked : Checked res control (k,h) c)
    (answered : exec res k c r k') : Settled res control (k',⟨c,r⟩ :: h) := by
  rintro path nonempty ⟨later,names,earlier,shape,quiet⟩
  by_cases listing : ∃ names, (⟨c,r⟩ : Event posix) = ⟨.list (dirText path),.ok names⟩
  · obtain ⟨names,same⟩ := listing
    cases same
    exact steady_listing answered
  · cases later with
    | nil => exact absurd ⟨names,(List.cons.inj shape).1⟩ listing
    | cons e later =>
      obtain ⟨rfl,rfl⟩ : ⟨c,r⟩ = e ∧ h = _ := List.cons.inj shape
      have steady := settled path nonempty ⟨later,names,earlier,rfl,fun e here => quiet e (List.mem_cons_of_mem _ here)⟩
      by_cases own : OwnBackup (dirText path) ⟨c,r⟩
      · obtain ⟨src,ds,same,dir⟩ := own
        cases same
        exact steady.own nonempty dir checked answered
      · exact steady.other answered (fun names same => listing ⟨names,same⟩) own (quiet _ List.mem_cons_self)

/-! ## The number of a backup -/

theorem not_taken {ds : List Char} (decimal : Decimal ds) (free : k.names.get (entry res (backupText path ds)) = none) :
    ¬ Taken res k path (number ds) := by
  rintro ⟨ds',decimal',same,there⟩
  obtain rfl := number_inj decimal' decimal same
  rw [entry_backupText res path decimal] at free
  rw [free] at there
  exact absurd there (by simp)

/-- In every run of the naming phase with `-f`, the directory was listed before a numbered
    backup is linked, and whenever the name that is linked is free its number is the one that
    is due if and only if what is known is current, and likewise the simple name is tried
    where it is due. What is known of a file is current as long as no call has disturbed its
    backups since its directory was listed. -/
theorem backups_due_iff (res : Path → Ino) (fuel : Nat) (spec : FileSpec) (force : spec.force_mode = true)
    (n : Nat) (ops : Ops) (blank : m.backups = []) :
    ∀ evs u, Run (listable res) ⟨eachOp (fun op i => name_one fuel op i spec) n 0 ops,k,m⟩ evs u →
      (∀ path ds next, u.prog = .call (.link path (backupText path ds)) next →
        Decimal ds ∧ (∃ names, ⟨.list (dirText path),.ok names⟩ ∈ evs) ∧
          (baseText path ≠ [] → u.kernel.names.get (entry res (backupText path ds)) = none →
            ((Due res u.kernel path (number ds) ∧
                (Existing spec.backup_control → ∃ j, Taken res u.kernel path j)) ↔
              Current res (Existing spec.backup_control) u.kernel path (known path evs.reverse)))) ∧
      (∀ path next, u.prog = .call (.link path (path ++ "~".toList)) next →
        ¬ Numbered spec.backup_control ∧ (Existing spec.backup_control →
          (∃ names, ⟨.list (dirText path),.ok names⟩ ∈ evs) ∧
            (baseText path ≠ [] → ((∀ j, ¬ Taken res u.kernel path j) ↔
              Current res (Existing spec.backup_control) u.kernel path (known path evs.reverse))))) ∧
      ∀ path, baseText path ≠ [] → Undisturbed res path evs.reverse →
        Current res (Existing spec.backup_control) u.kernel path (known path evs.reverse) := by
  intro evs u run
  have along := Traces.run_logged run []
  rw [List.append_nil] at along
  have before : Guards res spec.backup_control (eachOp (fun op i => name_one fuel op i spec) n 0 ops)
      (fun _ s m' => Kept s.2 m') (k,[]) m := eachOp_kept force fuel n 0 ops (kept_blank [] blank)
  have reached := guards_run along before
  have past : ∀ {dir}, (knowledge dir evs.reverse).listed = true → ∃ names, ⟨.list dir,.ok names⟩ ∈ evs := fun listed => by
    obtain ⟨names,here⟩ := listed_mem listed
    exact ⟨names,List.mem_reverse.mp here⟩
  refine ⟨fun path ds next here => ?_,fun path next here => ?_,fun path nonempty undisturbed => ?_⟩
  · rw [here] at reached
    obtain ⟨decimal,listed,tried⟩ := reached.1.1 ds rfl
    exact ⟨decimal,past listed,fun nonempty free => (tried nonempty).due_iff (not_taken decimal free)⟩
  · rw [here] at reached
    obtain ⟨unnumbered,zero⟩ := reached.1.2 rfl
    refine ⟨unnumbered,fun existing => ?_⟩
    obtain ⟨listed,unknown⟩ := zero existing
    refine ⟨past listed,fun nonempty => ?_⟩
    rw [unknown nonempty]
    exact ⟨fun free => ⟨.inl rfl,fun _ j _ _ taken => absurd taken (free j),fun _ _ => free⟩,fun current => current.seen existing rfl⟩
  · have settled : Settled res spec.backup_control (u.kernel,evs.reverse) := by
      refine guards_keeps (J := Settled res spec.backup_control) (fun s _ c r s' settled checked answered => ?_) along before ?_
      · obtain ⟨k',h'⟩ := s'
        obtain ⟨answered,rfl⟩ := answered
        exact settled_step settled checked answered.1
      · rintro path _ ⟨later,names,earlier,shape,_⟩
        simp at shape
    exact (settled path nonempty undisturbed).current

/-- A file with a name. -/
def staleKernel : Kernel where
  names := [((0,"b".toList),1)]
  files := fun _ => {}
  next := 2
  nfds := 0
  opened := []
  offset := fun _ => 0
  safe := []
  journal := []

def staleSpec : FileSpec := { force_mode := true, backup_given := true, backup_control := "numbered" }

/-- As many calls that just succeed, and what comes after them. -/
def dones (n : Nat) (rest : List Choice) : List Choice := List.replicate n .done ++ rest

def staleChoices : List Choice :=
  dones 4 <| .ok [0o666] :: dones 3 (.ok [0o666] :: dones 3 (.ok [0o666] :: dones 8 (.ok [0,1,2,3,4,5] ::
    dones 16 (.ok [1,1,2,3,4,5] :: .done :: .fail .ENOENT :: dones 4 (.ok [2,1,2,3,4,5] :: dones 5 [])))))

/-- Directories can be listed, and there is memory. -/
def staleStep (k : Kernel) (c : Call) (ch : Choice) : Option (posix.Res c × Kernel) :=
  match c, ch with
  | .list _, .fail _ | .alloc, .fail _ => none
  | c, ch => step (fun _ => 0) k c ch

theorem staleStep_listable (k : Kernel) (c : Call) (r : posix.Res c) (k' : Kernel)
    (answered : ∃ ch, staleStep k c ch = some (r,k')) : listable (fun _ => 0) k c r k' := by
  obtain ⟨ch,stepped⟩ := answered
  cases c
  case list dir =>
    cases ch with
    | fail e => simp [staleStep] at stepped
    | ok hints =>
      refine ⟨⟨.ok hints,stepped⟩,?_⟩
      simp only [staleStep,step,answer,Option.map_some,Option.some.injEq,Prod.mk.injEq] at stepped
      obtain ⟨rfl,_⟩ := stepped
      trivial
  case alloc =>
    cases ch with
    | fail e => simp [staleStep] at stepped
    | ok hints =>
      refine ⟨⟨.ok hints,stepped⟩,?_⟩
      simp only [staleStep,step,answer,Option.map_some,Option.some.injEq,Prod.mk.injEq] at stepped
      obtain ⟨rfl,_⟩ := stepped
      trivial
  all_goals exact ⟨⟨ch,stepped⟩,trivial⟩

/-- The names that a program is about to link. -/
def linksNext {α : Type} : Prog posix Memory α → Option (Path × Path)
  | .call (.link src dst) _ => some (src,dst)
  | _ => none

theorem linksNext_call {p : P α} {src dst : Path} (linked : linksNext p = some (src,dst)) :
    ∃ next, p = .call (.link src dst) next := by
  cases p with
  | call c next =>
    cases c with
    | link a b =>
      simp only [linksNext,Option.some.injEq,Prod.mk.injEq] at linked
      obtain ⟨rfl,rfl⟩ := linked
      exact ⟨next,rfl⟩
    | _ => simp [linksNext] at linked
  | _ => simp [linksNext] at linked

/-- A file with a name and its ninth backup. -/
def backedKernel : Kernel := { staleKernel with names := [((0,"b".toList),1),((0,"b.~9~".toList),1)] }

/-- An operand that was built without a name. -/
def sampleOps : Ops := noOps.set 0 { path := ⟨"b".toList,none⟩, fd := some ⟨0,2⟩, way := .WAY_UNNAMED }

/-- The names of the last listing of a directory, where all calls since were allocations. -/
def justListed (dir : Path) : History → Option (List Path)
  | ⟨.list d,.ok names⟩ :: _ => if d = dir then some names else none
  | ⟨.alloc,_⟩ :: h => justListed dir h
  | _ => none

theorem justListed_undisturbed {names : List Path} (listed : justListed (dirText path) h = some names) :
    Undisturbed res path h := by
  fun_induction justListed (dirText path) h with
  | case1 h names' => exact ⟨[],names',h,rfl,by simp⟩
  | case2 => simp at listed
  | case3 r h ih =>
    obtain ⟨later,names',earlier,shape,quiet⟩ := ih listed
    refine ⟨⟨.alloc,r⟩ :: later,names',earlier,by rw [shape]; rfl,fun e here => ?_⟩
    rcases List.mem_cons.mp here with rfl | here
    · rintro ⟨⟨_,_,touched⟩,_⟩
      cases r <;> exact absurd touched (by simp [Newfile.Answers.touched])
    · exact quiet e here
  | case4 => simp at listed

def loggedStep (s : Kernel × History) (c : Call) (ch : Choice) : Option (posix.Res c × (Kernel × History)) :=
  (staleStep s.1 c ch).map fun (r,k') => (r,(k',⟨c,r⟩ :: s.2))

theorem loggedStep_listable (s : Kernel × History) (c : Call) (r : posix.Res c) (s' : Kernel × History)
    (answered : ∃ ch, loggedStep s c ch = some (r,s')) : Traces.logged (listable fun _ => 0) s c r s' := by
  obtain ⟨ch,stepped⟩ := answered
  obtain ⟨⟨r',k'⟩,found,same⟩ := Option.map_eq_some_iff.mp stepped
  obtain ⟨rfl,rfl⟩ := Prod.mk.inj same
  exact ⟨staleStep_listable _ _ _ _ ⟨ch,found⟩,rfl⟩

def sampleEnd : Config posix (Kernel × History) Memory Ops :=
  play loggedStep (eachOp (fun op i => name_one 9 op i staleSpec) 1 0 sampleOps) (backedKernel,[]) {}
    (dones 3 (.ok [0,1,2,3,4,5] :: dones 10 []))

/-- The directory is listed, and the backup after the ninth gets the number 10. -/
theorem backups_due_iff_sample : ∃ evs u next,
    Run (listable fun _ => 0) ⟨eachOp (fun op i => name_one 9 op i staleSpec) 1 0 sampleOps,backedKernel,{}⟩ evs u ∧
      u.prog = .call (.link "b".toList (backupText "b".toList "10".toList)) next ∧
      Taken (fun _ => 0) u.kernel "b".toList 9 ∧ Due (fun _ => 0) u.kernel "b".toList (number "10".toList) := by
  obtain ⟨evs,played⟩ := play_run loggedStep (eachOp (fun op i => name_one 9 op i staleSpec) 1 0 sampleOps) (backedKernel,[]) {}
    (dones 3 (.ok [0,1,2,3,4,5] :: dones 10 []))
  obtain ⟨run,history⟩ := Traces.logged_run (Run.mono loggedStep_listable played)
  change sampleEnd.kernel.2 = evs.reverse ++ [] at history
  rw [List.append_nil] at history
  obtain ⟨next,linked⟩ := linksNext_call (p := sampleEnd.prog) (by decide +kernel :
    linksNext sampleEnd.prog = some ("b".toList,backupText "b".toList "10".toList))
  have free : sampleEnd.kernel.1.names.get (entry (fun _ => 0) (backupText "b".toList "10".toList)) = none := by decide +kernel
  have nonempty : baseText "b".toList ≠ [] := by decide +kernel
  have listed : (justListed (dirText "b".toList) sampleEnd.kernel.2).isSome = true := by decide +kernel
  obtain ⟨names,listed⟩ := Option.isSome_iff_exists.mp listed
  have there : (sampleEnd.kernel.1.names.get (0,backupBase "b".toList "9".toList)).isSome = true := by decide +kernel
  have nine : Taken (fun _ => 0) sampleEnd.kernel.1 "b".toList 9 := ⟨"9".toList,⟨by simp,by simp,by simp⟩,rfl,there⟩
  obtain ⟨numbered,_,fresh⟩ := backups_due_iff (fun _ => 0) 9 staleSpec rfl 1 sampleOps rfl evs _ run
  refine ⟨evs,_,next,run,linked,nine,(((numbered _ _ next linked).2.2 nonempty free).mpr ?_).1⟩
  exact fresh _ nonempty (by rw [← history]; exact justListed_undisturbed listed)

/-- Where the run of three operands comes to the second backup of the file. -/
def staleEnd : Config posix Kernel Memory Bool :=
  play staleStep (batch_run 9 ["b".toList,"b.~9~".toList,"b".toList] staleSpec) staleKernel {} staleChoices

/-- Between two backups of one file, an operand takes the name of a ninth backup. The
    listing does not know of it, and the second backup gets the number 2 and not 10. -/
theorem stale_backup : ∃ evs u next,
    Run (listable fun _ => 0) ⟨batch_run 9 ["b".toList,"b.~9~".toList,"b".toList] staleSpec,staleKernel,{}⟩ evs u ∧
      u.prog = .call (.link "b".toList (backupText "b".toList "2".toList)) next ∧
      u.kernel.names.get (entry (fun _ => 0) (backupText "b".toList "2".toList)) = none ∧
      Taken (fun _ => 0) u.kernel "b".toList 9 ∧ ¬ Due (fun _ => 0) u.kernel "b".toList (number "2".toList) := by
  obtain ⟨evs,run⟩ := play_run staleStep (batch_run 9 ["b".toList,"b.~9~".toList,"b".toList] staleSpec) staleKernel {}
    staleChoices
  have run' : Run (listable fun _ => 0) _ evs staleEnd := Run.mono staleStep_listable run
  obtain ⟨next,linked⟩ := linksNext_call (p := staleEnd.prog) (by decide +kernel :
    linksNext staleEnd.prog = some ("b".toList,backupText "b".toList "2".toList))
  have free : staleEnd.kernel.names.get (entry (fun _ => 0) (backupText "b".toList "2".toList)) = none := by decide +kernel
  have there : (staleEnd.kernel.names.get (0,backupBase "b".toList "9".toList)).isSome = true := by decide +kernel
  have taken : Taken (fun _ => 0) staleEnd.kernel "b".toList 9 := ⟨"9".toList,⟨by simp,by simp,by simp⟩,rfl,there⟩
  refine ⟨evs,staleEnd,next,run',linked,free,taken,fun due => ?_⟩
  have below := due.1 9 taken
  have two : number "2".toList = 2 := rfl
  omega

end Newfile.Listings
