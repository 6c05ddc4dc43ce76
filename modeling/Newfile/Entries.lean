import Newfile.Numbers
import Newfile.Resolve
import Newfile.Traces

/-!
The directory of an operand: what `path_dir` builds leads to the directory of the
operand's own entry, of the temporary names beside it and of its backups.
-/
namespace Newfile.Entries
open Newfile.Program Newfile.Posix Newfile.Process Newfile.Pending Newfile.Fastio Newfile.Place Newfile.Backup Newfile.Accounts
open Newfile.Flush Newfile.Batch Newfile.Calls Newfile.Numbers Newfile.Resolve Newfile.Walks

/-- A path that ends in a name. -/
structure Operand where
  path : Path
  nonempty : path ≠ []
  unslashed : path.getLast? ≠ some '/'

/-! ## The two parts -/

theorem path_dir_len_front {rest : Path} (plain : '/' ∉ rest) (front : Path) :
    path_dir_len (front ++ ('/' :: rest)) = front.length+1 := by
  simp only [path_dir_len,strrchr_last plain,List.length_append,List.length_cons]
  omega

theorem dirText_front {rest : Path} (plain : '/' ∉ rest) (front : Path) :
    dirText (front ++ ('/' :: rest)) = if front = [] then ['/'] else front := by
  rw [dirText,path_dir_len_front plain]
  cases front with
  | nil => rfl
  | cons c front => simp

theorem baseText_front {rest : Path} (plain : '/' ∉ rest) (front : Path) : baseText (front ++ ('/' :: rest)) = rest := by
  rw [baseText,path_dir_len_front plain]
  simp

theorem dirText_plain {path : Path} (plain : '/' ∉ path) : dirText path = ".".toList := by
  simp [dirText,path_dir_len,strrchr_none plain]

theorem baseText_plain {path : Path} (plain : '/' ∉ path) : baseText path = path := by
  simp [baseText,path_dir_len,strrchr_none plain]

theorem baseText_slash (path : Path) : '/' ∉ baseText path := by
  rcases path_parts path with plain | ⟨front,rest,plain,rfl⟩
  · rwa [baseText_plain plain]
  · rwa [baseText_front plain]

theorem baseText_ne_nil (o : Operand) : baseText o.path ≠ [] := by
  obtain ⟨path,nonempty,unslashed⟩ := o
  rcases path_parts path with plain | ⟨front,rest,plain,rfl⟩
  · rwa [baseText_plain plain]
  · rw [baseText_front plain]
    rintro rfl
    simp at unslashed

/-- The directory of a path is the one that holds its entry. -/
theorem dirText_holds {ι : Type} (t : FileTree ι) (o : Operand) (d : ι) :
    Resolves t (dirText o.path) d ↔ Holds t o.path d (baseText o.path) := by
  have filled := baseText_ne_nil o
  rcases path_parts o.path with plain | ⟨front,rest,plain,split⟩
  · rw [dirText_plain plain,baseText_plain plain]
    exact resolves_dot_iff plain o.nonempty
  · rw [split,baseText_front plain] at filled
    rw [split,dirText_front plain,baseText_front plain]
    exact resolves_front_iff plain filled

theorem holds_base {ι : Type} {t : FileTree ι} {o : Operand} {d : ι} {n : Path} (holds : Holds t o.path d n) :
    n = baseText o.path := by
  have filled := baseText_ne_nil o
  obtain ⟨names,split,-⟩ := holds
  rcases path_parts o.path with plain | ⟨front,rest,plain,shape⟩
  · rw [components_plain plain o.nonempty] at split
    rw [baseText_plain plain]
    simpa using (List.append_inj' (show [] ++ [_] = names ++ [n] from split) rfl).2.symm
  · rw [shape,baseText_front plain] at filled ⊢
    rw [shape,components_slash,components_plain plain filled] at split
    simpa using (List.append_inj' split rfl).2.symm

/-! ## Names beside the operand -/

/-- `temp_make` hands the name to `make`: what it does depends on what that does with it. -/
def Builds (path name : Path) : Prop :=
  ∃ (slot : Nat) (make make' : Path → P (Except Errno Made)), (∀ other, other ≠ name → make other = make' other) ∧
    temp_make path slot make ≠ temp_make path slot make'

theorem temp_fill_congr {α : Type} {k k' : List Char → P α} (same : ∀ rnd, k (suffixOf rnd) = k' (suffixOf rnd)) :
    temp_fill >>= k = temp_fill >>= k' := by
  rw [temp_fill,bind_assoc,bind_assoc]
  congr 1
  funext r
  cases r with
  | ok rnd => exact same rnd
  | error e =>
    simp only [bind_assoc]
    congr 1
    funext _
    congr 1
    funext m
    exact same _

theorem makeLoop_congr {slot : Nat} {make make' : Path → P (Except Errno Made)} {front : Path} (block : Option Nat)
    (same : ∀ rnd, make (front ++ suffixOf rnd) = make' (front ++ suffixOf rnd)) :
    ∀ (tries : Nat) (e : Errno), makeLoop slot make front block tries e = makeLoop slot make' front block tries e := by
  intro tries
  induction tries with
  | zero => intro e; rfl
  | succ tries ih =>
    intro e
    rw [makeLoop,makeLoop]
    refine temp_fill_congr fun rnd => ?_
    simp only [tryMake,same rnd,ih]

/-- The names of `temp_make` are in front of the operand's base, and end in letters and digits. -/
theorem Builds.shape {path name : Path} (builds : Builds path name) :
    ∃ rnd, name = path.take (path_dir_len path) ++ (TEMP_STEM ++ suffixOf rnd) := by
  obtain ⟨slot,make,make',agree,differ⟩ := builds
  by_contra other
  push Not at other
  refine differ ?_
  have same : ∀ rnd, make (path.take (path_dir_len path) ++ TEMP_STEM ++ suffixOf rnd) =
      make' (path.take (path_dir_len path) ++ TEMP_STEM ++ suffixOf rnd) := by
    intro rnd
    rw [List.append_assoc]
    exact agree _ (other rnd).symm
  rw [temp_make,temp_make]
  simp only [makeLoop_congr _ same]

/-- A system with memory, and with these bytes of entropy. -/
def drawing (rnd : List Nat) : System posix Unit
  | (), .alloc, r, () => r = .ok ()
  | (), .getentropy _, r, () => r = .ok rnd
  | _, _, _, _ => False

theorem Builds.of_shape {path : Path} (rnd : List Nat) :
    Builds path (path.take (path_dir_len path) ++ (TEMP_STEM ++ suffixOf rnd)) := by
  refine ⟨0,fun _ => .exit,fun name =>
    if name = path.take (path_dir_len path) ++ (TEMP_STEM ++ suffixOf rnd) then .spin else .exit,?_,?_⟩
  · intro other differs
    simp [differs]
  · intro same
    have ended : wp (drawing rnd) False (temp_make path 0 fun _ => .exit) (fun _ _ _ => True) () {} := by
      intro r k drawn
      obtain rfl : r = .ok () := drawn
      intro r k drawn
      obtain rfl : r = .ok rnd := drawn
      trivial
    rw [same] at ended
    have stuck := ended (.ok ()) () rfl (.ok rnd) () rfl
    simp [tryMake,Prog.bind,Prog.pure_eq,pending_hold,Program.get,Program.modify,wp] at stuck

/-- The temporary names are those in front of the operand's base, with letters and digits drawn. -/
theorem builds_iff {path name : Path} :
    Builds path name ↔ ∃ rnd, name = path.take (path_dir_len path) ++ (TEMP_STEM ++ suffixOf rnd) := by
  constructor
  · exact Builds.shape
  · rintro ⟨rnd,rfl⟩
    exact .of_shape rnd

/-- A name beside the operand is an entry of its directory. -/
theorem beside_holds {ι : Type} (t : FileTree ι) (path : Path) (d : ι) {name : Path} (plain : '/' ∉ name)
    (nonempty : name ≠ []) :
    Resolves t (dirText path) d ↔ Holds t (path.take (path_dir_len path) ++ name) d name := by
  have last : (path.take (path_dir_len path) ++ name).getLast? ≠ some '/' := by
    rw [List.getLast?_append_of_ne_nil _ nonempty]
    exact fun slash => plain (List.mem_of_getLast? slash)
  have holds := dirText_holds t ⟨path.take (path_dir_len path) ++ name,by simp [nonempty],last⟩ d
  have base : baseText (path.take (path_dir_len path) ++ name) = name := by
    rcases path_parts path with unsplit | ⟨front,rest,other,rfl⟩
    · simp [path_dir_len,strrchr_none unsplit,baseText_plain plain]
    · rw [path_dir_len_front other]
      have front' : (front ++ ('/' :: rest)).take (front.length+1) ++ name = front ++ ('/' :: name) := by
        simp [List.take_append,List.take_of_length_le]
      rw [front',baseText_front plain]
  simpa only [dirText_beside path plain,base] using holds

theorem take_baseText (path : Path) : path.take (path_dir_len path) ++ baseText path = path := List.take_append_drop _ _

/-! ## Directories in use -/

/-- What is listed and where unnamed files are opened is the directory `dir`, and what is
    opened to be flushed is in `D`. -/
def Near (dir : Path) (D : Path → Prop) : Call → Prop
  | .list d | .open_tmpfile d _ => d = dir
  | .open_dir d => D d
  | _ => True

section
variable {res : Path → Ino} {dir : Path} {D : Path → Prop} {α β : Type} {op : Op} {slot : Nat} {spec : FileSpec}

/-- With a queue in `D` the program works near `dir`, and leaves a queue in `D`. -/
def Stays (res : Path → Ino) (dir : Path) (D : Path → Prop) (p : P α) : Prop :=
  ∀ k m, (∀ d ∈ m.dirs, D d) → guards (exec res) (fun _ _ c => Near dir D c) p (fun _ _ m' => ∀ d ∈ m'.dirs, D d) k m

theorem stays_uses {p : P α} (plain : uses (Near dir D) (fun m m' => m'.dirs = m.dirs) p) : Stays res dir D p :=
  fun _ _ inside => guards_uses (S := fun _ m => ∀ d ∈ m.dirs, D d) plain (fun _ _ _ near => near)
    (fun _ _ _ _ _ inside _ _ => inside) (fun _ _ _ inside same => by rw [same]; exact inside) inside

theorem stays_call {c : Call} (near : Near dir D c) : Stays res dir D (perform c) := stays_uses (uses_sys near)

theorem stays_modify {f : Memory → Memory} (same : ∀ m, (f m).dirs = m.dirs) : Stays res dir D (modify f) :=
  stays_uses (uses_modify same)

theorem stays_bind {p : P α} {f : α → P β} (first : Stays res dir D p) (rest : ∀ a, Stays res dir D (f a)) :
    Stays res dir D (p >>= f) :=
  fun k m inside => guards_seq (first k m inside) fun a k m inside => rest a k m inside

theorem handles_stays : Handles fun _ p => Stays res dir D p :=
  (handles_uses (fun {c} _ => by cases c <;> trivial) Tables.dirs).lift stays_bind stays_uses

theorem naming_stays : Naming (fun _ p => Stays res dir D p) D where
  toHandles := handles_stays
  spin _ _ _ := trivial
  read rest k m inside := rest m inside k m inside
  open_dir _ here := stays_call here
  fstat _ := stays_call trivial
  fsync _ := stays_call trivial
  close _ := stays_call trivial
  failed := handles_stays.dir_failed (stays_modify fun _ => rfl) (stays_modify fun _ => rfl) fun _ => stays_modify fun _ => rfl
  emptied _ _ _ := fun _ here => absurd here List.not_mem_nil
  queued d here _ m inside := by
    intro d' member
    rcases List.mem_append.mp member with old | new
    · exact inside d' old
    · obtain rfl := List.mem_singleton.mp new
      exact here
  rename _ _ := stays_call trivial
  exchange _ _ := stays_call trivial
  linkat _ _ := stays_call trivial
  hold _ := stays_modify fun _ => rfl
  unhold := stays_modify fun _ => rfl
  told _ := stays_modify fun _ => rfl

theorem create_excl_stays (path : Path) (mode : Mode) : Stays res dir D (create_excl path mode) :=
  handles_stays.attempt (stays_call trivial) (fun _ => handles_stays.pure _) fun _ =>
    handles_stays.attempt (stays_call trivial) (fun _ => handles_stays.bind (stays_call trivial) fun _ =>
      handles_stays.bind (stays_call trivial) fun _ => handles_stays.pure _) fun _ => handles_stays.pure _

theorem backup_make_stays (fuel : Nat) (path : Path) (control : String) : Stays res (dirText path) D (backup_make fuel path control) := by
  have got : Stays res (dirText path) D (backup_dir_get path) :=
    handles_stays.backup_dir_get (handles_stays.attempt (handles_stays.backup_dir_list (stays_call rfl)) (fun _ => handles_stays.pure _)
      fun _ => handles_stays.bind (stays_modify fun _ => rfl) fun _ => handles_stays.pure _) (stays_modify fun _ => rfl)
  refine handles_stays.backup_make fuel (handles_stays.backup_next control (handles_stays.backup_best got)) (fun st => ?_) fun st digits => ?_
  · exact handles_stays.backup_simple st (stays_call trivial) (handles_stays.place_temp_alias _ fun _ _ => stays_call trivial)
      fun _ _ => stays_call trivial
  · exact handles_stays.backup_numbered st (fun _ => stays_call trivial)
      (fun _ => handles_stays.backup_note got fun _ _ => stays_modify fun _ => rfl) naming_stays.spin fuel digits

theorem name_one_stays (fuel : Nat) (here : D (dirText op.path.text)) :
    Stays res (dirText op.path.text) D (name_one fuel op slot spec) :=
  naming_stays.name_one fuel slot here (fun _ => backup_make_stays fuel _ _) fun _ _ =>
    handles_stays.place_commit slot (stays_call trivial) (stays_call trivial)
      (handles_stays.place_over slot (create_excl_stays _ _) (fun _ => stays_call trivial) (stays_call trivial))

theorem open_built_stays : Stays res (dirText op.path.text) D (open_built op slot spec) := by
  have made : ∀ mode name, Stays res (dirText op.path.text) D (make_open mode name) := fun mode name =>
    handles_stays.attempt (create_excl_stays name mode) (fun _ => handles_stays.pure _) fun _ => handles_stays.pure _
  have usable : Stays res (dirText op.path.text) D procUsable := handles_stays.bind handles_stays.get fun m => by
    split
    · exact handles_stays.pure _
    · exact handles_stays.attempt (stays_call trivial) (fun _ => handles_stays.bind (stays_modify fun _ => rfl) fun _ =>
        handles_stays.pure _) fun _ => handles_stays.bind (stays_modify fun _ => rfl) fun _ => handles_stays.pure _
  refine handles_stays.open_built slot spec usable (fun _ => stays_call rfl) (fun _ => stays_call trivial) (fun _ => stays_call trivial)
    (fun mode => handles_stays.place_temp slot (made mode)) fun mode => ?_
  refine handles_stays.place_probe_mode slot (made mode) (fun _ => stays_call trivial) fun _ _ => stays_modify fun m => ?_
  split <;> rfl

/-- The directory `dir` in every run of the functions that work on an operand: `path_dir`
    returns it unless there is no memory, the unnamed file is opened there, the names that
    are listed are there, and nothing else is flushed or queued but what was queued before. -/
structure Used (path dir : Path) (res : Path → Ino) (k : Kernel) (m : Memory) (op : Op) (slot : Nat) (spec : FileSpec) : Prop where
  returned : ∀ evs u, Run (exec res) ⟨path_dir path,k,m⟩ evs u → ∀ r, u.prog = .ret r →
    r = .ok dir ∨ ∃ e, r = .error e ∧ ⟨.alloc,.error e⟩ ∈ evs
  unnamed : ∀ evs u, Run (exec res) ⟨open_built op slot spec,k,m⟩ evs u → ∀ d mode r, ⟨.open_tmpfile d mode,r⟩ ∈ evs → d = dir
  listed : ∀ fuel evs u, Run (exec res) ⟨name_one fuel op slot spec,k,m⟩ evs u → ∀ d r, ⟨.list d,r⟩ ∈ evs → d = dir
  flushed : ∀ fuel evs u, Run (exec res) ⟨name_one fuel op slot spec,k,m⟩ evs u → ∀ d r, ⟨.open_dir d,r⟩ ∈ evs → d = dir ∨ d ∈ m.dirs
  queued : ∀ fuel evs u, Run (exec res) ⟨name_one fuel op slot spec,k,m⟩ evs u → ∀ op', u.prog = .ret op' →
    ∀ d ∈ u.memory.dirs, d = dir ∨ d ∈ m.dirs

theorem path_dir_returned (path : Path) (k : Kernel) (m : Memory) :
    wp (Traces.logged (exec res)) False (path_dir path) (fun r s _ => r = .ok (dirText path) ∨
      ∃ e, r = .error e ∧ ⟨.alloc,.error e⟩ ∈ s.2) (k,[]) m := by
  rintro r ⟨k',h⟩ ⟨_,rfl⟩
  cases r with
  | error e => exact .inr ⟨e,rfl,List.mem_cons_self⟩
  | ok _ => exact .inl rfl

theorem used (path : Path) (k : Kernel) (m : Memory) (block : Option Nat) :
    Used path (dirText path) res k m { op with path := ⟨path,block⟩ } slot spec where
  returned evs u run r returned := by
    rcases (Traces.wp_trace (path_dir_returned path k m) run).2 r returned with fine | ⟨e,failed,member⟩
    · exact .inl fine
    · exact .inr ⟨e,failed,List.mem_reverse.mp member⟩
  unnamed evs u run d mode r member := guards_calls run (@open_built_stays res (fun _ => True) _ slot spec k m fun _ _ => trivial) _ member
  listed fuel evs u run d r member := guards_calls run (@name_one_stays res (fun _ => True) _ slot spec fuel trivial k m fun _ _ => trivial) _ member
  flushed fuel evs u run d r member :=
    guards_calls run (@name_one_stays res (fun d => d = dirText path ∨ d ∈ m.dirs) _ slot spec fuel (.inl rfl) k m fun _ => .inr) _ member
  queued fuel evs u run op' returned := by
    have after := guards_run run (@name_one_stays res (fun d => d = dirText path ∨ d ∈ m.dirs) _ slot spec fuel (.inl rfl) k m fun _ => .inr)
    rw [returned] at after
    exact after

end

/-- What `path_dir` returns, which is what is opened, listed and flushed, leads to the directory
    of the operand's entry, of its temporary names and of its backups, or none of these can be
    resolved. -/
theorem directory_agrees {ι : Type} (t : FileTree ι) (o : Operand) :
    (baseText o.path ≠ [] ∧ '/' ∉ baseText o.path ∧ o.path.take (path_dir_len o.path) ++ baseText o.path = o.path) ∧
    (∀ (res : Path → Ino) (k : Kernel) (m : Memory) (op : Op) (block : Option Nat) (slot : Nat) (spec : FileSpec),
      Used o.path (dirText o.path) res k m { op with path := ⟨o.path,block⟩ } slot spec) ∧
    ∀ d : ι,
      (Resolves t (dirText o.path) d ↔ Holds t o.path d (baseText o.path)) ∧
      (∀ name, Builds o.path name →
        (Resolves t (dirText o.path) d ↔ Holds t name d (name.drop (path_dir_len o.path)))) ∧
      (Resolves t (dirText o.path) d ↔ Holds t (o.path ++ "~".toList) d (baseText o.path ++ "~".toList)) ∧
      ∀ digits : List Char, (∀ c ∈ digits, c.isDigit = true) →
        (Resolves t (dirText o.path) d ↔
          Holds t (backupText o.path digits) d (baseText o.path ++ (".~".toList ++ digits ++ "~".toList))) := by
  have base := baseText_slash o.path
  have behind {s : Path} (plain : '/' ∉ s) (d : ι) :
      Resolves t (dirText o.path) d ↔ Holds t (o.path ++ s) d (baseText o.path ++ s) := by
    have holds := beside_holds t o.path d (show '/' ∉ baseText o.path ++ s by simp [base,plain])
      (by simp [baseText_ne_nil o])
    rwa [← List.append_assoc,take_baseText] at holds
  refine ⟨⟨baseText_ne_nil o,base,take_baseText _⟩,fun _ k m _ block _ _ => used o.path k m block,fun d => ⟨dirText_holds t o d,?_,behind (by simp) d,?_⟩⟩
  · intro name builds
    obtain ⟨rnd,rfl⟩ := builds_iff.mp builds
    have length : (o.path.take (path_dir_len o.path)).length = path_dir_len o.path :=
      List.length_take_of_le (path_dir_len_le o.path)
    rw [List.drop_append_of_le_length length.ge,List.drop_of_length_le length.le,List.nil_append]
    have stem : TEMP_STEM ≠ [] := by decide
    exact beside_holds t o.path d (suffixOf_slash rnd) (by simp [stem])
  · intro digits decimal
    have plain : '/' ∉ digits := by
      intro slash
      have digit := decimal _ slash
      simp at digit
    have suffix : '/' ∉ ".~".toList ++ digits ++ "~".toList := by simp [plain]
    simpa [backupText] using behind suffix d

end Newfile.Entries
