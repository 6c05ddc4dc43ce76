import Newfile.Accounts

/-!
The functions of `flush.c` and `paths.c`, and those of `batch.c` that build an
operand, keep the ledger.
-/
namespace Newfile.Building
open Newfile.Program Newfile.Program.Prog Newfile.Posix Newfile.Process Newfile.Pending Newfile.Fastio Newfile.Flush
open Newfile.Place Newfile.Template Newfile.Batch Newfile.Calls Newfile.Effects Newfile.Ledger Newfile.Bookkeeping
open Newfile.Places Newfile.Accounts Newfile.Simulation Newfile.Walks Function

variable {paths : List Path} {spec : FileSpec} {α β : Type} {m m' : Memory} {g g' : Book}

/-! ## Parts that leave the ledger alone -/

/-- The part leaves the ledger alone. -/
def Still (paths : List Path) (spec : FileSpec) (p : P α) : Prop :=
  ∀ m g, Follows (ledger paths spec) p (fun _ m' g' => Same m m' ∧ g' = g) m g

theorem still_pure (a : α) : Still paths spec (pure a : P α) := fun m _ => follows_pure ⟨Same.refl m,rfl⟩

theorem still_bind {p : P α} {f : α → P β} (first : Still paths spec p) (rest : ∀ a, Still paths spec (f a)) :
    Still paths spec (p >>= f) := by
  intro m g
  refine follows_seq (first m g) ?_
  rintro a m₁ _ _ ⟨same,rfl⟩
  refine follows_mono (rest a m₁ _) ?_
  rintro b m₂ _ _ ⟨same',rfl⟩
  exact ⟨same.trans same',rfl⟩

theorem still_tame {p : P α} {R : α → Prop} (tame : Tame none R p) : Still paths spec p := by
  intro m g
  refine follows_mono (tame.follows (by simp [Writes])) ?_
  rintro a m' _ _ ⟨_,same,rfl⟩
  exact ⟨same,rfl⟩

theorem still_call {c : Call} (silent : matters c = false) : Still paths spec (perform c) :=
  still_tame (R := fun _ => True) ⟨.inl silent,fun _ _ => trivial⟩

/-- The rule for a part that leaves the ledger alone. -/
theorem follows_still {p : P α} {f : α → P β} {Q : β → Memory → Book → Prop} (still : Still paths spec p)
    (rest : ∀ a m', Same m m' → Follows (ledger paths spec) (f a) Q m' g) :
    Follows (ledger paths spec) (p >>= f) Q m g := by
  refine follows_seq (still m g) ?_
  rintro a m' _ _ ⟨same,rfl⟩
  exact rest a m' same

/-! ## flush.c -/

/-- What is noted of a directory changes no name. -/
theorem same_noted {failures : List DirFailure} {lost : Bool} (counted : 0 < m.dirs_nfailed) :
    Same m { m with failures, failures_lost := lost } :=
  ⟨rfl,rfl,rfl,rfl,rfl,⟨[],rfl⟩,Nat.le_refl _,fun tidy => ⟨tidy.digits,fun _ => counted⟩⟩

theorem dir_failed_still (name : Path) (e : Errno) (known : Option Ino) : Still paths spec (dir_failed name e known) := by
  intro m g
  rw [dir_failed]
  refine follows_say fun m₁ said => ?_
  have counted : Same m₁ { m₁ with dirs_nfailed := m₁.dirs_nfailed+1 } :=
    ⟨rfl,rfl,rfl,rfl,rfl,⟨[],rfl⟩,Nat.le_succ _,fun tidy => ⟨tidy.digits,fun _ => Nat.succ_pos _⟩⟩
  have sofar := said.trans counted
  refine follows_step (.quiet counted) (follows_get ?_)
  split
  · exact fun _ _ => ⟨g,.quiet (same_noted (Nat.succ_pos _)),fun _ => ⟨sofar.trans (same_noted (Nat.succ_pos _)),rfl⟩⟩
  · refine follows_silent rfl fun r _ => ?_
    cases r with
    | error _ => exact fun _ _ => ⟨g,.quiet (same_noted (Nat.succ_pos _)),fun _ => ⟨sofar.trans (same_noted (Nat.succ_pos _)),rfl⟩⟩
    | ok _ => exact fun _ _ => ⟨g,.quiet (same_noted (Nat.succ_pos _)),fun _ => ⟨sofar.trans (same_noted (Nat.succ_pos _)),rfl⟩⟩

theorem same_dirs (m : Memory) (dirs : List Path) : Same m { m with dirs } :=
  ⟨rfl,rfl,rfl,rfl,rfl,⟨[],rfl⟩,Nat.le_refl _,fun tidy => ⟨tidy.digits,tidy.failed⟩⟩

theorem flushes_still : Flushes (fun _ p => Still paths spec p) fun _ => True where
  pure := still_pure
  bind := still_bind
  get m _ := follows_get (follows_pure ⟨Same.refl m,rfl⟩)
  alloc := still_call rfl
  spin _ _ _ := trivial
  read rest m _ := follows_get (rest m (fun _ _ => trivial) m _)
  open_dir _ _ := still_call rfl
  fstat _ := still_call rfl
  fsync _ := still_call rfl
  close _ := still_call rfl
  failed := dir_failed_still
  emptied m _ := follows_step (.quiet (same_dirs m [])) (follows_pure ⟨same_dirs m [],rfl⟩)
  queued _ _ m _ := follows_step (.quiet (same_dirs m _)) (follows_pure ⟨same_dirs m _,rfl⟩)

/-! ## paths.c -/

theorem mkdir_onward {q : Path} {names files : List Nat} {left : Prop} :
    Onward names files (Minor left) m g m { g with trail := .dir q :: g.trail } :=
  ⟨fun _ _ => rfl,fun _ _ => rfl,rfl,List.Subset.refl _,Nat.le_refl _,fun _ _ => rfl,Nat.le_refl _,List.Subset.refl _,
    ⟨[.dir q],rfl,by simp [Minor]⟩⟩

theorem makeParent_spec (fuel : Nat) {buf : Path} (parent : ∃ p ∈ paths, ParentOf p buf) :
    Follows (ledger paths spec) (makeParent fuel buf) (fun _ m' g' => Onward [] [] (Minor False) m g m' g') m g := by
  rw [makeParent]
  refine follows_perform (fun e => ?_) fun _ _ _ _ => ⟨_,.mkdir parent,?_⟩
  · dsimp only
    split
    · refine follows_silent rfl fun r _ => ?_
      cases r with
      | error e => exact follows_pure (Onward.refl m g)
      | ok st => exact follows_pure (Onward.refl m g)
    · exact follows_pure (Onward.refl m g)
  · refine follows_tame (tame_path_dir buf) fun r m₁ _ same => ?_
    have onward : Onward [] [] (Minor False) m g m₁ { g with trail := .dir buf :: g.trail } :=
      mkdir_onward.trans (same_onward same _)
    cases r with
    | error e => exact follows_pure onward
    | ok dir => exact follows_still (flushes_still.flush_set_add fuel trivial) fun _ m₂ same' => follows_pure (onward.trans (same_onward same' _))

/-- The directories on the way to a path are on the way to an operand. -/
theorem parentsLoop_spec (fuel : Nat) {path : Path} {i : Nat} (member : path ∈ paths) (slash : path[i]? = some '/') :
    ∀ (behind : Nat) (m : Memory) (g : Book), behind < (path.take i).length ∨ behind = 0 →
      Follows (ledger paths spec) (parentsLoop fuel (path.take i) behind) (fun _ m' g' => Onward [] [] (Minor False) m g m' g') m g := by
  intro behind
  induction behind with
  | zero => exact fun m g _ => makeParent_spec fuel ⟨path,member,i,slash,rfl⟩
  | succ behind ih =>
    intro m g inside
    have inside' : behind+1 < (path.take i).length := inside.resolve_right (by omega)
    rw [parentsLoop]
    split
    · rename_i found
      have short : (path.take i).length-(behind+1) < (path.take i).length := by omega
      have parent : ParentOf path ((path.take i).take ((path.take i).length-(behind+1))) := by
        refine ⟨(path.take i).length-(behind+1),?_,?_⟩
        · have inner : (path.take i).length-(behind+1) < path.length := by
            have := List.length_take_le i path
            simp only [List.length_take] at short ⊢
            omega
          rw [List.getD_eq_getElem _ _ short,List.getElem_take] at found
          rw [List.getElem?_eq_getElem inner,found]
        · rw [List.take_take]
          congr 1
          have : (path.take i).length ≤ i := by simp
          omega
      refine follows_seq (makeParent_spec fuel ⟨path,member,parent⟩) ?_
      rintro r m₁ g₁ _ onward
      cases r with
      | error e => exact follows_pure onward
      | ok _ =>
        refine follows_mono (ih m₁ g₁ (.inl (by omega))) ?_
        exact fun _ _ _ _ onward' => onward.trans onward'
    · exact ih m g (.inl (by omega))

theorem path_make_parents_spec (fuel : Nat) {path : Path} (member : path ∈ paths) :
    Follows (ledger paths spec) (path_make_parents fuel path) (fun _ m' g' => Onward [] [] (Minor False) m g m' g') m g := by
  rw [path_make_parents]
  refine follows_silent rfl fun r _ => ?_
  cases r with
  | error e => exact follows_pure (Onward.refl m g)
  | ok _ =>
    dsimp only
    rcases path_parts path with unsplit | ⟨front,rest,plain,rfl⟩
    · rw [strrchr_none unsplit]
      exact follows_pure (Onward.refl m g)
    · rw [strrchr_last plain]
      dsimp only
      split
      · exact follows_pure (Onward.refl m g)
      · refine parentsLoop_spec fuel member ?_ _ m g (by omega)
        simp

/-! ## Filling -/

theorem uses_tame {fd : Fd} {p : P α} (plain : uses (fun c => matters c = false ∨ altered c = some fd) Same p) :
    Tame (some fd) (fun _ => True) p := by
  induction p with
  | ret a => trivial
  | call c next ih =>
    refine ⟨plain.1.imp id fun alters => ⟨fd,rfl,alters⟩,fun r _ => ih r (plain.2 r)⟩
  | mem h next ih => exact fun m _ => ⟨(plain m).1,ih (h m) (plain m).2⟩
  | exit => trivial
  | spin => trivial

theorem idle_silent (c : Call) (asks : idle c = true) : matters c = false := by
  cases c with
  | alloc | getrlimit_fsize | fstat | lseek_set | lseek_data | lseek_hole | read | pread => rfl
  | _ => simp [idle] at asks

theorem idles_same (fd : Fd) : Idles (fun c => matters c = false ∨ altered c = some fd) Same where
  idle {c} asks := .inl (idle_silent c asks)
  same := Same.refl
  limit _ _ := ⟨rfl,rfl,rfl,rfl,rfl,⟨[],rfl⟩,Nat.le_refl _,fun tidy => ⟨tidy.digits,tidy.failed⟩⟩

theorem fill_one_tame (fuel : Nat) (fd : Fd) (spec : FileSpec) : Tame (some fd) (fun _ => True) (fill_one fuel fd spec) :=
  uses_tame (fill_one_uses (idles_same fd) (fun alters => .inr alters) fuel spec)

/-! ## Operands -/

/-- A name may have been left behind of an operand of which this is told. -/
def Blamed (op : Op) : Prop := op.fail.isSome = true ∨ op.leftover = true

/-- An operand that failed holds nothing. -/
structure Failed (slot : Nat) (op : Op) (g : Book) : Prop where
  fail : op.fail.isSome = true
  fd : op.fd = none
  tmppath : op.tmppath = none
  gone : g.live slot = none

/-- The operand of a path, with no old file beside it. -/
structure Of (path : Str) (op : Op) : Prop where
  names : op.path = path
  spare : op.spare = none
  backup_name : op.backup_name = none

/-- What a part that builds an operand has done so far. -/
structure Sofar (slot : Nat) (path : Str) (m₀ : Memory) (g₀ : Book) (op : Op) (m : Memory) (g : Book) : Prop
    extends Of path op where
  onward : Onward [slot] [slot] (Minor (Blamed op)) m₀ g₀ m g

/-- What it leaves of an operand that failed. -/
structure Undone (slot : Nat) (path : Str) (m₀ : Memory) (g₀ : Book) (op : Op) (m : Memory) (g : Book) : Prop
    extends Sofar slot path m₀ g₀ op m g, Failed slot op g

variable {slot : Nat} {path : Str} {m₀ : Memory} {g₀ : Book} {op : Op}

theorem Blamed.failed {op : Op} {what : String} {e : Errno} {fd : Option Fd} {tmppath : Option Str} :
    Blamed { op with fail := some what, err := e, fd, tmppath } := .inl rfl

theorem Blamed.any {left : Prop} (blamed : Blamed op) (onward : Onward [slot] [slot] (Minor left) m₀ g₀ m g) :
    Onward [slot] [slot] (Minor (Blamed op)) m₀ g₀ m g :=
  onward.mono (List.Subset.refl _) (List.Subset.refl _) fun _ => Minor.mono fun _ => blamed

theorem op_fail_undone {left : Prop} (what : String) (e : Errno) (fits : slot ≠ FRESH) (rest : Rest g₀) (of_ : Of path op)
    (sofar : Onward [slot] [slot] (Minor left) m₀ g₀ m g) (owned : OwnsTmp g m op slot) :
    Follows (ledger paths spec) (op_fail op slot what e) (Undone slot path m₀ g₀) m g := by
  refine follows_mono (op_fail_spec what e owned fits (sofar.lag.trans rest.2.1) (by simp [of_.spare])) ?_
  rintro _ m' g' _ ⟨rfl,onward,gone⟩
  rw [of_.spare] at gone
  refine { names := of_.names, spare := of_.spare, backup_name := of_.backup_name, onward := ?_, fail := rfl, fd := rfl,
           tmppath := rfl, gone := by simpa using gone }
  exact (Blamed.failed.any sofar).trans (Blamed.failed.any (onward.mono (List.Subset.refl _) (by simp) fun _ => id))

/-- A file that an operand is to get, with or without a temporary name, and how far it is. -/
structure Raised (slot : Nat) (path : Str) (m₀ : Memory) (g₀ : Book) (op : Op) (fd : Fd) (phase : Phase) (m : Memory)
    (g : Book) : Prop extends Sofar slot path m₀ g₀ op m g where
  fine : op.fail = none
  opened : op.fd = some fd
  work : g.work slot = some ⟨fd.ino,phase,op.way = .WAY_TEMP⟩
  name : match op.way with
    | .WAY_PLAIN => False
    | .WAY_UNNAMED => op.tmppath = none ∧ g.live slot = none
    | .WAY_TEMP => ∃ name, op.tmppath = some name ∧ g.live slot = some ⟨name.text,fd.ino,.temp⟩ ∧ Owned g m slot name ∧
        TempOf path.text name.text

theorem Raised.owned {fd : Fd} {phase : Phase} (raised : Raised slot path m₀ g₀ op fd phase m g) : OwnsTmp g m op slot := by
  intro s found
  have name := raised.name
  cases way : op.way with
  | WAY_PLAIN => simp [way] at name
  | WAY_UNNAMED =>
    simp only [way] at name
    rw [name.1] at found
    cases found
  | WAY_TEMP =>
    simp only [way] at name
    obtain ⟨name,is,_,owned,_⟩ := name
    rw [is] at found
    cases found
    exact owned

/-- What `open_built` leaves, as far as it got. -/
def Opening (slot : Nat) (path : Str) (m₀ : Memory) (g₀ : Book) (r : Op × Option Mode) (m : Memory) (g : Book) : Prop :=
  match r.2 with
  | some _ => ∃ fd phase, Raised slot path m₀ g₀ r.1 fd phase m g ∧
      (r.1.way = .WAY_UNNAMED ∧ phase = .raw ∨ r.1.way = .WAY_TEMP ∧ phase = .secret)
  | none => Undone slot path m₀ g₀ r.1 m g

/-- An operand that was not given anything yet. -/
structure Bare (slot : Nat) (path : Str) (m₀ : Memory) (g₀ : Book) (op : Op) (m : Memory) (g : Book) : Prop
    extends Sofar slot path m₀ g₀ op m g where
  fine : op.fail = none
  tmppath : op.tmppath = none
  room : g.live slot = none

theorem Bare.owned (bare : Bare slot path m₀ g₀ op m g) : OwnsTmp g m op slot := by
  intro s found
  rw [bare.tmppath] at found
  cases found

theorem Bare.rest (bare : Bare slot path m₀ g₀ op m g) (fits : slot ≠ FRESH) (other : slot ≠ PENDING_BACKUP) (rest : Rest g₀) : Rest g :=
  rest.onward bare.onward (by simpa using fits.symm) (by simpa using other.symm)

/-- A part that makes no name for the operand. -/
theorem Bare.after (bare : Bare slot path m₀ g₀ op m g) (onward : Onward [slot] [slot] (Minor False) m g m' g')
    (room : g'.live slot = none) : Bare slot path m₀ g₀ op m' g' where
  toOf := bare.toOf
  onward := bare.onward.trans (onward.mono (List.Subset.refl _) (List.Subset.refl _) fun _ => Minor.mono False.elim)
  fine := bare.fine
  tmppath := bare.tmppath
  room := room

theorem openTemp_spec (granted : Mode) (member : path.text ∈ paths) (fits : slot < FRESH)
    (other : slot ≠ PENDING_BACKUP) (rest : Rest g₀)
    (bare : Bare slot path m₀ g₀ op m g) (way : op.way = .WAY_TEMP) :
    Follows (ledger paths spec) (openTemp op slot granted) (Opening slot path m₀ g₀) m g := by
  obtain rfl := bare.names
  rw [openTemp]
  refine follows_seq (place_temp_spec member fits (bare.rest fits.ne other rest) bare.room) ?_
  rintro r m' g' _ result
  cases r with
  | ok made =>
    obtain ⟨name,_⟩ := made
    obtain ⟨fd,rfl,onward,live,work,owned,temp⟩ := result
    refine follows_pure ⟨fd,.secret,?_,.inr ⟨way,rfl⟩⟩
    refine { names := rfl, spare := bare.spare, backup_name := bare.backup_name, onward := ?_, fine := bare.fine,
             opened := rfl, work := by simpa [way] using work, name := ?_ }
    · exact bare.onward.trans (onward.mono (List.Subset.refl _) (List.Subset.refl _) fun _ => Minor.mono False.elim)
    · simp only [way]
      exact ⟨name,rfl,live,owned,temp⟩
  | error e =>
    have still := bare.after (result.mono (by simp) (List.Subset.refl _) fun _ => id)
      ((result.live slot (by simp)).trans bare.room)
    refine follows_seq (op_fail_undone _ e fits.ne rest still.toOf still.onward still.owned) ?_
    exact fun _ _ _ _ undone => follows_pure undone

theorem procUsable_tame : Tame none (fun _ => True) procUsable := by
  have same : ∀ (m : Memory) usable, Same m { m with proc_usable := usable } := fun m usable =>
    ⟨rfl,rfl,rfl,rfl,rfl,⟨[],rfl⟩,Nat.le_refl _,fun tidy => ⟨tidy.digits,tidy.failed⟩⟩
  rw [procUsable]
  refine tame_get fun m _ => ?_
  cases m.proc_usable with
  | some usable => exact tame_ret trivial
  | none =>
    refine tame_perform rfl fun r _ => ?_
    cases r with
    | ok st => exact tame_modify (fun m _ => same m _) (tame_ret trivial)
    | error e => exact tame_modify (fun m _ => same m _) (tame_ret trivial)

theorem fast_tmpfile_spec (slot : Nat) (dir : Path) (mode : Mode) :
    Follows (ledger paths spec) (fast_tmpfile dir mode) (fun r m' g' => Onward [] [slot] (Minor False) m g m' g' ∧
      ∀ fd, r = .ok (some fd) → g'.work slot = some ⟨fd.ino,.raw,false⟩) m g := by
  rw [fast_tmpfile]
  refine follows_tame procUsable_tame fun usable m₁ _ same => ?_
  split
  · refine follows_perform (fun e => ?_) fun _ _ fd _ => ⟨_,.anon (i := slot),follows_pure ⟨?_,?_⟩⟩
    · refine follows_pure ⟨same_onward same g,fun fd => ?_⟩
      split
      · simp
      · simp
    · exact (same_onward same g).trans (worked_onward _)
    · rintro _ ⟨⟩
      simp
  · exact follows_pure ⟨same_onward same g,by simp⟩

theorem open_built_spec (member : path.text ∈ paths) (fits : slot < FRESH)
    (other : slot ≠ PENDING_BACKUP) (rest : Rest g₀)
    (bare : Bare slot path m₀ g₀ op m g) :
    Follows (ledger paths spec) (open_built op slot spec) (Opening slot path m₀ g₀) m g := by
  obtain rfl := bare.names
  have fails : ∀ {op' : Op} {m g} {left : Prop}, Of op.path op' → Onward [slot] [slot] (Minor left) m₀ g₀ m g →
      OwnsTmp g m op' slot → ∀ e, Follows (ledger paths spec)
        (op_fail op' slot "cannot create" e >>= fun op => pure (op,none)) (Opening slot op.path m₀ g₀) m g := by
    intro op' m g left of_ sofar owned e
    refine follows_seq (op_fail_undone _ e fits.ne rest of_ sofar owned) ?_
    exact fun _ _ _ _ undone => follows_pure undone
  rw [open_built]
  refine follows_tame (tame_path_dir _) fun r m₁ _ same => ?_
  have bare₁ : Bare slot op.path m₀ g₀ op m₁ g := bare.after (same_onward same g) bare.room
  cases r with
  | error e => exact fails bare₁.toOf bare₁.onward bare₁.owned e
  | ok dir =>
    refine follows_seq (fast_tmpfile_spec slot dir _) ?_
    rintro r m₂ g₂ _ ⟨onward,work⟩
    have room₂ : g₂.live slot = none := (onward.live slot (by simp)).trans bare.room
    have bare₂ : Bare slot op.path m₀ g₀ op m₂ g₂ := bare₁.after (onward.mono (by simp) (List.Subset.refl _) fun _ => id) room₂
    rcases r with e | _ | fd
    · exact fails bare₂.toOf bare₂.onward bare₂.owned e
    · have bare₃ : Bare slot op.path m₀ g₀ { op with way := .WAY_TEMP } m₂ g₂ := { bare₂ with }
      dsimp only
      split
      · exact openTemp_spec spec.mode member fits other rest bare₃ rfl
      · refine follows_seq (place_probe_mode_spec member fits (bare₃.rest fits.ne other rest) room₂) ?_
        rintro r m₃ g₃ _ ⟨room₃,onward₃⟩
        rcases r with e | ⟨granted,left⟩
        · have sofar : Onward [slot] [slot] (Minor True) m₀ g₀ m₃ g₃ :=
            (bare₃.onward.mono (List.Subset.refl _) (List.Subset.refl _) fun _ => Minor.mono fun _ => trivial).trans
              (onward₃.mono (List.Subset.refl _) (List.Subset.refl _) fun _ => Minor.mono fun _ => trivial)
          exact fails bare₃.toOf sofar (by simp [OwnsTmp,bare.tmppath]) e
        · cases left with
          | false =>
            refine openTemp_spec granted member fits other rest (bare₃.after ?_ room₃) rfl
            exact onward₃.mono (List.Subset.refl _) (List.Subset.refl _) fun _ => Minor.mono fun never => never granted rfl
          | true =>
            have blamed : Blamed { op with way := .WAY_TEMP, leftover := true } := .inr rfl
            have bare₄ : Bare slot op.path m₀ g₀ { op with way := .WAY_TEMP, leftover := true } m₃ g₃ :=
              { bare₃ with onward := (blamed.any bare₃.onward).trans (blamed.any onward₃), room := room₃ }
            exact openTemp_spec granted member fits other rest bare₄ rfl
    · refine follows_silent rfl fun r _ => ?_
      cases r with
      | error e =>
        have of_ : Of op.path { op with fd := some fd, way := .WAY_UNNAMED } := { bare₂ with }
        exact fails of_ bare₂.onward (by simp [OwnsTmp,bare.tmppath]) e
      | ok st =>
        refine follows_pure ⟨fd,.raw,?_,.inl ⟨rfl,rfl⟩⟩
        exact { bare₂ with opened := rfl, work := work fd rfl, name := ⟨bare.tmppath,room₂⟩ }

/-! ## Finishing a file -/

/-- The file in a slot is to change no more, and may get its name unless it is to be flushed first. -/
def Sealed (spec : FileSpec) (flushed : Prop) (slot : Nat) (n : Ino) (named : Bool) (g : Book) : Prop :=
  g.work slot = some ⟨n,.sealed,named⟩ ∧ (flushed ∨ hasContent spec = false → n ∈ g.finished)

/-- What an operand holds that has not failed and is not named. -/
def Ready (spec : FileSpec) (flushed : Prop) (slot : Nat) (op : Op) (m : Memory) (g : Book) : Prop :=
  match op.way with
  | .WAY_PLAIN => op.tmppath = none ∧ spec.force_mode = false ∧ ∃ n, g.live slot = some ⟨op.path.text,n,.plain⟩
  | .WAY_UNNAMED => op.tmppath = none ∧ g.live slot = none ∧ ∃ fd, op.fd = some fd ∧ Sealed spec flushed slot fd.ino false g
  | .WAY_TEMP => ∃ name fd, op.tmppath = some name ∧ op.fd = some fd ∧ g.live slot = some ⟨name.text,fd.ino,.temp⟩ ∧
      Owned g m slot name ∧ TempOf op.path.text name.text ∧ Sealed spec flushed slot fd.ino true g

theorem Ready.owned {flushed : Prop} (ready : Ready spec flushed slot op m g) : OwnsTmp g m op slot := by
  intro s found
  rw [Ready] at ready
  cases way : op.way with
  | WAY_PLAIN =>
    simp only [way] at ready
    rw [ready.1] at found
    cases found
  | WAY_UNNAMED =>
    simp only [way] at ready
    rw [ready.1] at found
    cases found
  | WAY_TEMP =>
    simp only [way] at ready
    obtain ⟨name,_,is,_,_,owned,_⟩ := ready
    rw [is] at found
    cases found
    exact owned

/-- A file that is not plain is complete. -/
theorem Ready.work {flushed : Prop} {fd : Fd} (ready : Ready spec flushed slot op m g) (unplain : op.way ≠ .WAY_PLAIN)
    (open_ : op.fd = some fd) : ∃ named, g.work slot = some ⟨fd.ino,.sealed,named⟩ := by
  rw [Ready] at ready
  cases way : op.way with
  | WAY_PLAIN => exact absurd way unplain
  | WAY_UNNAMED =>
    simp only [way] at ready
    obtain ⟨_,_,fd',is,work,_⟩ := ready
    cases open_.symm.trans is
    exact ⟨_,work⟩
  | WAY_TEMP =>
    simp only [way] at ready
    obtain ⟨_,fd',_,is,_,_,_,work,_⟩ := ready
    cases open_.symm.trans is
    exact ⟨_,work⟩

/-- An operand between building and naming. -/
structure Stands (spec : FileSpec) (flushed : Prop) (slot : Nat) (path : Str) (op : Op) (m : Memory) (g : Book) : Prop
    extends Of path op where
  failed : op.fail.isSome = true → Failed slot op g
  ready : op.fail = none → Ready spec flushed slot op m g

/-- What building leaves of an operand. -/
structure Built (spec : FileSpec) (slot : Nat) (path : Str) (m₀ : Memory) (g₀ : Book) (op : Op) (m : Memory) (g : Book) :
    Prop extends Stands spec False slot path op m g where
  onward : Onward [slot] [slot] (Minor (Blamed op)) m₀ g₀ m g

theorem Undone.built (undone : Undone slot path m₀ g₀ op m g) : Built spec slot path m₀ g₀ op m g where
  toOf := undone.toOf
  onward := undone.onward
  failed _ := undone.toFailed
  ready fine := absurd undone.fail (by simp [fine])

/-- The ledger once a file has its mode. -/
def finishing (spec : FileSpec) (slot : Nat) (n : Ino) (named : Bool) (mode : Mode) (g : Book) : Book :=
  { g with
    work := update g.work slot (some ⟨n,.sealed,named⟩)
    finished := if hasContent spec then g.finished else n :: g.finished
    moded := (n,mode) :: g.moded }

theorem finishing_onward {ok : Deed → Prop} (n : Ino) (named : Bool) (mode : Mode) :
    Onward [slot] [slot] ok m g m (finishing spec slot n named mode g) := by
  refine ⟨fun _ _ => rfl,?_,rfl,?_,Nat.le_refl _,fun _ _ => rfl,Nat.le_refl _,List.Subset.refl _,⟨[],rfl,by simp⟩⟩
  · intro j other
    exact update_of_ne (by simpa using other) _ _
  · rw [finishing]
    split
    · exact List.Subset.refl _
    · exact List.subset_cons_self _ _

theorem finishing_sealed (n : Ino) (named : Bool) (mode : Mode) :
    Sealed spec False slot n named (finishing spec slot n named mode g) := by
  refine ⟨update_self ..,fun either => ?_⟩
  simp [finishing,either.resolve_left id]

theorem Raised.built {fd : Fd} {phase : Phase} (raised : Raised slot path m₀ g₀ op fd phase m g) (mode : Mode) :
    Built spec slot path m₀ g₀ op m (finishing spec slot fd.ino (op.way = .WAY_TEMP) mode g) := by
  obtain rfl := raised.names
  refine { raised.toOf with onward := raised.onward.trans (finishing_onward _ _ _), failed := ?_, ready := fun _ => ?_ }
  · simp [raised.fine]
  · have name := raised.name
    rw [Ready]
    cases way : op.way with
    | WAY_PLAIN => simp [way] at name
    | WAY_UNNAMED =>
      simp only [way] at name
      exact ⟨name.1,name.2,fd,raised.opened,finishing_sealed _ _ _⟩
    | WAY_TEMP =>
      simp only [way] at name
      obtain ⟨name,is,live,owned,temp⟩ := name
      exact ⟨name,fd,is,raised.opened,live,owned,temp,finishing_sealed _ _ _⟩

theorem op_fail_built {left : Prop} (what : String) (e : Errno) (fits : slot ≠ FRESH) (rest : Rest g₀) (of_ : Of path op)
    (sofar : Onward [slot] [slot] (Minor left) m₀ g₀ m g) (owned : OwnsTmp g m op slot) :
    Follows (ledger paths spec) (op_fail op slot what e) (Built spec slot path m₀ g₀) m g :=
  follows_mono (op_fail_undone what e fits rest of_ sofar owned) fun _ _ _ _ undone => undone.built

theorem setMode_spec {fd : Fd} {phase : Phase} (mode : Mode) (fits : slot ≠ FRESH) (rest : Rest g₀)
    (final : ∃ granted, mode = finalMode spec granted) (raised : Raised slot path m₀ g₀ op fd phase m g) (unsealed : phase ≠ .sealed) :
    Follows (ledger paths spec) (setMode op slot fd (hasContent spec) mode) (Built spec slot path m₀ g₀) m g := by
  rw [setMode]
  refine follows_perform (fun e => ?_) fun _ _ _ _ => ⟨finishing spec slot fd.ino _ mode g,.finish raised.work unsealed final,?_⟩
  · exact op_fail_built _ e fits rest raised.toOf raised.onward raised.owned
  · dsimp only
    split
    · exact follows_silent rfl fun _ _ => follows_pure (raised.built mode)
    · exact follows_pure (raised.built mode)

theorem Raised.same {fd : Fd} {phase : Phase} (raised : Raised slot path m₀ g₀ op fd phase m g) (same : Same m m') :
    Raised slot path m₀ g₀ op fd phase m' g := by
  refine { raised with onward := raised.onward.trans (same_onward same g), name := ?_ }
  have name := raised.name
  cases way : op.way with
  | WAY_PLAIN => simp [way] at name
  | WAY_UNNAMED => simpa [way] using name
  | WAY_TEMP =>
    simp only [way] at name ⊢
    obtain ⟨name,is,live,owned,temp⟩ := name
    exact ⟨name,is,live,by simpa [Owned,same.heap] using owned,temp⟩

theorem fillBuilt_spec (fuel : Nat) {fd : Fd} {phase : Phase} (mode : Mode) (fits : slot ≠ FRESH) (rest : Rest g₀)
    (final : ∃ granted, mode = finalMode spec granted) (raised : Raised slot path m₀ g₀ op fd phase m g) (unsealed : phase ≠ .sealed) :
    Follows (ledger paths spec) (fillBuilt fuel op slot spec fd (hasContent spec) mode) (Built spec slot path m₀ g₀) m g := by
  have writes : Writes g (some fd) := by
    rintro _ ⟨⟩
    exact ⟨slot,phase,_,raised.work,unsealed⟩
  rw [fillBuilt]
  refine follows_seq ((fill_one_tame fuel fd spec).follows writes) ?_
  rintro r m₁ _ _ ⟨_,same,rfl⟩
  have raised₁ := raised.same same
  cases r with
  | error e => exact op_fail_built _ e.2 fits rest raised₁.toOf raised₁.onward raised₁.owned
  | ok _ =>
    dsimp only
    split
    · refine follows_call fun _ _ r _ => ⟨_,.alter rfl raised.work unsealed,?_⟩
      cases r with
      | error e => exact op_fail_built _ e fits rest raised₁.toOf raised₁.onward raised₁.owned
      | ok _ => exact setMode_spec mode fits rest final raised₁ unsealed
    · exact setMode_spec mode fits rest final raised₁ unsealed

theorem finish_built_spec (fuel : Nat) {fd : Fd} {phase : Phase} (granted : Mode) (member : path.text ∈ paths) (fits : slot < FRESH)
    (other : slot ≠ PENDING_BACKUP) (rest : Rest g₀) (raised : Raised slot path m₀ g₀ op fd phase m g)
    (fresh : op.way = .WAY_UNNAMED ∧ phase = .raw ∨ op.way = .WAY_TEMP ∧ phase = .secret) :
    Follows (ledger paths spec) (finish_built fuel op slot spec (hasContent spec) granted) (Built spec slot path m₀ g₀) m g := by
  have unsealed : phase ≠ .sealed := by
    rcases fresh with ⟨_,rfl⟩ | ⟨_,rfl⟩
    · simp
    · simp
  obtain rfl := raised.names
  rw [finish_built,raised.opened]
  dsimp only
  split
  · rename_i unnamed
    obtain ⟨way,_⟩ := unnamed
    have raw : phase = .raw := by
      rcases fresh with ⟨_,raw⟩ | ⟨temp,_⟩
      · exact raw
      · simp [way] at temp
    subst raw
    have name := raised.name
    simp only [way] at name
    have work : g.work slot = some ⟨fd.ino,.raw,false⟩ := by simpa [way] using raised.work
    refine follows_perform (fun e => ?_) fun _ _ _ _ => ⟨_,.conceal work,?_⟩
    · exact op_fail_built _ e fits.ne rest raised.toOf raised.onward raised.owned
    · have secret : Onward [slot] [slot] (Minor (Blamed op)) m₀ g₀ m { g with work := update g.work slot (some ⟨fd.ino,.secret,false⟩) } :=
        raised.onward.trans (worked_onward _)
      refine follows_seq (place_temp_link_spec member fits (rest.onward secret (by simpa using fits.ne') (by simpa using other.symm)) name.2
        (⟨update_self ..,.inl rfl⟩ : Linkable slot fd .secret _)) ?_
      rintro r m₁ g₁ _ result
      cases r with
      | error e =>
        refine op_fail_built _ e fits.ne rest raised.toOf (secret.trans ?_) (by simp [OwnsTmp,name.1])
        exact result.mono (by simp) (List.Subset.refl _) fun _ => Minor.mono False.elim
      | ok tmppath =>
        obtain ⟨onward,live,work,owned,temp⟩ := result
        refine fillBuilt_spec fuel _ fits.ne rest ⟨granted,rfl⟩ (?_ : Raised slot op.path m₀ g₀ _ fd .secret m₁ g₁) (by simp)
        refine { raised with
          onward := secret.trans (onward.mono (List.Subset.refl _) (List.Subset.refl _) fun _ => Minor.mono False.elim)
          opened := rfl, work := by simpa using work, name := ⟨tmppath,rfl,live,owned,temp⟩ }
  · exact fillBuilt_spec fuel _ fits.ne rest ⟨granted,rfl⟩ raised unsealed

theorem buildFile_spec (fuel : Nat) (member : path.text ∈ paths) (fits : slot < FRESH)
    (other : slot ≠ PENDING_BACKUP) (rest : Rest g₀)
    (bare : Bare slot path m₀ g₀ op m g) :
    Follows (ledger paths spec) (buildFile fuel op slot spec (hasContent spec)) (Built spec slot path m₀ g₀) m g := by
  rw [buildFile]
  refine follows_seq (open_built_spec member fits other rest bare) ?_
  rintro ⟨op',granted⟩ m₁ g₁ _ opening
  cases granted with
  | some granted =>
    obtain ⟨fd,phase,raised,fresh⟩ := opening
    exact finish_built_spec fuel granted member fits other rest raised fresh
  | none => exact follows_pure (Undone.built opening)

theorem buildIn_spec (fuel : Nat) (member : path.text ∈ paths) (outside : path.block = none) (fits : slot < FRESH)
    (other : slot ≠ PENDING_BACKUP) (rest : Rest g₀)
    (bare : Bare slot path m₀ g₀ op m g) (plain : op.way = .WAY_PLAIN) :
    Follows (ledger paths spec) (buildIn fuel op slot spec) (Built spec slot path m₀ g₀) m g := by
  obtain rfl := bare.names
  rw [buildIn]
  split
  · rename_i opens
    simp only [Bool.not_eq_eq_eq_not,Bool.not_true] at opens
    have rest₁ := bare.rest fits.ne other rest
    have opens : Opens paths spec op.path.text spec.mode .plain := ⟨member,rfl,opens⟩
    refine follows_seq (place_create_spec fits rest₁ bare.room outside opens) ?_
    rintro r m₁ g₁ _ result
    cases r with
    | error e =>
      refine op_fail_built _ e fits.ne rest bare.toOf (bare.onward.trans ?_) (by simp [OwnsTmp,bare.tmppath])
      exact result.mono (by simp) (List.Subset.refl _) fun _ => Minor.mono False.elim
    | ok fd =>
      obtain ⟨onward,live⟩ := result
      have onward' : Onward [slot] [slot] (Minor (Blamed op)) m₀ g₀ m₁ g₁ :=
        bare.onward.trans (onward.mono (List.Subset.refl _) (List.Subset.refl _) fun _ => Minor.mono False.elim)
      have ready : Ready spec False slot { op with fd := some fd } m₁ g₁ := by
        simp only [Ready,plain]
        exact ⟨bare.tmppath,opens.2.2.2.2.2,fd.ino,live⟩
      exact follows_pure { bare.toOf with onward := onward', failed := by simp [bare.fine], ready := fun _ => ready }
  · split
    · refine follows_silent rfl fun r _ => ?_
      cases r with
      | ok st => exact op_fail_built _ _ fits.ne rest bare.toOf bare.onward bare.owned
      | error e => exact buildFile_spec fuel member fits other rest bare
    · exact buildFile_spec fuel member fits other rest bare

theorem build_one_spec (fuel : Nat) {path : Path} (member : path ∈ paths) (fits : slot < FRESH)
    (other : slot ≠ PENDING_BACKUP) (rest : Rest g)
    (room : g.live slot = none) :
    Follows (ledger paths spec) (build_one fuel path slot spec) (Built spec slot ⟨path,none⟩ m g) m g := by
  have bare : ∀ {m' g'}, Onward [] [] (Minor False) m g m' g' → Bare slot ⟨path,none⟩ m g { path := ⟨path,none⟩ } m' g' := by
    intro m' g' onward
    refine { names := rfl, spare := rfl, backup_name := rfl, onward := ?_, fine := rfl, tmppath := rfl,
             room := (onward.live slot (by simp)).trans room }
    exact onward.mono (by simp) (by simp) fun _ => Minor.mono False.elim
  have start := bare (Onward.refl m g)
  rw [build_one]
  split
  · exact op_fail_built _ _ fits.ne rest start.toOf start.onward start.owned
  · split
    · refine follows_seq (path_make_parents_spec fuel member) ?_
      rintro r m₁ g₁ _ onward
      have bare₁ := bare onward
      cases r with
      | error e => exact op_fail_built _ e fits.ne rest bare₁.toOf bare₁.onward bare₁.owned
      | ok _ => exact buildIn_spec fuel member rfl fits other rest bare₁ rfl
    · exact buildIn_spec fuel member rfl fits other rest start rfl

end Newfile.Building
