import Newfile.Backups
import Newfile.Building

/-!
The functions that name an operand keep the ledger.
-/
namespace Newfile.Commits
open Newfile.Program Newfile.Program.Prog Newfile.Posix Newfile.Process Newfile.Pending Newfile.Fastio Newfile.Flush
open Newfile.Place Newfile.Backup Newfile.Batch Newfile.Ledger Newfile.Bookkeeping Newfile.Places Newfile.Backups
open Newfile.Building Newfile.Simulation Function

variable {paths : List Path} {spec : FileSpec} {α : Type} {m m' : Memory} {g g' : Book}

/-! ## place.c -/

/-- A deed that leaves the names made as they are. -/
theorem deed_onward {names files : List Nat} {ok : Deed → Prop} {d : Deed} (minor : ok d) :
    Onward names files ok m g m { g with trail := d :: g.trail } :=
  ⟨fun _ _ => rfl,fun _ _ => rfl,rfl,List.Subset.refl _,Nat.le_refl _,fun _ _ => rfl,Nat.le_refl _,List.Subset.refl _,
    ⟨[d],rfl,by simpa using minor⟩⟩

theorem place_commit_spec {tmp target : Path} {slot : Nat} {n : Ino} (member : target ∈ paths)
    (unforced : spec.force_mode = false) (fits : slot ≠ FRESH) (rest : Rest g) (live : g.live slot = some ⟨tmp,n,.temp⟩)
    (finished : n ∈ g.finished) : Follows (ledger paths spec) (place_commit tmp target slot) (fun r m' g' =>
      match r with
      | .ok still => Onward [slot] [slot] (Naming target False) m g m' g' ∧ .file target n ∈ g'.trail ∧
          g'.live slot = if still then some ⟨tmp,n,.temp⟩ else none
      | .error _ => Onward [] [slot] (Minor True) m g m' g') m g := by
  rw [place_commit,fast_rename_noreplace,LawfulMonad.bind_assoc]
  refine follows_perform (fun e => ?_) fun _ _ _ _ => ⟨_,.noReplace rest.2.1 unforced member live fits finished,?_⟩
  · dsimp only
    split
    · refine follows_perform (fun e => ?_) fun _ _ _ _ => ⟨_,.linkAlso rest.2.1 unforced member live finished,?_⟩
      · dsimp only
        split
        · exact follows_pure (Onward.refl m g)
        · refine follows_seq (place_over_spec member unforced fits rest live finished) ?_
          rintro r m' g' _ result
          cases r with
          | error e => exact follows_pure result
          | ok _ => exact follows_pure ⟨result.1,result.2.2,result.2.1⟩
      · exact follows_pure ⟨deed_onward rfl,List.mem_cons_self,live⟩
    · exact follows_pure (Onward.refl m g)
  · refine follows_clear (by simp) (follows_pure ⟨?_,List.mem_cons_self,by simp⟩)
    rw [drop_clear _ _ fits]
    exact drop_onward rest.2.1 [.file target n] (by simp [Naming])

/-- The slots that a part serves which replaces a file. -/
def replacing (slot : Nat) : List Nat := [slot,PENDING_BACKUP]

theorem backupDeeds_naming (g : Book) (p : Path) : ∀ d ∈ backupDeeds g p, Naming p False d := by
  intro d member
  rw [backupDeeds] at member
  split at member
  · obtain rfl := List.mem_singleton.mp member
    rfl
  · simp at member

/-- The operand has taken the place of a file, and the slots are up to date. -/
theorem commit_onward {slot : Nat} {target : Path} {n : Ino} {r : Option Rec} {pending : Nat → PendingName} {files : List Nat}
    (closed : Closed g) :
    Onward (replacing slot) files (Naming target False) m g { m with pending }
      { g with
        live := update (update g.live PENDING_BACKUP none) slot r, lag := []
        trail := .file target n :: (backupDeeds g target ++ g.trail), old := none, taken := none } := by
  refine ⟨?_,fun _ _ => rfl,closed.2.symm,List.Subset.refl _,Nat.le_refl _,fun _ _ => rfl,Nat.le_refl _,
    List.Subset.refl _,⟨.file target n :: backupDeeds g target,rfl,?_⟩⟩
  · intro j other
    simp only [replacing,List.mem_cons,List.not_mem_nil,or_false,not_or] at other
    simp [other.1,other.2]
  · intro d member
    rcases List.mem_cons.mp member with rfl | backup
    · rfl
    · exact backupDeeds_naming g target d backup

theorem place_rename_spec {tmp target : Path} {slot : Nat} {n : Ino} (member : target ∈ paths) (forced : spec.force_mode = true)
    (fits : slot ≠ FRESH) (other : slot ≠ PENDING_BACKUP) (closed : Closed g) (live : g.live slot = some ⟨tmp,n,.temp⟩)
    (temp : TempOf target tmp) (backed : Backed g target) (finished : n ∈ g.finished) :
    Follows (ledger paths spec) (place_rename tmp target slot) (fun r m' g' =>
      match r with
      | .ok _ => Onward (replacing slot) [] (Naming target False) m g m' g' ∧ .file target n ∈ g'.trail ∧
          g'.live slot = none ∧ g'.live PENDING_BACKUP = none
      | .error _ => m' = m ∧ g' = g) m g := by
  rw [place_rename]
  refine follows_hold (follows_perform (fun e => follows_release closed (follows_pure ⟨rfl,rfl⟩)) fun _ _ _ _ => ?_)
  refine ⟨_,.force rfl closed.2 forced member live temp closed.1 fits other backed finished,?_⟩
  refine follows_clear (by simp) (follows_clear (by simp [other.symm]) (follows_release ⟨?_,?_⟩ (follows_pure ⟨?_,?_,?_,?_⟩)))
  · simp [fits.symm,closed.1,backup_slot.symm]
  · simp [other.symm]
  · have clean : ([slot,PENDING_BACKUP].filter (· ≠ slot)).filter (· ≠ PENDING_BACKUP) = [] := by simp [other.symm]
    dsimp only
    rw [clean]
    exact commit_onward closed
  · exact List.mem_cons_self
  · simp
  · simp [update_apply]

/-- What is armed in a slot for a name of the ledger. -/
theorem live_armed {j : Nat} {r : Rec} (inv : Ledger.Inv paths spec m g) (slot : j ≠ FRESH) (clean : g.lag = [])
    (live : g.live j = some r) : ∃ s, (m.pending j).path = some s ∧ s.text = r.path := by
  have synced := inv.synced j slot (by simp [clean])
  rw [armed,live] at synced
  cases found : (m.pending j).path with
  | none => simp [found] at synced
  | some s =>
    rw [found] at synced
    exact ⟨s,rfl,by simpa using (Prod.mk.inj (Option.some.inj synced)).1⟩

theorem place_exchange_spec {tmp target : Path} {slot : Nat} {n : Ino} {old : Stat} (member : target ∈ paths)
    (forced : spec.force_mode = true) (fits : slot ≠ FRESH) (other : slot ≠ PENDING_BACKUP) (closed : Closed g)
    (live : g.live slot = some ⟨tmp,n,.temp⟩) (temp : TempOf target tmp) (was : g.old = some (target,old.ino))
    (backed : Backed g target) (finished : n ∈ g.finished) :
    Follows (ledger paths spec) (place_exchange tmp target slot old) (fun r m' g' =>
      match r with
      | .ok .done => Onward (replacing slot) [] (Naming target False) m g m' g' ∧ .file target n ∈ g'.trail ∧
          g'.live slot = some ⟨tmp,old.ino,.spare⟩ ∧ g'.live PENDING_BACKUP = none
      | .ok .cannot | .error _ => m' = m ∧ g' = g) m g := by
  rw [place_exchange,fast_exchange]
  refine follows_inv fun inv => ?_
  obtain ⟨s,armed,text⟩ := live_armed inv fits closed.2 live
  refine follows_hold ?_
  rw [LawfulMonad.bind_assoc]
  refine follows_perform (fun e => ?_) fun _ _ _ _ => ?_
  · dsimp only
    split
    · exact follows_release closed (follows_pure ⟨rfl,rfl⟩)
    · exact follows_release closed (follows_pure ⟨rfl,rfl⟩)
  · refine ⟨_,.exchange rfl closed.2 forced member live temp closed.1 fits other was backed finished,?_⟩
    refine follows_step (.retarget (r := ⟨tmp,old.ino,.spare⟩) (by simp) armed text) ?_
    refine follows_clear (by simp [other.symm]) (follows_release ⟨?_,?_⟩ (follows_pure ⟨?_,?_,?_,?_⟩))
    · simp [fits.symm,closed.1,backup_slot.symm]
    · simp [other.symm]
    · have clean : ([slot,PENDING_BACKUP].filter (· ≠ slot)).filter (· ≠ PENDING_BACKUP) = [] := by simp [other.symm]
      dsimp only
      rw [clean]
      exact commit_onward closed
    · exact List.mem_cons_self
    · simp
    · simp [other.symm]

/-! ## Operands with names -/

/-- What an operand holds of names and strings once it was to be named. -/
structure Bound (slot : Nat) (path : Str) (op : Op) (m : Memory) (g : Book) : Prop where
  names : op.path = path
  tmp : OwnsTmp g m op slot
  spare : ∀ s, op.spare = some s → op.tmppath = none ∧ Owned g m slot s ∧ ∃ o, g.live slot = some ⟨s.text,o,.spare⟩
  gone : op.tmppath = none → op.spare = none → g.live slot = none
  backup : ∀ s, op.backup_name = some s → Owned g m PENDING_BACKUP s

/-- An operand that has its name or has failed. -/
structure Placed (slot : Nat) (path : Str) (op : Op) (m : Memory) (g : Book) : Prop extends Bound slot path op m g where
  held : op.tmppath.isSome = true → op.fail = none ∧ op.fd.isSome = true
  done : op.fail = none → ∃ n, .file path.text n ∈ g.trail

/-- What naming leaves of an operand, to be blamed if `before` holds. -/
structure Named (slot : Nat) (path : Str) (before : Prop) (m₀ : Memory) (g₀ : Book) (op : Op) (m : Memory) (g : Book) : Prop
    extends Placed slot path op m g where
  blames : before → Blamed op
  onward : Onward (replacing slot) (replacing slot) (Naming path.text (Blamed op)) m₀ g₀ m g
  room : g.live PENDING_BACKUP = none

variable {slot : Nat} {path : Str} {before : Prop} {m₀ : Memory} {g₀ : Book} {op : Op}

theorem Bound.onward {names files : List Nat} {ok : Deed → Prop} (bound : Bound slot path op m g)
    (onward : Onward names files ok m g m' g') (one : slot ∉ names) : Bound slot path op m' g' := by
  have live := onward.live slot one
  refine { names := bound.names, tmp := fun s is => (bound.tmp s is).onward onward, spare := fun s is => ?_,
           gone := fun tmp spare => live.trans (bound.gone tmp spare), backup := fun s is => (bound.backup s is).onward onward }
  obtain ⟨tmppath,owned,o,there⟩ := bound.spare s is
  exact ⟨tmppath,owned.onward onward,o,live.trans there⟩

theorem naming_mono {p : Path} {left left' : Prop} (weaker : left → left') {d : Deed} (naming : Naming p left d) :
    Naming p left' d := by
  cases d with
  | kept => exact weaker naming
  | _ => exact naming

/-- What a part does that gives no operand its name, in a part that does. -/
theorem minor_naming {names files : List Nat} {p : Path} {left left' : Prop} (onward : Onward names files (Minor left) m g m' g')
    (one : names ⊆ replacing slot) (two : files ⊆ replacing slot) (weaker : left → left') :
    Onward (replacing slot) (replacing slot) (Naming p left') m g m' g' :=
  onward.mono one two fun _ minor => (minor.mono weaker).naming

theorem slot_replacing (slot : Nat) : [slot] ⊆ replacing slot := by simp [replacing]

theorem backup_replacing (slot : Nat) : [PENDING_BACKUP] ⊆ replacing slot := by simp [replacing]

theorem op_fail_named (before : Prop) {left : Prop} (what : String) (e : Errno) (fits : slot ≠ FRESH) (other : slot ≠ PENDING_BACKUP)
    (rest : Rest g₀) (names : op.path = path) (spare : op.spare = none) (owned : OwnsTmp g m op slot)
    (backup : ∀ s, op.backup_name = some s → Owned g m PENDING_BACKUP s) (room : g.live PENDING_BACKUP = none)
    (sofar : Onward (replacing slot) (replacing slot) (Naming path.text left) m₀ g₀ m g) :
    Follows (ledger paths spec) (op_fail op slot what e) (Named slot path before m₀ g₀) m g := by
  refine follows_mono (op_fail_spec what e owned fits (sofar.lag.trans rest.2.1) (by simp [spare])) ?_
  rintro _ m' g' _ ⟨rfl,onward,gone⟩
  rw [spare] at gone
  refine { blames := fun _ => .failed, names := names, tmp := by simp [OwnsTmp], spare := by simp [spare], gone := fun _ _ => by simpa using gone,
           held := by simp,
           done := by simp, backup := fun s is => (backup s is).onward onward, onward := ?_, room := ?_ }
  · exact (sofar.mono (List.Subset.refl _) (List.Subset.refl _) fun _ => naming_mono fun _ => .failed).trans
      (minor_naming onward (slot_replacing slot) (by simp) fun _ => .failed)
  · exact (onward.live _ (by simpa using other.symm)).trans room

theorem queued_spec (fuel : Nat) (dir : Path) (done : ∃ n, .file op.path.text n ∈ g.trail) :
    Follows (ledger paths spec) (named.queued fuel op dir)
      (fun op' m' g' => op' = op ∧ g' = g ∧ Onward [] [] (Minor False) m g m' g) m g := by
  rw [named.queued]
  refine follows_step (.named done) (follows_still (flushes_still.flush_set_add fuel trivial) fun _ m₁ same => follows_pure ⟨rfl,rfl,?_⟩)
  have told : Onward [] [] (Minor False) m g { m with told := .named op.path.text :: m.told } g :=
    ⟨fun _ _ => rfl,fun _ _ => rfl,rfl,List.Subset.refl _,Nat.le_refl _,fun _ _ => rfl,Nat.le_refl _,
      List.subset_cons_self _ _,⟨[],rfl,by simp⟩⟩
  exact told.trans (same_onward same g)

/-- The plain file of an operand is there to stay. -/
theorem settle_onward {files : List Nat} {left : Prop} {p : Path} (q : PendingName) (n : Ino) (clean : g.lag = []) :
    Onward (replacing slot) files (Naming p left) m g (Memory.setPending m slot q)
      { g.drop slot with lag := [], trail := .file p n :: g.trail } :=
  (drop_onward clean [.file p n] (by simp [Naming])).mono (slot_replacing slot) (List.Subset.refl _) fun _ => id

theorem named_spec (fuel : Nat) (dir : Path) (way : op.way ≠ .WAY_PLAIN) (fine : op.fail = none) (start : Named slot path before m₀ g₀ op m g) :
    Follows (ledger paths spec) (named fuel op slot dir) (Named slot path before m₀ g₀) m g := by
  rw [named,if_neg way]
  have done := start.done fine
  rw [← start.names] at done
  refine follows_mono (queued_spec fuel dir done) ?_
  rintro _ m' _ _ ⟨rfl,rfl,onward⟩
  refine { start with
    tmp := fun s is => (start.tmp s is).onward onward
    spare := fun s is => ?_
    backup := fun s is => (start.backup s is).onward onward
    onward := start.onward.trans (minor_naming onward (by simp) (by simp) False.elim) }
  obtain ⟨absent,owned,live⟩ := start.spare s is
  exact ⟨absent,owned.onward onward,live⟩

/-! ## Replacing a file -/

/-- An operand whose file is complete, with a temporary name, on the way to replace another. -/
structure Forcing (slot : Nat) (path : Str) (before : Prop) (m₀ : Memory) (g₀ : Book) (op : Op) (tmp : Str) (n : Ino) (m : Memory)
    (g : Book) : Prop where
  blames : before → Blamed op
  names : op.path = path
  spare : op.spare = none
  fine : op.fail = none
  unplain : op.way ≠ .WAY_PLAIN
  tmppath : op.tmppath = some tmp
  live : g.live slot = some ⟨tmp.text,n,.temp⟩
  owned : Owned g m slot tmp
  temp : TempOf path.text tmp.text
  finished : n ∈ g.finished
  backup : ∀ s, op.backup_name = some s → Owned g m PENDING_BACKUP s
  onward : Onward (replacing slot) (replacing slot) (Naming path.text (Blamed op)) m₀ g₀ m g

section
variable {tmp : Str} {n : Ino}

theorem Forcing.ownsTmp (forcing : Forcing slot path before m₀ g₀ op tmp n m g) : OwnsTmp g m op slot := by
  intro s found
  rw [forcing.tmppath] at found
  cases found
  exact forcing.owned

/-- A part that leaves the name of the operand as it is. -/
theorem Forcing.after {names files : List Nat} (forcing : Forcing slot path before m₀ g₀ op tmp n m g)
    (onward : Onward names files (Minor False) m g m' g') (one : names ⊆ [PENDING_BACKUP]) (two : files ⊆ replacing slot)
    (other : slot ≠ PENDING_BACKUP) : Forcing slot path before m₀ g₀ op tmp n m' g' := by
  refine { forcing with
    live := (onward.live slot fun member => ?_).trans forcing.live
    owned := forcing.owned.onward onward, finished := onward.finished forcing.finished
    backup := fun s is => (forcing.backup s is).onward onward
    onward := forcing.onward.trans (minor_naming onward (fun j member => ?_) two False.elim) }
  · exact other (by simpa using one member)
  · exact backup_replacing slot (one member)

theorem Forcing.closed (forcing : Forcing slot path before m₀ g₀ op tmp n m g) (fits : slot ≠ FRESH) (rest : Rest g₀) : Closed g :=
  rest.closed.onward forcing.onward (by simp [replacing,fits.symm,backup_slot.symm])

/-- What `replace_one` leaves: the operand has its name, or has failed. -/
def Replaced (slot : Nat) (path : Str) (before : Prop) (m₀ : Memory) (g₀ : Book) (r : Op × Bool) (m : Memory) (g : Book) : Prop :=
  Named slot path before m₀ g₀ r.1 m g ∧ (r.2 = true → r.1.fail = none ∧ r.1.way ≠ .WAY_PLAIN)

theorem fails_replaced {left : Prop} (what : String) (e : Errno) (fits : slot ≠ FRESH) (other : slot ≠ PENDING_BACKUP)
    (rest : Rest g₀) (names : op.path = path) (spare : op.spare = none) (owned : OwnsTmp g m op slot)
    (backup : ∀ s, op.backup_name = some s → Owned g m PENDING_BACKUP s)
    (sofar : Onward (replacing slot) (replacing slot) (Naming path.text left) m₀ g₀ m g) :
    Follows (ledger paths spec) (pending_remove PENDING_BACKUP >>= fun _ => op_fail op slot what e >>= fun op => pure (op,false))
      (Replaced slot path before m₀ g₀) m g := by
  refine follows_seq (pending_remove_spec backup_slot (sofar.lag.trans rest.2.1)) ?_
  rintro removed m₁ g₁ _ ⟨onward,gone,_⟩
  have sofar₁ : Onward (replacing slot) (replacing slot) (Naming path.text True) m₀ g₀ m₁ g₁ :=
    (sofar.mono (List.Subset.refl _) (List.Subset.refl _) fun _ => naming_mono fun _ => trivial).trans
      (minor_naming onward (backup_replacing slot) (by simp) fun _ => trivial)
  refine follows_seq (op_fail_named before what e fits other rest names spare (fun s is => (owned s is).onward onward)
    (fun s is => (backup s is).onward onward) gone sofar₁) ?_
  exact fun _ _ _ _ named => follows_pure ⟨named,by simp⟩

theorem renameOver_spec (member : path.text ∈ paths) (forced : spec.force_mode = true) (fits : slot ≠ FRESH)
    (other : slot ≠ PENDING_BACKUP) (rest : Rest g₀) (forcing : Forcing slot path before m₀ g₀ op tmp n m g)
    (backed : Backed g path.text) :
    Follows (ledger paths spec) (renameOver op slot tmp) (Replaced slot path before m₀ g₀) m g := by
  have closed : Closed g := forcing.closed fits rest
  obtain rfl := forcing.names
  rw [renameOver]
  refine follows_seq (place_rename_spec member forced fits other closed forcing.live forcing.temp backed forcing.finished) ?_
  rintro r m₁ g₁ _ result
  cases r with
  | error e =>
    obtain ⟨rfl,rfl⟩ := result
    exact fails_replaced _ e fits other rest forcing.names forcing.spare forcing.ownsTmp forcing.backup forcing.onward
  | ok _ =>
    obtain ⟨onward,done,gone,room⟩ := result
    refine follows_free (forcing.owned.onward onward) fits (onward.lag.trans closed.2) gone (follows_pure ⟨?_,fun _ => ⟨forcing.fine,forcing.unplain⟩⟩)
    have freed : Onward [] [] (Minor False) m₁ g₁ { m₁ with freed := tmp.block.toList ++ m₁.freed } g₁ := free_onward m₁ g₁ tmp
    refine { blames := forcing.blames, names := rfl, tmp := by simp [OwnsTmp], spare := by simp [forcing.spare], gone := fun _ _ => gone,
             held := by simp,
             done := fun _ => ⟨n,done⟩, backup := fun s is => ((forcing.backup s is).onward onward).onward freed
             onward := ?_, room := room }
    refine forcing.onward.trans ((onward.mono (List.Subset.refl _) (by simp) fun _ => naming_mono False.elim).trans ?_)
    exact minor_naming freed (by simp) (by simp) False.elim

theorem replaceBy_spec (fuel : Nat) (dir : Path) (cannot : Bool) (member : path.text ∈ paths) (forced : spec.force_mode = true)
    (fits : slot ≠ FRESH) (other : slot ≠ PENDING_BACKUP) (rest : Rest g₀) (forcing : Forcing slot path before m₀ g₀ op tmp n m g)
    (backed : Backed g path.text) :
    Follows (ledger paths spec) (replaceBy fuel op slot dir tmp cannot) (Replaced slot path before m₀ g₀) m g := by
  cases cannot with
  | false =>
    rw [replaceBy]
    exact renameOver_spec member forced fits other rest forcing backed
  | true =>
    rw [replaceBy]
    refine follows_still (flushes_still.flush_dir fuel trivial) fun flushed m₁ same => ?_
    have forcing₁ : Forcing slot path before m₀ g₀ op tmp n m₁ g :=
      forcing.after (same_onward same g : Onward [] [] (Minor False) m g m₁ g) (by simp) (by simp) other
    cases flushed with
    | error e =>
      exact fails_replaced _ e fits other rest forcing.names forcing.spare forcing₁.ownsTmp forcing₁.backup forcing₁.onward
    | ok _ => exact renameOver_spec member forced fits other rest forcing₁ backed

/-- A part that changes no more of the memory than the mask and what is kept of it. -/
def Masks (m : Memory) (g : Book) (m' : Memory) (g' : Book) : Prop := Onward [] [] (Minor False) m g m' g' ∧ g' = g

theorem same_spare (m : Memory) {spare_mask spare_held : Bool} : Same m { m with spare_mask, spare_held } :=
  ⟨rfl,rfl,rfl,rfl,rfl,⟨[],rfl⟩,Nat.le_refl _,fun tidy => ⟨tidy.digits,tidy.failed⟩⟩

theorem blocked_onward (m : Memory) (g : Book) (blocked : Bool) : Onward [] [] (Minor False) m g { m with blocked } g :=
  ⟨fun _ _ => rfl,fun _ _ => rfl,rfl,List.Subset.refl _,Nat.le_refl _,fun _ _ => rfl,Nat.le_refl _,List.Subset.refl _,
    ⟨[],rfl,by simp⟩⟩

theorem holdSpare_spec (held : Bool) : Follows (ledger paths spec) (holdSpare held) (fun _ m' g' => Masks m g m' g') m g := by
  rw [holdSpare]
  split
  · exact follows_pure ⟨Onward.refl m g,rfl⟩
  · refine follows_hold fun _ _ => ⟨g,.quiet (same_spare _),fun _ => ⟨?_,rfl⟩⟩
    exact (blocked_onward m g true).trans (same_onward (same_spare _) g)

theorem releaseSpare_spec (held : Bool) (closed : Closed g) :
    Follows (ledger paths spec) (releaseSpare held) (fun _ m' g' => Masks m g m' g') m g := by
  rw [releaseSpare]
  split
  · exact follows_pure ⟨Onward.refl m g,rfl⟩
  · refine follows_step (.quiet (same_spare m)) (follows_get fun _ _ => ⟨g,.release fun _ => closed,fun _ => ⟨?_,rfl⟩⟩)
    exact (same_onward (same_spare m) g).trans (blocked_onward _ g _)

theorem Forcing.masks (forcing : Forcing slot path before m₀ g₀ op tmp n m g) (masks : Masks m g m' g') (other : slot ≠ PENDING_BACKUP) :
    Forcing slot path before m₀ g₀ op tmp n m' g := by
  obtain ⟨onward,rfl⟩ := masks
  exact forcing.after onward (by simp) (by simp) other

theorem replaceKeeping_spec (fuel : Nat) (dir : Path) {old : Stat} (member : path.text ∈ paths) (forced : spec.force_mode = true)
    (fits : slot ≠ FRESH) (other : slot ≠ PENDING_BACKUP) (rest : Rest g₀) (forcing : Forcing slot path before m₀ g₀ op tmp n m g)
    (was : g.old = some (path.text,old.ino)) (backed : Backed g path.text) :
    Follows (ledger paths spec) (replaceKeeping fuel op slot dir tmp old) (Replaced slot path before m₀ g₀) m g := by
  have closed : Closed g := forcing.closed fits rest
  obtain rfl := forcing.names
  rw [replaceKeeping]
  refine follows_get (follows_seq (holdSpare_spec _) ?_)
  rintro _ m₁ _ _ masks
  obtain rfl := masks.2
  have forcing₁ := forcing.masks masks other
  refine follows_seq (place_exchange_spec member forced fits other closed forcing₁.live forcing₁.temp was backed forcing₁.finished) ?_
  rintro r m₂ g₂ _ result
  rcases r with e | _ | _
  · obtain ⟨rfl,rfl⟩ := result
    refine follows_seq (releaseSpare_spec _ closed) ?_
    rintro _ m₃ _ _ masks'
    obtain rfl := masks'.2
    have forcing₂ := forcing₁.masks masks' other
    exact fails_replaced _ e fits other rest rfl forcing.spare forcing₂.ownsTmp forcing₂.backup forcing₂.onward
  · obtain ⟨onward,done,live,room⟩ := result
    refine follows_pure ⟨?_,fun _ => ⟨forcing.fine,forcing.unplain⟩⟩
    refine { blames := forcing.blames, names := rfl, tmp := by simp [OwnsTmp], spare := ?_, gone := by simp, held := by simp,
             done := fun _ => ⟨n,done⟩,
             backup := fun s is => (forcing₁.backup s is).onward onward, onward := ?_, room := room }
    · rintro _ ⟨⟩
      exact ⟨rfl,forcing₁.owned.onward onward,old.ino,live⟩
    · exact forcing₁.onward.trans (onward.mono (List.Subset.refl _) (by simp) fun _ => naming_mono False.elim)
  · obtain ⟨rfl,rfl⟩ := result
    refine follows_seq (releaseSpare_spec _ closed) ?_
    rintro _ m₃ _ _ masks'
    obtain rfl := masks'.2
    exact replaceBy_spec fuel dir true member forced fits other rest (forcing₁.masks masks' other) backed

theorem replace_one_spec (fuel : Nat) (dir : Path) (member : path.text ∈ paths) (forced : spec.force_mode = true)
    (fits : slot ≠ FRESH) (other : slot ≠ PENDING_BACKUP) (rest : Rest g₀) (forcing : Forcing slot path before m₀ g₀ op tmp n m g)
    (unbacked : op.backup_name = none) (room : g.live PENDING_BACKUP = none) :
    Follows (ledger paths spec) (replace_one fuel op slot dir spec) (Replaced slot path before m₀ g₀) m g := by
  have closed : Closed g := forcing.closed fits rest
  obtain rfl := forcing.names
  rw [replace_one,forcing.tmppath]
  dsimp only
  split
  · refine follows_seq (backup_make_spec fuel _ member forced (closed.rest room) room) ?_
    rintro r m₁ g₁ _ prepared
    rcases r with e | _ | made
    · obtain ⟨onward,room₁⟩ := prepared
      have sofar : Onward (replacing slot) (replacing slot) (Naming op.path.text True) m₀ g₀ m₁ g₁ :=
        (forcing.onward.mono (List.Subset.refl _) (List.Subset.refl _) fun _ => naming_mono fun _ => trivial).trans
          (minor_naming onward (backup_replacing slot) (backup_replacing slot) id)
      refine follows_seq (op_fail_named before _ e fits other rest rfl forcing.spare (fun s is => (forcing.ownsTmp s is).onward onward)
        (by simp [unbacked]) room₁ sofar) ?_
      exact fun _ _ _ _ named => follows_pure ⟨named,by simp⟩
    · have aside : Onward [] [] (Minor False) m g m₁ g₁ := prepared.1
      exact replaceBy_spec fuel dir false member forced fits other rest (forcing.after aside (by simp) (by simp) other)
        (.inl ((aside.live _ (by simp)).trans room))
    · obtain ⟨onward,was,backed,owned⟩ := prepared
      have left : made.left = true → Blamed { op with backup_name := some made.name, leftover := op.leftover || made.left } := by
        intro left
        exact .inr (by simp [left])
      have still : Blamed op → Blamed { op with backup_name := some made.name, leftover := op.leftover || made.left } := by
        rintro (fail | kept)
        · exact .inl fail
        · exact .inr (by simp [kept])
      refine replaceKeeping_spec (n := n) fuel dir member forced fits other rest ?_ was backed
      refine { blames := fun b => still (forcing.blames b), names := rfl, spare := forcing.spare, fine := forcing.fine, unplain := forcing.unplain, tmppath := rfl
               live := (onward.live slot (by simpa using other)).trans forcing.live
               owned := forcing.owned.onward onward, temp := forcing.temp, finished := onward.finished forcing.finished
               backup := ?_, onward := ?_ }
      · rintro _ ⟨⟩
        exact owned
      · exact (forcing.onward.mono (List.Subset.refl _) (List.Subset.refl _) fun _ => naming_mono still).trans
          (minor_naming onward (backup_replacing slot) (backup_replacing slot) left)
  · exact replaceBy_spec fuel dir false member forced fits other rest forcing (.inl room)

theorem nameForced_spec (fuel : Nat) (dir : Path) (member : path.text ∈ paths) (forced : spec.force_mode = true)
    (fits : slot ≠ FRESH) (other : slot ≠ PENDING_BACKUP) (rest : Rest g₀) (forcing : Forcing slot path before m₀ g₀ op tmp n m g)
    (unbacked : op.backup_name = none) (room : g.live PENDING_BACKUP = none) :
    Follows (ledger paths spec) (nameForced fuel op slot dir spec) (Named slot path before m₀ g₀) m g := by
  rw [nameForced]
  refine follows_seq (replace_one_spec fuel dir member forced fits other rest forcing unbacked room) ?_
  rintro ⟨op',ok⟩ m₁ g₁ _ ⟨named,fine⟩
  cases ok with
  | true => exact named_spec fuel dir (fine rfl).2 (fine rfl).1 named
  | false => exact follows_pure named

end

/-! ## name_one -/

theorem name_one_spec (fuel : Nat) (member : path.text ∈ paths) (fits : slot < FRESH) (other : slot ≠ PENDING_BACKUP)
    (rest : Rest g) (room : g.live PENDING_BACKUP = none) (stands : Stands spec True slot path op m g) :
    Follows (ledger paths spec) (name_one fuel op slot spec) (Named slot path (Blamed op) m g) m g := by
  have unbacked : ∀ {m' g'}, ∀ s, op.backup_name = some s → Owned g' m' PENDING_BACKUP s := by simp [stands.backup_name]
  rw [name_one]
  split
  · rename_i fail
    obtain ⟨_,_,tmppath,gone⟩ := stands.failed fail
    refine follows_pure { blames := id, names := stands.names, tmp := by simp [OwnsTmp,tmppath], spare := by simp [stands.spare],
                          gone := fun _ _ => gone, backup := unbacked, held := by simp [tmppath], done := fun fine => ?_,
                          onward := Onward.refl m g, room := room }
    simp [fine] at fail
  · rename_i fine
    have fine : op.fail = none := by simpa using fine
    have ready := stands.ready fine
    obtain rfl := stands.names
    refine follows_tame (tame_path_dir _) fun r m₁ _ same => ?_
    have start : Onward (replacing slot) (replacing slot) (Naming op.path.text (Blamed op)) m g m₁ g := same_onward same g
    have owned₁ : OwnsTmp g m₁ op slot := fun s is => (ready.owned s is).onward start
    cases r with
    | error e => exact op_fail_named (Blamed op) _ e fits.ne other rest rfl stands.spare owned₁ unbacked room start
    | ok dir =>
      rw [Ready] at ready
      dsimp only
      split
      · rename_i forced
        cases way : op.way with
        | WAY_PLAIN =>
          simp only [way,forced] at ready
          exact absurd ready.2.1 (by simp)
        | WAY_UNNAMED =>
          simp only [way] at ready
          obtain ⟨tmppath,gone,fd,opened,work,finished⟩ := ready
          rw [opened]
          dsimp only
          refine follows_seq (place_temp_link_spec member fits rest gone
            (⟨work,.inr ⟨rfl,finished (.inl trivial)⟩⟩ : Linkable slot fd .sealed _)) ?_
          rintro r m₂ g₂ _ result
          cases r with
          | error e =>
            have sofar := start.trans (minor_naming result (by simp) (slot_replacing slot) False.elim)
            refine op_fail_named (Blamed op) _ e fits.ne other rest rfl stands.spare ?_ unbacked ?_ sofar
            · simp [OwnsTmp,tmppath]
            · exact (result.live _ (by simp)).trans room
          | ok name =>
            obtain ⟨onward,live,work₂,owned,temp⟩ := result
            have sofar := start.trans (minor_naming onward (slot_replacing slot) (slot_replacing slot) False.elim)
            refine nameForced_spec fuel dir member forced fits.ne other rest (?_ : Forcing slot op.path (Blamed op) m g _ name fd.ino _ _) stands.backup_name
              ((onward.live _ (by simpa using other.symm)).trans room)
            exact { blames := id, names := rfl, spare := stands.spare, fine := fine, unplain := by simp, tmppath := rfl,
                    live := live, owned := owned, temp := temp, finished := onward.finished (finished (.inl trivial)),
                    backup := unbacked, onward := sofar }
        | WAY_TEMP =>
          simp only [way] at ready
          obtain ⟨name,fd,tmppath,opened,live,owned,temp,work,finished⟩ := ready
          refine nameForced_spec fuel dir member forced fits.ne other rest (?_ : Forcing slot op.path (Blamed op) m g _ name fd.ino _ _)
            stands.backup_name room
          exact { blames := id, names := rfl, spare := stands.spare, fine := fine, unplain := by simp [way],
                  tmppath := tmppath, live := live, owned := owned.onward start, temp := temp,
                  finished := finished (.inl trivial), backup := unbacked, onward := start }
      · rename_i unforced
        have unforced : spec.force_mode = false := by simpa using unforced
        cases way : op.way with
        | WAY_PLAIN =>
          simp only [way] at ready
          obtain ⟨tmppath,_,n,live⟩ := ready
          rw [named,if_pos way]
          refine follows_step (.settle rest.2.1 live fits.ne) ?_
          refine follows_mono (queued_spec fuel dir ⟨n,List.mem_cons_self⟩) ?_
          rintro _ m₂ _ _ ⟨is,rfl,queued⟩
          rw [is]
          have settled := start.trans (settle_onward ⟨none,(m₁.pending slot).ino⟩ n rest.2.1)
          refine { blames := id, names := rfl, tmp := by simp [OwnsTmp,tmppath], spare := by simp [stands.spare],
                   gone := fun _ _ => by simp, held := by simp [tmppath],
                   done := fun _ => ⟨n,List.mem_cons_self⟩, backup := unbacked
                   onward := settled.trans (minor_naming queued (by simp) (by simp) False.elim), room := ?_ }
          simpa [other.symm] using room
        | WAY_UNNAMED =>
          simp only [way] at ready
          obtain ⟨tmppath,gone,fd,opened,work,finished⟩ := ready
          rw [opened]
          dsimp only
          rw [fast_link]
          have finished := finished (.inl trivial)
          refine follows_perform (fun e => ?_) fun _ _ _ _ => ⟨_,.linkCommit rest.2.1 unforced member work finished,?_⟩
          · exact op_fail_named (Blamed op) _ e fits.ne other rest rfl stands.spare owned₁ unbacked room start
          · refine named_spec fuel dir (by simp [way]) fine ?_
            refine { blames := id, names := rfl, tmp := by simp [OwnsTmp,tmppath], spare := by simp [stands.spare],
                     gone := fun _ _ => gone, held := by simp [tmppath],
                     done := fun _ => ⟨fd.ino,List.mem_cons_self⟩, backup := unbacked, onward := ?_, room := room }
            have worked : Onward (replacing slot) (replacing slot) (Naming op.path.text (Blamed op)) m g m₁
                { g with work := update g.work slot (some ⟨fd.ino,.sealed,true⟩) } :=
              start.trans ((worked_onward _).mono (List.Subset.refl _) (slot_replacing slot) fun _ => id)
            exact worked.trans (deed_onward (by simp [Naming]))
        | WAY_TEMP =>
          simp only [way] at ready
          obtain ⟨name,fd,tmppath,opened,live,owned,temp,work,finished⟩ := ready
          rw [tmppath]
          dsimp only
          refine follows_seq (place_commit_spec member unforced fits.ne rest live (finished (.inl trivial))) ?_
          rintro r m₂ g₂ _ result
          cases r with
          | error e =>
            have sofar : Onward (replacing slot) (replacing slot) (Naming op.path.text True) m g m₂ g₂ :=
              (start.mono (List.Subset.refl _) (List.Subset.refl _) fun _ => naming_mono fun _ => trivial).trans
                (minor_naming result (by simp) (slot_replacing slot) id)
            exact op_fail_named (Blamed op) _ e fits.ne other rest rfl stands.spare (fun s is => (owned₁ s is).onward result) unbacked
              ((result.live _ (by simp)).trans room) sofar
          | ok still =>
            obtain ⟨onward,done,live₂⟩ := result
            have room₂ := (onward.live _ (by simpa using other.symm)).trans room
            have sofar := start.trans (onward.mono (slot_replacing slot) (slot_replacing slot) fun _ => naming_mono False.elim)
            cases still with
            | true =>
              refine named_spec fuel dir (by simp [way]) fine ?_
              exact { blames := id, names := rfl, tmp := fun s is => (owned₁ s is).onward onward, spare := by simp [stands.spare],
                      gone := by simp [tmppath], held := fun _ => ⟨fine,by simp [opened]⟩,
                      done := fun _ => ⟨fd.ino,done⟩, backup := unbacked, onward := sofar
                      room := room₂ }
            | false =>
              have clean := onward.lag.trans rest.2.1
              refine follows_free ((owned₁ name tmppath).onward onward) fits.ne clean live₂ (named_spec fuel dir (by simp) fine ?_)
              refine { blames := id, names := rfl, tmp := by simp [OwnsTmp], spare := by simp [stands.spare]
                       gone := fun _ _ => live₂, held := by simp,
                       done := fun _ => ⟨fd.ino,done⟩, backup := unbacked
                       onward := sofar.trans (free_onward m₂ g₂ name), room := room₂ }

end Newfile.Commits
