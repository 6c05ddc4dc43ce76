import Newfile.Ledger

/-!
How parts of the program keep the ledger: rules for single calls and steps, parts
that leave the ledger alone, and how far the ledger may change in a part that
serves one slot.
-/
namespace Newfile.Bookkeeping
open Newfile.Program Newfile.Program.Prog Newfile.Posix Newfile.Process Newfile.Pending Newfile.Place Newfile.Batch
open Newfile.Effects Newfile.Ledger Newfile.Simulation Function

variable {paths : List Path} {spec : FileSpec} {α β : Type} {m m' : Memory} {g g' : Book}

/-! ## Single calls and steps -/

theorem after_call {c : Call} {f : Except Errno c.Val → P α} {Q : α → Memory → Book → Prop} {evs : List (Event posix)}
    (moves : Inv paths spec m g → ∀ r, Sane c r →
      ∃ g', Move paths spec evs g m c r g' ∧ After (ledger paths spec) (f r) Q (evs ++ [⟨c,r⟩]) m g') :
    After (ledger paths spec) (perform c >>= f) Q evs m g :=
  moves

theorem follows_call {c : Call} {f : Except Errno c.Val → P α} {Q : α → Memory → Book → Prop}
    (moves : ∀ evs, Inv paths spec m g → ∀ r, Sane c r →
      ∃ g', Move paths spec evs g m c r g' ∧ Follows (ledger paths spec) (f r) Q m g') :
    Follows (ledger paths spec) (perform c >>= f) Q m g := by
  intro evs inv r sane
  obtain ⟨g',move,rest⟩ := moves evs inv r sane
  exact ⟨g',move,rest _⟩

theorem follows_perform {c : Call} {f : Except Errno c.Val → P α} {Q : α → Memory → Book → Prop}
    (failed : ∀ e, Follows (ledger paths spec) (f (.error e)) Q m g)
    (done : ∀ evs, Inv paths spec m g → ∀ x, Sane c (.ok x) →
      ∃ g', Move paths spec evs g m c (.ok x) g' ∧ Follows (ledger paths spec) (f (.ok x)) Q m g') :
    Follows (ledger paths spec) (perform c >>= f) Q m g := by
  refine follows_call fun evs inv r sane => ?_
  cases r with
  | error e => exact ⟨g,.quiet (.inr ⟨e,rfl⟩),failed e⟩
  | ok x => exact done evs inv x sane

/-- A call that no name and no file depends on. -/
theorem follows_silent {c : Call} {f : Except Errno c.Val → P α} {Q : α → Memory → Book → Prop}
    (silent : matters c = false) (rest : ∀ r, Sane c r → Follows (ledger paths spec) (f r) Q m g) :
    Follows (ledger paths spec) (perform c >>= f) Q m g :=
  follows_call fun _ _ r sane => ⟨g,.quiet (.inl silent),rest r sane⟩

theorem follows_get {f : Memory → P α} {Q : α → Memory → Book → Prop} (rest : Follows (ledger paths spec) (f m) Q m g) :
    Follows (ledger paths spec) (get >>= f) Q m g :=
  fun evs _ => ⟨g,.quiet (Same.refl m),rest evs⟩

theorem follows_step {h : Memory → Memory} {f : Unit → P α} {Q : α → Memory → Book → Prop} (step : Step g m (h m) g')
    (rest : Follows (ledger paths spec) (f ()) Q (h m) g') : Follows (ledger paths spec) (modify h >>= f) Q m g :=
  fun evs _ => ⟨g',step,rest evs⟩

/-! ## Parts that leave the ledger alone -/

/-- A program that changes no file but one, makes no name and removes none. What it
    returns is as `R` says. -/
def Tame (fd : Option Fd) (R : α → Prop) : P α → Prop
  | .ret a => R a
  | .call c next => (matters c = false ∨ ∃ d, fd = some d ∧ altered c = some d) ∧ ∀ r, Sane c r → Tame fd R (next r)
  | .mem f next => ∀ m, Tidy m → Same m (f m) ∧ Tame fd R (next (f m))
  | .exit => True
  | .spin => True

section
variable {fd : Option Fd} {R : α → Prop} {S : β → Prop}

theorem Tame.bind {p : P α} {f : α → P β} (first : Tame fd R p) (rest : ∀ a, R a → Tame fd S (f a)) :
    Tame fd S (p >>= f) := by
  induction p with
  | ret a => exact rest a first
  | call c next ih => exact ⟨first.1,fun r sane => ih r (first.2 r sane)⟩
  | mem h next ih => exact fun m tidy => ⟨(first m tidy).1,ih (h m) (first m tidy).2⟩
  | exit => trivial
  | spin => trivial

theorem Tame.mono {R' : α → Prop} {p : P α} (tame : Tame fd R p) (weaker : ∀ a, R a → R' a) : Tame fd R' p := by
  induction p with
  | ret a => exact weaker a tame
  | call c next ih => exact ⟨tame.1,fun r sane => ih r (tame.2 r sane)⟩
  | mem h next ih => exact fun m tidy => ⟨(tame m tidy).1,ih (h m) (tame m tidy).2⟩
  | exit => trivial
  | spin => trivial

theorem tame_ret {a : α} (holds : R a) : Tame fd R (pure a) := holds

/-- A call that matters to nobody. -/
theorem tame_perform {c : Call} {f : Except Errno c.Val → P β} (silent : matters c = false)
    (rest : ∀ r, Sane c r → Tame fd S (f r)) : Tame fd S (perform c >>= f) :=
  ⟨.inl silent,rest⟩

theorem tame_get {f : Memory → P β} (rest : ∀ m, Tidy m → Tame fd S (f m)) : Tame fd S (get >>= f) :=
  fun m tidy => ⟨Same.refl m,rest m tidy⟩

theorem tame_modify {h : Memory → Memory} {f : Unit → P β} (same : ∀ m, Tidy m → Same m (h m)) (rest : Tame fd S (f ())) :
    Tame fd S (modify h >>= f) :=
  fun m tidy => ⟨same m tidy,rest⟩

theorem Tame.any {p : P α} (tame : Tame none R p) : Tame fd R p := by
  induction p with
  | ret a => exact tame
  | call c next ih =>
    rcases tame.1 with silent | ⟨d,nothing,_⟩
    · exact ⟨.inl silent,fun r sane => ih r (tame.2 r sane)⟩
    · cases nothing
  | mem h next ih => exact fun m tidy => ⟨(tame m tidy).1,ih (h m) (tame m tidy).2⟩
  | exit => trivial
  | spin => trivial

/-- The file that a part may change is one that is being written. -/
def Writes (g : Book) (fd : Option Fd) : Prop :=
  ∀ d, fd = some d → ∃ i phase named, g.work i = some ⟨d.ino,phase,named⟩ ∧ phase ≠ .sealed

theorem Tame.follows {p : P α} (tame : Tame fd R p) (writes : Writes g fd) :
    Follows (ledger paths spec) p (fun a m' g' => R a ∧ Same m m' ∧ g' = g) m g := by
  suffices general : ∀ m₁ evs, Same m m₁ → After (ledger paths spec) p (fun a m' g' => R a ∧ Same m m' ∧ g' = g) evs m₁ g from
    fun evs => general m evs (Same.refl m)
  induction p with
  | ret a => exact fun m₁ evs same _ => ⟨tame,same,rfl⟩
  | call c next ih =>
    intro m₁ evs same inv r sane
    refine ⟨g,?_,ih r (tame.2 r sane) m₁ _ same⟩
    rcases tame.1 with silent | ⟨d,is,alters⟩
    · exact .quiet (.inl silent)
    · obtain ⟨i,phase,named,mine,unsealed⟩ := writes d is
      exact .alter alters mine unsealed
  | mem h next ih =>
    intro m₁ evs same inv
    obtain ⟨step,rest⟩ := tame m₁ (Inv.tidy inv)
    exact ⟨g,.quiet step,ih (h m₁) rest (h m₁) evs (same.trans step)⟩
  | exit => exact fun _ _ _ => trivial
  | spin => exact fun _ _ _ => trivial

/-- The rule for a part that leaves the ledger alone. -/
theorem follows_tame {p : P α} {f : α → P β} {Q : β → Memory → Book → Prop} (tame : Tame none R p)
    (rest : ∀ a m', R a → Same m m' → Follows (ledger paths spec) (f a) Q m' g) :
    Follows (ledger paths spec) (p >>= f) Q m g := by
  refine follows_seq (tame.follows (by simp [Writes])) ?_
  rintro a m' _ _ ⟨holds,same,rfl⟩
  exact rest a m' holds same

end

/-! ## How far the ledger may change -/

/-- A deed of a part that gives no operand its name. A name is reported as left behind
    only where `left` holds. -/
def Minor (left : Prop) : Deed → Prop
  | .file _ _ | .backup _ _ _ | .keptOld _ _ => False
  | .kept _ _ => left
  | .lost _ _ | .reused _ _ _ | .dir _ => True

/-- A deed of a part that gives the operand `p` its name. -/
def Naming (p : Path) (left : Prop) : Deed → Prop
  | .file q _ | .backup q _ _ => q = p
  | .keptOld _ _ => False
  | .kept _ _ => left
  | .lost _ _ | .reused _ _ _ | .dir _ => True

theorem Minor.naming {p : Path} {left : Prop} {d : Deed} (minor : Minor left d) : Naming p left d := by
  cases d with
  | file => exact minor.elim
  | backup => exact minor.elim
  | _ => exact minor

/-- Only the given slots have changed, their names in `names` and their files in `files`,
    and the new deeds are such as `ok` admits. -/
structure Onward (names files : List Nat) (ok : Deed → Prop) (m : Memory) (g : Book) (m' : Memory) (g' : Book) : Prop where
  live : ∀ j, j ∉ names → g'.live j = g.live j
  work : ∀ j, j ∉ files → g'.work j = g.work j
  lag : g'.lag = g.lag
  finished : g.finished ⊆ g'.finished
  heap : m.heap ≤ m'.heap
  owner : ∀ b, b < m.heap → g'.owner b = g.owner b
  failed : m.dirs_nfailed ≤ m'.dirs_nfailed
  told : m.told ⊆ m'.told
  trail : ∃ new, g'.trail = new ++ g.trail ∧ ∀ d ∈ new, ok d

variable {names files : List Nat} {ok : Deed → Prop}

theorem Onward.refl (m : Memory) (g : Book) : Onward names files ok m g m g :=
  ⟨fun _ _ => rfl,fun _ _ => rfl,rfl,List.Subset.refl _,Nat.le_refl _,fun _ _ => rfl,Nat.le_refl _,
    List.Subset.refl _,⟨[],rfl,by simp⟩⟩

theorem Minor.mono {left left' : Prop} (weaker : left → left') {d : Deed} (minor : Minor left d) : Minor left' d := by
  cases d with
  | kept => exact weaker minor
  | _ => exact minor

theorem Onward.trans {m'' : Memory} {g'' : Book} (one : Onward names files ok m g m' g')
    (two : Onward names files ok m' g' m'' g'') : Onward names files ok m g m'' g'' := by
  obtain ⟨new,first,minor⟩ := one.trail
  obtain ⟨new',second,minor'⟩ := two.trail
  refine ⟨fun j other => (two.live j other).trans (one.live j other),
    fun j other => (two.work j other).trans (one.work j other),two.lag.trans one.lag,
    List.Subset.trans one.finished two.finished,Nat.le_trans one.heap two.heap,?_,Nat.le_trans one.failed two.failed,
    List.Subset.trans one.told two.told,⟨new' ++ new,by rw [second,first,List.append_assoc],?_⟩⟩
  · intro b below
    exact (two.owner b (Nat.lt_of_lt_of_le below one.heap)).trans (one.owner b below)
  · intro d member
    rcases List.mem_append.mp member with later | earlier
    · exact minor' d later
    · exact minor d earlier

theorem Onward.mono {names' files' : List Nat} {ok' : Deed → Prop} (one : Onward names files ok m g m' g')
    (more : names ⊆ names') (more' : files ⊆ files') (weaker : ∀ d, ok d → ok' d) :
    Onward names' files' ok' m g m' g' := by
  obtain ⟨new,grown,minor⟩ := one.trail
  exact ⟨fun j other => one.live j fun member => other (more member),
    fun j other => one.work j fun member => other (more' member),one.lag,one.finished,one.heap,one.owner,one.failed,
    one.told,⟨new,grown,fun d member => weaker d (minor d member)⟩⟩

theorem same_onward (same : Same m m') (g : Book) : Onward names files ok m g m' g :=
  ⟨fun _ _ => rfl,fun _ _ => rfl,rfl,List.Subset.refl _,Nat.le_of_eq same.heap.symm,fun _ _ => rfl,same.failed,
    fun _ => (same.told ▸ ·),⟨[],rfl,by simp⟩⟩

/-- A string that was allocated for a slot. -/
def Owned (g : Book) (m : Memory) (j : Nat) (s : Str) : Prop := ∀ b, s.block = some b → g.owner b = j ∧ b < m.heap

theorem Owned.onward {j : Nat} {s : Str} (owned : Owned g m j s) (onward : Onward names files ok m g m' g') :
    Owned g' m' j s := by
  intro b block
  obtain ⟨owner,below⟩ := owned b block
  exact ⟨(onward.owner b below).trans owner,Nat.lt_of_lt_of_le below onward.heap⟩

/-- No name is on the way, and `pending` is up to date. -/
def Closed (g : Book) : Prop := g.live FRESH = none ∧ g.lag = []

theorem Closed.onward (closed : Closed g) (onward : Onward names files ok m g m' g') (slots : FRESH ∉ names) : Closed g' :=
  ⟨(onward.live FRESH slots).trans closed.1,onward.lag.trans closed.2⟩

/-- New names may be made. -/
def Rest (g : Book) : Prop := g.live FRESH = none ∧ g.lag = [] ∧ Untwinned g

theorem Rest.closed (rest : Rest g) : Closed g := ⟨rest.1,rest.2.1⟩

theorem Closed.rest (closed : Closed g) (room : g.live PENDING_BACKUP = none) : Rest g :=
  ⟨closed.1,closed.2,by simp [Untwinned,room]⟩

theorem Rest.onward (rest : Rest g) (onward : Onward names files ok m g m' g') (slots : FRESH ∉ names)
    (backup : PENDING_BACKUP ∉ names) : Rest g' :=
  ⟨(onward.live FRESH slots).trans rest.1,onward.lag.trans rest.2.1,fun a o => onward.live _ backup ▸ rest.2.2 a o⟩

/-! ## pending.c -/

theorem follows_say {msg : Message} {f : Unit → P α} {Q : α → Memory → Book → Prop}
    (rest : ∀ m', Same m m' → Follows (ledger paths spec) (f ()) Q m' g) :
    Follows (ledger paths spec) (say msg >>= f) Q m g := by
  have same : Same m { m with log := msg :: m.log } :=
    ⟨rfl,rfl,rfl,rfl,rfl,⟨[msg],rfl⟩,Nat.le_refl _,fun ⟨d,f⟩ => ⟨d,f⟩⟩
  exact follows_step (.quiet same) (rest _ same)

/-- The rule for a part with signals blocked. -/
theorem follows_hold {f : Bool → P α} {Q : α → Memory → Book → Prop}
    (rest : Follows (ledger paths spec) (f m.blocked) Q { m with blocked := true } g) :
    Follows (ledger paths spec) (pending_hold >>= f) Q m g := by
  rw [pending_hold,LawfulMonad.bind_assoc]
  refine follows_get ?_
  rw [LawfulMonad.bind_assoc]
  exact follows_step .hold rest

theorem follows_release {old : Bool} {f : Unit → P α} {Q : α → Memory → Book → Prop}
    (closed : Closed g)
    (next : Follows (ledger paths spec) (f ()) Q { m with blocked := old } g) :
    Follows (ledger paths spec) (pending_release old >>= f) Q m g :=
  follows_step (.release fun _ => closed) next

theorem follows_free {s : Str} {j : Nat} {f : Unit → P α} {Q : α → Memory → Book → Prop} (owned : Owned g m j s)
    (slot : j ≠ FRESH) (clean : g.lag = []) (gone : g.live j = none)
    (rest : Follows (ledger paths spec) (f ()) Q { m with freed := s.block.toList ++ m.freed } g) :
    Follows (ledger paths spec) (free s >>= f) Q m g := by
  refine follows_inv fun inv => follows_step (.free ?_) rest
  intro b block
  obtain ⟨owner,below⟩ := owned b block
  refine ⟨below,fun i t found same => ?_⟩
  have this := inv.whole i t found b same
  have is : i = j := this.1.symm.trans owner
  have absent : armed m j = none := by
    rw [inv.synced j slot (by simp [clean]),gone]
    rfl
  simp [armed,← is,found] at absent

theorem free_onward (m : Memory) (g : Book) (s : Str) :
    Onward names files ok m g { m with freed := s.block.toList ++ m.freed } g :=
  ⟨fun _ _ => rfl,fun _ _ => rfl,rfl,List.Subset.refl _,Nat.le_refl _,fun _ _ => rfl,Nat.le_refl _,
    List.Subset.refl _,⟨[],rfl,by simp⟩⟩

/-- The name in a slot is gone or could not be removed. -/
theorem remove_ours_spec {j : Nat} {path : Path} {ino : Ino} {role : Role} (clean : g.lag = [])
    (made : g.live j = some ⟨path,ino,role⟩) :
    Follows (ledger paths spec) (remove_ours path ino) (fun r m' g' => m' = m ∧
      ((∀ e, r ≠ .failed e) ∧ g' = g.drop j ∨ ∃ e, r = .failed e ∧ g' = g)) m g := by
  intro evs
  rw [remove_ours]
  refine after_call fun _ r _ => ?_
  cases r with
  | error e =>
    by_cases noent : e = .ENOENT
    · refine ⟨_,.vanish clean made ⟨rfl,.inl (congrArg _ noent)⟩,follows_pure ⟨rfl,.inl ⟨?_,rfl⟩⟩ _⟩
      simp [noent]
    · exact ⟨g,.quiet (.inl rfl),follows_pure ⟨rfl,.inr ⟨e,by simp [noent],rfl⟩⟩ _⟩
  | ok st =>
    dsimp only
    by_cases same : st.ino = ino
    · refine ⟨g,.quiet (.inl rfl),?_⟩
      rw [if_neg (by simp [same])]
      refine after_call fun _ r _ => ?_
      cases r with
      | error e =>
        by_cases noent : e = .ENOENT
        · refine ⟨_,.vanish clean made ⟨rfl,congrArg _ noent⟩,follows_pure ⟨rfl,.inl ⟨?_,rfl⟩⟩ _⟩
          simp [noent]
        · exact ⟨g,.quiet (.inr ⟨e,rfl⟩),follows_pure ⟨rfl,.inr ⟨e,by simp [noent],rfl⟩⟩ _⟩
      | ok _ => exact ⟨_,.remove clean made ⟨evs,st,rfl,same⟩,follows_pure ⟨rfl,.inl ⟨by simp,rfl⟩⟩ _⟩
    · refine ⟨_,.vanish clean made ⟨rfl,.inr ⟨st,rfl,same⟩⟩,?_⟩
      rw [if_pos same]
      exact follows_pure ⟨rfl,.inl ⟨by simp,rfl⟩⟩ _

/-- A slot whose name is gone or was left behind. -/
theorem drop_onward {j : Nat} {log : List Message} {p : PendingName} (clean : g.lag = []) (new : List Deed)
    (minor : ∀ d ∈ new, ok d) :
    Onward [j] files ok m g (Memory.setPending { m with log := log } j p)
      { g.drop j with lag := [], trail := new ++ g.trail } := by
  refine ⟨?_,fun _ _ => rfl,clean.symm,List.Subset.refl _,Nat.le_refl _,fun _ _ => rfl,Nat.le_refl _,
    List.Subset.refl _,⟨new,rfl,minor⟩⟩
  intro i other
  simp only [List.mem_singleton] at other
  simp [other]

theorem follows_clear {j : Nat} {f : Unit → P α} {Q : α → Memory → Book → Prop} (gone : g.live j = none)
    (rest : Follows (ledger paths spec) (f ()) Q (Memory.setPending m j ⟨none,(m.pending j).ino⟩)
      { g with lag := g.lag.filter (· ≠ j) }) : Follows (ledger paths spec) (pending_clear j >>= f) Q m g :=
  follows_step (.clear gone) rest

/-- A name that is reported is left behind. -/
theorem follows_keep {j : Nat} {q : Path} {n : Ino} {role : Role} {e : Errno} {f : Unit → P α}
    {Q : α → Memory → Book → Prop} (clean : g.lag = []) (made : g.live j = some ⟨q,n,role⟩)
    (rest : Follows (ledger paths spec) (f ()) Q { m with log := .cannot_remove q e :: m.log }
      { g.drop j with trail := .kept q n :: g.trail }) :
    Follows (ledger paths spec) (say (.cannot_remove q e) >>= f) Q m g :=
  follows_step (.keep clean made) rest

/-- What is armed in a slot is the name that the ledger holds there. -/
theorem armed_live {j : Nat} {path : Str} (inv : Inv paths spec m g) (slot : j ≠ FRESH) (clean : g.lag = [])
    (found : (m.pending j).path = some path) :
    ∃ role, g.live j = some ⟨path.text,(m.pending j).ino,role⟩ := by
  have synced := inv.synced j slot (by simp [clean])
  rw [armed,found] at synced
  cases live : g.live j with
  | none => simp [live] at synced
  | some r =>
    obtain ⟨text,ino⟩ : path.text = r.path ∧ (m.pending j).ino = r.ino := by simpa [live] using synced
    exact ⟨r.role,by rw [text,ino]⟩

theorem drop_clear (g : Book) (j : Nat) (slot : j ≠ FRESH) (new : List Deed) :
    { g.drop j with lag := (g.drop j).lag.filter (· ≠ j), trail := new } =
      { g.drop j with lag := [], trail := new } := by
  simp [Book.drop,slot]

theorem pending_remove_spec {j : Nat} (slot : j ≠ FRESH) (clean : g.lag = []) :
    Follows (ledger paths spec) (pending_remove j)
      (fun removed m' g' => Onward [j] [] (Minor (removed = false)) m g m' g' ∧ g'.live j = none ∧ g'.old = g.old) m g := by
  rw [pending_remove]
  refine follows_inv fun inv => follows_get ?_
  cases found : (m.pending j).path with
  | none =>
    have dead : g.live j = none := by
      have synced := inv.synced j slot (by simp [clean])
      rw [armed,found] at synced
      simpa using synced.symm
    exact follows_pure ⟨Onward.refl m g,dead,rfl⟩
  | some path =>
    obtain ⟨role,made⟩ := armed_live inv slot clean found
    refine follows_seq (remove_ours_spec clean made) ?_
    rintro r m g' _ ⟨rfl,⟨removed,rfl⟩ | ⟨e,rfl,rfl⟩⟩
    · have dead : (g.drop j).live j = none := by simp
      have same : g.drop j = { g.drop j with trail := [] ++ g.trail } := rfl
      cases r with
      | gone =>
        refine follows_clear dead (follows_pure ⟨?_,dead,rfl⟩)
        rw [same,drop_clear g j slot]
        exact drop_onward clean [] (by simp)
      | other =>
        refine follows_say fun m' still => follows_clear dead (follows_pure ⟨(same_onward still g).trans ?_,dead,rfl⟩)
        rw [same,drop_clear g j slot]
        exact drop_onward clean [] (by simp)
      | failed e => exact absurd rfl (removed e)
    · -- The message comes before the slot is cleared.
      refine follows_keep clean made (follows_clear (by simp) (follows_pure ⟨?_,by simp,rfl⟩))
      rw [drop_clear _ j slot]
      exact drop_onward clean [.kept path.text (m.pending j).ino] (by simp [Minor])

/-! ## Strings -/

theorem follows_newStr (j : Nat) {text : Path} {f : Except Errno Str → P α} {Q : α → Memory → Book → Prop}
    (failed : ∀ e, Follows (ledger paths spec) (f (.error e)) Q m g)
    (done : (∀ b ∈ m.freed, b < m.heap) → Follows (ledger paths spec) (f (.ok ⟨text,some m.heap⟩)) Q
      { m with heap := m.heap+1 } { g with owner := update g.owner m.heap j }) :
    Follows (ledger paths spec) (newStr text >>= f) Q m g := by
  rw [newStr,LawfulMonad.bind_assoc]
  refine follows_inv fun inv => follows_silent rfl fun r _ => ?_
  cases r with
  | error e => exact failed e
  | ok _ =>
    exact follows_get fun evs _ => ⟨_,.alloc,done inv.freed evs⟩

theorem newStr_onward (m : Memory) (g : Book) (j : Nat) :
    Onward names files ok m g { m with heap := m.heap+1 } { g with owner := update g.owner m.heap j } := by
  refine ⟨fun _ _ => rfl,fun _ _ => rfl,rfl,List.Subset.refl _,Nat.le_succ _,?_,Nat.le_refl _,List.Subset.refl _,
    ⟨[],rfl,by simp⟩⟩
  intro b below
  exact update_of_ne (Nat.ne_of_lt below) _ _

theorem newStr_whole (g : Book) (j : Nat) (text : Path) (freed : ∀ b ∈ m.freed, b < m.heap) :
    Whole { g with owner := update g.owner m.heap j } { m with heap := m.heap+1 } j ⟨text,some m.heap⟩ := by
  rintro b ⟨⟩
  exact ⟨update_self ..,Nat.lt_succ_self _,fun member => Nat.lt_irrefl _ (freed _ member)⟩

theorem Whole.owned {j : Nat} {s : Str} (whole : Whole g m j s) : Owned g m j s :=
  fun b block => ⟨(whole b block).1,(whole b block).2.1⟩

/-! ## `op_fail` -/

/-- The strings of an operand can be freed once its name is gone. -/
def OwnsTmp (g : Book) (m : Memory) (op : Op) (slot : Nat) : Prop := ∀ s, op.tmppath = some s → Owned g m slot s

theorem closeOp_spec (op : Op) :
    Follows (ledger paths spec) (closeOp op) (fun op' m' g' => op' = { op with fd := none } ∧ m' = m ∧ g' = g) m g := by
  rw [closeOp]
  cases found : op.fd with
  | none => exact follows_pure ⟨by rw [← found],rfl,rfl⟩
  | some fd => exact follows_silent rfl fun _ _ => follows_pure ⟨rfl,rfl,rfl⟩

theorem freeTmp_spec {op : Op} {slot : Nat} (owned : OwnsTmp g m op slot) (fits : slot ≠ FRESH) (clean : g.lag = [])
    (gone : op.tmppath.isSome → g.live slot = none) : Follows (ledger paths spec) (freeTmp op)
      (fun op' m' g' => op' = { op with tmppath := none } ∧ Onward [] [] (Minor False) m g m' g' ∧ g' = g) m g := by
  rw [freeTmp]
  cases found : op.tmppath with
  | none => exact follows_pure ⟨by rw [← found],Onward.refl m g,rfl⟩
  | some s =>
    exact follows_free (owned s found) fits clean (gone (by simp [found]))
      (follows_pure ⟨rfl,free_onward m g s,rfl⟩)

/-- The operand has failed, and its name is gone unless its spare is to be dealt with later. -/
theorem op_fail_spec {op : Op} {slot : Nat} (what : String) (e : Errno) (owned : OwnsTmp g m op slot)
    (fits : slot ≠ FRESH) (clean : g.lag = []) (either : op.spare.isSome → op.tmppath = none) :
    Follows (ledger paths spec) (op_fail op slot what e) (fun op' m' g' =>
      op' = { op with fail := some what, err := e, fd := none, tmppath := none } ∧
        Onward [slot] [] (Minor True) m g m' g' ∧ g'.live slot = if op.spare.isSome then g.live slot else none) m g := by
  rw [op_fail]
  refine follows_seq (closeOp_spec _) ?_
  rintro _ m g _ ⟨rfl,rfl,rfl⟩
  dsimp only
  cases spare : op.spare with
  | none =>
    refine follows_seq (pending_remove_spec fits clean) ?_
    rintro removed m₁ g₁ _ ⟨onward,gone,_⟩
    refine follows_mono (freeTmp_spec (fun s found => (owned s found).onward onward) fits (onward.lag.trans clean)
      fun _ => gone) ?_
    rintro _ m₂ _ _ ⟨rfl,freed,rfl⟩
    refine ⟨rfl,?_,gone⟩
    exact (onward.mono (List.Subset.refl _) (List.Subset.refl _) fun _ => Minor.mono fun _ => trivial).trans
      (freed.mono (by simp) (List.Subset.refl _) fun _ => Minor.mono fun _ => trivial)
  | some t =>
    have absent : op.tmppath = none := either (by simp [spare])
    refine follows_mono (freeTmp_spec owned fits clean (by simp [absent])) ?_
    rintro _ m₁ _ _ ⟨rfl,freed,rfl⟩
    exact ⟨rfl,freed.mono (by simp) (List.Subset.refl _) fun _ => Minor.mono fun _ => trivial,rfl⟩

end Newfile.Bookkeeping
