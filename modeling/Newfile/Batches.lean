import Newfile.Commits

/-!
The loops over the operands of a batch keep the ledger, and so does `batch_run`.
-/
namespace Newfile.Batches
open Newfile.Program Newfile.Program.Prog Newfile.Posix Newfile.Process Newfile.Pending Newfile.Flush
open Newfile.Place Newfile.Backup Newfile.Batch Newfile.Ledger Newfile.Bookkeeping Newfile.Places Newfile.Backups
open Newfile.Building Newfile.Commits Newfile.Simulation Function

variable {paths : List Path} {spec : FileSpec} {α : Type} {m m' m₀ : Memory} {g g' g₀ : Book} {n i : Nat} {ops ops' : Ops}
  {op op' : Op}

/-! ## Slots -/

/-- What may be said of an operand and its slot. -/
abbrev Condition := Nat → Op → Memory → Book → Prop

/-- Parts that serve other slots leave the condition as it is. -/
def Framed (C : Condition) : Prop :=
  ∀ {j op m g m' g' names files ok}, Onward names files ok m g m' g' → j ∉ names → j ∉ files → C j op m g → C j op m' g'

def All (C : Condition) (n : Nat) (ops : Ops) (m : Memory) (g : Book) : Prop := ∀ j < n, C j (ops j) m g

/-- Between two operands nothing is under way. -/
structure Idle (g : Book) : Prop where
  rest : Rest g
  room : g.live PENDING_BACKUP = none

/-- Only an operand to be blamed has left a name behind. -/
def Tells (left : Prop) : Deed → Prop
  | .kept _ _ => left
  | _ => True

theorem Minor.tells {left : Prop} {d : Deed} (minor : Minor left d) : Tells left d := by
  cases d with
  | kept => exact minor
  | _ => trivial

theorem Naming.tells {p : Path} {left : Prop} {d : Deed} (naming : Naming p left d) : Tells left d := by
  cases d with
  | kept => exact naming
  | _ => trivial

theorem Tells.mono {left left' : Prop} (weaker : left → left') {d : Deed} (tells : Tells left d) : Tells left' d := by
  cases d with
  | kept => exact weaker tells
  | _ => trivial

/-- A part has served one operand. -/
structure Served (i : Nat) (op : Op) (m : Memory) (g : Book) (op' : Op) (m' : Memory) (g' : Book) : Prop where
  onward : Onward (replacing i) (replacing i) (Tells (Blamed op')) m g m' g'
  blames : Blamed op → Blamed op'
  room : g'.live PENDING_BACKUP = none

/-- The slots of a batch. -/
def slots (n : Nat) : List Nat := PENDING_BACKUP :: List.range n

/-- A part has served the operands of a batch. -/
structure Through (n : Nat) (ops : Ops) (m : Memory) (g : Book) (ops' : Ops) (m' : Memory) (g' : Book) : Prop where
  onward : Onward (slots n) (slots n) (Tells (∃ i < n, Blamed (ops' i))) m g m' g'
  blames : ∀ i < n, Blamed (ops i) → Blamed (ops' i)
  room : g'.live PENDING_BACKUP = none

theorem Through.refl (idle : Idle g) : Through n ops m g ops m g := ⟨Onward.refl m g,fun _ _ => id,idle.room⟩

theorem Through.trans {ops'' : Ops} {m'' : Memory} {g'' : Book} (one : Through n ops m g ops' m' g')
    (two : Through n ops' m' g' ops'' m'' g'') : Through n ops m g ops'' m'' g'' where
  onward := by
    refine (one.onward.mono (List.Subset.refl _) (List.Subset.refl _) fun _ => Tells.mono ?_).trans two.onward
    rintro ⟨i,inside,blamed⟩
    exact ⟨i,inside,two.blames i inside blamed⟩
  blames i inside blamed := two.blames i inside (one.blames i inside blamed)
  room := two.room

theorem replacing_slots (inside : i < n) : replacing i ⊆ slots n := by
  intro j member
  simp only [replacing,List.mem_cons,List.not_mem_nil,or_false] at member
  rcases member with rfl | rfl
  · simp [slots,inside]
  · simp [slots]

theorem slot_fits (few : n ≤ NEWFILE_BATCH) (inside : i < n) : i < FRESH ∧ i ≠ PENDING_BACKUP := by
  simp only [FRESH,PENDING_SLOTS,PENDING_BACKUP]
  omega

theorem Through.idle (through : Through n ops m g ops' m' g') (few : n ≤ NEWFILE_BATCH) (idle : Idle g) : Idle g' := by
  refine ⟨(idle.rest.closed.onward through.onward ?_).rest through.room,through.room⟩
  simp only [slots,List.mem_cons,List.mem_range,not_or]
  simp only [FRESH,PENDING_SLOTS,PENDING_BACKUP]
  omega

theorem Served.through (served : Served i (ops i) m g op' m' g') (inside : i < n) :
    Through n ops m g (ops.set i op') m' g' where
  onward := by
    refine served.onward.mono (replacing_slots inside) (replacing_slots inside) fun _ => Tells.mono fun blamed => ⟨i,inside,?_⟩
    simpa [Ops.set] using blamed
  blames j _ blamed := by
    by_cases same : j = i
    · subst same
      simpa [Ops.set] using served.blames blamed
    · simpa [Ops.set,same] using blamed
  room := served.room

/-- The other operands stand as before. -/
theorem Served.others {C : Condition} {j : Nat} (framed : Framed C) (few : n ≤ NEWFILE_BATCH) (served : Served i op m g op' m' g')
    (inside : j < n) (other : j ≠ i) (stands : C j (ops j) m g) : C j (ops.set i op' j) m' g' := by
  have apart : j ∉ replacing i := by simp [replacing,other,(slot_fits few inside).2]
  rw [show ops.set i op' j = ops j by simp [Ops.set,other]]
  exact framed served.onward apart apart stands

theorem Served.all {C : Condition} (framed : Framed C) (few : n ≤ NEWFILE_BATCH) (served : Served i op m g op' m' g')
    (all : All C n ops m g) (new : C i op' m' g') : All C n (ops.set i op') m' g' := by
  intro j inside
  by_cases same : j = i
  · subst same
    simpa [Ops.set] using new
  · exact served.others framed few inside same (all j inside)

/-- A part that takes every operand from one condition to another. -/
def Serves (paths : List Path) (spec : FileSpec) (n : Nat) (C D : Condition) (f : Op → Nat → P Op) : Prop :=
  ∀ i < n, ∀ op m g, Idle g → C i op m g →
    Follows (ledger paths spec) (f op i) (fun op' m' g' => D i op' m' g' ∧ Served i op m g op' m' g') m g

theorem eachOp_spec {C D : Condition} {f : Op → Nat → P Op} (few : n ≤ NEWFILE_BATCH) (before : Framed C) (after : Framed D)
    (serves : Serves paths spec n C D f) : ∀ (k i : Nat) (ops : Ops) (m : Memory) (g : Book), k+i = n → Idle g →
      (∀ j < i, D j (ops j) m g) → (∀ j < n, i ≤ j → C j (ops j) m g) →
      Follows (ledger paths spec) (eachOp f k i ops) (fun ops' m' g' => All D n ops' m' g' ∧ Through n ops m g ops' m' g') m g := by
  intro k
  induction k with
  | zero =>
    intro i ops m g all idle done _
    refine follows_pure ⟨?_,Through.refl idle⟩
    rw [show n = i by omega]
    exact done
  | succ k ih =>
    intro i ops m g all idle done ahead
    have inside : i < n := by omega
    rw [eachOp]
    refine follows_seq (serves i inside (ops i) m g idle (ahead i inside (Nat.le_refl _))) ?_
    rintro op' m₁ g₁ _ ⟨new,served⟩
    have through : Through n ops m g (ops.set i op') m₁ g₁ := served.through inside
    refine follows_mono (ih (i+1) (ops.set i op') m₁ g₁ (by omega) (through.idle few idle) ?_ ?_) ?_
    · intro j behind
      by_cases same : j = i
      · subst same
        simpa [Ops.set] using new
      · exact served.others after few (by omega) same (done j (by omega))
    · intro j inside' ahead'
      exact served.others before few inside' (by omega) (ahead j inside' (by omega))
    · exact fun _ _ _ _ result => ⟨result.1,through.trans result.2⟩

/-! ## Flushing -/

/-- More files may get their names, and nothing else has changed. -/
def Finishes (m : Memory) (g : Book) (m' : Memory) (g' : Book) : Prop := Same m m' ∧ ∃ more, g' = { g with finished := more ++ g.finished }

theorem Finishes.refl (m : Memory) (g : Book) : Finishes m g m g := ⟨Same.refl m,[],rfl⟩

theorem Finishes.trans {m'' : Memory} {g'' : Book} (one : Finishes m g m' g') (two : Finishes m' g' m'' g'') : Finishes m g m'' g'' := by
  obtain ⟨same,more,rfl⟩ := one
  obtain ⟨same',more',rfl⟩ := two
  exact ⟨same.trans same',more' ++ more,by simp⟩

theorem Finishes.onward {ok : Deed → Prop} {names files : List Nat} (finishes : Finishes m g m' g') : Onward names files ok m g m' g' := by
  obtain ⟨same,more,rfl⟩ := finishes
  exact (same_onward same g).trans ⟨fun _ _ => rfl,fun _ _ => rfl,rfl,List.subset_append_right _ _,Nat.le_refl _,
    fun _ _ => rfl,Nat.le_refl _,List.Subset.refl _,⟨[],rfl,by simp⟩⟩

/-- The file in a slot that was to be flushed may get its name. -/
def Due (g : Book) (i : Nat) (fd : Fd) (g' : Book) : Prop :=
  (∃ named, g.work i = some ⟨fd.ino,.sealed,named⟩) → fd.ino ∈ g'.finished

theorem sync_one_spec (i : Nat) (fd : Fd) : ∀ fuel, Follows (ledger paths spec) (sync_one fuel fd false)
    (fun err m' g' => Finishes m g m' g' ∧ (err = none → Due g i fd g')) m g := by
  by_cases work : ∃ named, g.work i = some ⟨fd.ino,.sealed,named⟩
  · obtain ⟨named,work⟩ := work
    intro fuel
    induction fuel with
    | zero => exact fun _ => trivial
    | succ fuel ih =>
      rw [sync_one]
      refine follows_perform (fun e => ?_) fun _ _ _ _ => ⟨_,.flush work,follows_pure ⟨⟨Same.refl m,[fd.ino],rfl⟩,?_⟩⟩
      · dsimp only
        split
        · exact ih
        · exact follows_pure ⟨Finishes.refl m g,by simp [sync_err]⟩
      · exact fun _ _ => List.mem_cons_self
  · intro fuel
    refine follows_mono (flushes_still.sync_one fd false fuel m g) ?_
    rintro err m' _ _ ⟨same,rfl⟩
    exact ⟨⟨same,[],rfl⟩,fun _ due => absurd due work⟩

theorem flush_fds_spec (fuel : Nat) : ∀ (idx : List (Nat × Fd)) (m : Memory) (g : Book),
    Follows (ledger paths spec) (flush_fds fuel false (idx.map (·.2))) (fun errs m' g' => Finishes m g m' g' ∧
      List.Forall₂ (fun x err => err = none → Due g x.1 x.2 g') idx errs) m g := by
  intro idx
  induction idx with
  | nil => exact fun m g => follows_pure ⟨Finishes.refl m g,.nil⟩
  | cons x idx ih =>
    intro m g
    rw [List.map_cons,flush_fds]
    refine follows_seq (sync_one_spec x.1 x.2 fuel) ?_
    rintro err m₁ g₁ _ ⟨finishes,due⟩
    refine follows_seq (ih m₁ g₁) ?_
    rintro errs m₂ g₂ _ ⟨finishes₂,rest⟩
    obtain ⟨_,more,rfl⟩ := finishes
    obtain ⟨_,more',rfl⟩ := finishes₂
    refine follows_pure ⟨Finishes.trans ⟨‹_›,more,rfl⟩ ⟨‹_›,more',rfl⟩,.cons (fun fine work => ?_) ?_⟩
    · exact List.mem_append_right _ (due fine work)
    · exact rest.imp fun x err later fine work => later fine work

/-- A condition that an operand still meets when its file could not be flushed. -/
def Fails (paths : List Path) (spec : FileSpec) (n : Nat) (C : Condition) : Prop :=
  ∀ what e, Serves paths spec n C (fun i op m g => C i op m g ∧ op.fail.isSome = true) fun op i => op_fail op i what e

theorem failFlushed_spec {C : Condition} (few : n ≤ NEWFILE_BATCH) (framed : Framed C) (fails : Fails paths spec n C) :
    ∀ (rest : List (Nat × Option Errno)) (ops : Ops) (m : Memory) (g : Book), (∀ x ∈ rest, x.1 < n) → Idle g → All C n ops m g →
      Follows (ledger paths spec) (failFlushed rest ops) (fun r m' g' => All C n r.1 m' g' ∧ Through n ops m g r.1 m' g' ∧
        (∀ i ∈ r.2, i < n) ∧ ∀ j < n, (r.1 j).fail.isSome = true ∨
          r.1 j = ops j ∧ ∀ err, (j,err) ∈ rest → err = none ∧ j ∈ r.2) m g := by
  intro rest
  induction rest with
  | nil => exact fun ops m g _ idle all => follows_pure ⟨all,Through.refl idle,by simp,fun j _ => .inr ⟨rfl,by simp⟩⟩
  | cons x rest ih =>
    intro ops m g inside idle all
    obtain ⟨i,err⟩ := x
    have here : i < n := inside (i,err) List.mem_cons_self
    have later : ∀ x ∈ rest, x.1 < n := fun x member => inside x (List.mem_cons_of_mem _ member)
    cases err with
    | some e =>
      rw [failFlushed]
      refine follows_seq (fails _ e i here (ops i) m g idle (all i here)) ?_
      rintro op' m₁ g₁ _ ⟨⟨new,failed⟩,served⟩
      have through : Through n ops m g (ops.set i op') m₁ g₁ := served.through here
      refine follows_mono (ih (ops.set i op') m₁ g₁ later (through.idle few idle) (served.all framed few all new)) ?_
      rintro ⟨ops',kept⟩ m₂ g₂ _ ⟨all',through',within,fate⟩
      refine ⟨all',through.trans through',within,fun j inside' => ?_⟩
      rcases fate j inside' with failed' | ⟨as_before,rest'⟩
      · exact .inl failed'
      · by_cases same : j = i
        · subst same
          exact .inl (by rw [as_before]; simpa [Ops.set] using failed)
        · refine .inr ⟨as_before.trans (by simp [Ops.set,same]),fun err member => rest' err ?_⟩
          rcases List.mem_cons.mp member with this | member
          · exact absurd (Prod.mk.inj this).1 same
          · exact member
    | none =>
      rw [failFlushed]
      refine follows_seq (ih ops m g later idle all) ?_
      rintro ⟨ops',kept⟩ m₁ g₁ _ ⟨all',through,within,fate⟩
      refine follows_pure ⟨all',through,?_,fun j inside' => ?_⟩
      · intro j member
        rcases List.mem_cons.mp member with rfl | member
        · exact here
        · exact within j member
      · rcases fate j inside' with failed | ⟨as_before,rest'⟩
        · exact .inl failed
        · refine .inr ⟨as_before,fun err member => ?_⟩
          rcases List.mem_cons.mp member with this | member
          · obtain ⟨rfl,rfl⟩ := Prod.mk.inj this
            exact ⟨rfl,List.mem_cons_self⟩
          · exact ⟨(rest' err member).1,List.mem_cons_of_mem _ (rest' err member).2⟩

theorem flushable_mem {x : Nat × Fd} : x ∈ flushable ops n ↔ x.1 < n ∧ (ops x.1).fail = none ∧ (ops x.1).fd = some x.2 := by
  simp only [flushable,List.mem_filterMap,List.mem_range]
  constructor
  · rintro ⟨i,inside,found⟩
    by_cases fine : (ops i).fail.isNone = true
    · obtain ⟨fd,open_,rfl⟩ : ∃ fd, (ops i).fd = some fd ∧ (i,fd) = x := by simpa [fine] using found
      exact ⟨inside,by simpa using fine,open_⟩
    · simp [fine] at found
  · rintro ⟨inside,fine,open_⟩
    exact ⟨x.1,inside,by simp [fine,open_]⟩

/-- What came of the flush of one of the files. -/
theorem flushed_err {R : Nat × Fd → Option Errno → Prop} {idx : List (Nat × Fd)} {errs : List (Option Errno)}
    (both : List.Forall₂ R idx errs) {x : Nat × Fd} (member : x ∈ idx) : ∃ err, R x err ∧ (x.1,err) ∈ (idx.map (·.1)).zip errs := by
  induction both with
  | nil => simp at member
  | @cons y err idx errs here both ih =>
    rcases List.mem_cons.mp member with rfl | later
    · exact ⟨err,here,List.mem_cons_self⟩
    · obtain ⟨err',there,member'⟩ := ih later
      exact ⟨err',there,List.mem_cons_of_mem _ member'⟩

theorem flush_ops_spec {C : Condition} (fuel : Nat) (few : n ≤ NEWFILE_BATCH) (framed : Framed C) (fails : Fails paths spec n C)
    (finished : ∀ {i op m g m' g'}, Finishes m g m' g' → C i op m g → C i op m' g') (idle : Idle g) (all : All C n ops m g) :
    Follows (ledger paths spec) (flush_ops fuel ops n) (fun r m' g' => All C n r.1 m' g' ∧ Through n ops m g r.1 m' g' ∧
      (∀ i ∈ r.2, i < n) ∧ ∀ j < n, (r.1 j).fail.isSome = true ∨ r.1 j = ops j ∧
        ∀ fd, (ops j).fd = some fd → j ∈ r.2 ∧ Due g j fd g') m g := by
  rw [flush_ops]
  refine follows_seq (flush_fds_spec fuel (flushable ops n) m g) ?_
  rintro errs m₁ g₁ _ ⟨finishes,dues⟩
  have idle₁ : Idle g₁ := by
    obtain ⟨_,more,rfl⟩ := finishes
    exact ⟨idle.rest,idle.room⟩
  have all₁ : All C n ops m₁ g₁ := fun j inside => finished finishes (all j inside)
  have through : Through n ops m g ops m₁ g₁ := ⟨finishes.onward,fun _ _ => id,idle₁.room⟩
  have inside : ∀ x ∈ ((flushable ops n).map (·.1)).zip errs, x.1 < n := by
    intro x member
    obtain ⟨y,there,same⟩ := List.mem_map.mp (List.of_mem_zip member).1
    rw [← same]
    exact (flushable_mem.mp there).1
  refine follows_mono (failFlushed_spec (C := C) few framed fails _ ops m₁ g₁ inside idle₁ all₁) ?_
  rintro ⟨ops',kept⟩ m₂ g₂ _ ⟨all',through',within,fate⟩
  refine ⟨all',through.trans through',within,fun j inside' => ?_⟩
  rcases fate j inside' with failed | ⟨as_before,rest⟩
  · exact .inl failed
  · by_cases fine : (ops j).fail.isSome = true
    · exact .inl (as_before ▸ fine)
    · refine .inr ⟨as_before,fun fd open_ => ?_⟩
      have fine : (ops j).fail = none := by simpa using fine
      obtain ⟨err,due,member⟩ := flushed_err dues (flushable_mem (x := (j,fd)).mpr ⟨inside',fine,open_⟩)
      obtain ⟨absent,there⟩ := rest err member
      refine ⟨there,fun work => through'.onward.finished (due absent work)⟩

/-! ## Conditions on operands -/

/-- Before the operands are named. -/
def Standing (spec : FileSpec) (flushed : Prop) (names : Nat → Path) : Condition := fun j op m g =>
  Stands spec flushed j ⟨names j,none⟩ op m g

/-- Once they are named, or have failed. -/
def Placing (names : Nat → Path) : Condition := fun j op m g => Placed j ⟨names j,none⟩ op m g

/-- Once they are settled: only an old file may still be there. -/
def Settled (names : Nat → Path) : Condition := fun j op m g => Placed j ⟨names j,none⟩ op m g ∧ op.tmppath = none

/-- Once nothing of them is left but their names. -/
def Dropped (names : Nat → Path) : Condition := fun j op m g => Settled names j op m g ∧ op.spare = none

variable {names : Nat → Path} {flushed : Prop}

theorem standing_framed : Framed (Standing spec flushed names) := by
  intro j op m g m' g' names' files ok onward one two stands
  have live := onward.live j one
  have work := onward.work j two
  refine { stands.toOf with failed := fun fail => ?_, ready := fun fine => ?_ }
  · obtain ⟨fail,fd,tmppath,gone⟩ := stands.failed fail
    exact ⟨fail,fd,tmppath,live.trans gone⟩
  · have ready := stands.ready fine
    have kept : ∀ {k named}, Sealed spec flushed j k named g → Sealed spec flushed j k named g' := fun sealed =>
      ⟨work.trans sealed.1,fun either => onward.finished (sealed.2 either)⟩
    rw [Ready] at ready ⊢
    cases way : op.way with
    | WAY_PLAIN =>
      simp only [way] at ready ⊢
      obtain ⟨tmppath,unforced,k,there⟩ := ready
      exact ⟨tmppath,unforced,k,live.trans there⟩
    | WAY_UNNAMED =>
      simp only [way] at ready ⊢
      obtain ⟨tmppath,gone,fd,open_,sealed⟩ := ready
      exact ⟨tmppath,live.trans gone,fd,open_,kept sealed⟩
    | WAY_TEMP =>
      simp only [way] at ready ⊢
      obtain ⟨name,fd,tmppath,open_,there,owned,temp,sealed⟩ := ready
      exact ⟨name,fd,tmppath,open_,live.trans there,owned.onward onward,temp,kept sealed⟩

theorem placing_framed : Framed (Placing names) := by
  intro j op m g m' g' names' files ok onward one _ placed
  refine { placed.toBound.onward onward one with held := placed.held, done := fun fine => ?_ }
  obtain ⟨new,grown,_⟩ := onward.trail
  obtain ⟨k,there⟩ := placed.done fine
  exact ⟨k,by rw [grown]; exact List.mem_append_right _ there⟩

theorem settled_framed : Framed (Settled names) := fun onward one two settled =>
  ⟨placing_framed onward one two settled.1,settled.2⟩

theorem dropped_framed : Framed (Dropped names) := fun onward one two dropped =>
  ⟨settled_framed onward one two dropped.1,dropped.2⟩

/-- What serving an operand has come to when its part kept to its slot. -/
theorem served_minor {left : Prop} (fits : i ≠ PENDING_BACKUP) (idle : Idle g) (onward : Onward [i] [] (Minor left) m g m' g')
    (left_blamed : left → Blamed op') (blames : Blamed op → Blamed op') : Served i op m g op' m' g' where
  onward := onward.mono (slot_replacing i) (List.nil_subset _) fun _ minor => Minor.tells (minor.mono left_blamed)
  blames := blames
  room := (onward.live _ (by simpa using fits.symm)).trans idle.room

theorem op_fail_standing (few : n ≤ NEWFILE_BATCH) : Fails paths spec n (Standing spec flushed names) := by
  intro what e i inside op m g idle stands
  obtain ⟨fits,other⟩ := slot_fits few inside
  have owned : OwnsTmp g m op i := by
    cases fail : op.fail with
    | none => exact (stands.ready fail).owned
    | some _ => simp [OwnsTmp,(stands.failed (by simp [fail])).tmppath]
  refine follows_mono (op_fail_spec what e owned fits.ne idle.rest.2.1 (by simp [stands.spare])) ?_
  rintro _ m' g' _ ⟨rfl,onward,gone⟩
  rw [stands.spare] at gone
  refine ⟨⟨?_,rfl⟩,served_minor other idle onward (fun _ => .failed) fun _ => .failed⟩
  exact { stands.toOf with failed := fun _ => ⟨rfl,rfl,rfl,by simpa using gone⟩, ready := by simp }

theorem op_fail_bound (what : String) (e : Errno) {path : Str} (few : n ≤ NEWFILE_BATCH) (inside : i < n) (idle : Idle g)
    (bound : Bound i path op m g) : Follows (ledger paths spec) (op_fail op i what e) (fun op' m' g' =>
      (Placed i path op' m' g' ∧ op'.tmppath = none ∧ op'.fail.isSome = true) ∧ Served i op m g op' m' g') m g := by
  obtain ⟨fits,other⟩ := slot_fits few inside
  have either : op.spare.isSome = true → op.tmppath = none := by
    intro present
    obtain ⟨s,is⟩ := Option.isSome_iff_exists.mp present
    exact (bound.spare s is).1
  refine follows_mono (op_fail_spec what e bound.tmp fits.ne idle.rest.2.1 either) ?_
  rintro _ m' g' _ ⟨rfl,onward,gone⟩
  refine ⟨⟨?_,rfl,rfl⟩,served_minor other idle onward (fun _ => .failed) fun _ => .failed⟩
  refine { names := bound.names, tmp := by simp [OwnsTmp], spare := fun s is => ?_, gone := fun _ absent => ?_,
           backup := fun s is => (bound.backup s is).onward onward, held := by simp, done := by simp }
  · obtain ⟨_,owned,o,there⟩ := bound.spare s is
    rw [is] at gone
    exact ⟨rfl,owned.onward onward,o,by rw [gone]; simpa using there⟩
  · have absent : op.spare = none := absent
    rw [gone,absent]
    simp

theorem op_fail_placing (few : n ≤ NEWFILE_BATCH) : Fails paths spec n (Placing names) := by
  intro what e i inside op m g idle placed
  refine follows_mono (op_fail_bound what e few inside idle placed.toBound) ?_
  rintro op' m' g' _ ⟨⟨placed',_,failed⟩,served⟩
  exact ⟨⟨placed',failed⟩,served⟩

/-! ## flush_batch -/

theorem close_op_spec (op : Op) (slot : Nat) (what : String) {Q : Op × Bool → Memory → Book → Prop}
    (closed : Q ({ op with fd := none },true) m g)
    (failed : ∀ e, Follows (ledger paths spec) (op_fail { op with fd := none } slot what e) (fun op' m' g' => Q (op',false) m' g') m g) :
    Follows (ledger paths spec) (close_op op slot what) Q m g := by
  rw [close_op]
  cases open_ : op.fd with
  | none =>
    have same : { op with fd := none } = op := by rw [← open_]
    rw [same] at closed
    exact follows_pure closed
  | some fd =>
    refine follows_silent rfl fun r _ => ?_
    cases r with
    | ok _ => exact follows_pure closed
    | error e =>
      refine follows_seq (failed e) ?_
      exact fun _ _ _ _ result => follows_pure result

/-- A part that leaves an operand as it is for all that the ledger cares. -/
theorem served_refl (idle : Idle g) (blames : Blamed op → Blamed op') : Served i op m g op' m g :=
  ⟨Onward.refl m g,blames,idle.room⟩

theorem closePlain_spec (few : n ≤ NEWFILE_BATCH) : ∀ (idx : List Nat) (ops : Ops) (m : Memory) (g : Book), (∀ i ∈ idx, i < n) →
    Idle g → All (Standing spec flushed names) n ops m g → Follows (ledger paths spec) (closePlain idx ops)
      (fun ops' m' g' => All (Standing spec flushed names) n ops' m' g' ∧ Through n ops m g ops' m' g') m g := by
  intro idx
  induction idx with
  | nil => exact fun ops m g _ idle all => follows_pure ⟨all,Through.refl idle⟩
  | cons i idx ih =>
    intro ops m g inside idle all
    have here : i < n := inside i List.mem_cons_self
    have later : ∀ i ∈ idx, i < n := fun i member => inside i (List.mem_cons_of_mem _ member)
    have next : ∀ {op' m' g'}, Standing spec flushed names i op' m' g' → Served i (ops i) m g op' m' g' →
        Follows (ledger paths spec) (closePlain idx (ops.set i op'))
          (fun ops' m' g' => All (Standing spec flushed names) n ops' m' g' ∧ Through n ops m g ops' m' g') m' g' := by
      intro op' m' g' stands served
      have through : Through n ops m g (ops.set i op') m' g' := served.through here
      refine follows_mono (ih _ m' g' later (through.idle few idle) (served.all standing_framed few all stands)) ?_
      exact fun _ _ _ _ result => ⟨result.1,through.trans result.2⟩
    rw [closePlain]
    split
    · rename_i plain
      have closed : Standing spec flushed names i { ops i with fd := none } m g := by
        have stands := all i here
        refine { stands.toOf with failed := fun fail => ?_, ready := fun fine => ?_ }
        · obtain ⟨fail,_,tmppath,gone⟩ := stands.failed fail
          exact ⟨fail,rfl,tmppath,gone⟩
        · have ready := stands.ready fine
          simp only [Ready,plain] at ready ⊢
          exact ready
      refine follows_seq (R := fun r m' g' => Standing spec flushed names i r.1 m' g' ∧ Served i (ops i) m g r.1 m' g')
        (close_op_spec (ops i) i _ ⟨closed,served_refl idle id⟩ fun e => ?_) ?_
      · refine follows_mono (op_fail_standing few _ e i here _ m g idle closed) ?_
        rintro op' m' g' _ ⟨⟨stands,_⟩,served⟩
        exact ⟨stands,⟨served.onward,served.blames,served.room⟩⟩
      · rintro ⟨op',_⟩ m' g' _ ⟨stands,served⟩
        exact next stands served
    · exact ih ops m g later idle all

theorem Finishes.standing {flushed : Prop} (finishes : Finishes m g m' g') (stands : Standing spec flushed names i op m g) :
    Standing spec flushed names i op m' g' :=
  standing_framed (finishes.onward : Onward [] [] (fun _ => True) m g m' g') (by simp) (by simp) stands

theorem flush_batch_spec (fuel : Nat) (few : n ≤ NEWFILE_BATCH) (idle : Idle g) (all : All (Standing spec False names) n ops m g) :
    Follows (ledger paths spec) (flush_batch fuel ops n)
      (fun ops' m' g' => All (Standing spec True names) n ops' m' g' ∧ Through n ops m g ops' m' g') m g := by
  rw [flush_batch]
  refine follows_seq (flush_ops_spec (C := Standing spec False names) fuel few standing_framed (op_fail_standing few)
    Finishes.standing idle all) ?_
  rintro ⟨ops₁,kept⟩ m₁ g₁ _ ⟨all₁,through,within,fate⟩
  have flushed : All (Standing spec True names) n ops₁ m₁ g₁ := by
    intro j inside
    have stands := all₁ j inside
    refine { stands.toOf with failed := stands.failed, ready := fun fine => ?_ }
    have due : (ops₁ j).way ≠ .WAY_PLAIN → ∀ fd, (ops₁ j).fd = some fd → fd.ino ∈ g₁.finished := by
      intro way fd open_
      rcases fate j inside with failed | ⟨same,due⟩
      · simp [fine] at failed
      · have same : ops₁ j = ops j := same
        rw [same] at fine way open_
        exact (due fd open_).2 (((all j inside).ready fine).work way open_)
    have ready := stands.ready fine
    rw [Ready] at ready ⊢
    cases way : (ops₁ j).way with
    | WAY_PLAIN =>
      simp only [way] at ready ⊢
      exact ready
    | WAY_UNNAMED =>
      simp only [way] at ready ⊢
      obtain ⟨tmppath,gone,fd,open_,sealed⟩ := ready
      exact ⟨tmppath,gone,fd,open_,sealed.1,fun _ => due (by simp [way]) fd open_⟩
    | WAY_TEMP =>
      simp only [way] at ready ⊢
      obtain ⟨name,fd,tmppath,open_,there,owned,temp,sealed⟩ := ready
      exact ⟨name,fd,tmppath,open_,there,owned,temp,sealed.1,fun _ => due (by simp [way]) fd open_⟩
  refine follows_mono (closePlain_spec few kept ops₁ m₁ g₁ within (through.idle few idle) flushed) ?_
  exact fun _ _ _ _ result => ⟨result.1,through.trans result.2⟩

/-! ## settle_batch -/

/-- While they are settled. -/
def Settling (names : Nat → Path) : Condition := fun j op m g =>
  Bound j ⟨names j,none⟩ op m g ∧ (op.fail = none → ∃ k, .file (names j) k ∈ g.trail)

theorem settling_framed : Framed (Settling names) := by
  intro j op m g m' g' names' files ok onward one _ ⟨bound,done⟩
  refine ⟨bound.onward onward one,fun fine => ?_⟩
  obtain ⟨new,grown,_⟩ := onward.trail
  obtain ⟨k,there⟩ := done fine
  exact ⟨k,by rw [grown]; exact List.mem_append_right _ there⟩

theorem settling_settled (settling : Settling names i op m g) (absent : op.tmppath = none) : Settled names i op m g :=
  ⟨{ settling.1 with held := by simp [absent], done := settling.2 },absent⟩

/-- The temporary name of an operand is gone, or was left behind and is to be blamed on it. -/
theorem settle_removed {tmp : Str} (few : n ≤ NEWFILE_BATCH) (inside : i < n) (idle : Idle g) (settling : Settling names i op m g)
    (found : op.tmppath = some tmp) {f : Bool → P α} {Q : α → Memory → Book → Prop}
    (rest : ∀ removed m' g', Settled names i { op with fd := none, tmppath := none, leftover := op.leftover || !removed } m' g' →
      Served i op m g { op with fd := none, tmppath := none, leftover := op.leftover || !removed } m' g' →
      Follows (ledger paths spec) (f removed) Q m' g') :
    Follows (ledger paths spec) (pending_remove i >>= fun removed => free tmp >>= fun _ => f removed) Q m g := by
  obtain ⟨fits,other⟩ := slot_fits few inside
  obtain ⟨bound,done⟩ := settling
  refine follows_seq (pending_remove_spec fits.ne idle.rest.2.1) ?_
  rintro removed m₁ g₁ _ ⟨onward,gone,_⟩
  have freed : Onward [i] [] (Minor (removed = false)) m₁ g₁ { m₁ with freed := tmp.block.toList ++ m₁.freed } g₁ := free_onward m₁ g₁ tmp
  have all := onward.trans freed
  refine follows_free ((bound.tmp tmp found).onward onward) fits.ne (onward.lag.trans idle.rest.2.1) gone (rest removed _ g₁ ?_ ?_)
  · obtain ⟨new,grown,_⟩ := all.trail
    refine settling_settled ⟨{ names := bound.names, tmp := by simp [OwnsTmp], spare := fun s is => ?_, gone := fun _ _ => gone,
                               backup := fun s is => (bound.backup s is).onward all },fun fine => ?_⟩ rfl
    · have absent := (bound.spare s is).1
      simp [found] at absent
    · obtain ⟨k,there⟩ := done fine
      exact ⟨k,by rw [grown]; exact List.mem_append_right _ there⟩
  · refine served_minor other idle all (fun left => .inr (by simp [left])) ?_
    rintro (fail | left)
    · exact .inl fail
    · exact .inr (by simp [left])

theorem settleLoop_spec (few : n ≤ NEWFILE_BATCH) : ∀ (idx : List Nat) (ops : Ops) (m : Memory) (g : Book), (∀ i ∈ idx, i < n) →
    Idle g → All (Settling names) n ops m g → (∀ j < n, j ∈ idx ∨ (ops j).tmppath = none) →
    Follows (ledger paths spec) (settleLoop idx ops)
      (fun ops' m' g' => All (Settled names) n ops' m' g' ∧ Through n ops m g ops' m' g') m g := by
  intro idx
  induction idx with
  | nil =>
    intro ops m g _ idle all absent
    exact follows_pure ⟨fun j inside => settling_settled (all j inside) ((absent j inside).resolve_left (by simp)),Through.refl idle⟩
  | cons i idx ih =>
    intro ops m g inside idle all absent
    have here : i < n := inside i List.mem_cons_self
    have later : ∀ i ∈ idx, i < n := fun i member => inside i (List.mem_cons_of_mem _ member)
    have next : ∀ {op' m' g'}, Settled names i op' m' g' → Served i (ops i) m g op' m' g' →
        Follows (ledger paths spec) (settleLoop idx (ops.set i op'))
          (fun ops' m' g' => All (Settled names) n ops' m' g' ∧ Through n ops m g ops' m' g') m' g' := by
      intro op' m' g' settled served
      have through : Through n ops m g (ops.set i op') m' g' := served.through here
      have settling : Settling names i op' m' g' := ⟨settled.1.toBound,settled.1.done⟩
      refine follows_mono (ih _ m' g' later (through.idle few idle) (served.all settling_framed few all settling) fun j inside' => ?_)
        fun _ _ _ _ result => ⟨result.1,through.trans result.2⟩
      by_cases same : j = i
      · subst same
        exact .inr (by simpa [Ops.set] using settled.2)
      · rcases absent j inside' with member | absent
        · exact .inl ((List.mem_cons.mp member).resolve_left same)
        · exact .inr (by simpa [Ops.set,same] using absent)
    have closed : Settling names i { ops i with fd := none } m g := by
      obtain ⟨bound,done⟩ := all i here
      exact ⟨{ bound with },done⟩
    rw [settleLoop]
    refine follows_seq (R := fun r m' g' => if r.2 then r.1 = { ops i with fd := none } ∧ m' = m ∧ g' = g else
        Settled names i r.1 m' g' ∧ Served i (ops i) m g r.1 m' g') (close_op_spec (ops i) i _ ?_ fun e => ?_) ?_
    · exact ⟨rfl,rfl,rfl⟩
    · refine follows_mono (op_fail_bound _ e few here idle closed.1) ?_
      rintro op' m' g' _ ⟨⟨placed,absent,_⟩,served⟩
      exact ⟨⟨placed,absent⟩,⟨served.onward,served.blames,served.room⟩⟩
    · rintro ⟨op',ok⟩ m' g' _ result
      cases ok with
      | false => exact next result.1 result.2
      | true =>
        obtain ⟨rfl,rfl,rfl⟩ := result
        dsimp only
        rw [if_pos rfl]
        cases found : (ops i).tmppath with
        | none => exact next (settling_settled (by rw [← found]; exact closed) rfl) (served_refl idle id)
        | some tmp =>
          refine settle_removed few here idle (all i here) found fun removed m₁ g₁ settled served => ?_
          exact next settled served

theorem settle_batch_spec (fuel : Nat) (few : n ≤ NEWFILE_BATCH) (idle : Idle g) (all : All (Placing names) n ops m g) :
    Follows (ledger paths spec) (settle_batch fuel ops n)
      (fun ops' m' g' => All (Settled names) n ops' m' g' ∧ Through n ops m g ops' m' g') m g := by
  rw [settle_batch]
  refine follows_seq (flush_ops_spec (C := Placing names) fuel few placing_framed (op_fail_placing few) ?_ idle all) ?_
  · exact fun finishes placed => placing_framed (finishes.onward : Onward [] [] (fun _ => True) _ _ _ _) (by simp) (by simp) placed
  · rintro ⟨ops₁,kept⟩ m₁ g₁ _ ⟨all₁,through,within,fate⟩
    have settling : All (Settling names) n ops₁ m₁ g₁ := fun j inside => ⟨(all₁ j inside).toBound,(all₁ j inside).done⟩
    refine follows_mono (settleLoop_spec few kept ops₁ m₁ g₁ within (through.idle few idle) settling ?_) ?_
    · intro j inside
      cases found : (ops₁ j).tmppath with
      | none => exact .inr rfl
      | some tmp =>
        obtain ⟨fine,open_⟩ : (ops₁ j).fail = none ∧ (ops₁ j).fd.isSome = true := (all₁ j inside).held (by simp [found])
        rcases fate j inside with failed | ⟨same,due⟩
        · simp [fine] at failed
        · obtain ⟨fd,is⟩ := Option.isSome_iff_exists.mp open_
          have same : ops₁ j = ops j := same
          exact .inl (due fd (same ▸ is)).1
    · exact fun _ _ _ _ result => ⟨result.1,through.trans result.2⟩

/-! ## drop_spares -/

theorem failedLoop_tame (dir : Path) : ∀ (failures : List DirFailure) (stated : Option Ino),
    Tame none (fun failed => failed = true → failures ≠ []) (failedLoop dir failures stated) := by
  intro failures
  induction failures with
  | nil => exact fun stated => tame_ret (by simp)
  | cons f failures ih =>
    intro stated
    have later : ∀ stated, Tame none (fun failed => failed = true → f :: failures ≠ []) (failedLoop dir failures stated) :=
      fun stated => (ih stated).mono (by simp)
    -- What follows the look at the directory.
    have stats : ∀ ino (next : Except Errno Stat → P Bool), (∀ e, next (.error e) = pure true) →
        (∀ st : Stat, next (.ok st) = if st.ino = ino then pure true else failedLoop dir failures (some st.ino)) →
        Tame none (fun failed => failed = true → f :: failures ≠ []) (perform (.stat dir) >>= next) := by
      intro ino next failed found
      refine tame_perform rfl fun r _ => ?_
      cases r with
      | error e =>
        rw [failed]
        exact tame_ret (by simp)
      | ok st =>
        rw [found]
        split
        · exact tame_ret (by simp)
        · exact later _
    unfold failedLoop
    split
    · exact tame_ret (by simp)
    · split
      · exact later _
      · split
        · exact tame_ret (by simp)
        · exact later _
      · exact stats _ _ (fun _ => rfl) fun _ => rfl

/-- An old file is kept because a directory could not be flushed, or because there was
    no memory to find out. -/
theorem dir_unflushed_spec (path : Path) {told : List Told} (dropping : m.told = .dropping path :: told) :
    Follows (ledger paths spec) (dir_unflushed path) (fun unflushed m' g' => Same m m' ∧ (∃ refused, g' = { g with refused }) ∧
      (unflushed = true → 0 < m'.dirs_nfailed ∨ g'.refused = true)) m g := by
  rw [dir_unflushed,path_dir,LawfulMonad.bind_assoc]
  refine follows_call fun _ inv r _ => ?_
  cases r with
  | error e => exact ⟨_,.refuse dropping,follows_pure ⟨Same.refl m,⟨true,rfl⟩,fun _ => .inr rfl⟩⟩
  | ok _ =>
    refine ⟨g,.quiet (.inl rfl),?_⟩
    change Follows _ (flush_set_failed (dirText path)) _ m g
    rw [flush_set_failed]
    refine follows_get ?_
    split
    · rename_i lost
      exact follows_pure ⟨Same.refl m,⟨g.refused,rfl⟩,fun _ => .inl (inv.tidy.failed (.inr lost))⟩
    · refine follows_mono ((failedLoop_tame (dirText path) m.failures none).follows (by simp [Writes])) ?_
      rintro unflushed m' _ _ ⟨nonempty,same,rfl⟩
      exact ⟨same,⟨_,rfl⟩,fun yes => .inl (Nat.lt_of_lt_of_le (inv.tidy.failed (.inl (nonempty yes))) same.failed)⟩

/-- A step that the ledger sees only in what was told or refused. -/
theorem Same.refused {names files : List Nat} {ok : Deed → Prop} (same : Same m m') (refused : Bool) :
    Onward names files ok m g m' { g with refused } :=
  (same_onward same g).trans ⟨fun _ _ => rfl,fun _ _ => rfl,rfl,List.Subset.refl _,Nat.le_refl _,fun _ _ => rfl,Nat.le_refl _,
    List.Subset.refl _,⟨[],rfl,by simp⟩⟩

theorem dropSpare_spec (few : n ≤ NEWFILE_BATCH) : Serves paths spec n (Settled names) (Dropped names) dropSpare := by
  intro i inside op m g idle settled
  obtain ⟨fits,other⟩ := slot_fits few inside
  obtain ⟨placed,absent⟩ := settled
  rw [dropSpare]
  cases spare : op.spare with
  | none => exact follows_pure ⟨⟨⟨placed,absent⟩,spare⟩,served_refl idle id⟩
  | some s =>
    obtain ⟨_,owned,o,live⟩ := placed.spare s spare
    refine follows_step .dropping (follows_seq (dir_unflushed_spec op.path.text rfl) ?_)
    rintro unflushed m₁ _ _ ⟨same,⟨refused,rfl⟩,why⟩
    have told : Onward [i] [] (Minor False) m g m₁ { g with refused } := by
      have one : Onward [i] [] (Minor False) m g { m with told := .dropping op.path.text :: m.told } g :=
        ⟨fun _ _ => rfl,fun _ _ => rfl,rfl,List.Subset.refl _,Nat.le_refl _,fun _ _ => rfl,Nat.le_refl _,
          List.subset_cons_self _ _,⟨[],rfl,by simp⟩⟩
      exact one.trans (Same.refused same refused)
    -- What holds of the operand once its spare is gone from the ledger.
    have gone : ∀ {op' : Op} {m' g'} {ok : Deed → Prop}, Onward [i] [] ok m g m' g' → g'.live i = none →
        op'.path = op.path → op'.tmppath = op.tmppath → op'.fail = op.fail → op'.backup_name = op.backup_name →
        op'.spare = none → Dropped names i op' m' g' := by
      intro op' m' g' ok onward gone path tmp fail backup spare
      obtain ⟨new,grown,_⟩ := onward.trail
      refine ⟨⟨{ names := path.trans placed.names, tmp := by simp [OwnsTmp,tmp,absent], spare := by simp [spare]
                 gone := fun _ _ => gone, backup := fun s is => (placed.backup s (backup ▸ is)).onward onward
                 held := by simp [tmp,absent], done := fun fine => ?_ },tmp.trans absent⟩,spare⟩
      obtain ⟨k,there⟩ := placed.done (fail ▸ fine)
      exact ⟨k,by rw [grown]; exact List.mem_append_right _ there⟩
    split
    · rename_i yes
      refine follows_step (.keepOld idle.rest.2.1 live (why yes)) (follows_clear (by simp) ?_)
      rw [drop_clear _ _ fits.ne]
      have told' : Onward [i] [] (Tells False) m g m₁ { g with refused } :=
        told.mono (List.Subset.refl _) (List.Subset.refl _) fun _ => Minor.tells
      have dropped : Onward [i] [] (Tells False) m₁ { g with refused }
          (Memory.setPending { m₁ with log := .kept_old s.text op.path.text :: m₁.log } i ⟨none,(m₁.pending i).ino⟩)
          { ({ g with refused } : Book).drop i with lag := [], trail := .keptOld s.text o :: g.trail } := by
        refine drop_onward (g := { g with refused }) idle.rest.2.1 [.keptOld s.text o] ?_
        simp [Tells]
      have all := (told'.trans dropped).trans (free_onward _ _ s)
      refine follows_free ((owned.onward told').onward dropped) fits.ne rfl (by simp)
        (follows_pure ⟨gone all (by simp) rfl rfl rfl rfl rfl,⟨?_,id,?_⟩⟩)
      · exact all.mono (slot_replacing i) (List.nil_subset _) fun _ => Tells.mono False.elim
      · simpa [other.symm] using idle.room
    · refine follows_seq (pending_remove_spec fits.ne idle.rest.2.1) ?_
      rintro removed m₂ g₂ _ ⟨onward,empty,_⟩
      have owned₂ : Owned g₂ m₂ i s := (owned.onward told).onward onward
      refine follows_free owned₂ fits.ne (onward.lag.trans idle.rest.2.1) empty (follows_pure ?_)
      have all : Onward [i] [] (Minor (removed = false)) m g { m₂ with freed := s.block.toList ++ m₂.freed } g₂ :=
        ((told.mono (List.Subset.refl _) (List.Subset.refl _) fun _ => Minor.mono False.elim).trans onward).trans (free_onward m₂ g₂ s)
      refine ⟨gone all empty rfl rfl rfl rfl rfl,served_minor other idle all (fun left => .inr (by simp [left])) ?_⟩
      rintro (fail | left)
      · exact .inl fail
      · exact .inr (by simp [left])

theorem drop_spares_spec (few : n ≤ NEWFILE_BATCH) (idle : Idle g) (all : All (Settled names) n ops m g) :
    Follows (ledger paths spec) (drop_spares ops n)
      (fun ops' m' g' => All (Dropped names) n ops' m' g' ∧ Through n ops m g ops' m' g') m g := by
  rw [drop_spares]
  refine follows_seq (eachOp_spec (C := Settled names) (D := Dropped names) few settled_framed dropped_framed (dropSpare_spec few) n 0 ops m g (by omega) idle (by simp)
    fun j inside _ => all j inside) ?_
  rintro ops₁ m₁ g₁ _ ⟨all₁,through⟩
  have rest := (through.idle few idle).rest
  refine follows_get ?_
  split
  · refine follows_step (.quiet (same_spare m₁)) (follows_release rest.closed (follows_pure ?_))
    have masked : Onward [] [] (Minor False) m₁ g₁ { m₁ with spare_held := false, blocked := m₁.spare_mask } g₁ :=
      ⟨fun _ _ => rfl,fun _ _ => rfl,rfl,List.Subset.refl _,Nat.le_refl _,fun _ _ => rfl,Nat.le_refl _,List.Subset.refl _,
        ⟨[],rfl,by simp⟩⟩
    refine ⟨fun j inside => dropped_framed masked (by simp) (by simp) (all₁ j inside),?_⟩
    refine through.trans ⟨masked.mono (by simp) (by simp) fun _ minor => Minor.tells (minor.mono False.elim),fun _ _ => id,through.room⟩
  · exact follows_pure ⟨all₁,through⟩

/-! ## Reporting -/

/-- The end of `report_one`, once the operand was reported. -/
theorem report_end_spec {m₁ : Memory} {ok : Bool} {t : Told} (idle : Idle g) (dropped : Dropped names i op m g)
    (verdict : ok = true ↔ ¬Blamed op) (sofar : Onward [] [] (Minor False) m g m₁ g) (there : t ∈ m₁.told) :
    Follows (ledger paths spec) (match op.backup_name with
        | some name => free name >>= fun _ => pure ok
        | none => pure () >>= fun _ => pure ok)
      (fun ok m' g' => Onward [] [] (Minor False) m g m' g' ∧ g' = g ∧ (ok = true ↔ ¬Blamed op) ∧ t ∈ m'.told) m₁ g := by
  obtain ⟨⟨placed,_⟩,_⟩ := dropped
  cases found : op.backup_name with
  | none => exact follows_pure ⟨sofar,rfl,verdict,there⟩
  | some name =>
    exact follows_free ((placed.backup name found).onward sofar) backup_slot idle.rest.2.1 idle.room
      (follows_pure ⟨sofar.trans (free_onward m₁ g name),rfl,verdict,there⟩)

theorem report_one_spec (idle : Idle g) (dropped : Dropped names i op m g) :
    Follows (ledger paths spec) (report_one op spec) (fun ok m' g' => Onward [] [] (Minor False) m g m' g' ∧ g' = g ∧
      (ok = true ↔ ¬Blamed op) ∧ .report (names i) op.fail op.leftover ∈ m'.told) m g := by
  have placed := dropped.1.1
  have done : op.fail = none → ∃ k, .file op.path.text k ∈ g.trail := by
    rw [placed.names]
    exact placed.done
  have told : Onward [] [] (Minor False) m g { m with told := .report op.path.text op.fail op.leftover :: m.told } g :=
    ⟨fun _ _ => rfl,fun _ _ => rfl,rfl,List.Subset.refl _,Nat.le_refl _,fun _ _ => rfl,Nat.le_refl _,
      List.subset_cons_self _ _,⟨[],rfl,by simp⟩⟩
  have verdict : (op.fail.isNone && !op.leftover) = true ↔ ¬Blamed op := by simp [Blamed]
  have here : .report (names i) op.fail op.leftover ∈ (.report op.path.text op.fail op.leftover :: m.told : List Told) := by
    rw [placed.names]
    exact List.mem_cons_self
  rw [report_one]
  refine follows_step (.report done) ?_
  cases fail : op.fail with
  | some what =>
    rw [fail] at told here verdict
    refine follows_say fun m₁ same => ?_
    exact report_end_spec idle dropped verdict (told.trans (same_onward same g)) (same.told ▸ here)
  | none =>
    rw [fail] at told here verdict
    dsimp only
    split
    · refine follows_say fun m₁ same => ?_
      exact report_end_spec idle dropped verdict (told.trans (same_onward same g)) (same.told ▸ here)
    · exact report_end_spec idle dropped verdict told here

theorem reportLoop_spec (idle : Idle g) : ∀ (k i : Nat) (m : Memory), (∀ j, i ≤ j → j < i+k → Dropped names j (ops j) m g) →
    Follows (ledger paths spec) (reportLoop spec ops k i) (fun ok m' g' => Onward [] [] (Minor False) m g m' g' ∧ g' = g ∧
      (ok = true → ∀ j, i ≤ j → j < i+k → ¬Blamed (ops j)) ∧
      ∀ j, i ≤ j → j < i+k → .report (names j) (ops j).fail (ops j).leftover ∈ m'.told) m g := by
  intro k
  induction k with
  | zero => exact fun i m _ => follows_pure ⟨Onward.refl m g,rfl,fun _ j low high => by omega,fun j low high => by omega⟩
  | succ k ih =>
    intro i m dropped
    rw [reportLoop]
    refine follows_seq (report_one_spec idle (dropped i (Nat.le_refl _) (by omega))) ?_
    rintro one m₁ _ _ ⟨onward,rfl,fine,told⟩
    refine follows_seq (ih (i+1) m₁ fun j low high => dropped_framed onward (by simp) (by simp) (dropped j (by omega) (by omega))) ?_
    rintro rest m₂ _ _ ⟨onward',rfl,fine',told'⟩
    refine follows_pure ⟨onward.trans onward',rfl,?_,?_⟩
    · intro both j low high
      obtain ⟨one,rest⟩ : one = true ∧ rest = true := by simpa using both
      by_cases same : j = i
      · subst same
        exact fine.mp one
      · exact fine' rest j (by omega) (by omega)
    · intro j low high
      by_cases same : j = i
      · subst same
        exact onward'.told told
      · exact told' j (by omega) (by omega)

/-! ## A batch -/

/-- The operand of each slot. -/
def operand (batch : List Path) (j : Nat) : Path := batch.getD j []

theorem noOps_blameless (i : Nat) : ¬Blamed (noOps i) := by simp [Blamed,noOps]

theorem slots_mono {k : Nat} (less : k ≤ n) : slots k ⊆ slots n := by
  intro j member
  simp only [slots,List.mem_cons,List.mem_range] at member ⊢
  omega

theorem Built.served {path : Str} (built : Built spec i path m g op' m' g') (fits : i ≠ PENDING_BACKUP) (idle : Idle g) :
    Served i (noOps i) m g op' m' g' where
  onward := built.onward.mono (slot_replacing i) (slot_replacing i) fun _ => Minor.tells
  blames blamed := absurd blamed (noOps_blameless i)
  room := (built.onward.live _ (by simpa using fits.symm)).trans idle.room

/-- One more operand was built. -/
theorem Through.next (through : Through i noOps m₀ g₀ ops m g) (served : Served i (noOps i) m g op' m' g') :
    Through (i+1) noOps m₀ g₀ (ops.set i op') m' g' where
  onward := by
    refine (through.onward.mono (slots_mono (Nat.le_succ i)) (slots_mono (Nat.le_succ i)) fun _ => Tells.mono ?_).trans
      (served.onward.mono (replacing_slots (Nat.lt_succ_self i)) (replacing_slots (Nat.lt_succ_self i)) fun _ => Tells.mono ?_)
    · rintro ⟨j,behind,blamed⟩
      exact ⟨j,by omega,by simpa [Ops.set,Nat.ne_of_lt behind] using blamed⟩
    · exact fun blamed => ⟨i,Nat.lt_succ_self i,by simpa [Ops.set] using blamed⟩
  blames j _ blamed := absurd blamed (noOps_blameless j)
  room := served.room

theorem buildLoop_spec (fuel : Nat) {batch : List Path} (few : batch.length ≤ NEWFILE_BATCH) (members : batch ⊆ paths) (idle : Idle g₀) :
    ∀ (rest : List Path) (i : Nat) (ops : Ops) (m : Memory) (g : Book), rest = batch.drop i → i+rest.length = batch.length →
      All (Standing spec False (operand batch)) i ops m g → (∀ j, i ≤ j → j < batch.length → g.live j = none) →
      Through i noOps m₀ g₀ ops m g → Follows (ledger paths spec) (buildLoop fuel spec rest i ops) (fun ops' m' g' =>
        All (Standing spec False (operand batch)) batch.length ops' m' g' ∧ Through batch.length noOps m₀ g₀ ops' m' g') m g := by
  intro rest
  induction rest with
  | nil =>
    intro i ops m g _ length all _ through
    have same : i = batch.length := by simpa using length
    subst same
    exact follows_pure ⟨all,through⟩
  | cons path rest ih =>
    intro i ops m g from_ length all empty through
    have inside : i < batch.length := by simp at length; omega
    obtain ⟨fits,other⟩ := slot_fits few inside
    have idle' : Idle g := through.idle (by omega) idle
    have this : operand batch i = path := by
      have head := congrArg (·[0]?) from_
      simp only [List.getElem?_cons_zero,List.getElem?_drop,Nat.add_zero] at head
      simp [operand,List.getD,← head]
    have member : path ∈ paths := by
      refine members (List.mem_of_mem_drop (i := i) ?_)
      rw [← from_]
      exact List.mem_cons_self
    rw [buildLoop]
    refine follows_seq (build_one_spec fuel member fits other idle'.rest (empty i (Nat.le_refl _) inside)) ?_
    rintro op' m' g' _ built
    have served := Built.served built other idle'
    refine ih (i+1) (ops.set i op') m' g' ?_ (by simp at length; omega) ?_ ?_ ?_
    · rw [← List.drop_drop,← from_]
      rfl
    · intro j behind
      by_cases same : j = i
      · subst same
        rw [← this] at built
        simpa [Ops.set] using (show Standing spec False (operand batch) j op' m' g' from built.toStands)
      · exact served.others standing_framed few (by omega) same (all j (by omega))
    · intro j low high
      refine (built.onward.live j ?_).trans (empty j (by omega) high)
      simp only [List.mem_singleton]
      omega
    · exact through.next served

/-- Nothing is left of a batch but its deeds. -/
structure Empty (g : Book) : Prop where
  rest : Rest g
  live : ∀ j, g.live j = none

theorem Empty.idle (empty : Empty g) : Idle g := ⟨empty.rest,empty.live _⟩

/-- What a batch leaves, and what its success says. -/
structure Batched (batch : List Path) (m : Memory) (g : Book) (ok : Bool) (m' : Memory) (g' : Book) : Prop where
  empty : Empty g'
  told : m.told ⊆ m'.told
  trail : ∃ new, g'.trail = new ++ g.trail ∧ ∀ d ∈ new, Tells (ok = false) d
  named : ok = true → ∀ p ∈ batch, ∃ k, .file p k ∈ g'.trail
  reported : ∀ p ∈ batch, ∃ fail left, .report p fail left ∈ m'.told ∧ (ok = true → fail = none ∧ left = false)

theorem same_forgotten (m : Memory) : Same m { m with failures := [], failures_lost := false } :=
  ⟨rfl,rfl,rfl,rfl,rfl,⟨[],rfl⟩,Nat.le_refl _,fun tidy => ⟨tidy.digits,by simp⟩⟩

theorem same_probes (m : Memory) (probes : List ProbeEntry) : Same m { m with probes } :=
  ⟨rfl,rfl,rfl,rfl,rfl,⟨[],rfl⟩,Nat.le_refl _,fun tidy => ⟨tidy.digits,tidy.failed⟩⟩

theorem flush_set_forget_still : Still paths spec flush_set_forget := fun m _ =>
  follows_step (.quiet (same_forgotten m)) (follows_pure ⟨same_forgotten m,rfl⟩)

theorem place_probe_reset_still : Still paths spec place_probe_reset := fun m _ =>
  follows_step (.quiet (same_probes m [])) (follows_pure ⟨same_probes m [],rfl⟩)

theorem backup_cache_reset_still : Still paths spec backup_cache_reset := fun m _ =>
  follows_step (.quiet (same_unlisted m)) (follows_pure ⟨same_unlisted m,rfl⟩)

theorem name_one_serves (fuel : Nat) {batch : List Path} (few : batch.length ≤ NEWFILE_BATCH) (members : batch ⊆ paths) :
    Serves paths spec batch.length (Standing spec True (operand batch)) (Placing (operand batch)) fun op i => name_one fuel op i spec := by
  intro i inside op m g idle stands
  obtain ⟨fits,other⟩ := slot_fits few inside
  have member : operand batch i ∈ paths := by
    rw [operand,List.getD_eq_getElem _ _ inside]
    exact members (List.getElem_mem inside)
  refine follows_mono (name_one_spec fuel member fits other idle.rest idle.room stands) ?_
  intro op' m' g' _ named
  exact ⟨named.toPlaced,named.onward.mono (List.Subset.refl _) (List.Subset.refl _) fun _ => Naming.tells,named.blames,named.room⟩

theorem batchOnce_spec (fuel : Nat) {batch : List Path} (few : batch.length ≤ NEWFILE_BATCH) (members : batch ⊆ paths) (empty : Empty g) :
    Follows (ledger paths spec) (batchOnce fuel batch spec ops) (fun r m' g' => Batched batch m g r.2 m' g') m g := by
  rw [batchOnce]
  refine follows_still flush_set_forget_still fun _ m₁ same₁ => follows_still place_probe_reset_still fun _ m₂ same₂ => ?_
  have start : Through 0 noOps m g ops m₂ g := by
    refine ⟨same_onward (same₁.trans same₂) g,fun i _ blamed => absurd blamed (noOps_blameless i),empty.live _⟩
  refine follows_seq (buildLoop_spec fuel few members empty.idle batch 0 ops m₂ g rfl (by simp) (by simp [All])
    (fun j _ _ => empty.live j) start) ?_
  rintro ops₃ m₃ g₃ _ ⟨all₃,through₃⟩
  refine follows_seq (flush_batch_spec fuel few (through₃.idle few empty.idle) all₃) ?_
  rintro ops₄ m₄ g₄ _ ⟨all₄,through₄⟩
  have sofar₄ := through₃.trans through₄
  refine follows_still backup_cache_reset_still fun _ m₅ same₅ => ?_
  have sofar₅ : Through batch.length noOps m g ops₄ m₅ g₄ :=
    ⟨sofar₄.onward.trans (same_onward same₅ g₄),sofar₄.blames,sofar₄.room⟩
  have all₅ : All (Standing spec True (operand batch)) batch.length ops₄ m₅ g₄ := fun j inside =>
    standing_framed (same_onward same₅ g₄ : Onward [] [] (fun _ => True) _ _ _ _) (by simp) (by simp) (all₄ j inside)
  refine follows_seq (eachOp_spec (C := Standing spec True (operand batch)) (D := Placing (operand batch)) few standing_framed
    placing_framed (name_one_serves fuel few members) batch.length 0 ops₄ m₅ g₄ (by omega) (sofar₅.idle few empty.idle) (by simp)
    fun j inside _ => all₅ j inside) ?_
  rintro ops₆ m₆ g₆ _ ⟨all₆,through₆⟩
  have sofar₆ := sofar₅.trans through₆
  refine follows_seq (settle_batch_spec fuel few (sofar₆.idle few empty.idle) all₆) ?_
  rintro ops₇ m₇ g₇ _ ⟨all₇,through₇⟩
  have sofar₇ := sofar₆.trans through₇
  refine follows_still (flushes_still.flush_set_run fuel) fun _ m₈ same₈ => ?_
  have all₈ : All (Settled (operand batch)) batch.length ops₇ m₈ g₇ := fun j inside =>
    settled_framed (same_onward same₈ g₇ : Onward [] [] (fun _ => True) _ _ _ _) (by simp) (by simp) (all₇ j inside)
  have sofar₈ : Through batch.length noOps m g ops₇ m₈ g₇ :=
    ⟨sofar₇.onward.trans (same_onward same₈ g₇),sofar₇.blames,sofar₇.room⟩
  refine follows_seq (drop_spares_spec few (sofar₈.idle few empty.idle) all₈) ?_
  rintro ops₉ m₉ g₉ _ ⟨all₉,through₉⟩
  have sofar₉ := sofar₈.trans through₉
  refine follows_seq (reportLoop_spec (sofar₉.idle few empty.idle) batch.length 0 m₉ fun j _ inside => all₉ j (by omega)) ?_
  rintro ok m' g' _ ⟨onward,is,fine,told⟩
  have end_ : Empty g₉ := by
    refine ⟨(sofar₉.idle few empty.idle).rest,fun j => ?_⟩
    by_cases inside : j < batch.length
    · exact (all₉ j inside).1.1.gone (all₉ j inside).1.2 (all₉ j inside).2
    · by_cases backup : j = PENDING_BACKUP
      · rw [backup]
        exact sofar₉.room
      · refine (sofar₉.onward.live j ?_).trans (empty.live j)
        simp [slots,inside,backup]
  have slot : ∀ p ∈ batch, ∃ j < batch.length, operand batch j = p := by
    intro p member
    obtain ⟨j,inside,same⟩ := List.getElem_of_mem member
    exact ⟨j,inside,by rw [operand,List.getD_eq_getElem _ _ inside,same]⟩
  rw [is]
  refine follows_pure { empty := end_, told := fun _ here => onward.told (sofar₉.onward.told here), trail := ?_, named := ?_, reported := ?_ }
  · obtain ⟨new,grown,tells⟩ := sofar₉.onward.trail
    refine ⟨new,grown,fun d member => (tells d member).mono ?_⟩
    rintro ⟨i,inside,blamed⟩
    cases ok with
    | false => rfl
    | true => exact absurd blamed (fine rfl i (by omega) (by omega))
  · intro good p member
    obtain ⟨j,inside,rfl⟩ := slot p member
    have blameless := fine good j (by omega) (by omega)
    exact (all₉ j inside).1.1.done (by simpa using (not_or.mp blameless).1)
  · intro p member
    obtain ⟨j,inside,rfl⟩ := slot p member
    refine ⟨_,_,told j (by omega) (by omega),fun good => ?_⟩
    have blameless := not_or.mp (fine good j (by omega) (by omega))
    exact ⟨by simpa using blameless.1,by simpa using blameless.2⟩

/-! ## batch_run -/

theorem Batched.refl (empty : Empty g) : Batched [] m g true m g where
  empty := empty
  told := List.Subset.refl _
  trail := ⟨[],rfl,by simp⟩
  named := by simp
  reported := by simp

theorem Batched.append {batch batch' : List Path} {ok ok' : Bool} {m'' : Memory} {g'' : Book} (one : Batched batch m g ok m' g')
    (two : Batched batch' m' g' ok' m'' g'') : Batched (batch ++ batch') m g (ok && ok') m'' g'' := by
  obtain ⟨new,first,tells⟩ := one.trail
  obtain ⟨new',second,tells'⟩ := two.trail
  refine { empty := two.empty, told := List.Subset.trans one.told two.told
           trail := ⟨new' ++ new,by rw [second,first,List.append_assoc],fun d member => ?_⟩, named := ?_, reported := ?_ }
  · rcases List.mem_append.mp member with later | earlier
    · exact (tells' d later).mono (by simp +contextual)
    · exact (tells d earlier).mono (by simp +contextual)
  · intro both p member
    obtain ⟨good,good'⟩ : ok = true ∧ ok' = true := by simpa using both
    rcases List.mem_append.mp member with here | there
    · obtain ⟨k,done⟩ := one.named good p here
      exact ⟨k,by rw [second]; exact List.mem_append_right _ done⟩
    · exact two.named good' p there
  · intro p member
    rcases List.mem_append.mp member with here | there
    · obtain ⟨fail,left,told,fine⟩ := one.reported p here
      exact ⟨fail,left,two.told told,fun both => fine (by simp at both; exact both.1)⟩
    · obtain ⟨fail,left,told,fine⟩ := two.reported p there
      exact ⟨fail,left,told,fun both => fine (by simp at both; exact both.2)⟩

theorem batchLoop_spec (fuel : Nat) {size : Nat} (least : 0 < size) (few : size ≤ NEWFILE_BATCH) :
    ∀ (rounds : Nat) (rest : List Path) (ops : Ops) (m : Memory) (g : Book), rest.length ≤ rounds → rest ⊆ paths → Empty g →
      Follows (ledger paths spec) (batchLoop fuel size spec rounds rest ops) (fun ok m' g' => Batched rest m g ok m' g') m g := by
  intro rounds
  induction rounds with
  | zero =>
    intro rest ops m g short _ empty
    obtain rfl : rest = [] := List.eq_nil_of_length_eq_zero (by omega)
    exact follows_pure (Batched.refl empty)
  | succ rounds ih =>
    intro rest ops m g short members empty
    rw [batchLoop]
    split
    · rename_i blank
      subst blank
      exact follows_pure (Batched.refl empty)
    · rename_i more
      have length : 0 < rest.length := List.length_pos_iff.mpr more
      have fits : (rest.take size).length ≤ NEWFILE_BATCH := by
        rw [List.length_take]
        omega
      have first : rest.take size ⊆ paths := fun p member => members (List.mem_of_mem_take member)
      refine follows_seq (batchOnce_spec fuel fits first empty) ?_
      rintro ⟨ops',ok⟩ m₁ g₁ _ batched
      have later : rest.drop size ⊆ paths := fun p member => members (List.mem_of_mem_drop member)
      refine follows_seq (ih (rest.drop size) ops' m₁ g₁ (by rw [List.length_drop]; omega) later batched.empty) ?_
      rintro ok' m₂ g₂ _ batched'
      refine follows_pure ?_
      have both := batched.append batched'
      rw [List.take_append_drop] at both
      exact both

theorem batch_size_tame : Tame none (fun size => 0 < size ∧ size ≤ NEWFILE_BATCH) batch_size := by
  have whole : 0 < NEWFILE_BATCH ∧ NEWFILE_BATCH ≤ NEWFILE_BATCH := by decide
  refine tame_perform rfl fun r _ => ?_
  rcases r with e | _ | cur
  · exact tame_ret whole
  · exact tame_ret whole
  · dsimp only
    split
    · exact tame_ret whole
    · rename_i short
      simp only [NEWFILE_BATCH,FD_RESERVE] at short
      have bound : ∀ room, room ≤ 64 → 0 < (if 0 < room then room else 1) ∧ (if 0 < room then room else 1) ≤ NEWFILE_BATCH := by
        intro room fits
        split <;> simp only [NEWFILE_BATCH] <;> omega
      refine tame_ret (bound _ ?_)
      by_cases roomy : FD_RESERVE < cur
      · rw [if_pos roomy,FD_RESERVE]
        omega
      · rw [if_neg roomy]
        omega

/-- What a run leaves behind: no name of its own but those of its deeds, all of which it has told of. -/
structure Ran (paths : List Path) (ok : Bool) (m : Memory) (g : Book) : Prop where
  empty : Empty g
  /-- Success is told of a run in which no name was left, unless there was no memory to find out. -/
  clean : ok = true → ∀ q k, .kept q k ∉ g.trail ∧ (.keptOld q k ∈ g.trail → g.refused = true)
  named : ok = true → ∀ p ∈ paths, ∃ k, .file p k ∈ g.trail
  reported : ∀ p ∈ paths, ∃ fail left, .report p fail left ∈ m.told ∧ (ok = true → fail = none ∧ left = false)

theorem batch_run_spec (fuel : Nat) (empty : Empty g) (blank : g.trail = []) :
    Follows (ledger paths spec) (batch_run fuel paths spec) (Ran paths) m g := by
  have same_init : ∀ (m : Memory) size, Same m { m with dirs_max := size } := fun m size =>
    ⟨rfl,rfl,rfl,rfl,rfl,⟨[],rfl⟩,Nat.le_refl _,fun tidy => ⟨tidy.digits,tidy.failed⟩⟩
  rw [batch_run]
  refine follows_tame batch_size_tame fun size m₁ ⟨least,few⟩ same => ?_
  refine follows_step (.quiet (same_init m₁ _)) (follows_silent rfl fun r _ => ?_)
  cases r with
  | error e => exact fun _ => trivial
  | ok _ =>
    refine follows_seq (batchLoop_spec fuel least few paths.length paths noOps _ g (Nat.le_refl _) (List.Subset.refl _) empty) ?_
    rintro ok m₂ g₂ _ batched
    refine follows_still flush_set_forget_still fun _ m₃ same₃ => follows_still place_probe_reset_still fun _ m₄ same₄ =>
      follows_still backup_cache_reset_still fun _ m₅ same₅ => ?_
    have told : m₅.told = m₂.told := (same₅.told.trans same₄.told).trans same₃.told
    refine follows_get (follows_inv fun inv => follows_pure ?_)
    obtain ⟨new,grown,tells⟩ := batched.trail
    rw [blank,List.append_nil] at grown
    refine { empty := batched.empty, clean := ?_, named := ?_, reported := ?_ }
    · intro good q k
      obtain ⟨rfl,counted⟩ : ok = true ∧ m₅.dirs_nfailed = 0 := by simpa using good
      refine ⟨fun member => ?_,fun member => ?_⟩
      · rw [grown] at member
        exact absurd (tells _ member) (by simp [Tells])
      · obtain ⟨_,_,_,why⟩ := inv.trail _ member
        exact why.resolve_left (by omega)
    · intro good
      obtain ⟨rfl,_⟩ : ok = true ∧ m₅.dirs_nfailed = 0 := by simpa using good
      exact batched.named rfl
    · intro p member
      obtain ⟨fail,left,there,fine⟩ := batched.reported p member
      refine ⟨fail,left,told ▸ there,fun good => fine ?_⟩
      obtain ⟨rfl,_⟩ : ok = true ∧ m₅.dirs_nfailed = 0 := by simpa using good
      rfl

end Newfile.Batches
