import Newfile.Phases

/-!
A run as one list of stages: in every batch each operand is built, then each is named,
then each reported. The stages are recorded with their operands as they are done.
-/
namespace Newfile.Stages
open Newfile.Program Newfile.Program.Prog Newfile.Posix Newfile.Process Newfile.Flush Newfile.Place Newfile.Backup Newfile.Batch
open Newfile.Calls Newfile.Books Newfile.Quiet Newfile.Accounts Newfile.Tally Newfile.Rounds Newfile.Phases

variable {T : Terms} {base : List Nat} {start k : Book} {told : List (Path × Bool)} {m : Memory}
variable {fuel n : Nat} {spec : FileSpec} {ops : Ops}

/-! ## Stages -/

inductive Stage where
  | reset
  | build (path : Path) (slot : Nat)
  | flush (n : Nat)
  | name (slot : Nat)
  | settle (n : Nat)
  | report (slot : Nat)
  deriving DecidableEq, Repr

/-- The array after the stage, and whether what it reports is a success. -/
def Stage.work (fuel : Nat) (spec : FileSpec) (ops : Ops) : Stage → P (Ops × Bool)
  | .reset => do
    flush_set_forget
    place_probe_reset
    return (ops,true)
  | .build path slot => do
    let op ← build_one fuel path slot spec
    return (ops.set slot op,true)
  | .flush n => do
    let ops ← flush_batch fuel ops n
    backup_cache_reset
    return (ops,true)
  | .name slot => do
    let op ← name_one fuel (ops slot) slot spec
    return (ops.set slot op,true)
  | .settle n => do
    let ops ← settle_batch fuel ops n
    flush_set_run fuel
    let ops ← drop_spares ops n
    return (ops,true)
  | .report slot => do
    let ok ← report_one (ops slot) spec
    return (ops,ok)

/-- The operand that a stage is about. -/
def Stage.operand (ops : Ops) : Stage → Option Path
  | .build path _ => some path
  | .name slot | .report slot => some (ops slot).path.text
  | _ => none

/-- The stages that were done, with their operands. -/
abbrev Record := List (Stage × Option Path)

def runStages (fuel : Nat) (spec : FileSpec) : List Stage → Ops → P (Ops × Bool × Record)
  | [], ops => return (ops,true,[])
  | stage :: stages, ops => do
    let (ops',ok) ← stage.work fuel spec ops
    let (ops'',rest,done) ← runStages fuel spec stages ops'
    return (ops'',ok && rest,(stage,stage.operand ops) :: done)

/-- The stages of a batch. -/
def stagesOf (paths : List Path) : List Stage :=
  .reset :: paths.zipIdx.map (fun x => .build x.1 x.2) ++ .flush paths.length :: (List.range paths.length).map .name ++
    .settle paths.length :: (List.range paths.length).map .report

/-- The operands of each batch. -/
def parts (batch : Nat) : Nat → List Path → List (List Path)
  | 0, _ => []
  | rounds+1, paths => if paths = [] then [] else paths.take batch :: parts batch rounds (paths.drop batch)

/-- The stages of a run. -/
def plan (batch : Nat) (paths : List Path) : List Stage := (parts batch paths.length paths).flatMap stagesOf

/-- `batch_run` as stages, with what was done. -/
def batch_run_staged (fuel : Nat) (paths : List Path) (spec : FileSpec) : P (Bool × Record) := do
  let batch ← batch_size
  flush_set_init batch
  match ← allocate with
  | .error _ => .exit
  | .ok () =>
    let (_,ok,done) ← runStages fuel spec (plan batch paths) noOps
    flush_set_forget
    place_probe_reset
    backup_cache_reset
    let failures ← flush_set_failures
    return (ok && failures = 0,done)

/-! ## The batches -/

theorem parts_whole {batch : Nat} (positive : 0 < batch) : ∀ (rounds : Nat) (paths : List Path), paths.length ≤ rounds →
    (parts batch rounds paths).flatten = paths ∧
      ∀ part ∈ parts batch rounds paths, 0 < part.length ∧ part.length ≤ batch := by
  intro rounds
  induction rounds with
  | zero =>
    intro paths all
    obtain rfl := List.length_eq_zero_iff.mp (Nat.le_zero.mp all)
    exact ⟨rfl,by simp [parts]⟩
  | succ rounds ih =>
    intro paths all
    rw [parts]
    split
    · rename_i done
      exact ⟨done.symm,by simp⟩
    · rename_i more
      have length : 0 < paths.length := List.length_pos_iff.mpr more
      obtain ⟨flat,sizes⟩ := ih (paths.drop batch) (by rw [List.length_drop]; omega)
      refine ⟨by rw [List.flatten_cons,flat,List.take_append_drop],fun part member => ?_⟩
      rcases List.mem_cons.mp member with rfl | later
      · rw [List.length_take]
        omega
      · exact sizes part later

/-! ## Loops as stages -/

theorem runStages_append (stages stages' : List Stage) : ∀ ops : Ops,
    runStages fuel spec (stages ++ stages') ops = do
      let x ← runStages fuel spec stages ops
      let y ← runStages fuel spec stages' x.1
      return (y.1,x.2.1 && y.2.1,x.2.2 ++ y.2.2) := by
  induction stages with
  | nil =>
    intro ops
    simp [runStages]
  | cons stage stages ih =>
    intro ops
    rw [List.cons_append,runStages,runStages]
    simp [ih,Bool.and_assoc]

theorem builds_staged : ∀ (paths : List Path) (i : Nat) (ops : Ops),
    runStages fuel spec ((paths.zipIdx i).map fun x => .build x.1 x.2) ops = do
      let built ← buildLoop fuel spec paths i ops
      return (built,true,(paths.zipIdx i).map fun x => (.build x.1 x.2,some x.1)) := by
  intro paths
  induction paths with
  | nil => exact fun _ _ => rfl
  | cons path paths ih =>
    intro i ops
    rw [List.zipIdx_cons,List.map_cons,List.map_cons,runStages,buildLoop]
    simp [Stage.work,Stage.operand,ih]

/-- An operand is named as it was before the others were. -/
theorem names_staged : ∀ (n i : Nat) (ops : Ops),
    runStages fuel spec ((List.range' i n).map .name) ops = do
      let named ← eachOp (fun op i => name_one fuel op i spec) n i ops
      return (named,true,(List.range' i n).map fun j => (.name j,some (ops j).path.text)) := by
  intro n
  induction n with
  | zero => exact fun _ _ => rfl
  | succ n ih =>
    intro i ops
    rw [List.range'_succ,List.map_cons,List.map_cons,runStages,eachOp]
    have later : ∀ op : Op, ((List.range' (i+1) n).map fun j => (Stage.name j,some ((ops.set i op) j).path.text)) =
        (List.range' (i+1) n).map fun j => (Stage.name j,some (ops j).path.text) := by
      intro op
      refine List.map_congr_left fun j member => ?_
      have above := List.mem_range'_1.mp member
      rw [set_other _ _ (by omega)]
    simp [Stage.work,Stage.operand,ih,later]

theorem reports_staged (ops : Ops) : ∀ n i : Nat,
    runStages fuel spec ((List.range' i n).map .report) ops = do
      let ok ← reportLoop spec ops n i
      return (ops,ok,(List.range' i n).map fun j => (.report j,some (ops j).path.text)) := by
  intro n
  induction n with
  | zero => exact fun _ => rfl
  | succ n ih =>
    intro i
    rw [List.range'_succ,List.map_cons,List.map_cons,runStages,reportLoop]
    simp [Stage.work,Stage.operand,ih]

/-- What a batch records, with the arrays that its operands are named and reported from. -/
def recordOf (paths : List Path) (flushed settled : Ops) : Record :=
  (.reset,none) :: paths.zipIdx.map (fun x => (.build x.1 x.2,some x.1)) ++
    (.flush paths.length,none) :: (List.range paths.length).map (fun j => (.name j,some (flushed j).path.text)) ++
    (.settle paths.length,none) :: (List.range paths.length).map fun j => (.report j,some (settled j).path.text)

theorem batch_staged (paths : List Path) (ops : Ops) :
    runStages fuel spec (stagesOf paths) ops = do
      let x ← batchTraced fuel paths spec ops
      return (x.2.2.1,x.2.2.2,recordOf paths x.2.1 x.2.2.1) := by
  have names := @names_staged fuel spec paths.length 0
  have reports := fun ops => @reports_staged fuel spec ops paths.length 0
  simp only [← List.range_eq_range'] at names reports
  rw [stagesOf,runStages_append,runStages_append]
  simp only [runStages,Stage.work,Stage.operand,builds_staged,names,reports,batchTraced,recordOf,bind_assoc,pure_bind,
    Bool.true_and,List.cons_append,List.append_assoc]

theorem batchOnce_staged (paths : List Path) (ops : Ops) :
    batchOnce fuel paths spec ops = do
      let x ← runStages fuel spec (stagesOf paths) ops
      return (x.1,x.2.1) := by
  rw [batchOnce_recorded,batchRecorded_traced,batch_staged]
  simp only [bind_assoc,pure_bind]

theorem batchLoop_staged (batch : Nat) : ∀ (rounds : Nat) (paths : List Path) (ops : Ops),
    batchLoop fuel batch spec rounds paths ops = do
      let x ← runStages fuel spec ((parts batch rounds paths).flatMap stagesOf) ops
      return x.2.1 := by
  intro rounds
  induction rounds with
  | zero => exact fun _ _ => rfl
  | succ rounds ih =>
    intro paths ops
    rw [batchLoop,parts]
    split
    · rfl
    · rw [List.flatMap_cons,runStages_append]
      simp only [batchOnce_staged,ih,bind_assoc,pure_bind]

/-- A run is its stages. -/
theorem batch_run_stages (fuel : Nat) (paths : List Path) (spec : FileSpec) :
    batch_run fuel paths spec = batch_run_staged fuel paths spec >>= fun x => return x.1 := by
  rw [batch_run,batch_run_staged]
  simp only [bind_assoc]
  refine bind_congr fun batch => bind_congr fun _ => bind_congr fun r => ?_
  cases r with
  | error e => rfl
  | ok _ => simp [batchLoop_staged,plan]

/-! ## The record of a run -/

/-- What is recorded of a batch. -/
def entries (paths : List Path) : Record :=
  (.reset,none) :: paths.zipIdx.map (fun x => (.build x.1 x.2,some x.1)) ++
    (.flush paths.length,none) :: paths.zipIdx.map (fun x => (.name x.2,some x.1)) ++
    (.settle paths.length,none) :: paths.zipIdx.map fun x => (.report x.2,some x.1)

/-- Each operand is at its slot. -/
theorem zipIdx_operands {α : Type} {paths : List Path} {ops : Ops} (here : ∀ j (inside : j < paths.length), (ops j).path.text = paths[j])
    (f : Nat → α) :
    (List.range paths.length).map (fun j => (f j,some (ops j).path.text)) = paths.zipIdx.map fun x => (f x.2,some x.1) := by
  refine List.ext_getElem (by simp) fun j inside inside' => ?_
  have within : j < paths.length := by simpa using inside
  simp [here j within]

theorem record_entries {paths : List Path} {flushed settled : Ops}
    (before : ∀ j (inside : j < paths.length), (flushed j).path.text = paths[j])
    (after : ∀ j (inside : j < paths.length), (settled j).path.text = paths[j]) : recordOf paths flushed settled = entries paths := by
  rw [recordOf,entries,zipIdx_operands before,zipIdx_operands after]

/-- The operands of the stages of a kind, in order. -/
def operandsOf (kind : Stage → Bool) (done : Record) : List Path := (done.filter fun x => kind x.1).filterMap (·.2)

def Stage.builds : Stage → Bool
  | .build _ _ => true
  | _ => false

def Stage.names : Stage → Bool
  | .name _ => true
  | _ => false

def Stage.reports : Stage → Bool
  | .report _ => true
  | _ => false

theorem batch_stage (paths : List Path) (ops : Ops) (terms : Open T) (asked : T.mode = spec.mode) (fits : Fits T base paths.length)
    (tidy : Tidy T base start told k m) :
    Always T (runStages fuel spec (stagesOf paths) ops) (fun x k' m' =>
      Tidy T base start (told ++ outcomes x.1 0 paths.length) k' m' ∧ x.2.2 = entries paths) k m := by
  rw [batch_staged]
  refine always_seq (batchTraced_reported fuel paths ops terms asked fits tidy) fun x k m done => ?_
  obtain ⟨built,flushed,settled,ok⟩ := x
  obtain ⟨reported,advance⟩ := done
  have named : ∀ j (inside : j < paths.length), (built j).path.text = paths[j] := by
    intro j inside
    have stands := reported.stand j paths[j] (by simp)
    rw [Nat.zero_add] at stands
    rw [stands.named]
  refine always_pure reported.tidy.within ⟨reported.tidy,record_entries (fun j inside => ?_) fun j inside => ?_⟩
  · rw [(advance j inside).path,named j inside]
  · rw [(reported.onward j inside).path,named j inside]

theorem stages_recorded (terms : Open T) (asked : T.mode = spec.mode) (template : base.length ≤ 1) :
    ∀ (rounds : Nat) (paths : List Path) (ops : Ops) {start told k m}, paths.length ≤ rounds → Tidy T base start told k m →
      Always T (runStages fuel spec ((parts T.batch rounds paths).flatMap stagesOf) ops) (fun x k' m' =>
        (∃ more, Tidy T base start (told ++ more) k' m') ∧ x.2.2 = (parts T.batch rounds paths).flatMap entries) k m := by
  intro rounds
  induction rounds with
  | zero =>
    intro paths ops start told k m _ tidy
    exact always_pure tidy.within ⟨⟨[],by simpa using tidy⟩,rfl⟩
  | succ rounds ih =>
    intro paths ops start told k m all tidy
    rw [parts]
    split
    · exact always_pure tidy.within ⟨⟨[],by simpa using tidy⟩,rfl⟩
    · rename_i more
      have positive := terms.positive
      have length : 0 < paths.length := List.length_pos_iff.mpr more
      have fits : Fits T base (paths.take T.batch).length := ⟨by rw [List.length_take]; omega,template⟩
      have fewer : (paths.drop T.batch).length ≤ rounds := by
        rw [List.length_drop]
        omega
      rw [List.flatMap_cons,List.flatMap_cons,runStages_append]
      refine always_seq (batch_stage _ ops terms asked fits tidy) fun x k m first => ?_
      obtain ⟨tidy,same⟩ := first
      refine always_seq (ih _ x.1 fewer tidy) fun y k m rest => ?_
      obtain ⟨⟨more,tidy⟩,same'⟩ := rest
      refine always_pure tidy.within ⟨⟨_,by rw [← List.append_assoc]; exact tidy⟩,?_⟩
      dsimp only
      rw [same,same']

theorem operandsOf_append (kind : Stage → Bool) (done done' : Record) :
    operandsOf kind (done ++ done') = operandsOf kind done ++ operandsOf kind done' := by
  simp [operandsOf]

theorem operandsOf_own {kind : Stage → Bool} {f : Path → Nat → Stage} (own : ∀ path slot, kind (f path slot) = true)
    (paths : List Path) : operandsOf kind (paths.zipIdx.map fun x => (f x.1 x.2,some x.1)) = paths := by
  rw [operandsOf,List.filter_eq_self.mpr,List.filterMap_map]
  · have first : (fun x : Path × Nat => ((f x.1 x.2,some x.1) : Stage × Option Path).2) = some ∘ Prod.fst := rfl
    have whole := List.zipIdx_map_fst 0 paths
    rw [Function.comp_def,first,List.filterMap_eq_map,whole]
  · intro x member
    obtain ⟨y,_,rfl⟩ := List.mem_map.mp member
    exact own _ _

theorem operandsOf_other {kind : Stage → Bool} {f : Path → Nat → Stage} (other : ∀ path slot, kind (f path slot) = false)
    (paths : List Path) : operandsOf kind (paths.zipIdx.map fun x => (f x.1 x.2,some x.1)) = [] := by
  rw [operandsOf,List.filter_eq_nil_iff.mpr,List.filterMap_nil]
  intro x member
  obtain ⟨y,_,rfl⟩ := List.mem_map.mp member
  simp [other]

theorem operandsOf_none {kind : Stage → Bool} (stage : Stage) (done : Record) :
    operandsOf kind ((stage,none) :: done) = operandsOf kind done := by
  simp only [operandsOf,List.filter_cons]
  split
  · rfl
  · rfl

/-- In the record of a batch its operands come once in each kind of stage. -/
theorem entries_operands (paths : List Path) : operandsOf Stage.builds (entries paths) = paths ∧
    operandsOf Stage.names (entries paths) = paths ∧ operandsOf Stage.reports (entries paths) = paths := by
  have split_ : ∀ kind : Stage → Bool, operandsOf kind (entries paths) =
      operandsOf kind (paths.zipIdx.map fun x => (.build x.1 x.2,some x.1)) ++
        operandsOf kind (paths.zipIdx.map fun x => (.name x.2,some x.1)) ++
          operandsOf kind (paths.zipIdx.map fun x => (.report x.2,some x.1)) := by
    intro kind
    simp only [entries,operandsOf_append,List.cons_append,operandsOf_none]
  refine ⟨?_,?_,?_⟩
  · rw [split_,operandsOf_own (f := .build) (fun _ _ => rfl),operandsOf_other (f := fun _ => .name) (fun _ _ => rfl),
      operandsOf_other (f := fun _ => .report) (fun _ _ => rfl)]
    simp
  · rw [split_,operandsOf_other (f := .build) (fun _ _ => rfl),operandsOf_own (f := fun _ => .name) (fun _ _ => rfl),
      operandsOf_other (f := fun _ => .report) (fun _ _ => rfl)]
    simp
  · rw [split_,operandsOf_other (f := .build) (fun _ _ => rfl),operandsOf_other (f := fun _ => .name) (fun _ _ => rfl),
      operandsOf_own (f := fun _ => .report) (fun _ _ => rfl)]
    simp

theorem operandsOf_flatMap {kind : Stage → Bool} (one : ∀ part, operandsOf kind (entries part) = part) (all : List (List Path)) :
    operandsOf kind (all.flatMap entries) = all.flatten := by
  induction all with
  | nil => rfl
  | cons part all ih => rw [List.flatMap_cons,operandsOf_append,one,ih,List.flatten_cons]

end Newfile.Stages
