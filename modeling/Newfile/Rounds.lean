import Newfile.Tally

/-!
A batch: the array of operands, phase by phase. What the operands hold and the
template are all that is open between two operands, and nothing but the template
once the batch is settled.
-/
namespace Newfile.Rounds
open Newfile.Program Newfile.Posix Newfile.Process Newfile.Pending Newfile.Fastio Newfile.Flush
open Newfile.Place Newfile.Backup Newfile.Batch Newfile.Calls Newfile.Books Newfile.Quiet Newfile.Accounts Newfile.Tally

variable {α β : Type} {T : Terms} {base : List Nat} {start k : Book} {told : List (Path × Bool)} {m : Memory}
variable {ops : Ops} {n : Nat}

/-! ## The array -/

/-- The descriptors of the first `n` operands. -/
def held (ops : Ops) (n : Nat) : List Nat := (List.range n).flatMap fun i => nums (ops i)

/-- The descriptors of the first `n` operands but one. -/
def others (ops : Ops) (n i : Nat) : List Nat := ((List.range n).filter (· != i)).flatMap fun i => nums (ops i)

theorem nums_length (op : Op) : (nums op).length ≤ 1 := by
  cases descriptor : op.fd with
  | none => simp [nums,descriptor]
  | some fd => simp [nums,descriptor]

theorem flatMap_length (ops : Ops) (idx : List Nat) : (idx.flatMap fun i => nums (ops i)).length ≤ idx.length := by
  induction idx with
  | nil => exact Nat.le_refl 0
  | cons i idx ih =>
    have one := nums_length (ops i)
    simp only [List.flatMap_cons,List.length_append,List.length_cons]
    omega

theorem held_length (ops : Ops) (n : Nat) : (held ops n).length ≤ n := by
  have bound := flatMap_length ops (List.range n)
  rwa [List.length_range] at bound

theorem others_length (ops : Ops) {n i : Nat} (inside : i < n) : (others ops n i).length+1 ≤ n := by
  have bound := flatMap_length ops ((List.range n).filter (· != i))
  have fewer : ((List.range n).filter (· != i)).length < (List.range n).length :=
    List.length_filter_lt_length_iff_exists.mpr ⟨i,List.mem_range.mpr inside,by simp⟩
  simp only [List.length_range] at fewer
  simp only [others]
  omega

theorem mem_held {ops : Ops} {n x : Nat} : x ∈ held ops n ↔ ∃ i < n, x ∈ nums (ops i) := by
  simp [held]

theorem mem_others {ops : Ops} {n i x : Nat} : x ∈ others ops n i ↔ ∃ j < n, j ≠ i ∧ x ∈ nums (ops j) := by
  simp only [others,List.mem_flatMap,List.mem_filter,List.mem_range,bne_iff_ne,ne_eq]
  constructor
  · rintro ⟨j,⟨inside,other⟩,member⟩
    exact ⟨j,inside,other,member⟩
  · rintro ⟨j,inside,other,member⟩
    exact ⟨j,⟨inside,other⟩,member⟩

theorem set_same (ops : Ops) (i : Nat) (op : Op) : ops.set i op i = op := by simp [Ops.set]

theorem set_other (ops : Ops) {i j : Nat} (op : Op) (other : j ≠ i) : ops.set i op j = ops j := by
  simp [Ops.set,other]

/-- A whole batch of operands fits, with the template. -/
structure Fits (T : Terms) (base : List Nat) (n : Nat) : Prop where
  batch : n ≤ T.batch
  template : base.length ≤ 1

theorem take_slot {i : Nat} (fits : Fits T base n) (inside : i < n) (tidy : Tidy T (held ops n ++ base) start told k m) :
    Tidy T (nums (ops i) ++ (others ops n i ++ base)) start told k m := by
  have length := others_length ops inside
  have one := nums_length (ops i)
  have batch := fits.batch
  have template := fits.template
  refine tidy.wider (fun x member => ?_) ?_
  · rcases List.mem_append.mp member with own | tmpl
    · obtain ⟨j,within,here⟩ := mem_held.mp own
      by_cases same : j = i
      · exact List.mem_append_left _ (same ▸ here)
      · exact List.mem_append_right _ (List.mem_append_left _ (mem_others.mpr ⟨j,within,same,here⟩))
    · exact List.mem_append_right _ (List.mem_append_right _ tmpl)
  · simp only [List.length_append]
    omega

theorem put_slot {i : Nat} {op : Op} (fits : Fits T base n) (inside : i < n)
    (tidy : Tidy T (nums op ++ (others ops n i ++ base)) start told k m) : Tidy T (held (ops.set i op) n ++ base) start told k m := by
  have length := held_length (ops.set i op) n
  have batch := fits.batch
  have template := fits.template
  refine tidy.wider (fun x member => ?_) ?_
  · rcases List.mem_append.mp member with own | rest
    · refine List.mem_append_left _ (mem_held.mpr ⟨i,inside,?_⟩)
      rw [set_same]
      exact own
    · rcases List.mem_append.mp rest with other | tmpl
      · obtain ⟨j,within,different,here⟩ := mem_others.mp other
        refine List.mem_append_left _ (mem_held.mpr ⟨j,within,?_⟩)
        rw [set_other _ _ different]
        exact here
      · exact List.mem_append_right _ tmpl
  · simp only [List.length_append]
    omega

theorem others_few {i : Nat} (fits : Fits T base n) (inside : i < n) : (others ops n i ++ base).length ≤ T.batch := by
  have length := others_length ops inside
  have batch := fits.batch
  have template := fits.template
  simp only [List.length_append]
  omega

/-! ## Building -/

theorem New.later {fd : Fd} {mode : Mode} {k' : Book} {m' : Memory} {told' : List (Path × Bool)} (new : New start fd mode k)
    (after : Tidy T base k told' k' m') : New start fd mode k' :=
  ⟨new.after,Nat.lt_of_lt_of_le new.before after.next,(after.modes _ new.before).trans new.mode⟩

theorem New.earlier {fd : Fd} {mode : Mode} {k' : Book} (new : New k fd mode k') (before : start.next ≤ k.next) :
    New start fd mode k' := ⟨Nat.le_trans before new.after,new.before,new.mode⟩

theorem Stands.later {spec : FileSpec} {path : Path} {op : Op} {k' : Book} {m' : Memory}
    {told' : List (Path × Bool)} (stands : Stands T spec start path op k) (after : Tidy T base k told' k' m') :
    Stands T spec start path op k' := by
  refine ⟨stands.named,stands.failed,fun fine => ?_⟩
  obtain ⟨fd,mode,opened,new,final⟩ := stands.made fine
  exact ⟨fd,mode,opened,New.later new after,final⟩

/-- The operands from slot `i` on stand as they were built. -/
def AllStand (T : Terms) (spec : FileSpec) (start : Book) (paths : List Path) (i : Nat) (ops : Ops) (k : Book) : Prop :=
  ∀ j path, paths[j]? = some path → Stands T spec start path (ops (i+j)) k

theorem AllStand.later {spec : FileSpec} {paths : List Path} {i : Nat} {k' : Book} {m' : Memory}
    {told' : List (Path × Bool)} (all : AllStand T spec start paths i ops k) (after : Tidy T base k told' k' m') :
    AllStand T spec start paths i ops k' :=
  fun j path found => Stands.later (all j path found) after

theorem held_push (ops : Ops) (i : Nat) (op : Op) : held (ops.set i op) (i+1) = held ops i ++ nums op := by
  simp only [held,List.range_succ,List.flatMap_append,List.flatMap_singleton,set_same]
  congr 1
  apply List.flatMap_congr
  intro j member
  rw [set_other]
  have := List.mem_range.mp member
  omega

theorem buildLoop_built {spec : FileSpec} (fuel : Nat) (terms : Open T) (asked : T.mode = spec.mode)
    (template : base.length ≤ 1) :
    ∀ (paths : List Path) (i : Nat) (ops : Ops) {start k m}, i+paths.length ≤ T.batch →
      Tidy T (held ops i ++ base) start told k m →
      Always T (buildLoop fuel spec paths i ops) (fun ops' k' m' =>
        Tidy T (held ops' (i+paths.length) ++ base) start told k' m' ∧ (∀ j < i, ops' j = ops j) ∧
          AllStand T spec start paths i ops' k') k m := by
  intro paths
  induction paths with
  | nil => exact fun i ops _ k m _ tidy => always_pure tidy.within ⟨tidy,fun _ _ => rfl,by simp [AllStand]⟩
  | cons path paths ih =>
    intro i ops start k m fits tidy
    simp only [List.length_cons] at fits
    have length := held_length ops i
    have few : (held ops i ++ base).length ≤ T.batch := by
      simp only [List.length_append]
      omega
    refine always_seq (build_one_built fuel path i terms asked few tidy) fun op k m built => ?_
    obtain ⟨tidy,stands⟩ := built
    have pushed : Tidy T (held (ops.set i op) (i+1) ++ base) start told k m := by
      rw [held_push]
      refine tidy.wider (fun x member => ?_) ?_
      · simp only [List.mem_append] at member ⊢
        tauto
      · have one := nums_length op
        simp only [List.length_append]
        omega
    refine always_mono (ih (i+1) (ops.set i op) (by omega) pushed.restart) fun ops' k' m' done => ?_
    obtain ⟨after,same,all⟩ := done
    have shift : i+1+paths.length = i+(path :: paths).length := by simp only [List.length_cons]; omega
    rw [← shift]
    refine ⟨pushed.since after,fun j below => ?_,?_⟩
    · rw [same j (by omega),set_other _ _ (by omega)]
    · intro j path' found
      cases j with
      | zero =>
        obtain rfl : path = path' := by simpa using found
        rw [Nat.add_zero,same i (by omega),set_same]
        exact Stands.later stands after
      | succ j =>
        have found' : paths[j]? = some path' := by simpa using found
        have here : i+(j+1) = i+1+j := by omega
        rw [here]
        obtain ⟨named,failed,made⟩ := all j path' found'
        refine ⟨named,failed,fun fine => ?_⟩
        obtain ⟨fd,mode,opened,new,final⟩ := made fine
        exact ⟨fd,mode,opened,New.earlier new pushed.next,final⟩

/-! ## One operand later on -/

/-- An operand that failed holds nothing. -/
def Idle (op : Op) : Prop := op.fail.isSome = true → op.fd = none

/-- What becomes of an operand: a failure stays one, and nothing is opened again. -/
structure Onward (op op' : Op) : Prop where
  path : op'.path = op.path
  idle : Idle op'
  fine : op'.fail = none → op.fail = none
  closed : op.fd = none → op'.fd = none

theorem Onward.refl {op : Op} (idle : Idle op) : Onward op op := ⟨rfl,idle,id,id⟩

theorem Onward.trans {op op' op'' : Op} (one : Onward op op') (two : Onward op' op'') : Onward op op'' :=
  ⟨two.path.trans one.path,two.idle,fun fine => one.fine (two.fine fine),fun closed => two.closed (one.closed closed)⟩

theorem Failed.onward {op op' : Op} (failed : Failed op.path op') : Onward op op' := by
  refine ⟨failed.path,fun _ => failed.fd,fun fine => ?_,fun _ => failed.fd⟩
  have := failed.fail
  rw [fine] at this
  exact absurd this (by simp)

/-- The operand has gone on, and what it holds is on the books. -/
def Then (T : Terms) (base : List Nat) (start : Book) (told : List (Path × Bool)) (op op' : Op) (k : Book) (m : Memory) :
    Prop := Tidy T (nums op' ++ base) start told k m ∧ Onward op op'

theorem op_fail_then {op op' : Op} (slot : Nat) (what : String) (e : Errno) (path : op'.path = op.path)
    (tidy : Tidy T (nums op' ++ base) start told k m) :
    Always T (op_fail op' slot what e) (Then T base start told op) k m := by
  refine always_mono (op_fail_tidy op' slot what e tidy) fun op'' k m done => ?_
  rw [path] at done
  refine ⟨?_,Failed.onward done.2⟩
  rw [nums_none done.2.fd]
  exact done.1

/-- An operand that is still fine, on its way to a name. -/
structure Fine (T : Terms) (base : List Nat) (start : Book) (told : List (Path × Bool)) (op op' : Op) (k : Book) (m : Memory) :
    Prop where
  tidy : Tidy T (nums op' ++ base) start told k m
  path : op'.path = op.path
  closed : op.fd = none → op'.fd = none
  fine : op'.fail = none
  before : op.fail = none

theorem Fine.done {op op' : Op} (fine : Fine T base start told op op' k m) : Then T base start told op op' k m :=
  ⟨fine.tidy,fine.path,by simp [Idle,fine.fine],fun _ => fine.before,fine.closed⟩

theorem fine_tends {p : P α} {op op' : Op} (tends : Tends T p) (few : base.length ≤ T.batch)
    (fine : Fine T base start told op op' k m) :
    Always T p (fun _ k' m' => Fine T base start told op op' k' m') k m := by
  have one := nums_length op'
  have length : (nums op' ++ base).length ≤ T.batch+1 := by
    simp only [List.length_append]
    omega
  exact always_mono (tends length fine.tidy) fun _ _ _ tidy => ⟨tidy,fine.path,fine.closed,fine.fine,fine.before⟩

theorem fine_calm {p : P α} {op op' : Op} (calm : ∀ own, Calm own p) (few : base.length ≤ T.batch)
    (fine : Fine T base start told op op' k m) :
    Always T p (fun _ k' m' => Fine T base start told op op' k' m') k m := fine_tends (tends_calm calm) few fine

/-- What became of a replacement: with its name the operand is fine. -/
def Replaced (T : Terms) (base : List Nat) (start : Book) (told : List (Path × Bool)) (op : Op) (r : Op × Bool) (k : Book)
    (m : Memory) : Prop := Then T base start told op r.1 k m ∧ (r.2 = true → r.1.fail = none)

section
variable {op : Op} (slot fuel : Nat) (few : base.length ≤ T.batch) (terms : Open T)
include few

theorem replaceBy_then {op' : Op} (dir : Path) (tmp : Str) (cannot : Bool) (fine : Fine T base start told op op' k m) :
    Always T (replaceBy fuel op' slot dir tmp cannot) (Replaced T base start told op) k m := by
  have fails : ∀ {k m} what e, Fine T base start told op op' k m → Always T (do
      let _ ← pending_remove PENDING_BACKUP
      let op ← op_fail op' slot what e
      return (op,false)) (Replaced T base start told op) k m := by
    intro k m what e fine
    refine always_seq (fine_calm (fun _ => handles_calm.pending_remove _) few fine) fun _ k m fine => ?_
    exact always_seq (op_fail_then slot what e fine.path fine.tidy) fun _ _ _ done =>
      always_pure done.1.within ⟨done,by simp⟩
  have moved : ∀ {k m}, Fine T base start told op op' k m →
      Always T (renameOver op' slot tmp) (Replaced T base start told op) k m := by
    intro k m fine
    refine always_seq (fine_calm (fun _ => handles_calm.place_rename slot (uses_sys trivial)) few fine) fun r k m fine => ?_
    cases r with
    | error e => exact fails _ e fine
    | ok _ =>
      refine always_seq (fine_calm (fun _ => handles_calm.free tmp) few fine) fun _ k m fine => ?_
      exact always_pure fine.tidy.within
        ⟨Fine.done ⟨fine.tidy,fine.path,fine.closed,fine.fine,fine.before⟩,fun _ => fine.fine⟩
  rw [replaceBy]
  split
  · refine always_seq (fine_tends (flush_dir_tends fuel dir) few fine) fun flushed k m fine => ?_
    cases flushed with
    | error e => exact fails _ e fine
    | ok _ => exact moved fine
  · exact moved fine

theorem replaceKeeping_then {op' : Op} (dir : Path) (tmp : Str) (old : Stat) (fine : Fine T base start told op op' k m) :
    Always T (replaceKeeping fuel op' slot dir tmp old) (Replaced T base start told op) k m := by
  refine always_read fine.tidy ?_
  refine always_seq (fine_calm (fun _ => holdSpare_calm _) few fine) fun _ k m fine => ?_
  refine always_seq (fine_calm (fun _ => handles_calm.place_exchange slot old (uses_sys trivial)) few fine) fun r k m fine => ?_
  cases r with
  | error e =>
    refine always_seq (fine_calm (fun _ => releaseSpare_calm _) few fine) fun _ k m fine => ?_
    refine always_seq (fine_calm (fun _ => handles_calm.pending_remove _) few fine) fun _ k m fine => ?_
    exact always_seq (op_fail_then slot _ e fine.path fine.tidy) fun _ _ _ done =>
      always_pure done.1.within ⟨done,by simp⟩
  | ok fast =>
    cases fast with
    | done =>
      exact always_pure fine.tidy.within
        ⟨Fine.done ⟨fine.tidy,fine.path,fine.closed,fine.fine,fine.before⟩,fun _ => fine.fine⟩
    | cannot =>
      refine always_seq (fine_calm (fun _ => releaseSpare_calm _) few fine) fun _ k m fine => ?_
      exact replaceBy_then slot fuel few dir tmp true fine

include terms

theorem replace_one_then {op' : Op} (dir : Path) (spec : FileSpec) (fine : Fine T base start told op op' k m) :
    Always T (replace_one fuel op' slot dir spec) (Replaced T base start told op) k m := by
  rw [replace_one]
  split
  · exact always_pure fine.tidy.within ⟨Fine.done fine,by simp⟩
  · split
    · refine always_seq (fine_tends (backup_make_tends fuel _ _ terms) few fine) fun r k m fine => ?_
      cases r with
      | error e =>
        exact always_seq (op_fail_then slot _ e fine.path fine.tidy) fun _ _ _ done =>
          always_pure done.1.within ⟨done,by simp⟩
      | ok made =>
        cases made with
        | some made =>
          exact replaceKeeping_then slot fuel few dir _ made.old ⟨fine.tidy,fine.path,fine.closed,fine.fine,fine.before⟩
        | none => exact replaceBy_then slot fuel few dir _ false fine
    · exact replaceBy_then slot fuel few dir _ false fine

theorem named_then {op' : Op} (dir : Path) (fine : Fine T base start told op op' k m) :
    Always T (named fuel op' slot dir) (Then T base start told op) k m := by
  have queued : ∀ {k m}, Fine T base start told op op' k m →
      Always T (named.queued fuel op' dir) (Then T base start told op) k m := by
    intro k m fine
    refine always_seq (fine_calm (fun _ => tell_calm (by simp)) few fine) fun _ k m fine => ?_
    refine always_seq (fine_tends (flush_set_add_tends fuel dir terms) few fine) fun _ k m fine => ?_
    exact always_pure fine.tidy.within (Fine.done fine)
  rw [named]
  split
  · exact always_seq (fine_calm (fun _ => handles_calm.clear slot) few fine) fun _ _ _ fine => queued fine
  · exact queued fine

theorem nameForced_then {op' : Op} (dir : Path) (spec : FileSpec) (fine : Fine T base start told op op' k m) :
    Always T (nameForced fuel op' slot dir spec) (Then T base start told op) k m := by
  refine always_seq (replace_one_then slot fuel few terms dir spec fine) fun r k m done => ?_
  obtain ⟨op'',replaced⟩ := r
  cases replaced with
  | false => exact always_pure done.1.1.within done.1
  | true =>
    have still := done.2 rfl
    exact named_then slot fuel few terms dir ⟨done.1.1,done.1.2.path,done.1.2.closed,still,done.1.2.fine still⟩

theorem name_one_then (spec : FileSpec) (idle : Idle op) (tidy : Tidy T (nums op ++ base) start told k m) :
    Always T (name_one fuel op slot spec) (Then T base start told op) k m := by
  rw [name_one]
  split
  · exact always_pure tidy.within ⟨tidy,Onward.refl idle⟩
  · rename_i fine
    have before : op.fail = none := by simpa using fine
    have fine : Fine T base start told op op k m := ⟨tidy,rfl,id,before,before⟩
    have fails : ∀ {op' : Op} {k m} e, Fine T base start told op op' k m →
        Always T (op_fail op' slot "cannot create" e) (Then T base start told op) k m := fun e fine =>
      op_fail_then slot _ e fine.path fine.tidy
    refine always_seq (fine_calm (fun _ => handles_calm.path_dir _) few fine) fun r k m fine => ?_
    cases r with
    | error e => exact fails e fine
    | ok dir =>
      dsimp only
      split
      · split
        · refine always_seq (fine_calm (fun _ => place_temp_link_calm _ _ slot) few fine) fun r k m fine => ?_
          cases r with
          | error e => exact fails e fine
          | ok tmppath => exact nameForced_then slot fuel few terms dir spec ⟨fine.tidy,fine.path,fine.closed,fine.fine,before⟩
        · exact nameForced_then slot fuel few terms dir spec fine
      · split
        · refine always_seq (fine_calm (fun _ => uses_sys trivial) few fine) fun r k m fine => ?_
          cases r with
          | error e => exact fails e fine
          | ok _ => exact named_then slot fuel few terms dir fine
        · refine always_seq (fine_tends (place_commit_tends _ _ slot) few fine) fun r k m fine => ?_
          cases r with
          | error e => exact fails e fine
          | ok linked =>
            cases linked with
            | true => exact named_then slot fuel few terms dir fine
            | false =>
              refine always_seq (fine_calm (fun _ => handles_calm.free _) few fine) fun _ k m fine => ?_
              exact named_then slot fuel few terms dir ⟨fine.tidy,fine.path,fine.closed,fine.fine,before⟩
        · exact named_then slot fuel few terms dir fine

end

end Newfile.Rounds
