import Newfile.Entries
import Newfile.Traces

/-!
`path_make_parents` on a tree that grows: which directories it makes, and that the
parent of each is queued to be flushed.
-/
namespace Newfile.Parents
open Newfile.Program Newfile.Posix Newfile.Process Newfile.Resolve Newfile.Entries Newfile.Accounts Newfile.Traces
open Prog

/-! ## The code, with `flush_set_add` as a call -/

inductive Call where
  | alloc
  | mkdir (path : Path)
  | stat (path : Path)
  | flush_set_add (dir : Path)

abbrev Call.Res : Call → Type
  | .alloc | .mkdir _ => Except Errno Unit
  | .stat _ => Except Errno Stat
  | .flush_set_add _ => Unit

abbrev paths : Interface := ⟨Call,Call.Res⟩

abbrev Q := Prog paths Unit

def ask (c : Call) : Q c.Res := @sys paths Unit c

def path_dir (path : Path) : Q (Except Errno Path) := do
  match ← ask .alloc with
  | .error e => return .error e
  | .ok () => return .ok (dirText path)

def ensure_directory (path : Path) : Q (Except Errno Unit) := do
  match ← ask (.stat path) with
  | .error e => return .error e
  | .ok st => return if st.kind = .directory then .ok () else .error .ENOTDIR

/-- One round of the loop of `path_make_parents`, for the directory `buf`. -/
def makeParent (buf : Path) : Q (Except Errno Unit) := do
  match ← ask (.mkdir buf) with
  | .ok () =>
    match ← path_dir buf with
    | .error e => return .error e
    | .ok parent =>
      ask (.flush_set_add parent)
      return .ok ()
  | .error e => if e = .EEXIST then ensure_directory buf else return .error e

/-- The loop of `path_make_parents`, with so many characters of `buf` behind `p`. -/
def parentsLoop (buf : Path) : Nat → Q (Except Errno Unit)
  | 0 => makeParent buf
  | behind+1 => do
    if (buf.getD (buf.length-(behind+1)) '/') = '/' then
      match ← makeParent (buf.take (buf.length-(behind+1))) with
      | .error e => return .error e
      | .ok () => parentsLoop buf behind
    else parentsLoop buf behind

def path_make_parents (path : Path) : Q (Except Errno Unit) := do
  match ← ask .alloc with
  | .error e => return .error e
  | .ok () =>
    match strrchr path '/' with
    | none => return .ok ()
    | some slash =>
      if slash.length = path.length then return .ok ()
      else
        let buf := path.take (path.length-slash.length)
        parentsLoop buf (buf.length-1)

/-- The calls as the programs that they are. -/
def bodies (fuel : Nat) : (c : Call) → P c.Res
  | .alloc => allocate
  | .mkdir path => perform (.mkdir path)
  | .stat path => perform (.stat path)
  | .flush_set_add dir => Flush.flush_set_add fuel dir

theorem makeParent_unfolded (fuel : Nat) (buf : Path) :
    unfolded (bodies fuel) (makeParent buf) = Flush.makeParent fuel buf := by
  rw [makeParent,Flush.makeParent,unfolded_bind,ask,unfolded_sys]
  refine congrArg _ (funext fun r => ?_)
  cases r with
  | ok u =>
    dsimp only
    rw [unfolded_bind,path_dir,unfolded_bind,ask,unfolded_sys,Flush.path_dir,bind_assoc,bind_assoc]
    refine congrArg _ (funext fun r => ?_)
    cases r with
    | ok u =>
      change unfolded _ (sys (I := paths) (.flush_set_add (dirText buf)) >>= fun _ => _) = _
      rw [unfolded_bind,unfolded_sys]
      rfl
    | error e => rfl
  | error e =>
    dsimp only
    split
    · rw [ensure_directory,unfolded_bind,ask,unfolded_sys]
      refine congrArg _ (funext fun r => ?_)
      cases r <;> rfl
    · rfl

theorem parentsLoop_unfolded (fuel : Nat) (buf : Path) : ∀ behind : Nat,
    unfolded (bodies fuel) (parentsLoop buf behind) = Flush.parentsLoop fuel buf behind := by
  intro behind
  induction behind with
  | zero => exact makeParent_unfolded fuel buf
  | succ behind ih =>
    rw [parentsLoop,Flush.parentsLoop]
    split
    · rw [unfolded_bind,makeParent_unfolded]
      refine congrArg _ (funext fun r => ?_)
      cases r with
      | ok u => exact ih
      | error e => rfl
    · exact ih

/-- The program of `paths.c` is this one, with the code of `flush_set_add` in its place. -/
theorem path_make_parents_unfolded (fuel : Nat) (path : Path) :
    unfolded (bodies fuel) (path_make_parents path) = Flush.path_make_parents fuel path := by
  rw [path_make_parents,Flush.path_make_parents,unfolded_bind,ask,unfolded_sys]
  refine congrArg _ (funext fun r => ?_)
  cases r with
  | error e => rfl
  | ok u =>
    dsimp only
    cases strrchr path '/' with
    | none => rfl
    | some slash =>
      dsimp only
      split
      · rfl
      · exact parentsLoop_unfolded _ _ _

/-! ## The tree -/

variable {ι : Type}

/-- A tree that only this program changes. A call may fail with any error, and what a
    successful `stat` tells is true. -/
def world : System paths (FileTree ι)
  | t, .mkdir path, .ok _, t' => ∃ d n i, Holds t path d n ∧ Grows t d n i t'
  | t, .stat path, .ok st, t' => t' = t ∧ (st.kind = .directory ↔ ∃ d, Resolves t path d)
  | t, _, _, t' => t' = t

/-- A prefix of so many characters ends in front of a slash. -/
def Cut (path : Path) (i : Nat) : Prop := 0 < i ∧ path[i]? = some '/'

/-- The directory `x` was made by a call of `mkdir`, and a path of the directory that gained
    its name went to `flush_set_add` later, unless there was no memory for that path. -/
def Queued (t : FileTree ι) (evs : List (Event paths)) (x : ι) : Prop :=
  ∃ earlier path later d n, evs = earlier ++ ⟨.mkdir path,.ok ()⟩ :: later ∧ Holds t path d n ∧ t.entry d n = some x ∧
    ((∃ e rest, later = ⟨.alloc,.error e⟩ :: rest) ∨ ∃ dir, ⟨.flush_set_add dir,()⟩ ∈ later ∧ Resolves t dir d)

/-- The directories made are those that were missing of the prefixes shorter than `m`. -/
structure Made (t₀ t : FileTree ι) (path : Path) (m : Nat) (evs : List (Event paths)) : Prop where
  kept : Extends t₀ t
  there : ∀ i < m, Cut path i → ∃ d, Resolves t (path.take i) d
  made : ∀ x, t₀.node x = none → (t.node x ≠ none ↔ ∃ i < m, Cut path i ∧ Resolves t (path.take i) x)
  queued : ∀ x, t₀.node x = none → t.node x ≠ none → Queued t evs x

variable {t t' t₀ : FileTree ι} {path : Path} {m m' : Nat} {evs more : List (Event paths)}

theorem Queued.later {x : ι} (ext : Extends t t') (queued : Queued t evs x) : Queued t' (evs ++ more) x := by
  obtain ⟨earlier,path,later,d,n,split,holds,found,reason⟩ := queued
  have directory : t.node d = some .directory := by
    obtain ⟨-,-,-,inside⟩ := holds
    exact inside
  refine ⟨earlier,path,later ++ more,d,n,by rw [split]; simp,ext.holds holds,ext.entry directory found,?_⟩
  rcases reason with ⟨e,rest,rfl⟩ | ⟨dir,member,resolves⟩
  · exact .inl ⟨e,rest ++ more,rfl⟩
  · exact .inr ⟨dir,List.mem_append_left _ member,ext.resolves resolves⟩

theorem Made.start (t₀ : FileTree ι) (path : Path) (evs : List (Event paths)) : Made t₀ t₀ path 1 evs := by
  refine ⟨.refl t₀,fun i less cut => ?_,fun x fresh => ?_,fun x fresh present => absurd fresh present⟩
  · have := cut.1
    omega
  · refine ⟨fun present => absurd fresh present,?_⟩
    rintro ⟨i,less,cut,-⟩
    have := cut.1
    omega

/-- Calls that change nothing. -/
theorem Made.later (made : Made t₀ t path m evs) : Made t₀ t path m (evs ++ more) :=
  ⟨made.kept,made.there,made.made,fun x fresh present => (made.queued x fresh present).later (.refl t)⟩

/-- The next prefix is a directory that was there. -/
theorem Made.next (made : Made t₀ t path m evs) (here : Cut path m → ∃ d, Resolves t (path.take m) d) :
    Made t₀ t path (m+1) evs := by
  refine ⟨made.kept,fun i less cut => ?_,fun x fresh => ⟨fun present => ?_,?_⟩,made.queued⟩
  · rcases Nat.lt_succ_iff_lt_or_eq.mp less with less | rfl
    · exact made.there i less cut
    · exact here cut
  · obtain ⟨i,less,cut,resolves⟩ := (made.made x fresh).mp present
    exact ⟨i,Nat.lt_succ_of_lt less,cut,resolves⟩
  · rintro ⟨i,-,-,resolves⟩
    simp [resolves.2.2]

/-- The next prefix is a directory that was made, and its parent has been dealt with. -/
theorem Made.grown (made : Made t₀ t path m evs) (cut : Cut path m) {d x : ι} {n : List Char} (holds : Holds t (path.take m) d n)
    (grows : Grows t d n x t')
    (reason : (∃ e rest, more = ⟨.alloc,.error e⟩ :: rest) ∨ ∃ dir, ⟨.flush_set_add dir,()⟩ ∈ more ∧ Resolves t' dir d) :
    Made t₀ t' path (m+1) (evs ++ ⟨.mkdir (path.take m),.ok ()⟩ :: more) := by
  have ext := grows.extends
  have arrived : Resolves t' (path.take m) x := (ext.holds holds).resolves grows.named grows.made
  refine ⟨made.kept.trans ext,fun i less cut' => ?_,fun y fresh => ⟨fun present => ?_,?_⟩,fun y fresh present => ?_⟩
  · rcases Nat.lt_succ_iff_lt_or_eq.mp less with less | rfl
    · obtain ⟨e,resolves⟩ := made.there i less cut'
      exact ⟨e,ext.resolves resolves⟩
    · exact ⟨x,arrived⟩
  · by_cases new : y = x
    · exact ⟨m,Nat.lt_succ_self m,cut,by rw [new]; exact arrived⟩
    · rw [grows.others y new] at present
      obtain ⟨i,less,cut',resolves⟩ := (made.made y fresh).mp present
      exact ⟨i,Nat.lt_succ_of_lt less,cut',ext.resolves resolves⟩
  · rintro ⟨i,-,-,resolves⟩
    simp [resolves.2.2]
  · by_cases new : y = x
    · subst new
      exact ⟨evs,path.take m,more,d,n,rfl,ext.holds holds,grows.named,reason⟩
    · rw [grows.others y new] at present
      exact (made.queued y fresh present).later ext

theorem components_trailing (front : Path) : components (front ++ ['/']) = components front := by
  rw [components_slash,components_nil,List.append_nil]

/-- A prefix that `mkdir` makes does not end in a slash: without it, it was there before. -/
theorem Made.unslashed (made : Made t₀ t path m evs) (cut : Cut path m) {d : ι} {n : Path}
    (holds : Holds t (path.take m) d n) (missing : t.entry d n = none) : (path.take m).getLast? ≠ some '/' := by
  intro slash
  have inside : m < path.length := (List.getElem?_eq_some_iff.mp cut.2).1
  obtain ⟨k,rfl⟩ : ∃ k, m = k+1 := ⟨m-1,by have := cut.1; omega⟩
  have char : path[k]? = some '/' := by
    rw [List.take_add_one,List.getElem?_eq_getElem (by omega),Option.toList_some,List.getLast?_concat] at slash
    rw [List.getElem?_eq_getElem (by omega),slash]
  have split : path.take (k+1) = path.take k ++ ['/'] := by rw [List.take_add_one,char,Option.toList_some]
  cases k with
  | zero =>
    obtain ⟨names,shape,-⟩ := holds
    rw [split,components_trailing] at shape
    simp at shape
  | succ k =>
    have front : path.take (k+1) ≠ [] := by
      rw [Ne,List.take_eq_nil_iff]
      rintro (nought | empty)
      · omega
      · simp [empty] at inside
    obtain ⟨e,resolves⟩ := made.there (k+1) (Nat.lt_succ_self _) ⟨Nat.succ_pos k,char⟩
    obtain ⟨names,shape,walk,directory⟩ := holds
    rw [split,components_trailing] at shape
    rw [split,t.start_append _ front] at walk
    exact Holds.found ⟨names,shape,walk,directory⟩ resolves missing

/-- The directory that gained a name is the one that `path_dir` of the new path leads to. -/
theorem Made.parent (made : Made t₀ t path m evs) (cut : Cut path m) {d : ι} {n : Path}
    (holds : Holds t (path.take m) d n) (missing : t.entry d n = none) : Resolves t (dirText (path.take m)) d := by
  have nonempty : path.take m ≠ [] := by
    obtain ⟨names,shape,-⟩ := holds
    intro empty
    rw [empty] at shape
    simp at shape
  have base := holds_base (o := ⟨path.take m,nonempty,made.unslashed cut holds missing⟩) holds
  exact (dirText_holds t ⟨path.take m,nonempty,made.unslashed cut holds missing⟩ d).mpr (base ▸ holds)

/-! ## Runs -/

variable {h : List (Event paths)}

/-- What a round comes to, after the calls `s.2`: after a success `m` is the next prefix. -/
def Round (t₀ : FileTree ι) (path : Path) (m : Nat) (r : Except Errno Unit) (s : FileTree ι × List (Event paths)) : Prop :=
  (r = .ok () → Made t₀ s.1 path m s.2.reverse) ∧ ∃ m', Made t₀ s.1 path m' s.2.reverse

theorem Round.failed {e : Errno} {s : FileTree ι × List (Event paths)} (made : Made t₀ s.1 path m' s.2.reverse) :
    Round t₀ path m (.error e) s := ⟨fun ok => (nomatch ok),m',made⟩

theorem Round.done {s : FileTree ι × List (Event paths)} (made : Made t₀ s.1 path m s.2.reverse) :
    Round t₀ path m (.ok ()) s := ⟨fun _ => made,m,made⟩

theorem ensure_directory_round (made : Made t₀ t path m h.reverse) :
    wp (logged world) False (ensure_directory (path.take m)) (fun r s _ => Round t₀ path (m+1) r s) (t,h) () := by
  refine wp_asked (I := paths) (c := .stat (path.take m)) fun r t' answered => ?_
  cases r with
  | error e =>
    obtain rfl : t' = t := answered
    exact .failed (by simpa using made.later)
  | ok st =>
    obtain ⟨rfl,truth⟩ := answered
    have made' : Made t₀ t' path m (⟨.stat (path.take m),.ok st⟩ :: h).reverse := by simpa using made.later
    dsimp only
    by_cases directory : st.kind = .directory
    · rw [if_pos directory]
      exact .done (made'.next fun _ => truth.mp directory)
    · rw [if_neg directory]
      exact .failed made'

/-- One round makes the next prefix a directory, or fails. -/
theorem makeParent_round (made : Made t₀ t path m h.reverse) (cut : Cut path m) :
    wp (logged world) False (makeParent (path.take m)) (fun r s _ => Round t₀ path (m+1) r s) (t,h) () := by
  refine wp_asked (I := paths) (c := .mkdir (path.take m)) fun r t' answered => ?_
  cases r with
  | error e =>
    obtain rfl : t' = t := answered
    have made' : Made t₀ t' path m (⟨.mkdir (path.take m),.error e⟩ :: h).reverse := by simpa using made.later
    dsimp only
    split
    · exact ensure_directory_round made'
    · exact .failed made'
  | ok u =>
    obtain ⟨d,n,x,holds,grows⟩ := answered
    have parent := grows.extends.resolves (made.parent cut holds grows.missing)
    refine wp_asked (I := paths) (c := .alloc) fun r u answered => ?_
    obtain rfl : u = t' := answered
    cases r with
    | error e =>
      have grown := made.grown cut holds grows (.inl ⟨e,[],rfl⟩)
      exact .failed (by simpa using grown)
    | ok _ =>
      refine wp_asked (I := paths) (c := .flush_set_add (dirText (path.take m))) fun _ v answered => ?_
      obtain rfl : v = u := answered
      have queued : (⟨.flush_set_add (dirText (path.take m)),()⟩ : Event paths) ∈
          [⟨.alloc,.ok ()⟩,⟨.flush_set_add (dirText (path.take m)),()⟩] := List.mem_cons_of_mem _ List.mem_cons_self
      have grown := made.grown cut holds grows (.inr ⟨_,queued,parent⟩)
      exact .done (by simpa using grown)

theorem parentsLoop_round {last : Nat} (cut : Cut path last) : ∀ (behind : Nat) (t : FileTree ι) (h : List (Event paths)),
    behind < last → Made t₀ t path (last-behind) h.reverse →
      wp (logged world) False (parentsLoop (path.take last) behind) (fun r s _ => Round t₀ path (last+1) r s) (t,h) () := by
  have inside : last < path.length := (List.getElem?_eq_some_iff.mp cut.2).1
  have length : (path.take last).length = last := List.length_take_of_le inside.le
  intro behind
  induction behind with
  | zero => exact fun t h _ made => makeParent_round made cut
  | succ behind ih =>
    intro t h less made
    rw [parentsLoop,length]
    have char : (path.take last).getD (last-(behind+1)) '/' = '/' ↔ path[last-(behind+1)]? = some '/' := by
      rw [List.getD_eq_getElem?_getD,List.getElem?_take_of_lt (by omega),List.getElem?_eq_getElem (by omega)]
      simp
    have next : last-(behind+1)+1 = last-behind := by omega
    by_cases slash : (path.take last).getD (last-(behind+1)) '/' = '/'
    · rw [if_pos slash,List.take_take,Nat.min_eq_left (by omega)]
      refine wp_seq (makeParent_round made ⟨by omega,char.mp slash⟩) fun r s _ round => ?_
      obtain ⟨t',h'⟩ := s
      cases r with
      | ok u => exact ih t' h' (by omega) (next ▸ round.1 rfl)
      | error e =>
        obtain ⟨m',made'⟩ := round.2
        exact .failed made'
    · rw [if_neg slash]
      exact ih t h (by omega) (next ▸ made.next fun cut' => absurd (char.mpr cut'.2) slash)

/-- What is left to say when the program returns. -/
def Returned (t₀ : FileTree ι) (path : Path) (r : Except Errno Unit) (t : FileTree ι) (evs : List (Event paths)) : Prop :=
  ∃ m, Made t₀ t path m evs ∧ (r = .ok () → ∀ i, Cut path i → i < m)

/-- No prefix ends in front of a slash behind the last one. -/
theorem cut_last {front rest : Path} (plain : '/' ∉ rest) {i : Nat} (cut : Cut (front ++ ('/' :: rest)) i) : i ≤ front.length := by
  by_contra behind
  have char := cut.2
  rw [List.getElem?_append_right (by omega),List.getElem?_cons,if_neg (by omega)] at char
  exact plain (List.mem_of_getElem? char)

theorem path_make_parents_returned (t₀ : FileTree ι) (path : Path) :
    wp (logged world) False (path_make_parents path) (fun r s _ => Returned t₀ path r s.1 s.2.reverse) (t₀,[]) () := by
  refine wp_asked (I := paths) (c := .alloc) fun r t answered => ?_
  obtain rfl : t = t₀ := answered
  have start := Made.start t path [⟨.alloc,r⟩]
  cases r with
  | error e => exact ⟨1,start,fun ok => nomatch ok⟩
  | ok u =>
    dsimp only
    rcases path_parts path with unsplit | ⟨front,rest,plain,rfl⟩
    · rw [strrchr_none unsplit]
      exact ⟨1,start,fun _ i cut => absurd (List.mem_of_getElem? cut.2) unsplit⟩
    · rw [strrchr_last plain]
      dsimp only
      by_cases root : ('/' :: rest).length = (front ++ ('/' :: rest)).length
      · rw [if_pos root]
        refine ⟨1,start,fun _ i cut => ?_⟩
        have last := cut_last plain cut
        have positive := cut.1
        rw [List.length_append] at root
        omega
      · rw [if_neg root]
        have length : (front ++ ('/' :: rest)).length-('/' :: rest).length = front.length := by simp
        have cut : Cut (front ++ ('/' :: rest)) front.length := by
          refine ⟨?_,by simp⟩
          rw [List.length_append] at root
          omega
        have buffer : ((front ++ ('/' :: rest)).take front.length).length = front.length := by simp
        have positive := cut.1
        rw [length,buffer]
        have first : Made t t (front ++ ('/' :: rest)) (front.length-(front.length-1)) [⟨.alloc,.ok ()⟩] := by
          rw [show front.length-(front.length-1) = 1 by omega]
          exact start
        refine wp_mono (parentsLoop_round cut (front.length-1) t [⟨.alloc,.ok ()⟩] (by omega) first) fun r s _ round => ?_
        cases r with
        | error e =>
          obtain ⟨m,made⟩ := round.2
          exact ⟨m,made,fun ok => nomatch ok⟩
        | ok u => exact ⟨front.length+1,round.1 rfl,fun _ i cut' => Nat.lt_succ_of_le (cut_last plain cut')⟩

/-! ## How it ends -/

theorem within_makeParent (buf : Path) : Within (makeParent buf) 3 := by
  refine ⟨by decide,fun r => ?_⟩
  cases r with
  | ok u =>
    refine ⟨by decide,fun r => ?_⟩
    cases r with
    | ok u => exact ⟨by decide,fun _ => trivial⟩
    | error e => trivial
  | error e =>
    change Within (if e = .EEXIST then ensure_directory buf else pure (.error e)) 2
    split
    · refine ⟨by decide,fun r => ?_⟩
      cases r <;> trivial
    · trivial

theorem within_parentsLoop (buf : Path) : ∀ behind : Nat, Within (parentsLoop buf behind) (3*(behind+1)) := by
  intro behind
  induction behind with
  | zero => exact within_makeParent buf
  | succ behind ih =>
    rw [parentsLoop]
    split
    · refine ((within_makeParent _).bind fun r => ?_).mono (show 3+3*(behind+1) ≤ _ by omega)
      cases r with
      | ok u => exact ih
      | error e => trivial
    · exact ih.mono (by omega)

theorem within_path_make_parents (path : Path) : Within (path_make_parents path) (3*path.length+1) := by
  refine ⟨by omega,fun r => ?_⟩
  cases r with
  | error e => trivial
  | ok u =>
    change Within (match strrchr path '/' with | none => _ | some slash => _) _
    cases found : strrchr path '/' with
    | none => trivial
    | some slash =>
      have nonempty : path ≠ [] := by
        rintro rfl
        exact nomatch found
      have size := List.length_pos_of_ne_nil nonempty
      dsimp only
      split
      · trivial
      · refine (within_parentsLoop _ _).mono ?_
        rw [List.length_take]
        omega

/-- On any tree, `path_make_parents` ends. When it returns 0 every prefix in front of a slash is
    a directory; in any case it has made those that were missing up to some prefix, has changed
    nothing that was there, and has queued the parent of each to be flushed. -/
theorem path_make_parents_exact (t₀ : FileTree ι) (path : Path) {evs : List (Event paths)}
    {s : Config paths (FileTree ι) Unit (Except Errno Unit)} (run : Run world ⟨path_make_parents path,t₀,()⟩ evs s) :
    evs.length ≤ 3*path.length+1 ∧ s.prog ≠ .spin ∧ ∀ r, s.prog = .ret r →
      (r = .ok () → ∀ i, Cut path i → ∃ d, Resolves s.kernel (path.take i) d) ∧ Returned t₀ path r s.kernel evs := by
  obtain ⟨few,fine⟩ := (within_path_make_parents path).run run
  refine ⟨few,fine,fun r returned => ?_⟩
  have after := (wp_trace (path_make_parents_returned t₀ path) run).2 r returned
  rw [List.reverse_reverse] at after
  refine ⟨?_,after⟩
  obtain ⟨m,made,all⟩ := after
  exact fun ok i cut => made.there i (all ok i cut) cut

/-- A tree of nothing but the root. -/
def bareTree : FileTree Nat where
  root := 0
  cwd := 0
  node i := if i = 0 then some .directory else none
  entry d n := if d = 0 ∧ (n = ".".toList ∨ n = "..".toList) then some 0 else none
  root_directory := rfl
  cwd_directory := rfl
  there d n e found := by
    split_ifs at found
    simp [← Option.some.inj found]
  dot d inside := by
    split_ifs at inside with root
    simp [root]
  parent d inside := by
    split_ifs at inside with root
    exact ⟨0,by simp [root],rfl⟩

def aTree : FileTree Nat := bareTree.grow 0 "a".toList 1 rfl (by decide)

theorem bareTree_holds : Holds bareTree ['a'] 0 "a".toList := ⟨[],rfl,.here 0,rfl⟩

/-- The directory of `a/b` is made and queued in the working directory. -/
theorem path_make_parents_exact_sample :
    Run world ⟨path_make_parents ['a','/','b'],bareTree,()⟩
      [⟨.alloc,.ok ()⟩,⟨.mkdir ['a'],.ok ()⟩,⟨.alloc,.ok ()⟩,⟨.flush_set_add ['.'],()⟩] ⟨.ret (.ok ()),aTree,()⟩ ∧
    ∀ i, Cut ['a','/','b'] i → ∃ d, Resolves aTree (['a','/','b'].take i) d := by
  have grows : Grows bareTree 0 "a".toList 1 aTree := grows_grow rfl (by decide) rfl
  have run : Run world ⟨path_make_parents ['a','/','b'],bareTree,()⟩
      [⟨.alloc,.ok ()⟩,⟨.mkdir ['a'],.ok ()⟩,⟨.alloc,.ok ()⟩,⟨.flush_set_add ['.'],()⟩] ⟨.ret (.ok ()),aTree,()⟩ := by
    refine .call (show world bareTree _ _ bareTree from rfl) ?_
    refine .call (show world bareTree _ _ aTree from ⟨0,"a".toList,1,bareTree_holds,grows⟩) ?_
    exact .call (show world aTree _ _ aTree from rfl) (.call (show world aTree _ _ aTree from rfl) (.refl _))
  exact ⟨run,((path_make_parents_exact bareTree ['a','/','b'] run).2.2 (.ok ()) rfl).1 rfl⟩

end Newfile.Parents
