import Newfile.Tree

/-!
Runs beside each other and beside other programs. Of runs without `-f` that name the
same path one at most reports success. A run removes a file that it has not made, or
renames over one, only where another program has given the name to that file between
two calls of the run that follow each other; and there it does.
-/
namespace Newfile.Races
open Newfile.Program Newfile.Posix Newfile.Process Newfile.Pending Newfile.Place Newfile.Backup Newfile.Batch
open Newfile.Effects Newfile.Simulation Newfile.Ledger Newfile.Batches Newfile.Evidence Newfile.Answers Newfile.Crowds Newfile.Agreement
open Newfile.Files Newfile.Veiled Newfile.Tree Function

/-! ## Runs without `-f` -/

section
variable {paths : List Path} {spec : FileSpec} {evs : List (Event posix)} {m m' : Memory} {g g' : Book} {c : Call} {r : posix.Res c}

/-- What was done stays done. -/
theorem move_trail (move : Move paths spec evs g m c r g') : g.trail ⊆ g'.trail := by
  cases move with
  | force | exchange => exact List.subset_cons_of_subset _ (List.subset_append_right _ _)
  | lose | twinMove | linkCommit | noReplace | linkAlso | overHolder | mkdir => exact List.subset_cons_self _ _
  | _ => exact List.Subset.refl _

theorem step_trail (step : Step g m m' g') : g.trail ⊆ g'.trail := by
  cases step with
  | settle | keep | keepOld => exact List.subset_cons_self _ _
  | _ => exact List.Subset.refl _

end

section
variable {ι : Type} [DecidableEq ι] {res : Path → Ino} {paths : ι → List Path} {spec : ι → FileSpec} {fuel : ι → Nat}
  {s t : Crowd ι posix Kernel Memory Bool} {trace : List (ι × Event posix)}

theorem update_trail {g : ι → Book} {b : Book} {i i' : ι} {d : Deed} (more : (g i').trail ⊆ b.trail) (done : d ∈ (g i).trail) :
    d ∈ (update g i' b i).trail := by
  by_cases mine : i = i'
  · subst mine
    rw [update_self]
    exact more done
  · rwa [update_of_ne mine]

/-- Any number of runs without `-f`, with their calls in any order: what was there stays. Where a run reports success
    there was nothing, and there is a file of its own, complete and here to stay; and no other run reports success of
    the same path. -/
theorem created_once (unforced : ∀ i, (spec i).force_mode = false) (sound : Sound res s.kernel) (ready : Ready fuel paths spec s)
    (runs : Runs (exec res) s trace t) :
    (∀ e n, s.kernel.names.get e = some n → t.kernel.names.get e = some n) ∧
      (∀ i p left, .report p none left ∈ (t.memory i).told → s.kernel.names.get (entry res p) = none ∧
        ∃ n, Done (spec i) (own i trace) n ∧ ∀ trace' u, Runs (exec res) t trace' u →
          u.kernel.names.get (entry res p) = some n ∧ Since (t.kernel.files n) (u.kernel.files n)) ∧
      ∀ i p left i' p' left', .report p none left ∈ (t.memory i).told → .report p' none left' ∈ (t.memory i').told →
        entry res p = entry res p' → i = i' := by
  have company : Company res paths spec := company_unforced unforced
  obtain ⟨g,underway⟩ := ready_kempt company sound ready runs
  obtain ⟨guarded,rooted⟩ := underway.more
  refine ⟨fun e n was => ?_,fun i p left told => ?_,fun i p left i' p' left' one two same => ?_⟩
  · rcases rooted.kept e n was with same | ⟨_,i,forced,_⟩
    · exact same
    · simp [unforced i] at forced
  · obtain ⟨n,deed⟩ := (underway.inv i).reports p left told
    obtain ⟨own,used,frozen,_⟩ := (guarded.filed _ veil_temp).finished i n ((underway.inv i).trail _ deed).2
    refine ⟨(rooted.done i p n deed (unforced i)).2.1,n,((underway.evident i).deeds _ deed).1,fun trace' u runs' => ⟨?_,?_⟩⟩
    · have now : Underway res paths spec (fun evs k _ g => Kempt res paths spec s.kernel evs k g ∧ .file p n ∈ (g i).trail) trace t g :=
        { underway with more := ⟨underway.more,deed⟩ }
      obtain ⟨g',later⟩ := now.runs company runs'
        (fun kempt holds inv _ answered move => ⟨kempt_call kempt.1 company sound.dirs holds inv move answered,
          update_trail (move_trail move) kempt.2⟩)
        fun kempt holds inv _ step => ⟨kempt_mem kempt.1 company holds inv step,update_trail (step_trail step) kempt.2⟩
      exact (later.more.1.2.done i p n later.more.2 (unforced i)).1
    · exact Guarded.stays company.alone sound.dirs own used frozen { underway with more := guarded } runs'
  · obtain ⟨n,deed⟩ := (underway.inv i).reports p left one
    obtain ⟨n',deed'⟩ := (underway.inv i').reports p' left' two
    exact rooted.once i p n i' p' n' deed deed' (unforced i) same

theorem created_once_sample : ∃ trace t, Runs (exec fun _ => 0) (sampleStart "a".toList {}) trace t ∧
    .report "a".toList none false ∈ (t.memory ()).told ∧ sampleKernel.names.get (0,"a".toList) = none ∧
      ∃ n, Done {} (own () trace) n ∧ t.kernel.names.get (0,"a".toList) = some n := by
  obtain ⟨trace,runs⟩ := sample_runs "a".toList {} (List.replicate 12 .done)
  have told : .report "a".toList none false ∈ (sampleEnd "a".toList {} (List.replicate 12 .done)).memory.told := by decide +kernel
  obtain ⟨_,reported,_⟩ := created_once (fun _ => rfl) sample_sound (sample_ready _ _) runs
  obtain ⟨absent,n,done,stays⟩ := reported () _ _ told
  exact ⟨trace,_,runs,told,absent,n,done,(stays [] _ (.refl _)).1⟩

end

/-! ## Among other programs -/

/-- The call gives the name to a file. -/
def Brings (res : Path → Ino) (e : Entry) : (c : Call) → posix.Res c → Prop
  | .open_excl q _, .ok _ | .link _ q, .ok _ | .linkat _ q, .ok _ | .rename _ q, .ok _ | .rename_noreplace _ q, .ok _
  | .mkdir q, .ok _ => e = entry res q
  | .rename_exchange a b, .ok _ => e = entry res a ∨ e = entry res b
  | .mkstemp _, .ok x => e = entry res x.2
  | _, _ => False

section
variable {res : Path → Ino} {k k' : Kernel} {e : Entry} {f : Ino}

/-- A name refers to another file than before only by a call that gives it one. -/
theorem exec_brings {c : Call} {r : posix.Res c} (answered : exec res k c r k') (before : k.names.get e ≠ some f)
    (now : k'.names.get e = some f) : Brings res e c r := by
  have member : e ∈ touched res ⟨c,r⟩ := by
    by_contra other
    rw [exec_touched answered other] at now
    exact before now
  cases r with
  | error err => cases c <;> simp [touched] at member
  | ok x =>
    cases c with
    | open_excl | link | linkat | mkdir | mkstemp | rename_exchange => simpa [touched,Brings] using member
    | unlink q =>
      obtain ⟨_,_,names⟩ := exec_unlink answered
      rw [names,if_pos (by simpa [touched] using member)] at now
      simp at now
    | rename p q =>
      obtain ⟨_,i,_,⟨_,stays⟩ | ⟨_,names⟩⟩ := exec_rename answered
      · exact absurd (stays ▸ now) before
      · rw [names] at now
        split at now
        · simp at now
        · exact (List.mem_pair.mp member).resolve_left ‹_›
    | rename_noreplace p q =>
      obtain ⟨_,_,i,_,names⟩ := exec_noreplace answered
      rw [names] at now
      split at now
      · simp at now
      · exact (List.mem_pair.mp member).resolve_left ‹_›
    | _ => simp [touched] at member

end

section
variable {ι : Type} [DecidableEq ι] {res : Path → Ino} {paths : List Path} {spec : FileSpec} {fuel : Nat} {i : ι}
  {s t u : Crowd ι posix Kernel Memory Bool} {trace : List (ι × Event posix)} {f : Ino}

theorem runs_next (runs : Runs (exec res) s trace t) : s.kernel.next ≤ t.kernel.next := by
  induction runs with
  | refl => exact Nat.le_refl _
  | call _ answer _ ih => exact Nat.le_trans (exec_next answer) ih
  | mem _ _ ih => exact ih

/-- What was made in the meantime has a number of this time. -/
theorem made_between (runs : Runs (exec res) s trace t) (made : Made (own i trace) f) :
    s.kernel.next ≤ f ∧ f < t.kernel.next := by
  induction runs with
  | refl =>
    obtain ⟨fd,_,⟨_,_,here⟩ | ⟨_,_,here⟩⟩ := made <;> simp at here
  | @call s t j c next k' r evs next_ answer rest ih =>
    have later : Made (own i evs) f → s.kernel.next ≤ f ∧ f < t.kernel.next := fun made =>
      ⟨Nat.le_trans (exec_next answer) (ih made).1,(ih made).2⟩
    have now : ∀ {fd : Fd}, Makes s.kernel fd k' → fd.ino = f → s.kernel.next ≤ f ∧ f < t.kernel.next := by
      rintro fd ⟨ino,more,_⟩ rfl
      rw [ino]
      exact ⟨Nat.le_refl _,Nat.lt_of_lt_of_le (more ▸ Nat.lt_succ_self _) (runs_next rest)⟩
    rw [← List.singleton_append,own_append] at made
    obtain ⟨fd,ino,⟨q,mode,here⟩ | ⟨d,mode,here⟩⟩ := made
    · rcases List.mem_append.mp here with here | here
      · by_cases mine : j = i
        · subst mine
          rw [own_self,List.mem_singleton] at here
          cases here
          exact now (exec_open_excl answer).1 ino
        · simp [own_other mine] at here
      · exact later ⟨fd,ino,.inl ⟨q,mode,here⟩⟩
    · rcases List.mem_append.mp here with here | here
      · by_cases mine : j = i
        · subst mine
          rw [own_self,List.mem_singleton] at here
          cases here
          exact now (exec_open_tmpfile answer).1 ino
        · simp [own_other mine] at here
      · exact later ⟨fd,ino,.inr ⟨d,mode,here⟩⟩
  | mem _ _ ih => exact ih made

/-- Another program has given the name to a file after the run has opened it or looked at it, and before the next call
    that is about it. -/
def Interfered (res : Path → Ino) (i : ι) (trace : List (ι × Event posix)) (q : Path) : Prop :=
  ∃ pre, ∃ e : Event posix, ∃ mid, trace = pre ++ (i,e) :: mid ∧
    ((∃ st, e = ⟨.lstat q,.ok st⟩ ∧ own i mid = []) ∨
      ∃ mode fd st r, e = ⟨.open_excl q mode,.ok fd⟩ ∧ own i mid = [⟨.fstat fd,st⟩,⟨.close fd,r⟩]) ∧
    ∃ x ∈ mid, x.1 ≠ i ∧ Brings res (entry res q) x.2.call x.2.res

/-- A run that has started among other programs. -/
structure Among (fuel : Nat) (paths : List Path) (spec : FileSpec) (i : ι) (s : Crowd ι posix Kernel Memory Bool) : Prop where
  prog : s.prog i = batch_run fuel paths spec
  memory : Started (s.memory i)

/-- What holds of the calls of a run whatever the system answers. -/
theorem Among.rightful (among : Among fuel paths spec i s) (runs : Runs (exec res) s trace t) :
    Throughout (Rightful paths spec) (own i trace) := by
  have alone := runs.alone i
  rw [among.prog] at alone
  have truth : ∀ {k : Unit} {c r} {k' : Unit}, (fun (_ : Unit) c r (_ : Unit) => ∃ k k', exec res k c r k') k c r k' → Sane c r :=
    fun ⟨_,_,answered⟩ => exec_sane answered
  obtain ⟨_,_,_,rightful,_⟩ := run_evident (@truth) among.memory alone
  exact rightful

/-- Where a run has just looked at a name or opened it, it refers to the file that the run has seen, or another program
    has interfered. -/
theorem seen_or_interfered (runs : Runs (exec res) s trace t) {q : Path} {n : Ino}
    (just : Seen (own i trace) q n ∨ ∃ looked, JustOpened (own i trace) q n looked)
    (there : t.kernel.names.get (entry res q) = some f) : f = n ∨ Interfered res i trace q := by
  by_cases same : f = n
  · exact .inl same
  -- After the call the name refers to the file that was seen.
  have brought : ∀ {pre e mid}, trace = pre ++ (i,e) :: mid →
      (∀ k k', exec res k e.call e.res k' → k'.names.get (entry res q) = some n) →
      ∃ x ∈ mid, Brings res (entry res q) x.2.call x.2.res := by
    rintro pre e mid rfl tells
    obtain ⟨s₁,_,rest⟩ := runs.cut
    rw [← List.singleton_append] at rest
    obtain ⟨s₂,one,two⟩ := rest.cut
    refine runs_found (fun k => k.names.get (entry res q) = some f) (fun answered before now => exec_brings answered before now)
      two ?_ there
    rw [tells _ _ one.one]
    exact fun equal => same (Option.some.inj equal).symm
  rcases just with ⟨before,st,whole,ino⟩ | ⟨looked,before,mode,fd,st,r,whole,ino,_⟩
  · obtain ⟨pre,mid,split_,_,silent⟩ := own_split whole
    obtain ⟨x,member,brings⟩ := brought split_ fun k k' answered => by
      rw [(exec_still rfl answered).1,exec_lstat answered,ino]
    refine .inr ⟨pre,_,mid,split_,.inl ⟨st,rfl,silent⟩,x,member,fun mine => ?_,brings⟩
    simpa [silent] using own_mem member mine
  · obtain ⟨pre,mid,split_,_,behind⟩ := own_split whole
    obtain ⟨x,member,brings⟩ := brought split_ fun k k' answered => by
      rw [(exec_open_excl answered).2.2.1,if_pos rfl,ino]
    refine .inr ⟨pre,_,mid,split_,.inr ⟨mode,fd,st,r,rfl,behind⟩,x,member,fun mine => ?_,brings⟩
    have here := own_mem member mine
    rw [behind] at here
    rcases List.mem_cons.mp here with same | here
    · rw [same] at brings
      exact brings.elim
    · rw [List.mem_singleton.mp here] at brings
      exact brings.elim

/-- The call takes the name from the file that it refers to. -/
def Takes (q : Path) : Event posix → Prop
  | ⟨.unlink q',.ok _⟩ | ⟨.rename _ q',.ok _⟩ => q' = q
  | ⟨.rename_exchange a q',.ok _⟩ => q' = q ∨ a = q
  | _ => False

/-- A run without `-f` takes a name from no file but its own, unless another program gives the name to a file just
    between the call of the run that looks at it and the one that takes it. -/
theorem taken_own (unforced : spec.force_mode = false) (runs : Runs (exec res) s trace t) {e : Event posix} {q : Path}
    (rightful : Rightful paths spec (own i trace) e) (takes : Takes q e) (there : t.kernel.names.get (entry res q) = some f) :
    Made (own i trace) f ∨ Interfered res i trace q := by
  obtain ⟨_,replaced,removed,_⟩ := rightful
  obtain ⟨c,r⟩ := e
  cases r with
  | error err => cases c <;> exact absurd takes id
  | ok x =>
    cases c with
    | unlink q' =>
      obtain rfl : q' = q := takes
      rcases removed with ⟨n,seen,_,made⟩ | ⟨n,just⟩
      · rcases seen_or_interfered runs (.inl seen) there with rfl | interfered
        · exact .inl (made unforced)
        · exact .inr interfered
      · rcases seen_or_interfered runs (.inr ⟨false,just⟩) there with rfl | interfered
        · obtain ⟨before,mode,fd,st,r,whole,ino,_⟩ := just
          exact .inl ⟨fd,ino,.inl ⟨q',mode,by simp [whole]⟩⟩
        · exact .inr interfered
    | rename a q' =>
      obtain rfl : q' = q := takes
      rcases replaced with ⟨_,_,_,_,n,just⟩ | ⟨_,forced,_⟩ | ⟨_,_,forced,_⟩
      · rcases seen_or_interfered runs (.inr ⟨true,just⟩) there with rfl | interfered
        · obtain ⟨before,mode,fd,st,r,whole,ino,_⟩ := just
          exact .inl ⟨fd,ino,.inl ⟨q',mode,by simp [whole]⟩⟩
        · exact .inr interfered
      · simp [unforced] at forced
      · simp [unforced] at forced
    | rename_exchange a q' =>
      obtain ⟨_,forced,_⟩ := replaced
      simp [unforced] at forced
    | _ => exact absurd takes id

/-- No other program gives a name to a file just between the call of the run that looks at it and the one that takes
    it. -/
def Undisturbed (res : Path → Ino) (i : ι) (trace : List (ι × Event posix)) : Prop :=
  ∀ pre e post q, trace = pre ++ (i,e) :: post → Takes q e → ¬ Interfered res i pre q

/-- The run moves a file from one of its temporary names. -/
def MovesAway (res : Path → Ino) (paths : List Path) (e : Entry) : Event posix → Prop
  | ⟨.rename a _,.ok _⟩ | ⟨.rename_noreplace a _,.ok _⟩ => Temporary paths a ∧ e = entry res a
  | _ => False

/-- A call that takes a file from a name takes it from an operand or moves it away. -/
theorem lost_takes {k k' : Kernel} {pre : List (Event posix)} {e : Entry} {c : Call} {r : posix.Res c}
    (unforced : spec.force_mode = false) (rightful : Rightful paths spec pre ⟨c,r⟩)
    (answered : exec res k c r k') (there : k.names.get e = some f) (lost : k'.names.get e ≠ some f) :
    (∃ q, e = entry res q ∧ Takes q ⟨c,r⟩) ∨ MovesAway res paths e ⟨c,r⟩ := by
  have member : e ∈ touched res ⟨c,r⟩ := by
    by_contra other
    rw [exec_touched answered other] at lost
    exact lost there
  -- The name was there already, so it was not made.
  have made : ∀ {q}, k.names.get (entry res q) = none → e ≠ entry res q := by
    rintro q absent rfl
    simp [there] at absent
  obtain ⟨named,replaced,_⟩ := rightful
  cases r with
  | error err => cases c <;> simp [touched] at member
  | ok x =>
    cases c with
    | open_excl q => exact absurd (List.mem_singleton.mp member) (made (exec_open_excl answered).2.1)
    | linkat fd q => exact absurd (List.mem_singleton.mp member) (made (exec_linkat answered).2.1)
    | mkdir q => exact absurd (List.mem_singleton.mp member) (made (exec_mkdir answered).2.2.1)
    | link p q =>
      obtain ⟨_,absent,_⟩ := exec_link answered
      exact absurd (List.mem_singleton.mp member) (made absent)
    | mkstemp p => exact named.elim
    | unlink q => exact .inl ⟨q,List.mem_singleton.mp member,rfl⟩
    | rename a b =>
      rcases List.mem_pair.mp member with source | target
      · rcases replaced with ⟨_,_,temporary,_⟩ | ⟨_,forced,_⟩ | ⟨_,_,forced,_⟩
        · exact .inr ⟨temporary,source⟩
        · simp [unforced] at forced
        · simp [unforced] at forced
      · exact .inl ⟨b,target,rfl⟩
    | rename_noreplace a b =>
      obtain ⟨_,absent,_⟩ := exec_noreplace answered
      rcases List.mem_pair.mp member with source | target
      · exact .inr ⟨named.2.2.1,source⟩
      · exact absurd target (made absent)
    | rename_exchange a b =>
      obtain ⟨_,forced,_⟩ := replaced
      simp [unforced] at forced
    | _ => simp [touched] at member

/-- A run without `-f` among any other programs, of which none gives a name to a file just between the call of the run
    that looks at it and the one that takes it: the run removes and replaces no file but its own. So a file that it has
    not made stays where it is, until another program changes the name, or the run moves it away by what it takes for a
    temporary name of its own. -/
theorem foreign_kept (unforced : spec.force_mode = false) (among : Among fuel paths spec i s) (runs : Runs (exec res) s trace t)
    (undisturbed : Undisturbed res i trace) :
    (∀ pre e post q u f, trace = pre ++ (i,e) :: post → Takes q e → Runs (exec res) s pre u →
      Runs (exec res) u ((i,e) :: post) t → u.kernel.names.get (entry res q) = some f → Made (own i pre) f) ∧
    ∀ pre post u e f, trace = pre ++ post → Runs (exec res) s pre u → Runs (exec res) u post t →
      u.kernel.names.get e = some f → ¬ Made (own i trace) f →
      t.kernel.names.get e = some f ∨ ∃ x ∈ post, x.1 ≠ i ∧ e ∈ touched res x.2 ∨ x.1 = i ∧ MovesAway res paths e x.2 := by
  have rightful : ∀ {pre e post}, trace = pre ++ (i,e) :: post → Rightful paths spec (own i pre) e := by
    rintro pre e post rfl
    refine among.rightful runs _ _ (own i post) ?_
    rw [← List.singleton_append,own_append,own_append,own_self,List.singleton_append]
  have first : ∀ pre e post q u f, trace = pre ++ (i,e) :: post → Takes q e → Runs (exec res) s pre u →
      u.kernel.names.get (entry res q) = some f → Made (own i pre) f := fun pre e post q u f whole takes before there =>
    (taken_own unforced before (rightful whole) takes there).resolve_right (undisturbed pre e post q whole takes)
  refine ⟨fun pre e post q u f whole takes before _ there => first pre e post q u f whole takes before there,?_⟩
  intro pre post u e f whole before after there foreign
  by_cases still : t.kernel.names.get e = some f
  · exact .inl still
  obtain ⟨mid,⟨j,c,r⟩,rest,v,k,rfl,during,_,answered,here,lost⟩ := runs_lost (fun k => k.names.get e = some f) after there still
  refine .inr ⟨_,List.mem_append_right _ List.mem_cons_self,?_⟩
  by_cases mine : j = i
  · subst mine
    have whole' : trace = (pre ++ mid) ++ (j,⟨c,r⟩) :: rest := by rw [whole,List.append_assoc]
    rcases lost_takes unforced (rightful whole') answered here lost with ⟨q,rfl,takes⟩ | moves
    · refine absurd ?_ foreign
      obtain ⟨fd,ino,made⟩ := first _ _ _ q v f whole' takes (before.trans during) here
      refine ⟨fd,ino,?_⟩
      rw [whole',own_append]
      exact made.imp (fun ⟨q,mode,here⟩ => ⟨q,mode,List.mem_append_left _ here⟩)
        fun ⟨d,mode,here⟩ => ⟨d,mode,List.mem_append_left _ here⟩
    · exact .inr ⟨rfl,moves⟩
  · refine .inl ⟨mine,?_⟩
    by_contra other
    exact lost (by rw [exec_touched answered other]; exact here)

end

/-! ### A run without `-f` beside one with `-f` -/

/-- Two runs of one operand that have not begun, the one of `true` with `-f`. -/
def twoStart : Crowd Bool posix Kernel Memory Bool :=
  ⟨sampleKernel,fun forced => batch_run 9 ["a".toList] { force_mode := forced },fun _ => {}⟩

/-- One of them goes on while the other waits. -/
def goOn (s : Crowd Bool posix Kernel Memory Bool) (forced : Bool) (choices : List Choice) : Crowd Bool posix Kernel Memory Bool :=
  let u := play (step fun _ => 0) (s.prog forced) s.kernel (s.memory forced) choices
  ⟨u.kernel,update s.prog forced u.prog,update s.memory forced u.memory⟩

theorem goOn_runs (s : Crowd Bool posix Kernel Memory Bool) (forced : Bool) (choices : List Choice) :
    ∃ evs : List (Event posix), Runs (exec fun _ => 0) s (evs.map fun e => (forced,e)) (goOn s forced choices) := by
  obtain ⟨evs,run⟩ := play_run (step fun _ => 0) (s.prog forced) s.kernel (s.memory forced) choices
  exact ⟨evs,Runs.part run rfl rfl rfl⟩

theorem own_map (i j : Bool) (evs : List (Event posix)) : own i (evs.map fun e => (j,e)) = if j = i then evs else [] := by
  by_cases same : j = i
  · simp [own,same,List.filter_map,Function.comp_def]
  · simp [own,same,List.filter_map,Function.comp_def]

/-- The one that comes after the other is not disturbed. -/
theorem undisturbed_after (res : Path → Ino) (evs evs' : List (Event posix)) :
    Undisturbed res false ((evs.map fun e => (true,e)) ++ evs'.map fun e => (false,e)) := by
  rintro pre e post q whole takes ⟨pre',e',mid,rfl,_,x,member,other,_⟩
  have late : ∀ before : List (Bool × Event posix), (evs'.map fun e => (false,e)) = before ++ (false,e') :: mid ++ (false,e) :: post →
      False := by
    intro before split_
    have here : x ∈ evs'.map fun e => (false,e) := by
      rw [split_]
      exact List.mem_append_left _ (List.mem_append_right _ (List.mem_cons_of_mem _ member))
    obtain ⟨_,_,rfl⟩ := List.mem_map.mp here
    exact other rfl
  rw [List.append_assoc] at whole
  rcases List.append_eq_append_iff.mp whole with ⟨between,_,rest⟩ | ⟨between,first,rest⟩
  · exact late _ (by rw [rest,List.append_assoc])
  · cases between with
    | nil => exact late [] (by rw [List.nil_append] at rest ⊢; exact rest.symm)
    | cons y between =>
      obtain ⟨rfl,_⟩ := List.cons.inj rest
      have here : (false,e') ∈ evs.map fun e => (true,e) := by rw [first]; exact List.mem_append_right _ List.mem_cons_self
      simp at here

/-- The run with `-f` makes the file. -/
def forcedFirst : Crowd Bool posix Kernel Memory Bool := goOn twoStart true (sampleForced 9)

/-- The file that the run with `-f` has made is left by the other one. -/
theorem foreign_kept_sample : ∃ pre post t, Runs (exec fun _ => 0) twoStart pre forcedFirst ∧
    Runs (exec fun _ => 0) forcedFirst post t ∧ forcedFirst.kernel.names.get (0,"a".toList) = some 2 ∧
      ¬ Made (own false (pre ++ post)) 2 ∧
      (t.kernel.names.get (0,"a".toList) = some 2 ∨ ∃ x ∈ post, x.1 ≠ false ∧ (0,"a".toList) ∈ touched (fun _ => 0) x.2 ∨
        x.1 = false ∧ MovesAway (fun _ => 0) ["a".toList] (0,"a".toList) x.2) := by
  obtain ⟨evs,first⟩ := goOn_runs twoStart true (sampleForced 9)
  obtain ⟨evs',second⟩ := goOn_runs forcedFirst false [.done,.done,.fail .EEXIST]
  have there : forcedFirst.kernel.names.get (0,"a".toList) = some 2 := by decide +kernel
  have next : forcedFirst.kernel.next = 3 := by decide +kernel
  have foreign : ¬ Made (own false ((evs.map fun e => (true,e)) ++ evs'.map fun e => (false,e))) 2 := by
    rw [own_append,own_map,own_map,if_neg (by simp),if_pos rfl,List.nil_append]
    intro made
    have new := (made_between second (i := false) (by rw [own_map,if_pos rfl]; exact made)).1
    rw [next] at new
    exact absurd new (by decide)
  refine ⟨_,_,_,first,second,there,foreign,?_⟩
  have among : Among 9 ["a".toList] {} false twoStart := ⟨rfl,sample_started⟩
  exact (foreign_kept rfl among (first.trans second) (undisturbed_after _ evs evs')).2 _ _ _ _ _ rfl first second there foreign

/-- The file of the run without `-f` could not be flushed; it has looked at it, and is about to remove it. -/
def lookedFirst : Crowd Bool posix Kernel Memory Bool := goOn twoStart false (sampleFailed 2)

/-- Between the look of the run without `-f` and its removal of the name, the run with `-f` puts its file there and
    reports success; and the file is gone. -/
theorem foreign_lost : ∃ trace t u, Runs (exec fun _ => 0) twoStart trace t ∧
    Runs (exec fun _ => 0) t [(false,⟨.unlink "a".toList,.ok ()⟩)] u ∧ .report "a".toList none false ∈ (t.memory true).told ∧
      t.kernel.names.get (0,"a".toList) = some 3 ∧ ¬ Made (own false trace) 3 ∧ u.kernel.names.get (0,"a".toList) = none := by
  obtain ⟨evs,first⟩ := goOn_runs twoStart false (sampleFailed 2)
  obtain ⟨evs',second⟩ := goOn_runs lookedFirst true (sampleForced 9)
  have told : .report "a".toList none false ∈ ((goOn lookedFirst true (sampleForced 9)).memory true).told := by decide +kernel
  have there : (goOn lookedFirst true (sampleForced 9)).kernel.names.get (0,"a".toList) = some 3 := by decide +kernel
  have next : lookedFirst.kernel.next = 3 := by decide +kernel
  obtain ⟨rest,asks⟩ := upcoming_unlink (p := (goOn lookedFirst true (sampleForced 9)).prog false) (q := "a".toList) (by decide +kernel)
  obtain ⟨_,k,answered⟩ := exec_done (fun _ => 0) (goOn lookedFirst true (sampleForced 9)).kernel (.unlink "a".toList) (by decide +kernel)
  refine ⟨_,_,_,first.trans second,.call asks answered (.refl _),told,there,?_,?_⟩
  · rw [own_append,own_map,own_map,if_pos rfl,if_neg (by simp),List.append_nil]
    intro made
    have old := (made_between first (i := false) (by rw [own_map,if_pos rfl]; exact made)).2
    rw [show (goOn twoStart false (sampleFailed 2)).kernel.next = 3 from next] at old
    exact absurd old (by decide)
  · have gone := (exec_unlink answered).2.2 (entry (fun _ => 0) "a".toList)
    rw [if_pos rfl] at gone
    exact gone

end Newfile.Races
