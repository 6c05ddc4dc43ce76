import Newfile.Simulation

/-!
Several programs on one system, each with a memory of its own. Their calls fall
into one another in any order, every single call being answered at once. Programs
that each follow a protocol keep every invariant that their moves keep
(`follows_runs`), and what changes on the system between two calls of one of them
is the work of a call of another (`runs_found`).
-/
namespace Newfile.Crowds
open Newfile.Program Newfile.Program.Prog Newfile.Simulation Function

variable {I : Interface} {K M G α ι : Type} [DecidableEq ι]

/-- The programs in the middle of their runs. -/
structure Crowd (ι : Type) (I : Interface) (K M α : Type) where
  kernel : K
  prog : ι → Prog I M α
  memory : ι → M

/-- A run of all, with the calls in order, each with the program that made it. -/
inductive Runs (exec : System I K) : Crowd ι I K M α → List (ι × Event I) → Crowd ι I K M α → Prop
  | refl (s) : Runs exec s [] s
  | call {s t : Crowd ι I K M α} {i : ι} {c : I.Call} {next : I.Res c → Prog I M α} {k' : K} {r : I.Res c} {evs}
      (next_ : s.prog i = .call c next) (answer : exec s.kernel c r k')
      (rest : Runs exec ⟨k',update s.prog i (next r),s.memory⟩ evs t) : Runs exec s ((i,⟨c,r⟩) :: evs) t
  | mem {s t : Crowd ι I K M α} {i : ι} {f : M → M} {next : M → Prog I M α} {evs} (next_ : s.prog i = .mem f next)
      (rest : Runs exec ⟨s.kernel,update s.prog i (next (f (s.memory i))),update s.memory i (f (s.memory i))⟩ evs t) :
      Runs exec s evs t

/-- The calls of one program. -/
def own (i : ι) (evs : List (ι × Event I)) : List (Event I) := (evs.filter fun x => x.1 = i).map (·.2)

@[simp] theorem own_nil (i : ι) : own i ([] : List (ι × Event I)) = [] := rfl

@[simp] theorem own_append (i : ι) (evs evs' : List (ι × Event I)) : own i (evs ++ evs') = own i evs ++ own i evs' := by
  simp [own]

@[simp] theorem own_self (i : ι) (e : Event I) : own i [(i,e)] = [e] := by simp [own]

theorem own_other {i j : ι} (other : j ≠ i) (e : Event I) : own i [(j,e)] = [] := by simp [own,other]

/-- A call of a program stands in the trace between its calls before and after. -/
theorem own_split {i : ι} {before after : List (Event I)} {e : Event I} : ∀ {evs : List (ι × Event I)},
    own i evs = before ++ e :: after → ∃ pre mid, evs = pre ++ (i,e) :: mid ∧ own i pre = before ∧ own i mid = after := by
  intro evs
  induction evs generalizing before with
  | nil => simp
  | cons x evs ih =>
    intro whole
    by_cases mine : x.1 = i
    · obtain ⟨j,e'⟩ := x
      obtain rfl : j = i := mine
      rw [← List.singleton_append,own_append,own_self,List.singleton_append] at whole
      cases before with
      | nil =>
        obtain ⟨rfl,same⟩ := List.cons.inj whole
        exact ⟨[],evs,rfl,rfl,same⟩
      | cons e'' before =>
        obtain ⟨rfl,same⟩ := List.cons.inj whole
        obtain ⟨pre,mid,rfl,one,two⟩ := ih same
        refine ⟨(j,e') :: pre,mid,rfl,?_,two⟩
        rw [← List.singleton_append,own_append,own_self,one,List.singleton_append]
    · obtain ⟨j,e'⟩ := x
      rw [← List.singleton_append,own_append,own_other mine,List.nil_append] at whole
      obtain ⟨pre,mid,rfl,one,two⟩ := ih whole
      refine ⟨(j,e') :: pre,mid,rfl,?_,two⟩
      rw [← List.singleton_append,own_append,own_other mine,List.nil_append,one]

theorem own_mem {i : ι} {x : ι × Event I} {evs : List (ι × Event I)} (member : x ∈ evs) (mine : x.1 = i) : x.2 ∈ own i evs := by
  rw [own,List.mem_map]
  exact ⟨x,by simpa [mine] using member,rfl⟩

theorem Runs.trans {exec : System I K} {s t u : Crowd ι I K M α} {evs evs' : List (ι × Event I)} (one : Runs exec s evs t)
    (two : Runs exec t evs' u) : Runs exec s (evs ++ evs') u := by
  induction one with
  | refl => exact two
  | call next_ answer _ ih => exact .call next_ answer (ih two)
  | mem next_ _ ih => exact .mem next_ (ih two)

/-- A run can be cut between any two calls. -/
theorem Runs.cut {exec : System I K} {s u : Crowd ι I K M α} {evs evs' : List (ι × Event I)} (run : Runs exec s (evs ++ evs') u) :
    ∃ t, Runs exec s evs t ∧ Runs exec t evs' u := by
  generalize whole : evs ++ evs' = all at run
  induction run generalizing evs with
  | refl s =>
    obtain ⟨rfl,rfl⟩ := List.append_eq_nil_iff.mp whole
    exact ⟨s,.refl s,.refl s⟩
  | call next_ answer rest ih =>
    cases evs with
    | nil =>
      obtain rfl : evs' = _ := whole
      exact ⟨_,.refl _,.call next_ answer rest⟩
    | cons e evs =>
      obtain ⟨rfl,same⟩ := List.cons.inj whole
      obtain ⟨t,one,two⟩ := ih same
      exact ⟨t,.call next_ answer one,two⟩
  | mem next_ rest ih =>
    obtain ⟨t,one,two⟩ := ih whole
    exact ⟨t,.mem next_ one,two⟩

/-- One call, and steps on the memories before and after. -/
theorem Runs.one {exec : System I K} {s t : Crowd ι I K M α} {x : ι × Event I} (run : Runs exec s [x] t) :
    exec s.kernel x.2.call x.2.res t.kernel := by
  have still : ∀ {s t : Crowd ι I K M α} {evs}, Runs exec s evs t → evs = [] → t.kernel = s.kernel := by
    intro s t evs run
    induction run with
    | refl => exact fun _ => rfl
    | call next_ answer rest ih => simp
    | mem next_ rest ih => exact ih
  generalize whole : [x] = evs at run
  induction run with
  | refl => simp at whole
  | call next_ answer rest ih =>
    obtain ⟨rfl,empty⟩ := List.cons.inj whole
    rw [still rest empty.symm]
    exact answer
  | mem next_ rest ih => exact ih whole

/-- Whatever the others do, a program is given answers that the system gives. -/
theorem Runs.alone {exec : System I K} {s t : Crowd ι I K M α} {evs : List (ι × Event I)} (run : Runs exec s evs t) (i : ι) :
    Run (fun (_ : Unit) c r _ => ∃ k k', exec k c r k') ⟨s.prog i,(),s.memory i⟩ (own i evs) ⟨t.prog i,(),t.memory i⟩ := by
  induction run with
  | refl => exact .refl _
  | @call s t j c next k' r evs next_ answer rest ih =>
    rw [← List.singleton_append,own_append]
    by_cases mine : i = j
    · subst mine
      rw [next_,own_self,List.singleton_append]
      refine @Run.call _ _ _ _ _ _ _ _ () _ _ _ _ ⟨_,_,answer⟩ ?_
      simpa using ih
    · rw [own_other (Ne.symm mine),List.nil_append]
      simpa [update_of_ne mine] using ih
  | @mem s t j f next evs next_ rest ih =>
    by_cases mine : i = j
    · subst mine
      rw [next_]
      refine .mem ?_
      simpa using ih
    · simpa [update_of_ne mine] using ih

/-- A run of one program is a run of all in which the others wait. -/
theorem Runs.part {exec : System I K} {i : ι} {u v : Config I K M α} {evs : List (Event I)} (run : Run exec u evs v) :
    ∀ {s : Crowd ι I K M α}, s.prog i = u.prog → s.kernel = u.kernel → s.memory i = u.memory →
      Runs exec s (evs.map fun e => (i,e)) ⟨v.kernel,update s.prog i v.prog,update s.memory i v.memory⟩ := by
  induction run with
  | refl u =>
    obtain ⟨p,k,m⟩ := u
    rintro ⟨_,prog,memory⟩ rfl rfl rfl
    simpa using Runs.refl _
  | @call c next k k' m r evs v answer rest ih =>
    rintro ⟨_,prog,memory⟩ next_ rfl rfl
    refine .call next_ answer ?_
    simpa using ih (s := ⟨k',update prog i (next r),memory⟩) (update_self ..) rfl rfl
  | @mem f next k m evs v rest ih =>
    rintro ⟨_,prog,memory⟩ next_ rfl rfl
    refine .mem next_ ?_
    simpa using ih (s := ⟨_,update prog i (next (f (memory i))),update memory i (f (memory i))⟩) (update_self ..) rfl (update_self ..)

/-- One program with no other beside it. -/
def crowdOf (s : Config I K M α) : Crowd Unit I K M α := ⟨s.kernel,fun _ => s.prog,fun _ => s.memory⟩

theorem Runs.of_run {exec : System I K} {s t : Config I K M α} {evs : List (Event I)} (run : Run exec s evs t) :
    Runs exec (crowdOf s) (evs.map fun e => ((),e)) (crowdOf t) := by
  have whole : ∀ {β : Type} (f : Unit → β) (b : β), update f () b = fun _ => b := by
    intro β f b
    funext i
    exact update_self _ _ _
  have part := Runs.part (i := ()) run (s := crowdOf s) rfl rfl rfl
  rw [whole,whole] at part
  exact part

/-- What is no longer found was lost by one of the calls. -/
theorem runs_lost {exec : System I K} (found : K → Prop) {s t : Crowd ι I K M α} {evs : List (ι × Event I)} (run : Runs exec s evs t)
    (there : found s.kernel) (gone : ¬found t.kernel) :
    ∃ pre x post u k, evs = pre ++ x :: post ∧ Runs exec s pre u ∧ Runs exec u (x :: post) t ∧
      exec u.kernel x.2.call x.2.res k ∧ found u.kernel ∧ ¬found k := by
  induction run with
  | refl => exact absurd there gone
  | @call s t i c next k' r evs next_ answer rest ih =>
    by_cases still : found k'
    · obtain ⟨pre,x,post,u,k,rfl,before,after,lost⟩ := ih still gone
      exact ⟨(i,⟨c,r⟩) :: pre,x,post,u,k,rfl,.call next_ answer before,after,lost⟩
    · exact ⟨[],(i,⟨c,r⟩),evs,s,k',rfl,.refl _,.call next_ answer rest,answer,there,still⟩
  | mem next_ rest ih =>
    obtain ⟨pre,x,post,u,k,rfl,before,after,lost⟩ := ih there gone
    exact ⟨pre,x,post,u,k,rfl,.mem next_ before,after,lost⟩

/-- What is found after a run and was not there before was brought about by a call. -/
theorem runs_found {exec : System I K} (found : K → Prop) {brings : (c : I.Call) → I.Res c → Prop}
    (step : ∀ {k c r k'}, exec k c r k' → ¬found k → found k' → brings c r) {s t : Crowd ι I K M α}
    {evs : List (ι × Event I)} (run : Runs exec s evs t) (absent : ¬found s.kernel) (there : found t.kernel) :
    ∃ x ∈ evs, brings x.2.call x.2.res := by
  induction run with
  | refl => exact absurd there absent
  | @call s t i c next k' r evs next_ answer rest ih =>
    by_cases now : found k'
    · exact ⟨_,List.mem_cons_self,step answer absent now⟩
    · obtain ⟨x,member,brought⟩ := ih now there
      exact ⟨x,List.mem_cons_of_mem _ member,brought⟩
  | mem next_ rest ih => exact ih absent there

/-! ## Protocols -/

/-- An invariant of the system and all protocols that every move keeps holds in every state that programs
    following their protocols reach. -/
theorem follows_runs {P : ι → Protocol I M G} {Q : ι → α → M → G → Prop} {exec : System I K}
    {J : List (ι × Event I) → K → (ι → M) → (ι → G) → Prop}
    (truth : ∀ {k c r k'} i, exec k c r k' → (P i).sane c r)
    (call : ∀ {evs k m g i c r k' g'}, J evs k m g → (∀ j, (P j).inv (m j) (g j)) → exec k c r k' →
      (P i).call (own i evs) (g i) (m i) c r g' → J (evs ++ [(i,⟨c,r⟩)]) k' m (update g i g'))
    (mem : ∀ {evs k m g i m' g'}, J evs k m g → (∀ j, (P j).inv (m j) (g j)) → (P i).mem (g i) (m i) m' g' →
      J evs k (update m i m') (update g i g'))
    {s t : Crowd ι I K M α} {evs : List (ι × Event I)} (runs : Runs exec s evs t) :
    ∀ {before : List (ι × Event I)} {g : ι → G}, J before s.kernel s.memory g → (∀ j, (P j).inv (s.memory j) (g j)) →
      (∀ j, After (P j) (s.prog j) (Q j) (own j before) (s.memory j) (g j)) →
      ∃ g', J (before ++ evs) t.kernel t.memory g' ∧ (∀ j, (P j).inv (t.memory j) (g' j)) ∧
        ∀ j, After (P j) (t.prog j) (Q j) (own j (before ++ evs)) (t.memory j) (g' j) := by
  induction runs with
  | refl s =>
    intro before g holds inv follows
    exact ⟨g,by simpa using holds,inv,by simpa using follows⟩
  | @call s t i c next k' r evs next_ answer rest ih =>
    intro before g holds inv follows
    have here := follows i
    rw [next_] at here
    obtain ⟨g',move,follows'⟩ := here (inv i) r (truth i answer)
    have inv' : ∀ j, (P j).inv (s.memory j) (update g i g' j) := by
      intro j
      by_cases mine : j = i
      · rw [mine,update_self]
        exact (P i).keeps_call (inv i) (truth i answer) move
      · rw [update_of_ne mine]
        exact inv j
    obtain ⟨g'',holds'',inv'',follows''⟩ := ih (call holds inv answer move) inv' (fun j => by
      by_cases mine : j = i
      · subst mine
        simpa using follows'
      · simpa [update_of_ne mine,own_other (Ne.symm mine)] using follows j)
    exact ⟨g'',by simpa using holds'',inv'',by simpa using follows''⟩
  | @mem s t i f next evs next_ rest ih =>
    intro before g holds inv follows
    have here := follows i
    rw [next_] at here
    obtain ⟨g',step,follows'⟩ := here (inv i)
    refine ih (mem holds inv step) (fun j => ?_) fun j => ?_
    · by_cases mine : j = i
      · subst mine
        simpa using (P j).keeps_mem (inv j) step
      · simpa [update_of_ne mine] using inv j
    · by_cases mine : j = i
      · subst mine
        simpa using follows'
      · simpa [update_of_ne mine] using follows j

end Newfile.Crowds
