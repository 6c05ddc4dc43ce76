import Newfile.Program

/-!
What a program asks of a system of which only the form of its answers is known:
`asks` is a triple without the state of the system that also holds every call on
the way to a condition, and `uses` says of a program what its calls and its steps
on the memory are whatever is answered. `always` is a triple with an invariant of
every state on the way, `guards` one with a condition on every call.
-/
namespace Newfile.Calls
open Newfile.Program
open Prog

variable {I : Interface} {K M α β : Type} {sane : (c : I.Call) → I.Res c → Prop} {P : I.Call → Prop}

/-- As long as the answers are `sane`, every call is as `P` says, and what is
    returned is as `Q` says. -/
def asks (sane : (c : I.Call) → I.Res c → Prop) (P : I.Call → Prop) : Prog I M α → (α → Prop) → Prop
  | .ret a, Q => Q a
  | .call c next, Q => P c ∧ ∀ r, sane c r → asks sane P (next r) Q
  | .mem f next, Q => ∀ m, asks sane P (next (f m)) Q
  | .exit, _ => True
  | .spin, _ => True

@[simp] theorem asks_ret (a : α) (Q : α → Prop) : asks sane P (.ret a : Prog I M α) Q = Q a := rfl
@[simp] theorem asks_pure (a : α) (Q : α → Prop) : asks sane P (pure a : Prog I M α) Q = Q a := rfl
@[simp] theorem asks_spin (Q : α → Prop) : asks sane P (.spin : Prog I M α) Q = True := rfl
theorem asks_sys {c : I.Call} {Q : I.Res c → Prop} (allowed : P c) (answered : ∀ r, sane c r → Q r) :
    asks sane P (sys c : Prog I M (I.Res c)) Q := ⟨allowed,answered⟩
theorem asks_get {Q : M → Prop} (known : ∀ m, Q m) : asks sane P (get : Prog I M M) Q := known
theorem asks_modify {f : M → M} {Q : Unit → Prop} (done : Q ()) : asks sane P (modify f : Prog I M Unit) Q :=
  fun _ => done

theorem asks_bind (p : Prog I M α) (f : α → Prog I M β) (Q : β → Prop) :
    asks sane P (p >>= f) Q = asks sane P p fun a => asks sane P (f a) Q := by
  induction p with
  | call c next ih =>
    simp only [call_bind,asks]
    exact congrArg (P c ∧ ·) (forall_congr fun r => forall_congr fun _ => ih r)
  | mem g next ih => exact forall_congr fun m => ih (g m)
  | _ => rfl

theorem asks_mono {p : Prog I M α} {Q Q' : α → Prop} (before : asks sane P p Q) (weaker : ∀ a, Q a → Q' a) :
    asks sane P p Q' := by
  induction p with
  | ret a => exact weaker a before
  | call c next ih => exact ⟨before.1,fun r answered => ih r (before.2 r answered)⟩
  | mem g next ih => exact fun m => ih (g m) (before m)
  | exit => trivial
  | spin => trivial

/-- A system that keeps `Inv` as long as the calls are as `P` says, and answers sanely
    while it holds, sees only such calls. -/
theorem asks_run {exec : System I K} {Inv : K → Prop}
    (stays : ∀ k c r k', Inv k → P c → exec k c r k' → sane c r ∧ Inv k')
    {s t : Config I K M α} {evs : List (Event I)} {Q : α → Prop} (run : Run exec s evs t) (holds : Inv s.kernel)
    (before : asks sane P s.prog Q) : ∀ e ∈ evs, P e.call := by
  induction run with
  | refl => simp
  | call answer _ ih =>
    obtain ⟨allowed,rest⟩ := before
    obtain ⟨answered,kept⟩ := stays _ _ _ _ holds allowed answer
    intro e member
    rcases List.mem_cons.mp member with rfl | later
    · exact allowed
    · exact ih kept (rest _ answered) e later
  | mem _ ih => exact ih holds (before _)

/-! ## Calls of any kind -/

variable {C : I.Call → Prop} {R : M → M → Prop}

/-- Every call is as `C` says, and every step on the memory as `R` says. -/
def uses (C : I.Call → Prop) (R : M → M → Prop) : Prog I M α → Prop
  | .ret _ => True
  | .call c next => C c ∧ ∀ r, uses C R (next r)
  | .mem f next => ∀ m, R m (f m) ∧ uses C R (next (f m))
  | .exit => True
  | .spin => True

theorem uses_pure (a : α) : uses C R (pure a : Prog I M α) := trivial
theorem uses_spin : uses C R (.spin : Prog I M α) := trivial
theorem uses_sys {c : I.Call} (allowed : C c) : uses C R (sys c : Prog I M (I.Res c)) := ⟨allowed,fun _ => trivial⟩
theorem uses_get (still : ∀ m, R m m) : uses C R (get : Prog I M M) := fun m => ⟨still m,trivial⟩
theorem uses_modify {f : M → M} (steps : ∀ m, R m (f m)) : uses C R (modify f : Prog I M Unit) :=
  fun m => ⟨steps m,trivial⟩

theorem uses_bind {p : Prog I M α} {f : α → Prog I M β} (first : uses C R p) (rest : ∀ a, uses C R (f a)) :
    uses C R (p >>= f) := by
  induction p with
  | ret a => exact rest a
  | call c next ih => exact ⟨first.1,fun r => ih r (first.2 r)⟩
  | mem g next ih => exact fun m => ⟨(first m).1,ih (g m) (first m).2⟩
  | exit => trivial
  | spin => trivial

/-- The rule for a part of a program that may fail. -/
theorem uses_try {ε : Type} {p : Prog I M (Except ε α)} {f : Except ε α → Prog I M β} (first : uses C R p)
    (failed : ∀ e, uses C R (f (.error e))) (fine : ∀ a, uses C R (f (.ok a))) : uses C R (p >>= f) :=
  uses_bind first fun r => by
    cases r with
    | error e => exact failed e
    | ok a => exact fine a

/-- The rule for a choice. -/
theorem uses_ite {c : Prop} [Decidable c] {p q : Prog I M α} (yes : uses C R p) (no : uses C R q) :
    uses C R (if c then p else q) := by
  split
  · exact yes
  · exact no

theorem uses_mono {C' : I.Call → Prop} {p : Prog I M α} (plain : uses C R p) (weaker : ∀ c, C c → C' c) : uses C' R p := by
  induction p with
  | ret a => trivial
  | call c next ih => exact ⟨weaker c plain.1,fun r => ih r (plain.2 r)⟩
  | mem g next ih => exact fun m => ⟨(plain m).1,ih (g m) (plain m).2⟩
  | exit => trivial
  | spin => trivial

/-! ## Invariants of every state -/

variable {exec : System I K} {Inv : K → M → Prop}

/-- `Inv` holds in every state on the way, and at a return `Q`. -/
def always (exec : System I K) (Inv : K → M → Prop) : Prog I M α → (α → K → M → Prop) → K → M → Prop
  | .ret a, Q, k, m => Inv k m ∧ Q a k m
  | .call c next, Q, k, m => Inv k m ∧ ∀ r k', exec k c r k' → always exec Inv (next r) Q k' m
  | .mem f next, Q, k, m => Inv k m ∧ always exec Inv (next (f m)) Q k (f m)
  | .exit, _, k, m => Inv k m
  | .spin, _, k, m => Inv k m

theorem always_pure {a : α} {Q : α → K → M → Prop} {k : K} {m : M} (inv : Inv k m) (done : Q a k m) :
    always exec Inv (pure a) Q k m := ⟨inv,done⟩

theorem always_sys {c : I.Call} {Q : I.Res c → K → M → Prop} {k : K} {m : M} (inv : Inv k m)
    (answered : ∀ r k', exec k c r k' → Inv k' m ∧ Q r k' m) : always exec Inv (sys c) Q k m := ⟨inv,answered⟩

theorem always_modify {f : M → M} {Q : Unit → K → M → Prop} {k : K} {m : M} (inv : Inv k m) (inv' : Inv k (f m))
    (done : Q () k (f m)) : always exec Inv (modify f) Q k m := ⟨inv,inv',done⟩

theorem always_inv {p : Prog I M α} {Q : α → K → M → Prop} {k : K} {m : M} (holds : always exec Inv p Q k m) :
    Inv k m := by
  cases p <;> first | exact holds.1 | exact holds

theorem always_mono {p : Prog I M α} {Q Q' : α → K → M → Prop} {k : K} {m : M} (before : always exec Inv p Q k m)
    (weaker : ∀ a k m, Q a k m → Q' a k m) : always exec Inv p Q' k m := by
  induction p generalizing k m with
  | ret a => exact ⟨before.1,weaker a k m before.2⟩
  | call c next ih => exact ⟨before.1,fun r k' answer => ih r (before.2 r k' answer)⟩
  | mem g next ih => exact ⟨before.1,ih (g m) before.2⟩
  | exit => exact before
  | spin => exact before

/-- The rule for a part of a program whose triple is known. -/
theorem always_seq {p : Prog I M α} {f : α → Prog I M β} {S : α → K → M → Prop} {Q : β → K → M → Prop} {k : K} {m : M}
    (first : always exec Inv p S k m) (rest : ∀ a k m, S a k m → always exec Inv (f a) Q k m) :
    always exec Inv (p >>= f) Q k m := by
  induction p generalizing k m with
  | ret a => exact rest a k m first.2
  | call c next ih => exact ⟨first.1,fun r k' answer => ih r (first.2 r k' answer)⟩
  | mem g next ih => exact ⟨first.1,ih (g m) first.2⟩
  | exit => exact first
  | spin => exact first

theorem always_run {s t : Config I K M α} {evs : List (Event I)} {Q : α → K → M → Prop} (run : Run exec s evs t)
    (before : always exec Inv s.prog Q s.kernel s.memory) : always exec Inv t.prog Q t.kernel t.memory := by
  induction run with
  | refl => exact before
  | call answer _ ih => exact ih (before.2 _ _ answer)
  | mem _ ih => exact ih before.2

/-- A system that answers in more ways has the same runs and others. -/
theorem Run.mono {exec' : System I K} (more : ∀ k c r k', exec k c r k' → exec' k c r k') {s t : Config I K M α}
    {evs : List (Event I)} (run : Run exec s evs t) : Run exec' s evs t := by
  induction run with
  | refl s => exact .refl s
  | call answer _ ih => exact .call (more _ _ _ _ answer) ih
  | mem _ ih => exact .mem ih

/-- A program of plain calls and steps keeps what each of them keeps. -/
theorem always_uses {p : Prog I M α} {S : K → M → Prop} (plain : uses C R p) (inside : ∀ k m, S k m → Inv k m)
    (call : ∀ k m c r k', S k m → C c → exec k c r k' → S k' m) (mem : ∀ k m m', S k m → R m m' → S k m') {k : K} {m : M}
    (holds : S k m) : always exec Inv p (fun _ k' m' => S k' m') k m := by
  induction p generalizing k m with
  | ret a => exact ⟨inside k m holds,holds⟩
  | call c next ih =>
    exact ⟨inside k m holds,fun r k' answer => ih r (plain.2 r) (call k m c r k' holds plain.1 answer)⟩
  | mem g next ih => exact ⟨inside k m holds,ih (g m) (plain m).2 (mem k m (g m) holds (plain m).1)⟩
  | exit => exact inside k m holds
  | spin => exact inside k m holds

/-! ## Conditions on calls -/

variable {G : K → M → I.Call → Prop}

/-- Every call is as `G` says of the state in which it is made, and at a return `Q`. -/
def guards (exec : System I K) (G : K → M → I.Call → Prop) : Prog I M α → (α → K → M → Prop) → K → M → Prop
  | .ret a, Q, k, m => Q a k m
  | .call c next, Q, k, m => G k m c ∧ ∀ r k', exec k c r k' → guards exec G (next r) Q k' m
  | .mem f next, Q, k, m => guards exec G (next (f m)) Q k (f m)
  | .exit, _, _, _ => True
  | .spin, _, _, _ => True

theorem guards_pure {a : α} {Q : α → K → M → Prop} {k : K} {m : M} (done : Q a k m) : guards exec G (pure a) Q k m := done

theorem guards_mono {p : Prog I M α} {Q Q' : α → K → M → Prop} {k : K} {m : M} (before : guards exec G p Q k m)
    (weaker : ∀ a k m, Q a k m → Q' a k m) : guards exec G p Q' k m := by
  induction p generalizing k m with
  | ret a => exact weaker a k m before
  | call c next ih => exact ⟨before.1,fun r k' answer => ih r (before.2 r k' answer)⟩
  | mem g next ih => exact ih (g m) before
  | exit => trivial
  | spin => trivial

theorem guards_seq {p : Prog I M α} {f : α → Prog I M β} {S : α → K → M → Prop} {Q : β → K → M → Prop} {k : K} {m : M}
    (first : guards exec G p S k m) (rest : ∀ a k m, S a k m → guards exec G (f a) Q k m) :
    guards exec G (p >>= f) Q k m := by
  induction p generalizing k m with
  | ret a => exact rest a k m first
  | call c next ih => exact ⟨first.1,fun r k' answer => ih r (first.2 r k' answer)⟩
  | mem g next ih => exact ih (g m) first
  | exit => trivial
  | spin => trivial

theorem guards_run {s t : Config I K M α} {evs : List (Event I)} {Q : α → K → M → Prop} (run : Run exec s evs t)
    (before : guards exec G s.prog Q s.kernel s.memory) : guards exec G t.prog Q t.kernel t.memory := by
  induction run with
  | refl => exact before
  | call answer _ ih => exact ih (before.2 _ _ answer)
  | mem _ ih => exact ih before

/-- A condition on the calls alone holds of every call of a run. -/
theorem guards_calls {s t : Config I K M α} {evs : List (Event I)} {Q : α → K → M → Prop} (run : Run exec s evs t)
    (before : guards exec (fun _ _ c => C c) s.prog Q s.kernel s.memory) : ∀ e ∈ evs, C e.call := by
  induction run with
  | refl => simp
  | call answer _ ih =>
    intro e member
    rcases List.mem_cons.mp member with rfl | later
    · exact before.1
    · exact ih (before.2 _ _ answer) e later
  | mem _ ih => exact ih before

/-- A program of calls that pass in any state keeps what its calls and its steps on the
    memory keep. -/
theorem guards_uses {p : Prog I M α} {S : K → M → Prop} (plain : uses C R p) (passes : ∀ k m c, C c → G k m c)
    (call : ∀ k m c r k', S k m → C c → exec k c r k' → S k' m) (mem : ∀ k m m', S k m → R m m' → S k m') {k : K} {m : M}
    (holds : S k m) : guards exec G p (fun _ k' m' => S k' m') k m := by
  induction p generalizing k m with
  | ret a => exact holds
  | call c next ih =>
    exact ⟨passes k m c plain.1,fun r k' answer => ih r (plain.2 r) (call k m c r k' holds plain.1 answer)⟩
  | mem g next ih => exact ih (g m) (plain m).2 (mem k m (g m) holds (plain m).1)
  | exit => trivial
  | spin => trivial

/-- What every call keeps that is as `G` says holds all along a run of such calls. -/
theorem guards_keeps {J : K → Prop} (keeps : ∀ k m c r k', J k → G k m c → exec k c r k' → J k') {s t : Config I K M α}
    {evs : List (Event I)} {Q : α → K → M → Prop} (run : Run exec s evs t) (before : guards exec G s.prog Q s.kernel s.memory)
    (holds : J s.kernel) : J t.kernel := by
  induction run with
  | refl => exact holds
  | call answer _ ih => exact ih (before.2 _ _ answer) (keeps _ _ _ _ _ holds before.1 answer)
  | mem _ ih => exact ih before holds

end Newfile.Calls
