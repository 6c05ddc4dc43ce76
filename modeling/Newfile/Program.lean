import Mathlib

/-!
Programs as trees of calls to a system and steps on a memory. A program runs
against a system that answers each call in one of several ways; `wp` is what must
hold before for a property to hold after every run, and `Follows` says that every
run is accepted by a protocol that sees only the calls, their answers and the
memory.
-/
namespace Newfile.Program
universe u

/-- The calls that a system answers, with the type of each answer. -/
structure Interface where
  Call : Type
  Res : Call → Type

/-- A program: calls, steps on the memory, and the ends other than a return. -/
inductive Prog (I : Interface) (M α : Type) where
  | ret (a : α)
  | call (c : I.Call) (next : I.Res c → Prog I M α)
  | mem (f : M → M) (next : M → Prog I M α)
  /-- The program has ended itself. -/
  | exit
  /-- A loop has used up the rounds that it was given. -/
  | spin

namespace Prog
variable {I : Interface} {M α β : Type}

def bind : Prog I M α → (α → Prog I M β) → Prog I M β
  | ret a, f => f a
  | call c next, f => call c fun r => (next r).bind f
  | mem g next, f => mem g fun m => (next m).bind f
  | exit, _ => exit
  | spin, _ => spin

instance : Monad (Prog I M) where
  pure := ret
  bind := bind

theorem pure_eq (a : α) : (pure a : Prog I M α) = ret a := rfl

@[simp] theorem ret_bind (a : α) (f : α → Prog I M β) : (ret a : Prog I M α) >>= f = f a := rfl
@[simp] theorem call_bind (c : I.Call) (next : I.Res c → Prog I M α) (f : α → Prog I M β) :
    call c next >>= f = call c fun r => next r >>= f := rfl
@[simp] theorem mem_bind (g : M → M) (next : M → Prog I M α) (f : α → Prog I M β) :
    mem g next >>= f = mem g fun m => next m >>= f := rfl
@[simp] theorem exit_bind (f : α → Prog I M β) : (exit : Prog I M α) >>= f = exit := rfl
@[simp] theorem spin_bind (f : α → Prog I M β) : (spin : Prog I M α) >>= f = spin := rfl

theorem bind_ret (p : Prog I M α) : p >>= ret = p := by
  induction p with
  | call c next ih => exact congrArg (call c) (funext ih)
  | mem g next ih => exact congrArg (mem g) (funext ih)
  | _ => rfl

theorem bind_assoc {γ : Type} (p : Prog I M α) (f : α → Prog I M β) (g : β → Prog I M γ) :
    p >>= f >>= g = p >>= fun a => f a >>= g := by
  induction p with
  | call c next ih => exact congrArg (call c) (funext ih)
  | mem h next ih => exact congrArg (mem h) (funext ih)
  | _ => rfl

instance : LawfulMonad (Prog I M) := LawfulMonad.mk' _ bind_ret (fun _ _ => rfl) bind_assoc

end Prog
open Prog

variable {I : Interface} {K M α β : Type}

/-- One call to the system. -/
def sys (c : I.Call) : Prog I M (I.Res c) := call c ret
/-- The memory as it stands. -/
def get : Prog I M M := mem id ret
/-- One step on the memory. -/
def modify (f : M → M) : Prog I M Unit := mem f fun _ => ret ()

/-! ## Runs -/

/-- What a system may answer to a call, and how it then stands. -/
abbrev System (I : Interface) (K : Type) := K → (c : I.Call) → I.Res c → K → Prop

/-- A call with its answer. -/
structure Event (I : Interface) where
  call : I.Call
  res : I.Res call

/-- A program in the middle of a run. -/
structure Config (I : Interface) (K M α : Type) where
  prog : Prog I M α
  kernel : K
  memory : M

/-- A run, with the calls on its way in order. -/
inductive Run (exec : System I K) : Config I K M α → List (Event I) → Config I K M α → Prop
  | refl (s) : Run exec s [] s
  | call {c : I.Call} {next : I.Res c → Prog I M α} {k k' : K} {m : M} {r : I.Res c} {evs s}
      (answer : exec k c r k') (rest : Run exec ⟨next r,k',m⟩ evs s) :
      Run exec ⟨.call c next,k,m⟩ (⟨c,r⟩ :: evs) s
  | mem {f : M → M} {next : M → Prog I M α} {k : K} {m : M} {evs s}
      (rest : Run exec ⟨next (f m),k,f m⟩ evs s) : Run exec ⟨.mem f next,k,m⟩ evs s

theorem Run.trans {exec : System I K} {s t u : Config I K M α} {evs evs' : List (Event I)}
    (one : Run exec s evs t) (two : Run exec t evs' u) : Run exec s (evs ++ evs') u := by
  induction one with
  | refl => exact two
  | call answer _ ih => exact .call answer (ih two)
  | mem _ ih => exact .mem (ih two)

/-- The run that a list of choices picks, as far as the choices go and are possible. -/
def play {Choice : Type} (step : K → (c : I.Call) → Choice → Option (I.Res c × K)) :
    Prog I M α → K → M → List Choice → Config I K M α
  | .call c next, k, m, ch :: chs =>
    match step k c ch with
    | some (r,k') => play step (next r) k' m chs
    | none => ⟨.call c next,k,m⟩
  | .mem f next, k, m, chs => play step (next (f m)) k (f m) chs
  | p, k, m, _ => ⟨p,k,m⟩

/-- The calls of that run. -/
def played {Choice : Type} (step : K → (c : I.Call) → Choice → Option (I.Res c × K)) :
    Prog I M α → K → M → List Choice → List (Event I)
  | .call c next, k, m, ch :: chs =>
    match step k c ch with
    | some (r,k') => ⟨c,r⟩ :: played step (next r) k' m chs
    | none => []
  | .mem f next, k, m, chs => played step (next (f m)) k (f m) chs
  | _, _, _, _ => []

/-- A list of choices picks a run of the system that answers by some choice. -/
theorem played_run {Choice : Type} (step : K → (c : I.Call) → Choice → Option (I.Res c × K)) (p : Prog I M α) (k : K)
    (m : M) (chs : List Choice) :
    Run (fun k c r k' => ∃ ch, step k c ch = some (r,k')) ⟨p,k,m⟩ (played step p k m chs) (play step p k m chs) := by
  induction p generalizing k m chs with
  | call c next ih =>
    cases chs with
    | nil => exact .refl _
    | cons ch chs =>
      cases answer : step k c ch with
      | none =>
        simp only [play,played,answer]
        exact .refl _
      | some r =>
        simp only [play,played,answer]
        exact .call ⟨ch,answer⟩ (ih r.1 r.2 m chs)
  | mem f next ih => exact .mem (ih (f m) k (f m) chs)
  | ret a => exact .refl _
  | exit => exact .refl _
  | spin => exact .refl _

theorem play_run {Choice : Type} (step : K → (c : I.Call) → Choice → Option (I.Res c × K)) (p : Prog I M α) (k : K)
    (m : M) (chs : List Choice) :
    ∃ evs, Run (fun k c r k' => ∃ ch, step k c ch = some (r,k')) ⟨p,k,m⟩ evs (play step p k m chs) :=
  ⟨_,played_run step p k m chs⟩

/-! ## Weakest preconditions -/

/-- Every run from here that returns does so as `Q` says, and no run gets stuck in
    a loop unless `spins` allows it. -/
def wp (exec : System I K) (spins : Prop) : Prog I M α → (α → K → M → Prop) → K → M → Prop
  | .ret a, Q, k, m => Q a k m
  | .call c next, Q, k, m => ∀ r k', exec k c r k' → wp exec spins (next r) Q k' m
  | .mem f next, Q, k, m => wp exec spins (next (f m)) Q k (f m)
  | .exit, _, _, _ => True
  | .spin, _, _, _ => spins

section
variable {exec : System I K} {spins : Prop}

@[simp] theorem wp_ret (a : α) (Q : α → K → M → Prop) (k : K) (m : M) :
    wp exec spins (.ret a) Q k m = Q a k m := rfl

@[simp] theorem wp_pure (a : α) (Q : α → K → M → Prop) (k : K) (m : M) :
    wp exec spins (pure a) Q k m = Q a k m := rfl

theorem wp_bind (p : Prog I M α) (f : α → Prog I M β) (Q : β → K → M → Prop) (k : K) (m : M) :
    wp exec spins (p >>= f) Q k m = wp exec spins p (fun a k m => wp exec spins (f a) Q k m) k m := by
  induction p generalizing k m with
  | call c next ih =>
    simp only [call_bind,wp]
    exact forall_congr fun r => forall_congr fun k' => forall_congr fun _ => ih r k' m
  | mem g next ih => exact ih (g m) k (g m)
  | _ => rfl

theorem wp_get (Q : M → K → M → Prop) (k : K) (m : M) : wp exec spins get Q k m = Q m k m := rfl

theorem wp_modify (f : M → M) (Q : Unit → K → M → Prop) (k : K) (m : M) :
    wp exec spins (modify f) Q k m = Q () k (f m) := rfl

theorem wp_mono {p : Prog I M α} {Q Q' : α → K → M → Prop} {k : K} {m : M} (before : wp exec spins p Q k m)
    (weaker : ∀ a k m, Q a k m → Q' a k m) : wp exec spins p Q' k m := by
  induction p generalizing k m with
  | ret a => exact weaker a k m before
  | call c next ih => exact fun r k' answer => ih r (before r k' answer)
  | mem g next ih => exact ih (g m) before
  | exit => trivial
  | spin => exact before

/-- What holds of every run holds of the runs of a system that answers less freely. -/
theorem wp_restrict {exec' : System I K} (less : ∀ k c r k', exec' k c r k' → exec k c r k') {p : Prog I M α}
    {Q : α → K → M → Prop} {k : K} {m : M} (before : wp exec spins p Q k m) : wp exec' spins p Q k m := by
  induction p generalizing k m with
  | ret a => exact before
  | call c next ih => exact fun r k' answer => ih r (before r k' (less k c r k' answer))
  | mem g next ih => exact ih (g m) before
  | exit => trivial
  | spin => exact before

/-- The rule for a part of a program whose triple is known. -/
theorem wp_seq {p : Prog I M α} {f : α → Prog I M β} {R : α → K → M → Prop} {Q : β → K → M → Prop} {k : K} {m : M}
    (first : wp exec spins p R k m) (rest : ∀ a k m, R a k m → wp exec spins (f a) Q k m) :
    wp exec spins (p >>= f) Q k m := by
  rw [wp_bind]
  exact wp_mono first rest

theorem wp_run {s t : Config I K M α} {evs : List (Event I)} {Q : α → K → M → Prop} (run : Run exec s evs t)
    (before : wp exec spins s.prog Q s.kernel s.memory) : wp exec spins t.prog Q t.kernel t.memory := by
  induction run with
  | refl => exact before
  | call answer _ ih => exact ih (before _ _ answer)
  | mem _ ih => exact ih before

end

end Newfile.Program
