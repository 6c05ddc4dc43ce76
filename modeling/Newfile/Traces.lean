import Newfile.Program

/-!
What a run has asked of its system, kept beside the state of the system so that a
triple can speak of it, how much it can ask, and programs whose calls are programs.
-/
namespace Newfile.Traces
open Newfile.Program
open Prog

variable {I : Interface} {K M α β : Type} {exec : System I K} {spins : Prop}

/-- The system with the calls that it was asked, the latest first. -/
def logged (exec : System I K) : System I (K × List (Event I)) := fun s c r s' => exec s.1 c r s'.1 ∧ s'.2 = ⟨c,r⟩ :: s.2

theorem run_logged {s t : Config I K M α} {evs : List (Event I)} (run : Run exec s evs t) (h : List (Event I)) :
    Run (logged exec) ⟨s.prog,(s.kernel,h),s.memory⟩ evs ⟨t.prog,(t.kernel,evs.reverse ++ h),t.memory⟩ := by
  induction run generalizing h with
  | refl s => exact .refl _
  | @call c next k k' m r evs s answer _ ih =>
    have later := ih (⟨c,r⟩ :: h)
    rw [List.reverse_cons,List.append_assoc]
    exact .call ⟨answer,rfl⟩ later
  | mem _ ih => exact .mem (ih h)

/-- A run of the logged system is one of the system itself. -/
theorem logged_run {s t : Config I (K × List (Event I)) M α} {evs : List (Event I)} (run : Run (logged exec) s evs t) :
    Run exec ⟨s.prog,s.kernel.1,s.memory⟩ evs ⟨t.prog,t.kernel.1,t.memory⟩ ∧ t.kernel.2 = evs.reverse ++ s.kernel.2 := by
  induction run with
  | refl s => exact ⟨.refl _,rfl⟩
  | call answer _ ih => exact ⟨.call answer.1 ih.1,by rw [ih.2,answer.2,List.reverse_cons,List.append_assoc]; rfl⟩
  | mem _ ih => exact ⟨.mem ih.1,ih.2⟩

/-- A triple of the logged system tells of every run, the unfinished ones of no loop that
    is stuck. -/
theorem wp_trace {p : Prog I M α} {Q : α → K × List (Event I) → M → Prop} {k : K} {m : M}
    (before : wp (logged exec) False p Q (k,[]) m) {evs : List (Event I)} {t : Config I K M α} (run : Run exec ⟨p,k,m⟩ evs t) :
    t.prog ≠ .spin ∧ ∀ a, t.prog = .ret a → Q a (t.kernel,evs.reverse) t.memory := by
  have after := wp_run (run_logged run []) before
  rw [List.append_nil] at after
  constructor
  · intro stuck
    rw [stuck] at after
    exact after
  · intro a returned
    rw [returned] at after
    exact after

/-- The rule for one call. -/
theorem wp_asked {c : I.Call} {f : I.Res c → Prog I M α} {Q : α → K × List (Event I) → M → Prop} {k : K} {h : List (Event I)} {m : M}
    (answered : ∀ r k', exec k c r k' → wp (logged exec) spins (f r) Q (k',⟨c,r⟩ :: h) m) :
    wp (logged exec) spins (sys c >>= f) Q (k,h) m := by
  rintro r ⟨k',h'⟩ ⟨answer,rfl⟩
  exact answered r k' answer

/-! ## How many calls there are -/

/-- The program ends after so many calls at most, whatever is answered. -/
def Within : Prog I M α → Nat → Prop
  | .ret _, _ => True
  | .call _ next, n => 0 < n ∧ ∀ r, Within (next r) (n-1)
  | .mem _ next, n => ∀ m, Within (next m) n
  | .exit, _ => True
  | .spin, _ => False

theorem Within.mono {p : Prog I M α} {n n' : Nat} (within : Within p n) (less : n ≤ n') : Within p n' := by
  induction p generalizing n n' with
  | ret a => trivial
  | call c next ih =>
    obtain ⟨more,rest⟩ := within
    exact ⟨by omega,fun r => ih r (rest r) (by omega)⟩
  | mem f next ih => exact fun m => ih m (within m) less
  | exit => trivial
  | spin => exact within

theorem Within.bind {p : Prog I M α} {f : α → Prog I M β} {n n' : Nat} (first : Within p n) (rest : ∀ a, Within (f a) n') :
    Within (p >>= f) (n+n') := by
  induction p generalizing n with
  | ret a => exact (rest a).mono (Nat.le_add_left _ _)
  | call c next ih =>
    obtain ⟨more,later⟩ := first
    refine ⟨by omega,fun r => (ih r (later r)).mono (by omega)⟩
  | mem f next ih => exact fun m => ih m (first m)
  | exit => trivial
  | spin => exact first

theorem Within.run {s t : Config I K M α} {evs : List (Event I)} {n : Nat} (run : Run exec s evs t) (within : Within s.prog n) :
    evs.length ≤ n ∧ t.prog ≠ .spin := by
  induction run generalizing n with
  | refl s => exact ⟨Nat.zero_le _,fun stuck => by rw [stuck] at within; exact within⟩
  | @call c next k k' m r evs s answer _ ih =>
    obtain ⟨more,rest⟩ := within
    obtain ⟨few,fine⟩ := ih (rest r)
    exact ⟨by rw [List.length_cons]; omega,fine⟩
  | mem _ ih => exact ih (within _)

/-! ## Calls that are programs -/

variable {J : Interface} {N : Type}

/-- The program with a program for each call. -/
def unfolded (body : (c : I.Call) → Prog J N (I.Res c)) : Prog I Unit α → Prog J N α
  | .ret a => .ret a
  | .call c next => body c >>= fun r => unfolded body (next r)
  | .mem _ next => unfolded body (next ())
  | .exit => .exit
  | .spin => .spin

theorem unfolded_bind (body : (c : I.Call) → Prog J N (I.Res c)) (p : Prog I Unit α) (f : α → Prog I Unit β) :
    unfolded body (p >>= f) = unfolded body p >>= fun a => unfolded body (f a) := by
  induction p with
  | ret a => rfl
  | call c next ih =>
    simp only [call_bind,unfolded,bind_assoc]
    exact congrArg _ (funext ih)
  | mem g next ih => exact ih ()
  | exit => rfl
  | spin => rfl

theorem unfolded_sys (body : (c : I.Call) → Prog J N (I.Res c)) (c : I.Call) : unfolded body (sys c) = body c :=
  bind_ret _

end Newfile.Traces
