import Mathlib.Data.Nat.Digits.Defs

/-!
Positional notation, the first digit first: strings of digits of one length are
ordered as text as their values are, and a longer one without a zero in front is greater.
-/
namespace Newfile.Positional

variable {b d : Nat} {ds es : List Nat}

/-- The value of digits in base `b`. -/
def value (b : Nat) (ds : List Nat) : Nat := Nat.ofDigits b ds.reverse

theorem value_cons (b d : Nat) (ds : List Nat) : value b (d :: ds) = value b ds+b^ds.length*d := by
  simp [value,Nat.ofDigits_append]

/-- Digits of the base. -/
def Digits (b : Nat) (ds : List Nat) : Prop := ∀ d ∈ ds, d < b

theorem Digits.head (digits : Digits b (d :: ds)) : d < b := digits d List.mem_cons_self

theorem Digits.tail (digits : Digits b (d :: ds)) : Digits b ds := fun e here => digits e (List.mem_cons_of_mem d here)

theorem value_lt (digits : Digits b ds) : value b ds < b^ds.length := by
  induction ds with
  | nil => simp [value]
  | cons d ds ih =>
    have tail := ih digits.tail
    have head : b^ds.length*(d+1) ≤ b^ds.length*b := Nat.mul_le_mul_left _ digits.head
    rw [value_cons,List.length_cons,pow_succ]
    rw [Nat.mul_add,Nat.mul_one] at head
    omega

/-- The first digit decides. -/
theorem value_lt_of_head {e : Nat} (length : ds.length = es.length) (digits : Digits b ds) (less : d < e) :
    value b (d :: ds) < value b (e :: es) := by
  have tail := value_lt digits
  have head : b^ds.length*(d+1) ≤ b^ds.length*e := Nat.mul_le_mul_left _ less
  rw [value_cons,value_cons,← length]
  rw [Nat.mul_add,Nat.mul_one] at head
  omega

theorem compare_value (length : ds.length = es.length) (one : Digits b ds) (two : Digits b es) :
    compare (value b ds) (value b es) = List.compareLex compare ds es := by
  induction ds generalizing es with
  | nil =>
    obtain rfl := List.length_eq_zero_iff.mp length.symm
    rfl
  | cons d ds ih =>
    cases es with
    | nil => simp at length
    | cons e es =>
      have rest : ds.length = es.length := by simpa using length
      rw [List.compareLex_cons_cons]
      rcases Nat.lt_trichotomy d e with less | rfl | greater
      · rw [Nat.compare_eq_lt.mpr less,Nat.compare_eq_lt.mpr (value_lt_of_head rest one.tail less)]
        rfl
      · rw [Nat.compare_eq_eq.mpr rfl,Ordering.eq_then,← ih rest one.tail two.tail,value_cons,value_cons,rest]
        simp only [compare,compareOfLessAndEq,Nat.add_lt_add_iff_right,Nat.add_right_cancel_iff]
      · rw [Nat.compare_eq_gt.mpr greater,Nat.compare_eq_gt.mpr (value_lt_of_head rest.symm two.tail greater)]
        rfl

/-- A shorter string has the smaller value, when the longer one has no zero in front. -/
theorem value_lt_of_length (base : 0 < b) (shorter : ds.length < es.length) (digits : Digits b ds)
    (front : es.head? ≠ some 0) : value b ds < value b es := by
  cases es with
  | nil => simp at shorter
  | cons e es =>
    have positive : 0 < e := Nat.pos_of_ne_zero (by simpa using front)
    calc value b ds
      _ < b^ds.length := value_lt digits
      _ ≤ b^es.length := Nat.pow_le_pow_right base (Nat.le_of_lt_succ shorter)
      _ ≤ b^es.length*e := Nat.le_mul_of_pos_right _ positive
      _ ≤ value b (e :: es) := by rw [value_cons]; exact Nat.le_add_left _ _

end Newfile.Positional
