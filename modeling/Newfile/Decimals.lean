import Newfile.Numbers
import Newfile.Positional

/-!
Decimal strings as natural numbers: `digits_cmp` compares their values, and
`digits_inc` adds one to them in memory.
-/
namespace Newfile.Decimals
open Newfile.Program Newfile.Process Newfile.Backup Newfile.Numbers

variable {a b ds : List Char}

/-! ## Comparing -/

/-- Characters that a map keeps in order are compared as their images are. -/
theorem strcmp_map {f : Char → Nat} (same : ∀ c ∈ a, ∀ d ∈ b, compare (f c) (f d) = compare c.toNat d.toNat) :
    strcmp a b = List.compareLex compare (a.map f) (b.map f) := by
  induction a generalizing b with
  | nil => cases b <;> rfl
  | cons c a ih =>
    cases b with
    | nil => rfl
    | cons d b =>
      rw [List.map_cons,List.map_cons,List.compareLex_cons_cons,strcmp,same c List.mem_cons_self d List.mem_cons_self,
        ih fun c here d there => same c (List.mem_cons_of_mem _ here) d (List.mem_cons_of_mem _ there)]
      rcases Nat.lt_trichotomy c.toNat d.toNat with less | equal | greater
      · rw [if_pos less,Nat.compare_eq_lt.mpr less]
        rfl
      · rw [if_neg (by omega),if_neg (by omega),Nat.compare_eq_eq.mpr equal]
        rfl
      · rw [if_neg (by omega),if_pos greater,Nat.compare_eq_gt.mpr greater]
        rfl

theorem strcmp_toNat (a b : List Char) : strcmp a b = List.compareLex compare (a.map Char.toNat) (b.map Char.toNat) :=
  strcmp_map fun _ _ _ _ => rfl

/-- Text is ordered by `strcmp`, and equal only to itself. -/
instance : Std.TransCmp strcmp where
  eq_swap := by
    intro a b
    rw [strcmp_toNat,strcmp_toNat]
    exact Std.OrientedCmp.eq_swap
  isLE_trans := by
    intro a b c
    simp only [strcmp_toNat]
    exact Std.TransCmp.isLE_trans

instance : Std.LawfulEqCmp strcmp where
  compare_self := Std.ReflCmp.compare_self
  eq_of_compare := by
    intro a b same
    rw [strcmp_toNat] at same
    exact List.map_injective_iff.mpr (fun _ _ => Char.toNat_inj.mp) (Std.LawfulEqCmp.eq_of_compare same)

theorem number_value (ds : List Char) : number ds = Positional.value 10 (ds.map digitOf) := by
  rw [number,Positional.value,List.map_reverse]

theorem decimal_digits (decimal : Decimal ds) : Positional.Digits 10 (ds.map digitOf) := by
  intro d member
  obtain ⟨c,here,rfl⟩ := List.mem_map.mp member
  exact digitOf_lt (decimal.digits c here)

theorem decimal_head (decimal : Decimal ds) : (ds.map digitOf).head? ≠ some 0 := by
  obtain ⟨c,rest,rfl⟩ := List.exists_cons_of_ne_nil decimal.nonempty
  have digit := decimal.digits c List.mem_cons_self
  have front : c ≠ '0' := by simpa using decimal.front
  intro zero
  have nought : digitOf c = 0 := by simpa using zero
  exact front (digitOf_inj digit (by decide) nought)

/-- Digits are compared as their values are. -/
theorem strcmp_digits (one : ∀ c ∈ a, c.isDigit = true) (two : ∀ c ∈ b, c.isDigit = true) :
    strcmp a b = List.compareLex compare (a.map digitOf) (b.map digitOf) := by
  refine strcmp_map fun c here d there => ?_
  have low := (isDigit_bounds (one c here)).1
  have low' := (isDigit_bounds (two d there)).1
  have less : c.toNat - '0'.toNat < d.toNat - '0'.toNat ↔ c.toNat < d.toNat := by omega
  have same : c.toNat - '0'.toNat = d.toNat - '0'.toNat ↔ c.toNat = d.toNat := by omega
  simp only [digitOf,compare,compareOfLessAndEq,less,same]

theorem digits_cmp_number (one : Decimal a) (two : Decimal b) : digits_cmp a b = compare (number a) (number b) := by
  rw [number_value,number_value,digits_cmp]
  rcases Nat.lt_trichotomy a.length b.length with shorter | same | longer
  · have less := Positional.value_lt_of_length (by decide) (by simpa using shorter) (decimal_digits one) (decimal_head two)
    rw [if_pos (by omega),if_pos shorter,Nat.compare_eq_lt.mpr less]
  · rw [if_neg (by omega),strcmp_digits one.digits two.digits]
    exact (Positional.compare_value (by simpa using same) (decimal_digits one) (decimal_digits two)).symm
  · have less := Positional.value_lt_of_length (by decide) (by simpa using longer) (decimal_digits two) (decimal_head one)
    rw [if_pos (by omega),if_neg (by omega),Nat.compare_eq_gt.mpr less]

/-- Digits without a zero in front. -/
abbrev Numeral := {ds : List Char // Decimal ds}

def Numeral.cmp (a b : Numeral) : Ordering := digits_cmp a.1 b.1

theorem Numeral.cmp_number (a b : Numeral) : a.cmp b = compare (number a.1) (number b.1) := digits_cmp_number a.2 b.2

instance : Std.TransCmp Numeral.cmp where
  eq_swap := by
    intro a b
    rw [Numeral.cmp_number,Numeral.cmp_number]
    exact Std.OrientedCmp.eq_swap
  isLE_trans := by
    intro a b c
    simp only [Numeral.cmp_number]
    exact Std.TransCmp.isLE_trans

instance : Std.LawfulEqCmp Numeral.cmp where
  compare_self := by
    intro a
    rw [Numeral.cmp_number]
    exact Std.ReflCmp.compare_self
  eq_of_compare := by
    intro a b same
    rw [Numeral.cmp_number] at same
    exact Subtype.ext (number_inj a.2 b.2 (Nat.compare_eq_eq.mp same))

/-! ## Adding one -/

theorem incLoop_length (r : List Char) : (incLoop r).1.length = r.length := by
  induction r with
  | nil => rfl
  | cons d r ih =>
    simp only [incLoop]
    split
    · rfl
    · simp [ih]

/-- The loop of `digits_inc` runs through the digits if they are all 9. -/
theorem incLoop_carry (r : List Char) : (incLoop r).2 = true ↔ ∀ c ∈ r, c = '9' := by
  induction r with
  | nil => simp [incLoop]
  | cons d r ih =>
    by_cases nine : d = '9'
    · simp [incLoop,nine,ih]
    · simp [incLoop,nine]

/-- `digits_inc` with no word of the memory. -/
theorem digits_inc_eq (ds : List Char) :
    digits_inc ds = if (incLoop ds.reverse).2 then (do
      match ← allocate with
      | .error e => return .error e
      | .ok () => return .ok (incremented ds)) else return .ok (incremented ds) := by
  rw [digits_inc,incremented]
  obtain ⟨text,carry⟩ := incLoop ds.reverse
  cases carry <;> rfl

theorem incremented_length (ds : List Char) :
    (incremented ds).length = if (incLoop ds.reverse).2 then ds.length+1 else ds.length := by
  have length := incLoop_length ds.reverse
  rw [List.length_reverse] at length
  cases carry : (incLoop ds.reverse).2 <;> simp [incremented,carry,length]

/-! ## In memory -/

/-- The strings on the heap, by block; none in a block that is not in use. -/
abbrev Heap := Nat → Option (List Char)

def Heap.set (heap : Heap) (block : Nat) (text : Option (List Char)) : Heap := fun b => if b = block then text else heap b

/-- What `digits_inc` returns, where `*digits` points and the heap, when `realloc` returns `grown`. -/
def digits_inc_at (heap : Heap) (digits : Nat) (grown : Option Nat) : Int × Nat × Heap :=
  let (ds,carry) := incLoop ((heap digits).getD []).reverse
  let heap := heap.set digits (some ds.reverse)
  if carry then
    match grown with
    | none => (-1,digits,heap)
    | some grown => (0,grown,(heap.set digits none).set grown (some ('1' :: ds.reverse)))
  else (0,digits,heap)

/-- What `digits_inc` leaves behind: the next number in one block in place of the other,
    or the same block still pointed to. Nothing else changes. -/
structure Incremented (heap : Heap) (digits : Nat) (grown : Option Nat) (text : List Char) (after : Int × Nat × Heap) : Prop where
  fine : after.1 = 0 → after.2.2 after.2.1 = some (incremented text)
  old : after.1 = 0 → after.2.1 ≠ digits → after.2.2 digits = none
  failed : after.1 ≠ 0 → after.1 = -1 ∧ after.2.1 = digits ∧ (after.2.2 digits).isSome = true
  fails : after.1 ≠ 0 ↔ (∀ c ∈ text, c = '9') ∧ grown = none
  others : ∀ b, b ≠ digits → b ≠ after.2.1 → after.2.2 b = heap b

theorem digits_inc_at_spec {heap : Heap} {digits : Nat} {text : List Char} (here : heap digits = some text) (grown : Option Nat) :
    Incremented heap digits grown text (digits_inc_at heap digits grown) := by
  have nines := incLoop_carry text.reverse
  simp only [List.mem_reverse] at nines
  unfold digits_inc_at
  simp only [here,Option.getD_some]
  cases carry : (incLoop text.reverse).2 with
  | false =>
    simp only [carry,Bool.false_eq_true,false_iff] at nines
    refine ⟨fun _ => ?_,fun _ moved => absurd rfl moved,fun wrong => absurd rfl wrong,?_,fun b other _ => ?_⟩
    · simp [Heap.set,incremented,carry]
    · simp [nines]
    · simp [Heap.set,other]
  | true =>
    simp only [carry,true_iff] at nines
    cases grown with
    | none =>
      refine ⟨fun fine => ?_,fun fine => ?_,fun _ => ⟨rfl,rfl,?_⟩,?_,fun b other _ => ?_⟩
      · simp at fine
      · simp at fine
      · simp [Heap.set]
      · simpa using nines
      · simp [Heap.set,other]
    | some new =>
      refine ⟨fun _ => ?_,fun _ moved => ?_,fun wrong => absurd rfl wrong,?_,fun b other moved => ?_⟩
      · simp [Heap.set,incremented,carry]
      · have moved : new ≠ digits := moved
        simp [Heap.set,Ne.symm moved]
      · simp
      · have away : b ≠ new := moved
        simp [Heap.set,other,away]

/-- Decimal strings of any length are ordered by `digits_cmp` as their values are, and
    `digits_inc` makes the next one of each, in memory that it does not lose. -/
theorem decimals_as_numbers :
    (∀ a b, Decimal a → Decimal b → digits_cmp a b = compare (number a) (number b)) ∧
    (∀ (heap : Heap) (digits : Nat) (grown : Option Nat) (a : List Char), Decimal a → heap digits = some a →
      Incremented heap digits grown a (digits_inc_at heap digits grown) ∧
      Decimal (incremented a) ∧ number (incremented a) = number a+1 ∧ digits_cmp a (incremented a) = .lt ∧
      (incremented a).length = if ∀ c ∈ a, c = '9' then a.length+1 else a.length) ∧
    Std.TransCmp Numeral.cmp ∧ Std.LawfulEqCmp Numeral.cmp := by
  refine ⟨fun a b => digits_cmp_number,fun heap digits grown a decimal here => ?_,inferInstance,inferInstance⟩
  obtain ⟨next,value⟩ := incremented_spec decimal
  refine ⟨digits_inc_at_spec here grown,next,value,?_,?_⟩
  · rw [digits_cmp_number decimal next,value]
    exact Nat.compare_eq_lt.mpr (Nat.lt_succ_self _)
  · have nines := incLoop_carry a.reverse
    simp only [List.mem_reverse] at nines
    simp only [incremented_length,nines]

/-- `99` is below `100`, and becomes it in another block. -/
theorem decimals_as_numbers_sample :
    digits_cmp "99".toList "100".toList = compare (number "99".toList) (number "100".toList) ∧
      Incremented (Heap.set (fun _ => none) 0 (some "99".toList)) 0 (some 1) "99".toList
        (digits_inc_at (Heap.set (fun _ => none) 0 (some "99".toList)) 0 (some 1)) := by
  have nines : Decimal "99".toList := ⟨by simp,by simp,by simp⟩
  have next : Decimal "100".toList := ⟨by simp,by simp,by simp⟩
  exact ⟨decimals_as_numbers.1 _ _ nines next,(decimals_as_numbers.2.1 _ _ _ _ nines rfl).1⟩

end Newfile.Decimals
