import Newfile.Parse

/-!
What `parse_size` accepts: a decimal numeral with at most one of the letters K, M
and G behind it, up to the largest `off_t`.
-/
namespace Newfile.Sizes
open Newfile.Parse

/-- A unit letter in either case, or none, with the power of 1024 that it stands for. -/
inductive Suffix : Text → Nat → Prop
  | none : Suffix [] 0
  | kilo {c : Char} (letter : c = 'k' ∨ c = 'K') : Suffix [c] 1
  | mega {c : Char} (letter : c = 'm' ∨ c = 'M') : Suffix [c] 2
  | giga {c : Char} (letter : c = 'g' ∨ c = 'G') : Suffix [c] 3

/-- What `parse_size` is for: the number of bytes that a numeral with its unit names. -/
def Names (s : Text) (bytes : Nat) : Prop :=
  ∃ digits suffix power, s = digits ++ suffix ∧ Numeral 10 digits ∧ Suffix suffix power ∧
    bytes = valueOf 10 digits*1024^power

theorem toNat_toUpper (c : Char) : c.toUpper.toNat = if 97 ≤ c.toNat ∧ c.toNat ≤ 122 then c.toNat-32 else c.toNat := by
  have low : 'a'.val ≤ c.val ↔ 97 ≤ c.toNat := Iff.rfl
  have high : c.val ≤ 'z'.val ↔ c.toNat ≤ 122 := Iff.rfl
  rw [Char.toUpper]
  by_cases small : 97 ≤ c.toNat ∧ c.toNat ≤ 122
  · rw [dif_pos (by rw [low,high]; exact small),if_pos small]
    show (c.val + ('A'.val - 'a'.val)).toNat = c.val.toNat-32
    have lower : 97 ≤ c.val.toNat := small.1
    have upper : c.val.toNat ≤ 122 := small.2
    have back : ('A'.val - 'a'.val).toNat = 2^32-32 := by decide
    rw [UInt32.toNat_add,back]
    omega
  · rw [dif_neg (by rw [low,high]; exact small),if_neg small]

theorem toUpper_eq {c upper lower : Char} (letter : 65 ≤ upper.toNat ∧ upper.toNat ≤ 90)
    (pair : lower.toNat = upper.toNat+32) : c.toUpper = upper ↔ c = lower ∨ c = upper := by
  rw [← Char.toNat_inj,← Char.toNat_inj,← Char.toNat_inj,toNat_toUpper]
  split_ifs <;> omega

/-! ## The suffix -/

theorem size_multiplier_iff (suffix size_str : Text) (multiplier : Nat) :
    size_multiplier suffix size_str = .ok multiplier ↔ ∃ power, Suffix suffix power ∧ multiplier = 1024^power := by
  cases suffix with
  | nil =>
    constructor
    · intro done
      exact ⟨0,.none,(Except.ok.inj done).symm⟩
    · rintro ⟨power,⟨⟩,rfl⟩
      rfl
  | cons c more =>
    have kilo : c.toUpper = 'K' ↔ c = 'k' ∨ c = 'K' := toUpper_eq (by decide) rfl
    have mega : c.toUpper = 'M' ↔ c = 'm' ∨ c = 'M' := toUpper_eq (by decide) rfl
    have giga : c.toUpper = 'G' ↔ c = 'g' ∨ c = 'G' := toUpper_eq (by decide) rfl
    constructor
    · intro done
      simp only [size_multiplier] at done
      by_cases k : c.toUpper = 'K'
      · simp only [if_pos k] at done
        split_ifs at done with last
        obtain rfl := not_not.mp last
        exact ⟨1,.kilo (kilo.mp k),(Except.ok.inj done).symm⟩
      · by_cases m : c.toUpper = 'M'
        · simp only [if_neg k,if_pos m] at done
          split_ifs at done with last
          obtain rfl := not_not.mp last
          exact ⟨2,.mega (mega.mp m),(Except.ok.inj done).symm⟩
        · by_cases g : c.toUpper = 'G'
          · simp only [if_neg k,if_neg m,if_pos g] at done
            split_ifs at done with last
            obtain rfl := not_not.mp last
            exact ⟨3,.giga (giga.mp g),(Except.ok.inj done).symm⟩
          · simp [k,m,g] at done
    · rintro ⟨power,named,rfl⟩
      cases named with
      | kilo letter => simp [size_multiplier,kilo.mpr letter,SIZE_K]
      | mega letter => simp [size_multiplier,mega.mpr letter,SIZE_M,SIZE_K]
      | giga letter => simp [size_multiplier,giga.mpr letter,SIZE_G,SIZE_M,SIZE_K]

/-- The digits end where a suffix starts. -/
theorem suffix_ends {suffix : Text} {power : Nat} (named : Suffix suffix power) : Ends (isDigitOf 10) suffix := by
  intro c p found
  cases named with
  | none => simp at found
  | kilo letter | mega letter | giga letter =>
    obtain ⟨rfl,-⟩ := List.cons.inj found
    rcases letter with rfl | rfl <;> rfl

/-! ## The number -/

theorem isDigit_iff (c : Char) : c.isDigit = isDigitOf 10 c := by
  have order : ∀ a b : Char, a ≤ b ↔ a.toNat ≤ b.toNat := fun _ _ => Iff.rfl
  have : '0'.toNat = 48 := rfl
  have : '9'.toNat = 57 := rfl
  have same : c.isDigit = true ↔ 48 ≤ c.toNat ∧ c.toNat ≤ 57 := by
    simp only [Char.isDigit,Bool.and_eq_true,decide_eq_true_eq]
    exact Iff.rfl
  have digit : isDigitOf 10 c = true ↔ 48 ≤ c.toNat ∧ c.toNat ≤ 57 := by
    simp only [isDigitOf,Bool.and_eq_true,decide_eq_true_eq]
    rw [order,order,digitOf]
    omega
  exact Bool.eq_iff_iff.mpr (same.trans digit.symm)

theorem toOff_exact {bytes : Nat} (fits : bytes ≤ 2^63-1) : toOff (bytes%(UINTMAX_MAX+1)) = bytes := by
  have range : bytes%(UINTMAX_MAX+1) = bytes := Nat.mod_eq_of_lt (by unfold UINTMAX_MAX; omega)
  rw [range,toOff,if_pos]
  exact fits

/-- A decimal numeral and what stands behind it. -/
theorem parse_numeral {digits suffix : Text} (numeral : Numeral 10 digits) (ends : Ends (isDigitOf 10) suffix) :
    parse_size (digits ++ suffix) =
      if UINTMAX_MAX < valueOf 10 digits then .error (.invalid_size (digits ++ suffix))
      else
        match size_multiplier suffix (digits ++ suffix) with
        | .error e => .error e
        | .ok multiplier =>
          if off_t_max_value/multiplier < valueOf 10 digits then .error (.size_too_large (digits ++ suffix))
          else .ok (toOff (valueOf 10 digits*multiplier%(UINTMAX_MAX+1))) := by
  obtain ⟨c,tail,rfl⟩ := List.exists_cons_of_ne_nil numeral.1
  have digit : c.isDigit = true := by rw [isDigit_iff]; exact numeral.2 c List.mem_cons_self
  have shorter : suffix ≠ c :: tail ++ suffix := by
    intro same
    have lengths := congrArg List.length same
    simp only [List.length_append,List.length_cons] at lengths
    omega
  rw [parse_size,strtoull_numeral UINTMAX_MAX numeral ends]
  by_cases large : UINTMAX_MAX < valueOf 10 (c :: tail)
  · simp [digit,if_pos large]
  · rw [List.cons_append] at shorter ⊢
    cases unit : size_multiplier suffix (c :: (tail ++ suffix)) with
    | error e =>
      simp only [if_neg large,List.head?_cons,Option.map_some,digit,Option.getD_some,Bool.true_eq_false,if_false,
        Bool.false_eq_true,shorter,or_self,unit]
    | ok multiplier =>
      simp only [if_neg large,List.head?_cons,Option.map_some,digit,Option.getD_some,Bool.true_eq_false,if_false,
        Bool.false_eq_true,shorter,or_self,unit]

theorem parse_size_iff (s : Text) (n : Int) :
    parse_size s = .ok n ↔ ∃ bytes, Names s bytes ∧ bytes ≤ 2^63-1 ∧ n = (bytes : Int) := by
  constructor
  · intro done
    have split := List.takeWhile_append_dropWhile (p := isDigitOf 10) (l := s)
    have numeral : Numeral 10 (s.takeWhile (isDigitOf 10)) := by
      refine ⟨?_,fun c => List.mem_takeWhile_imp⟩
      cases s with
      | nil => simp [parse_size] at done
      | cons c s =>
        by_cases digit : c.isDigit = true
        · simp [← isDigit_iff,digit]
        · simp [parse_size,digit] at done
    have read := parse_numeral numeral (ends_dropWhile (isDigitOf 10) s)
    rw [split,done] at read
    split_ifs at read with large
    cases unit : size_multiplier (s.dropWhile (isDigitOf 10)) s with
    | error e => simp [unit] at read
    | ok multiplier =>
      simp only [unit] at read
      split_ifs at read with outside
      obtain ⟨power,named,rfl⟩ := (size_multiplier_iff _ _ _).mp unit
      have fits : valueOf 10 (s.takeWhile (isDigitOf 10))*1024^power ≤ 2^63-1 :=
        (Nat.le_div_iff_mul_le (by positivity)).mp (not_lt.mp outside)
      refine ⟨_,⟨_,_,power,split.symm,numeral,named,rfl⟩,fits,?_⟩
      rw [Except.ok.inj read,toOff_exact fits]
  · rintro ⟨bytes,⟨digits,suffix,power,rfl,numeral,named,rfl⟩,fits,rfl⟩
    have unit := (size_multiplier_iff suffix (digits ++ suffix) (1024^power)).mpr ⟨power,named,rfl⟩
    have positive : 0 < 1024^power := by positivity
    have inside : valueOf 10 digits ≤ off_t_max_value/1024^power := (Nat.le_div_iff_mul_le positive).mpr fits
    have small : ¬UINTMAX_MAX < valueOf 10 digits := by
      have := Nat.le_mul_of_pos_right (valueOf 10 digits) positive
      unfold UINTMAX_MAX
      omega
    rw [parse_numeral numeral (suffix_ends named),if_neg small,unit]
    simp only [if_neg (not_lt.mpr inside),toOff_exact fits]

/-- A size is accepted exactly when the bytes it names fit an `off_t`, and is then that
    number of bytes. -/
theorem parse_size_exact :
    (∀ s n, parse_size s = .ok n ↔ ∃ bytes, Names s bytes ∧ bytes ≤ 2^63-1 ∧ n = (bytes : Int)) ∧
    ∀ s, (¬∃ bytes, Names s bytes ∧ bytes ≤ 2^63-1) → ∃ e, parse_size s = .error e := by
  refine ⟨parse_size_iff,fun s missing => ?_⟩
  cases result : parse_size s with
  | error e => exact ⟨e,rfl⟩
  | ok n =>
    obtain ⟨bytes,named,fits,-⟩ := (parse_size_iff s n).mp result
    exact absurd ⟨bytes,named,fits⟩ missing

theorem parse_size_exact_sample : ∃ bytes, Names ['8','g'] bytes ∧ bytes ≤ 2^63-1 ∧ (8*1024^3 : Int) = bytes :=
  (parse_size_exact.1 ['8','g'] (8*1024^3)).mp (by decide)

example : parse_size "9223372036854775807".toList = .ok (2^63-1) := by decide
example : parse_size "8388608T".toList = .error (.invalid_size_suffix "8388608T".toList) := by decide

end Newfile.Sizes
