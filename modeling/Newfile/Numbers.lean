import Mathlib.Data.Nat.Digits.Defs
import Newfile.Accounts

/-!
The numbers of backups: digits of any length, the entries of a directory that are
numbered backups of a file, and the number that is due to the next one.
-/
namespace Newfile.Numbers
open Newfile.Program Newfile.Posix Newfile.Process Newfile.Backup
open Newfile.Accounts (strrchr_none strrchr_last path_parts)

variable {res : Path → Ino} {k : Kernel} {path : Path}

/-! ## Digits -/

def digitOf (c : Char) : Nat := c.toNat - '0'.toNat

/-- The number that digits stand for. -/
def number (ds : List Char) : Nat := Nat.ofDigits 10 (ds.reverse.map digitOf)

/-- Decimal digits without a zero in front. -/
structure Decimal (ds : List Char) : Prop where
  digits : ∀ c ∈ ds, c.isDigit = true
  nonempty : ds ≠ []
  front : ds.head? ≠ some '0'

theorem isDigit_bounds {c : Char} (digit : c.isDigit = true) : '0'.toNat ≤ c.toNat ∧ c.toNat ≤ '9'.toNat := by
  simp only [Char.isDigit,Bool.and_eq_true,decide_eq_true_eq] at digit
  exact ⟨digit.1,digit.2⟩

theorem digitOf_lt {c : Char} (digit : c.isDigit = true) : digitOf c < 10 := by
  have bounds := isDigit_bounds digit
  simp only [digitOf,Char.reduceToNat] at bounds ⊢
  omega

theorem digitOf_inj {c d : Char} (one : c.isDigit = true) (two : d.isDigit = true) (same : digitOf c = digitOf d) : c = d := by
  have first := isDigit_bounds one
  have second := isDigit_bounds two
  simp only [digitOf] at same
  exact Char.toNat_inj.mp (by omega)

/-- Decimal digits stand for different numbers. -/
theorem number_inj {ds ds' : List Char} (one : Decimal ds) (two : Decimal ds') (same : number ds = number ds') : ds = ds' := by
  have own : ∀ {ds : List Char}, Decimal ds → Nat.digits 10 (number ds) = ds.reverse.map digitOf := by
    intro ds decimal
    refine Nat.digits_ofDigits 10 (by decide) _ ?_ fun nonempty => ?_
    · intro n member
      obtain ⟨c,here,rfl⟩ := List.mem_map.mp member
      exact digitOf_lt (decimal.digits c (List.mem_reverse.mp here))
    · obtain ⟨c,rest,rfl⟩ := List.exists_cons_of_ne_nil decimal.nonempty
      have digit := decimal.digits c List.mem_cons_self
      have front : c ≠ '0' := by simpa using decimal.front
      simp only [List.reverse_cons,List.map_append,List.map_cons,List.map_nil,List.getLast_append_singleton]
      intro zero
      exact front (digitOf_inj digit (by decide) (by rw [zero]; rfl))
  have maps : ds.reverse.map digitOf = ds'.reverse.map digitOf := by rw [← own one,← own two,same]
  refine List.reverse_injective ?_
  have digits : ∀ c ∈ ds.reverse, c.isDigit = true := fun c here => one.digits c (List.mem_reverse.mp here)
  have digits' : ∀ c ∈ ds'.reverse, c.isDigit = true := fun c here => two.digits c (List.mem_reverse.mp here)
  generalize ds.reverse = r at maps digits
  generalize ds'.reverse = r' at maps digits'
  induction r generalizing r' with
  | nil => exact (List.map_eq_nil_iff.mp maps.symm).symm
  | cons c r ih =>
    cases r' with
    | nil => simp at maps
    | cons c' r' =>
      simp only [List.map_cons,List.cons.injEq] at maps
      obtain rfl := digitOf_inj (digits c List.mem_cons_self) (digits' c' List.mem_cons_self) maps.1
      rw [ih (fun d here => digits d (List.mem_cons_of_mem _ here)) r' maps.2 fun d here => digits' d (List.mem_cons_of_mem _ here)]

theorem number_pos {ds : List Char} (decimal : Decimal ds) : 0 < number ds := by
  rcases Nat.eq_zero_or_pos (number ds) with zero | positive
  · exfalso
    obtain ⟨c,rest,rfl⟩ := List.exists_cons_of_ne_nil decimal.nonempty
    have digit := decimal.digits c List.mem_cons_self
    have front : c ≠ '0' := by simpa using decimal.front
    rw [number,List.reverse_cons,List.map_append,Nat.ofDigits_append] at zero
    have nought : digitOf c = 0 := by
      have both := (Nat.add_eq_zero_iff.mp zero).2
      rcases Nat.mul_eq_zero.mp both with power | single
      · exact absurd power (Nat.pow_pos (by decide)).ne'
      · simpa [Nat.ofDigits] using single
    exact front (digitOf_inj digit (by decide) (by rw [nought]; rfl))
  · exact positive

/-- The digits of a loop of `digits_inc`, the last one first. -/
theorem incLoop_spec : ∀ r : List Char, (∀ c ∈ r, c.isDigit = true) →
    (∀ c ∈ (incLoop r).1, c.isDigit = true) ∧ (incLoop r).1.length = r.length ∧
      Nat.ofDigits 10 ((incLoop r).1.map digitOf)+(if (incLoop r).2 then 10^r.length else 0) =
        Nat.ofDigits 10 (r.map digitOf)+1 ∧
      (r.getLast? ≠ some '0' → (incLoop r).2 = false → (incLoop r).1.getLast? ≠ some '0') := by
  intro r
  induction r with
  | nil => simp [incLoop]
  | cons d ds ih =>
    intro digits
    have digit := digits d List.mem_cons_self
    have bounds := isDigit_bounds digit
    obtain ⟨inner,length,value,front⟩ := ih fun c here => digits c (List.mem_cons_of_mem _ here)
    by_cases nine : d = '9'
    · subst nine
      simp only [incLoop,ne_eq,not_true_eq_false,↓reduceIte,List.map_cons,Nat.ofDigits_cons,List.length_cons]
      refine ⟨?_,by rw [length],?_,?_⟩
      · intro c here
        rcases List.mem_cons.mp here with rfl | here
        · decide
        · exact inner c here
      · have zero : digitOf '0' = 0 := rfl
        have nine : digitOf '9' = 9 := rfl
        rw [zero,nine]
        cases carry : (incLoop ds).2 <;>
          simp only [carry,Bool.false_eq_true,↓reduceIte,pow_succ] at value ⊢ <;> omega
      · intro last carry
        cases ds with
        | nil => simp [incLoop] at carry
        | cons d' ds =>
          obtain ⟨e,es,found⟩ : ∃ e es, (incLoop (d' :: ds)).1 = e :: es := by
            refine List.exists_cons_of_ne_nil fun empty => ?_
            rw [empty] at length
            simp at length
          have rest := front (by simpa using last) carry
          rw [found] at rest ⊢
          simpa using rest
    · have small : d.toNat < '9'.toNat := by
        refine Nat.lt_of_le_of_ne bounds.2 fun same => nine (Char.toNat_inj.mp same)
      simp only [Char.reduceToNat] at bounds small
      have valid : (d.toNat+1).isValidChar := .inl (by omega)
      have next : (Char.ofNat (d.toNat+1)).toNat = d.toNat+1 := by
        rw [Char.ofNat,dif_pos valid]
        rfl
      have single : (Char.ofNat (d.toNat+1)).isDigit = true := by
        simp only [Char.isDigit,Bool.and_eq_true,decide_eq_true_eq]
        refine ⟨?_,?_⟩
        · change '0'.toNat ≤ (Char.ofNat (d.toNat+1)).toNat
          rw [next]
          simp only [Char.reduceToNat]
          omega
        · change (Char.ofNat (d.toNat+1)).toNat ≤ '9'.toNat
          rw [next]
          simp only [Char.reduceToNat]
          omega
      simp only [incLoop,ne_eq,nine,not_false_eq_true,↓reduceIte,List.map_cons,Nat.ofDigits_cons,List.length_cons]
      refine ⟨?_,trivial,?_,?_⟩
      · intro c here
        rcases List.mem_cons.mp here with rfl | here
        · exact single
        · exact digits c (List.mem_cons_of_mem _ here)
      · simp only [digitOf,next,Bool.false_eq_true,↓reduceIte,Char.reduceToNat]
        omega
      · intro last _
        cases ds with
        | nil =>
          simp only [List.getLast?_singleton,Option.some.injEq]
          intro zero
          rw [zero] at next
          simp only [Char.reduceToNat] at next
          omega
        | cons d' ds => simpa using last

/-- What `digits_inc` makes of digits. -/
def incremented (ds : List Char) : List Char :=
  if (incLoop ds.reverse).2 then '1' :: (incLoop ds.reverse).1.reverse else (incLoop ds.reverse).1.reverse

theorem incremented_spec {ds : List Char} (decimal : Decimal ds) :
    Decimal (incremented ds) ∧ number (incremented ds) = number ds+1 := by
  obtain ⟨digits,length,value,front⟩ := incLoop_spec ds.reverse fun c here => decimal.digits c (List.mem_reverse.mp here)
  cases carry : (incLoop ds.reverse).2 with
  | true =>
    simp only [carry,↓reduceIte] at value
    simp only [incremented,carry,↓reduceIte]
    refine ⟨⟨fun c here => ?_,by simp,by simp⟩,?_⟩
    · rcases List.mem_cons.mp here with rfl | here
      · decide
      · exact digits c (List.mem_reverse.mp here)
    · have one : digitOf '1' = 1 := rfl
      rw [number,number,← value,List.reverse_cons,List.reverse_reverse,List.map_append,Nat.ofDigits_append,
        List.length_map,length]
      simp [one]
  | false =>
    simp only [carry,Bool.false_eq_true,↓reduceIte,Nat.add_zero] at value
    simp only [incremented,carry,Bool.false_eq_true,↓reduceIte]
    refine ⟨⟨fun c here => digits c (List.mem_reverse.mp here),?_,?_⟩,?_⟩
    · intro empty
      have zero : (incLoop ds.reverse).1.length = 0 := by simpa using empty
      rw [length,List.length_reverse] at zero
      exact decimal.nonempty (List.length_eq_zero_iff.mp zero)
    · rw [List.head?_reverse]
      exact front (by rw [List.getLast?_reverse]; exact decimal.front) carry
    · rw [number,number,List.reverse_reverse,value]

/-- The digits of a name that is split are decimal. -/
theorem backup_split_decimal {name base : Path} {ds : List Char} (split_ : backup_split name = some (base,ds)) :
    Decimal ds := by
  simp only [backup_split] at split_
  split at split_
  · exact absurd split_ (by simp)
  · split at split_
    · exact absurd split_ (by simp)
    · rename_i wrong
      simp only [Option.some.injEq,Prod.mk.injEq] at split_
      obtain ⟨_,rfl⟩ := split_
      simp only [not_or] at wrong
      refine ⟨fun c here => ?_,wrong.1,wrong.2.1⟩
      exact List.mem_takeWhile_imp (List.mem_reverse.mp here)

/-! ## Names -/

/-- The last part of the name of a numbered backup. -/
def backupBase (path : Path) (ds : List Char) : Path := baseText path ++ ".~".toList ++ ds ++ "~".toList

/-- What is put behind a path does not change its directory. -/
theorem path_dir_len_append (path : Path) {s : Path} (other : '/' ∉ s) : path_dir_len (path ++ s) = path_dir_len path := by
  rcases path_parts path with plain | ⟨front,rest,last,rfl⟩
  · have neither : '/' ∉ path ++ s := by simp [plain,other]
    simp [path_dir_len,strrchr_none plain,strrchr_none neither]
  · have neither : '/' ∉ rest ++ s := by simp [last,other]
    rw [List.append_assoc,List.cons_append]
    simp only [path_dir_len,strrchr_last last,strrchr_last neither,List.length_append,
      List.length_cons]
    omega

theorem path_dir_len_le (path : Path) : path_dir_len path ≤ path.length := by
  rcases path_parts path with plain | ⟨front,rest,last,rfl⟩
  · simp [path_dir_len,strrchr_none plain]
  · simp only [path_dir_len,strrchr_last last,List.length_append,List.length_cons]
    omega

theorem entry_append (res : Path → Ino) (path : Path) {s : Path} (other : '/' ∉ s) :
    entry res (path ++ s) = (res (dirText path),baseText path ++ s) := by
  have inside := path_dir_len_le path
  have same : dirText (path ++ s) = dirText path := by
    simp only [dirText,path_dir_len_append path other]
    rw [List.take_append_of_le_length (by split <;> omega)]
  rw [entry,same,baseText,baseText,path_dir_len_append path other,List.drop_append_of_le_length inside]

/-- No digit is a slash. -/
theorem suffix_slash {ds : List Char} (decimal : Decimal ds) : '/' ∉ ".~".toList ++ ds ++ "~".toList := by
  have plain : '/' ∉ ds := fun here => by
    have digit := decimal.digits _ here
    simp at digit
  simp [plain]

theorem entry_backupText (res : Path → Ino) (path : Path) {ds : List Char} (decimal : Decimal ds) :
    entry res (backupText path ds) = (res (dirText path),backupBase path ds) := by
  have text : backupText path ds = path ++ (".~".toList ++ ds ++ "~".toList) := by simp [backupText]
  rw [text,entry_append res path (suffix_slash decimal)]
  simp [backupBase]

/-! ## The number that is due -/

/-- There is an entry for the backup of this number. -/
def Taken (res : Path → Ino) (k : Kernel) (path : Path) (n : Nat) : Prop :=
  ∃ ds, Decimal ds ∧ number ds = n ∧ (k.names.get (res (dirText path),backupBase path ds)).isSome = true

/-- One more than the highest number there is, or 1. -/
def Due (res : Path → Ino) (k : Kernel) (path : Path) (n : Nat) : Prop :=
  (∀ j, Taken res k path j → j < n) ∧ (n = 1 ∨ 1 < n ∧ Taken res k path (n-1))

/-- A number that is known, 0 if none, is not above the highest number there is, no number
    between the two is free, and where it matters whether there is any number one is known. -/
structure Current (res : Path → Ino) (existing : Prop) (k : Kernel) (path : Path) (held : Nat) : Prop where
  below : held = 0 ∨ ∃ j, held ≤ j ∧ Taken res k path j
  filled : ∀ i j, held < i → i ≤ j → Taken res k path j → Taken res k path i
  seen : existing → held = 0 → ∀ j, ¬ Taken res k path j

/-- What there is of the number that is tried: it is above the one that is known, and those
    between them are taken. -/
structure Tried (res : Path → Ino) (existing : Prop) (k : Kernel) (path : Path) (held n : Nat) : Prop where
  above : held < n
  passed : ∀ i, held < i → i < n → Taken res k path i
  listed : existing → 0 < held

/-- The number that is tried and free is the one that is due if and only if what is known
    is current. -/
theorem Tried.due_iff {existing : Prop} {held n : Nat} (tried : Tried res existing k path held n)
    (free : ¬ Taken res k path n) :
    (Due res k path n ∧ (existing → ∃ j, Taken res k path j)) ↔ Current res existing k path held := by
  obtain ⟨above,passed,listed⟩ := tried
  constructor
  · rintro ⟨⟨highest,last⟩,seen⟩
    refine ⟨?_,fun i j more inside taken => passed i more (Nat.lt_of_le_of_lt inside (highest j taken)),
      fun kind unheld => absurd (listed kind) (by omega)⟩
    rcases last with one | ⟨more,taken⟩
    · exact .inl (by omega)
    · exact .inr ⟨n-1,by omega,taken⟩
  · rintro ⟨below,filled,_⟩
    have highest : ∀ j, Taken res k path j → j < n := by
      intro j taken
      by_contra beyond
      exact free (filled n j above (Nat.le_of_not_lt beyond) taken)
    refine ⟨⟨highest,?_⟩,fun kind => ?_⟩
    · by_cases next : held = n-1
      · rcases below with zero | ⟨j,most,taken⟩
        · exact .inl (by omega)
        · have before := highest j taken
          obtain rfl : j = n-1 := by omega
          exact .inr ⟨by rcases taken with ⟨ds,decimal,same,_⟩; have := number_pos decimal; omega,taken⟩
      · exact .inr ⟨by omega,passed (n-1) (by omega) (by omega)⟩
    · have positive := listed kind
      rcases below with zero | ⟨j,_,taken⟩
      · omega
      · exact ⟨j,taken⟩

/-! ## Entries that come and stay -/

variable {k' : Kernel} {existing : Prop} {held n : Nat}

theorem Taken.pos (taken : Taken res k path n) : 0 < n := by
  obtain ⟨ds,decimal,rfl,_⟩ := taken
  exact number_pos decimal

/-- Entries that have stayed have the same numbers. -/
theorem taken_congr (same : ∀ ds, Decimal ds →
    k'.names.get (res (dirText path),backupBase path ds) = k.names.get (res (dirText path),backupBase path ds)) :
    Taken res k' path n ↔ Taken res k path n :=
  exists_congr fun ds => and_congr_right fun decimal => and_congr_right fun _ => by rw [same ds decimal]

theorem Current.congr (current : Current res existing k path held) (same : ∀ n, Taken res k' path n ↔ Taken res k path n) :
    Current res existing k' path held := by
  obtain ⟨below,filled,seen⟩ := current
  exact ⟨below.imp_right fun ⟨j,most,taken⟩ => ⟨j,most,(same j).mpr taken⟩,
    fun i j more less taken => (same i).mpr (filled i j more less ((same j).mp taken)),
    fun kind zero j taken => seen kind zero j ((same j).mp taken)⟩

/-- A number that is there comes to be known. -/
theorem Current.raise (current : Current res existing k path held) (taken : Taken res k path n) :
    Current res existing k path (max n held) := by
  obtain ⟨below,filled,_⟩ := current
  refine ⟨.inr ?_,fun i j more less there => filled i j (by omega) less there,fun _ zero => absurd taken.pos (by omega)⟩
  rcases below with zero | ⟨j,most,there⟩
  · exact ⟨n,by omega,taken⟩
  · rcases Nat.le_total n held with least | greatest
    · exact ⟨j,by omega,there⟩
    · exact ⟨n,by omega,taken⟩

/-- The number that was tried is taken from now on. -/
theorem Current.link (current : Current res existing k path held) (tried : Tried res existing k path held n)
    (same : ∀ j, Taken res k' path j ↔ Taken res k path j ∨ j = n) : Current res existing k' path held := by
  obtain ⟨below,filled,_⟩ := current
  refine ⟨below.imp_right fun ⟨j,most,taken⟩ => ⟨j,most,(same j).mpr (.inl taken)⟩,fun i j more less taken => ?_,
    fun kind zero => absurd (tried.listed kind) (by omega)⟩
  rcases (same j).mp taken with old | rfl
  · exact (same i).mpr (.inl (filled i j more less old))
  · rcases Nat.lt_or_eq_of_le less with before | rfl
    · exact (same i).mpr (.inl (tried.passed i more before))
    · exact (same i).mpr (.inr rfl)

end Newfile.Numbers
