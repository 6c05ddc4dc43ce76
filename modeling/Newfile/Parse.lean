import Mathlib

/-!
`parse.c`: option arguments. A string ends where the list does, and a call of
`error_exit` is an error with its message.
-/
namespace Newfile.Parse

abbrev Text := List Char

/-- What `error_exit` prints, with the argument in place of `%s`. -/
inductive Rejection where
  /-- `invalid mode: '%s'` -/
  | invalid_mode (mode_str : Text)
  /-- `invalid size: '%s'` -/
  | invalid_size (size_str : Text)
  /-- `invalid size suffix in '%s'` -/
  | invalid_size_suffix (size_str : Text)
  /-- `size too large: '%s'` -/
  | size_too_large (size_str : Text)
  deriving DecidableEq, Repr

/-! ## The C library -/

def ULONG_MAX : Nat := 2^64-1
def UINTMAX_MAX : Nat := 2^64-1

def isspace (c : Char) : Bool :=
  c = ' ' || c = '\t' || c = '\n' || c = '\r' || c = Char.ofNat 11 || c = Char.ofNat 12

/-- The value of a character as a digit. -/
def digitOf (c : Char) : Nat := c.toNat - '0'.toNat

/-- A digit of a base up to ten. -/
def isDigitOf (base : Nat) (c : Char) : Bool := '0' ≤ c && c ≤ '9' && digitOf c < base

def valueOf (base : Nat) (digits : Text) : Nat := digits.foldl (fun value c => value*base+digitOf c) 0

/-- What `strtoul` and the like return, with `*endptr` and whether `errno` was set to ERANGE. -/
structure Strto where
  val : Nat
  rest : Text
  erange : Bool
  deriving DecidableEq, Repr

/-- `strtoul` and `strtoumax` for a base up to ten and values up to `max`. -/
def strtoull (max base : Nat) (s : Text) : Strto :=
  let t := s.dropWhile isspace
  let negative := t.head? = some '-'
  let t := if t.head? = some '-' ∨ t.head? = some '+' then t.tail else t
  let digits := t.takeWhile (isDigitOf base)
  let rest := t.dropWhile (isDigitOf base)
  if digits = [] then ⟨0,s,false⟩
  else if max < valueOf base digits then ⟨max,rest,true⟩
  else ⟨if negative then (max+1-valueOf base digits)%(max+1) else valueOf base digits,rest,false⟩

/-! ## Numerals -/

/-- What follows the letters of a part that `isLetter` tells. -/
def Ends (isLetter : Char → Bool) (rest : Text) : Prop := ∀ c p, rest = c :: p → isLetter c = false

theorem ends_dropWhile (isLetter : Char → Bool) (s : Text) : Ends isLetter (s.dropWhile isLetter) := by
  induction s with
  | nil =>
    intro c p found
    simp at found
  | cons d s ih =>
    by_cases letter : isLetter d = true
    · simpa [List.dropWhile_cons,letter] using ih
    · intro c p found
      simp only [List.dropWhile_cons,letter,Bool.false_eq_true,if_false,List.cons.injEq] at found
      rw [← found.1]
      simpa using letter

/-- Digits, at least one. -/
def Numeral (base : Nat) (s : Text) : Prop := s ≠ [] ∧ ∀ c ∈ s, isDigitOf base c = true

theorem isspace_of_isDigitOf {base : Nat} {c : Char} (digit : isDigitOf base c = true) : isspace c = false := by
  simp only [isDigitOf,Bool.and_eq_true,decide_eq_true_eq] at digit
  have low : '0'.toNat ≤ c.toNat := digit.1.1
  have other : ∀ d : Char, d.toNat < '0'.toNat → c ≠ d := by
    rintro d less rfl
    omega
  simp only [isspace,Bool.or_eq_false_iff,decide_eq_false_iff_not]
  exact ⟨⟨⟨⟨⟨other _ (by decide),other _ (by decide)⟩,other _ (by decide)⟩,other _ (by decide)⟩,
    other _ (by decide)⟩,other _ (by decide)⟩

theorem sign_of_isDigitOf {base : Nat} {c : Char} (digit : isDigitOf base c = true) : c ≠ '-' ∧ c ≠ '+' := by
  simp only [isDigitOf,Bool.and_eq_true,decide_eq_true_eq] at digit
  have low : '0'.toNat ≤ c.toNat := digit.1.1
  have other : ∀ d : Char, d.toNat < '0'.toNat → c ≠ d := by
    rintro d less rfl
    omega
  exact ⟨other _ (by decide),other _ (by decide)⟩

theorem takeWhile_numeral {base : Nat} {digits rest : Text} (numeral : Numeral base digits)
    (ends : Ends (isDigitOf base) rest) :
    (digits ++ rest).takeWhile (isDigitOf base) = digits ∧ (digits ++ rest).dropWhile (isDigitOf base) = rest := by
  rw [List.takeWhile_append_of_pos numeral.2,List.dropWhile_append_of_pos numeral.2]
  cases rest with
  | nil => simp
  | cons c rest => simp [ends c rest rfl]

/-- A text that starts with digits is converted up to their end. -/
theorem strtoull_numeral (max : Nat) {base : Nat} {digits rest : Text} (numeral : Numeral base digits)
    (ends : Ends (isDigitOf base) rest) :
    strtoull max base (digits ++ rest) =
      if max < valueOf base digits then ⟨max,rest,true⟩ else ⟨valueOf base digits,rest,false⟩ := by
  obtain ⟨c,tail,rfl⟩ := List.exists_cons_of_ne_nil numeral.1
  have digit := numeral.2 c List.mem_cons_self
  have blank : (c :: tail ++ rest).dropWhile isspace = c :: tail ++ rest := by
    simp [isspace_of_isDigitOf digit]
  have sign := sign_of_isDigitOf digit
  obtain ⟨taken,left⟩ := takeWhile_numeral numeral ends
  have head : (c :: tail ++ rest).head? = some c := rfl
  simp only [strtoull,blank,head,Option.some.injEq,sign.1,sign.2,or_self,if_false,taken,left,
    reduceCtorEq]

/-! ## Modes -/

abbrev mode_t := BitVec 32

def CHMOD_MODE_BITS : mode_t := 0o7777

/-- The loop of `mode_who`. -/
def whoLoop : Text → mode_t → mode_t × Text
  | [], who => (who,[])
  | c :: p, who =>
    if c = 'u' then whoLoop p (who ||| 0o4700)
    else if c = 'g' then whoLoop p (who ||| 0o2070)
    else if c = 'o' then whoLoop p (who ||| 0o1007)
    else if c = 'a' then whoLoop p (who ||| CHMOD_MODE_BITS)
    else (who,c :: p)

def mode_who (p : Text) : mode_t × Text :=
  let (who,p) := whoLoop p 0
  (if who ≠ 0 then who else CHMOD_MODE_BITS,p)

/-- The loop of `mode_perms`. -/
def permsLoop (mode_str : Text) : Text → mode_t → Except Rejection (mode_t × Text)
  | [], perms => .ok (perms,[])
  | c :: p, perms =>
    if c = ',' then .ok (perms,c :: p)
    else if c = 'r' then permsLoop mode_str p (perms ||| 0o444)
    else if c = 'w' then permsLoop mode_str p (perms ||| 0o222)
    else if c = 'x' then permsLoop mode_str p (perms ||| 0o111)
    else if c = 's' then permsLoop mode_str p (perms ||| 0o6000)
    else if c = 't' then permsLoop mode_str p (perms ||| 0o1000)
    else .error (.invalid_mode mode_str)

def mode_perms (p mode_str : Text) : Except Rejection (mode_t × Text) := permsLoop mode_str p 0

def mode_apply (mode : mode_t) (op : Char) (who perms : mode_t) : mode_t :=
  if op = '=' then (mode &&& ~~~who) ||| perms
  else if op = '+' then mode ||| perms
  else mode &&& ~~~perms

/-- The loop of `parse_mode` over the clauses; each round takes a character at least. -/
def clauseLoop (mode_str : Text) : Nat → Text → mode_t → Except Rejection mode_t
  | _, [], mode => .ok mode
  | 0, _ :: _, _ => .error (.invalid_mode mode_str)
  | rounds+1, c :: p, mode =>
    let (who,p) := mode_who (c :: p)
    match p with
    | [] => .error (.invalid_mode mode_str)
    | op :: p =>
      if op ≠ '+' ∧ op ≠ '-' ∧ op ≠ '=' then .error (.invalid_mode mode_str)
      else
        match mode_perms p mode_str with
        | .error e => .error e
        | .ok (perms,p) =>
          let mode := mode_apply mode op who (perms &&& who)
          match p with
          | ',' :: p => if p = [] then .error (.invalid_mode mode_str) else clauseLoop mode_str rounds p mode
          | p => clauseLoop mode_str rounds p mode

def parse_mode (mode_str : Text) : Except Rejection mode_t :=
  match mode_str with
  | [] => .error (.invalid_mode mode_str)
  | c :: _ =>
    if '0' ≤ c ∧ c ≤ '7' then
      let converted := strtoull ULONG_MAX 8 mode_str
      if converted.rest ≠ [] ∨ CHMOD_MODE_BITS.toNat < converted.val then .error (.invalid_mode mode_str)
      else .ok (BitVec.ofNat 32 converted.val)
    else clauseLoop mode_str mode_str.length mode_str 0

/-! ## Sizes -/

def SIZE_K : Nat := 1024
def SIZE_M : Nat := SIZE_K*SIZE_K
def SIZE_G : Nat := SIZE_M*SIZE_K

/-- The size of `off_t` in bytes. -/
def OFF_T_SIZE : Nat := 8

def off_t_max_value : Nat := 2^(OFF_T_SIZE*8-1)-1

/-- A `uintmax_t` as an `off_t`. -/
def toOff (val : Nat) : Int := if val ≤ off_t_max_value then val else (val : Int)-2^(OFF_T_SIZE*8)

def size_multiplier (suffix size_str : Text) : Except Rejection Nat :=
  match suffix with
  | [] => .ok 1
  | c :: more =>
    let multiplier : Option Nat :=
      if c.toUpper = 'K' then some SIZE_K
      else if c.toUpper = 'M' then some SIZE_M
      else if c.toUpper = 'G' then some SIZE_G
      else none
    match multiplier with
    | none => .error (.invalid_size_suffix size_str)
    | some multiplier => if more ≠ [] then .error (.invalid_size size_str) else .ok multiplier

def parse_size (size_str : Text) : Except Rejection Int :=
  if (size_str.head?.map Char.isDigit).getD false = false then .error (.invalid_size size_str)
  else
    let converted := strtoull UINTMAX_MAX 10 size_str
    if converted.erange ∨ converted.rest = size_str then .error (.invalid_size size_str)
    else
      match size_multiplier converted.rest size_str with
      | .error e => .error e
      | .ok multiplier =>
        if off_t_max_value/multiplier < converted.val then .error (.size_too_large size_str)
        else .ok (toOff (converted.val*multiplier%(UINTMAX_MAX+1)))

end Newfile.Parse
