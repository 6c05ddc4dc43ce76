import Mathlib

/-!
The command-line scanner: the option table, what `build_tables` derives from it,
and `optparse_long` with the in-place `permute` that moves every option in front
of the operands.
-/
namespace Newfile.Optparse

/-- A C string, without its terminator. -/
abbrev Word := List Char

/-- Whether an option takes an argument: `OPT_NONE`, `OPT_REQUIRED`, `OPT_OPTIONAL`. -/
inductive HasArg where
  | none
  | required
  | optional
  deriving DecidableEq, Repr

/-- The columns of `struct option_def` that the scanner reads. -/
structure OptionDef where
  name : Option Word
  val : Nat
  has_arg : HasArg

/-- `struct opt_option`; `flag` numbers the variable that the entry sets. -/
structure OptOption where
  name : Word
  flag : Option Nat
  has_arg : HasArg
  val : Nat
  deriving DecidableEq, Repr

def OPTVAL_HELP : Nat := 256
def OPTVAL_VERSION : Nat := 257
def OPTVAL_REFERENCE : Nat := 258
def OPTVAL_TEMPLATE : Nat := 259
def OPTVAL_BACKUP : Nat := 260
def OPTVAL_SPARSE : Nat := 261

/-- The option table. -/
def options : List OptionDef :=
  [⟨some "mode".toList, 'm'.toNat, .required⟩, ⟨some "owner".toList, 'o'.toNat, .required⟩,
   ⟨some "reference".toList, OPTVAL_REFERENCE, .required⟩, ⟨some "size".toList, 's'.toNat, .required⟩,
   ⟨some "sparse".toList, OPTVAL_SPARSE, .none⟩, ⟨some "template".toList, OPTVAL_TEMPLATE, .required⟩,
   ⟨some "parents".toList, 'p'.toNat, .none⟩, ⟨some "force".toList, 'f'.toNat, .none⟩,
   ⟨some "backup".toList, OPTVAL_BACKUP, .optional⟩, ⟨none, 'b'.toNat, .none⟩,
   ⟨some "absolute".toList, 'A'.toNat, .none⟩, ⟨some "verbose".toList, 'v'.toNat, .none⟩,
   ⟨some "help".toList, OPTVAL_HELP, .none⟩, ⟨some "version".toList, OPTVAL_VERSION, .none⟩]

/-- The optstring part of `build_tables`. -/
def options_optstring : Word :=
  options.flatMap fun o =>
    if o.val < OPTVAL_HELP then
      [Char.ofNat o.val] ++ (if o.has_arg ≠ .none then [':'] else []) ++ (if o.has_arg = .optional then [':'] else [])
    else []

/-- The long option part of `build_tables`. -/
def options_long : List OptOption :=
  options.filterMap fun o => o.name.map fun name => ⟨name,.none,o.has_arg,o.val⟩

/-- The suffix of a string from the first occurrence of a character. -/
def strchr : Word → Char → Option Word
  | [], _ => none
  | c :: s, sought => if c = sought then some (c :: s) else strchr s sought

/-- The variables of `optparse.c`, the array it permutes and `*longindex`. -/
structure Scanner where
  argv : List Word
  opt_arg : Option Word := none
  opt_ind : Nat := 1
  opt_opt : Nat := 0
  opt_name : Option Word := none
  nextchar : Option Word := none
  started : Bool := false
  longindex : Nat := 0
  /-- What entries with a `flag` have stored. -/
  stored : List (Nat × Nat) := []
  deriving DecidableEq, Repr

/-! ## Permuting -/

/-- The loop of `reverse`, with at most `fuel` swaps left. -/
def reverseLoop : Nat → List Word → Nat → Nat → List Word
  | 0, argv, _, _ => argv
  | fuel+1, argv, first, last =>
    if first < last then
      let held := argv.getD first []
      let argv := (argv.set first (argv.getD last [])).set last held
      reverseLoop fuel argv (first+1) (last-1)
    else argv

def reverse (argv : List Word) (first last : Nat) : List Word := reverseLoop argv.length argv first (last-1)

/-- Moves `argv[middle..last)` in front of `argv[first..middle)`. -/
def rotate (argv : List Word) (first middle last : Nat) : List Word :=
  reverse (reverse (reverse argv first middle) middle last) first last

def long_takes_arg (arg : Word) (longopts : List OptOption) : Bool :=
  if (strchr arg '=').isSome then false
  else
    match longopts.find? fun o => o.name.length == arg.length && o.name.take arg.length == arg.take arg.length with
    | some o => o.has_arg == .required
    | none => false

def cluster_takes_arg : Word → Word → Bool
  | [], _ => false
  | c :: chars, optstring =>
    if c = ':' then false
    else
      match strchr optstring c with
      | none => cluster_takes_arg chars optstring
      | some spec =>
        if spec[1]? ≠ some ':' then cluster_takes_arg chars optstring
        else if spec[2]? = some ':' then false
        else chars.isEmpty

/-- `arg[0] != '-' || arg[1] == '\0'`. -/
def isOperand (arg : Word) : Bool := arg[0]? ≠ some '-' || arg.length == 1

/-- The loop of `permute`, with at most `fuel` words left to scan. -/
def permuteLoop (optstring : Word) (longopts : List OptOption) : Nat → List Word → Nat → Nat → List Word
  | 0, argv, _, _ => argv
  | fuel+1, argv, stop, i =>
    if i < argv.length then
      let arg := argv.getD i []
      let start := i
      let i := i+1
      if arg = "--".toList then rotate argv stop start i
      else if isOperand arg then permuteLoop optstring longopts fuel argv stop i
      else
        let takes := if arg[1]? = some '-' then long_takes_arg (arg.drop 2) longopts
          else cluster_takes_arg (arg.drop 1) optstring
        let i := if takes && i < argv.length then i+1 else i
        permuteLoop optstring longopts fuel (rotate argv stop start i) (stop+(i-start)) i
    else argv

def permute (argv : List Word) (optstring : Word) (longopts : List OptOption) : List Word :=
  permuteLoop optstring longopts argv.length argv 1 1

/-! ## One call -/

/-- `(eq != NULL) ? eq-name : strlen(name)`. -/
def lenUntil (name : Word) : Option Word → Nat
  | some eq => name.length-eq.length
  | none => name.length

def parse_long (s : Scanner) (longopts : List OptOption) : Scanner × Int :=
  let word := s.argv.getD s.opt_ind []
  let name := word.drop 2
  let eq := strchr name '='
  let len := lenUntil name eq
  let s := { s with opt_name := some word, opt_ind := s.opt_ind+1 }
  match longopts.findIdx? fun o => o.name.length == len && o.name.take len == name.take len with
  | none => ({ s with opt_opt := 0 },'?'.toNat)
  | some i =>
    match longopts[i]? with
    | none => ({ s with opt_opt := 0 },'?'.toNat)
    | some o =>
      let s := { s with opt_name := some o.name, longindex := i }
      let store (s : Scanner) : Scanner × Int :=
        match o.flag with
        | some v => ({ s with stored := (v,o.val) :: s.stored },0)
        | none => (s,o.val)
      match o.has_arg with
      | .required =>
        match eq with
        | some rest => store { s with opt_arg := some (rest.drop 1) }
        | none =>
          if s.opt_ind < s.argv.length then
            store { s with opt_arg := some (s.argv.getD s.opt_ind []), opt_ind := s.opt_ind+1 }
          else (s,':'.toNat)
      | .optional => store { s with opt_arg := eq.map (·.drop 1) }
      | .none => if eq.isSome then (s,'='.toNat) else store s

/-- With `nextchar` at a letter of the cluster. -/
def parse_short (s : Scanner) (c : Char) (next : Word) (optstring : Word) : Scanner × Int :=
  let spec := if c = ':' then none else strchr optstring c
  let s := { s with nextchar := some next }
  match spec with
  | none =>
    let s := if next = [] then { s with nextchar := none, opt_ind := s.opt_ind+1 } else s
    ({ s with opt_opt := c.toNat },'?'.toNat)
  | some spec =>
    if spec[1]? ≠ some ':' then
      (if next = [] then { s with nextchar := none, opt_ind := s.opt_ind+1 } else s,c.toNat)
    else if next ≠ [] then
      ({ s with opt_arg := some next, nextchar := none, opt_ind := s.opt_ind+1 },c.toNat)
    else
      let s := { s with nextchar := none }
      if spec[2]? = some ':' then ({ s with opt_ind := s.opt_ind+1 },c.toNat)
      else if s.opt_ind+1 < s.argv.length then
        ({ s with opt_arg := some (s.argv.getD (s.opt_ind+1) []), opt_ind := s.opt_ind+2 },c.toNat)
      else ({ s with opt_opt := c.toNat, opt_ind := s.opt_ind+1 },':'.toNat)

def optparse_long (s : Scanner) (optstring : Word) (longopts : List OptOption) : Scanner × Int :=
  let s := { s with opt_arg := none, opt_name := none }
  let s := if s.opt_ind = 0 then { s with opt_ind := 1, nextchar := none, started := false } else s
  let s := if s.started then s else { s with argv := permute s.argv optstring longopts, started := true }
  match s.nextchar with
  | some (c :: next) => parse_short s c next optstring
  | _ =>
    let s := { s with nextchar := none }
    if s.argv.length ≤ s.opt_ind then (s,-1)
    else
      let arg := s.argv.getD s.opt_ind []
      match arg with
      | '-' :: '-' :: [] => ({ s with opt_ind := s.opt_ind+1 },-1)
      | '-' :: '-' :: _ => parse_long s longopts
      | '-' :: c :: next => parse_short s c next optstring
      | _ => (s,-1)

end Newfile.Optparse
