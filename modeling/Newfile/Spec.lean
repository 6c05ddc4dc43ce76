import Newfile.Argv
import Newfile.Owner

/-!
`spec.c`: what the command line asks for, and the operands that `main` hands on. The
texts of the diagnostics are those behind the program's name.
-/
namespace Newfile.Spec
open Newfile.Optparse Newfile.Argv Newfile.Parse Newfile.Owner

def EXIT_SUCCESS : Nat := 0
def EXIT_FAILURE : Nat := 1

/-- How `spec_parse` ends when it does not return. -/
inductive Stop where
  | usage (status : Nat)
  | version
  | failure
  /-- A string that is not there is read. -/
  | null
  deriving DecidableEq, Repr

inductive Ending where
  | fault (f : Fault)
  | stop (s : Stop)
  deriving DecidableEq, Repr

/-- Code that prints diagnostics, and may end in `ε`. -/
abbrev Told (ε : Type) := ExceptT ε (StateM (List Word))

/-- What is outside the program: the environment, the file that `--reference` names
    with its mode or an error, the databases, and whether `strdup` has memory. -/
structure Environment where
  getenv : Text → Option Text
  stat : Text → Except Text mode_t
  geteuid : id_t
  db : Databases
  memory : Bool

/-- `struct file_spec`, with the fields that `spec.c` sets to a value. -/
structure FileSpec where
  mode : mode_t := 0
  size : Int := 0
  uid : id_t := 0
  gid : id_t := 0
  template_file : Option Text := none
  backup_control : Option Text := none
  absolute_given : Bool := false
  force_mode : Bool := false
  parents_mode : Bool := false
  sparse_mode : Bool := false
  size_given : Bool := false
  backup_given : Bool := false
  set_owner : Bool := false
  set_uid : Bool := false
  uid_changes : Bool := false
  set_gid : Bool := false
  verbose : Nat := 0
  deriving DecidableEq, Repr

structure SpecArgs where
  mode : Option Text := none
  owner : Option Text := none
  reference : Option Text := none
  size : Option Text := none
  deriving DecidableEq, Repr

/-! ## The code -/

def error_print {ε : Type} (text : Text) : Told ε Unit := modify (· ++ [text])

def error_exit {α : Type} (text : Text) : Told Stop α := do
  error_print text
  throw .failure

def options_usage {α : Type} (status : Nat) : Told Stop α := throw (.usage status)

def options_version {α : Type} : Told Stop α := throw .version

/-- The text of a rejected argument of `parse.c`. -/
def message : Rejection → Text
  | .invalid_mode s => "invalid mode: '".toList ++ s ++ "'\n".toList
  | .invalid_size s => "invalid size: '".toList ++ s ++ "'\n".toList
  | .invalid_size_suffix s => "invalid size suffix in '".toList ++ s ++ "'\n".toList
  | .size_too_large s => "size too large: '".toList ++ s ++ "'\n".toList

/-- A result of `parse.c`, which exits on a rejected argument. -/
def accepted {α : Type} : Except Rejection α → Told Stop α
  | .ok a => pure a
  | .error e => error_exit (message e)

def spec_misuse {α : Type} (option : Int) (s : Cursor) : Told Stop α := do
  if option = ':'.toNat then
    match s.opt_name with
    | some name => error_print ("option '--".toList ++ name ++ "' requires an argument\n".toList)
    | none => error_print ("option requires an argument -- ".toList ++ [Char.ofNat s.opt_opt] ++ "\n".toList)
  else if option = '='.toNat then
    error_print ("option '--".toList ++ s.opt_name.getD "(null)".toList ++ "' does not take an argument\n".toList)
  else if option = '?'.toNat then
    match s.opt_name with
    | some name => error_print ("unknown option '".toList ++ name ++ "'\n".toList)
    | none => error_print ("unknown option -- ".toList ++ [Char.ofNat s.opt_opt] ++ "\n".toList)
  options_usage EXIT_FAILURE

def spec_option (option : Int) (s : Cursor) (spec : FileSpec) (args : SpecArgs) : Told Stop (FileSpec × SpecArgs) :=
  if option = OPTVAL_HELP then options_usage EXIT_SUCCESS
  else if option = OPTVAL_VERSION then options_version
  else if option = 'm'.toNat then pure (spec,{ args with mode := s.opt_arg })
  else if option = 'A'.toNat then pure ({ spec with absolute_given := true },args)
  else if option = 'p'.toNat then pure ({ spec with parents_mode := true },args)
  else if option = 'f'.toNat then pure ({ spec with force_mode := true },args)
  else if option = 'o'.toNat then pure (spec,{ args with owner := s.opt_arg })
  else if option = OPTVAL_REFERENCE then pure (spec,{ args with reference := s.opt_arg })
  else if option = 's'.toNat then pure ({ spec with size_given := true },{ args with size := s.opt_arg })
  else if option = OPTVAL_TEMPLATE then pure ({ spec with template_file := s.opt_arg },args)
  else if option = OPTVAL_BACKUP then
    pure ({ spec with backup_given := true, backup_control := s.opt_arg.or spec.backup_control },args)
  else if option = 'b'.toNat then pure ({ spec with backup_given := true },args)
  else if option = OPTVAL_SPARSE then pure ({ spec with sparse_mode := true },args)
  else if option = 'v'.toNat then pure ({ spec with verbose := 1 },args)
  else spec_misuse option s

def backup_control_known (control : Text) : Bool :=
  ["simple","never","none","off","numbered","t","existing","nil"].any fun known => control == known.toList

def spec_check (env : Environment) (spec : FileSpec) (args : SpecArgs) : Told Stop FileSpec := do
  if args.mode.isSome ∧ args.reference.isSome then
    error_exit "options '--mode' and '--reference' are mutually exclusive\n".toList
  if spec.backup_given ∧ !spec.force_mode then
    error_print "warning: backup option has no effect without --force\n".toList
  if spec.sparse_mode ∧ !spec.size_given then
    error_print "warning: --sparse has no effect without --size\n".toList
  if spec.backup_given ∧ spec.force_mode then
    let control := (spec.backup_control.or (env.getenv "VERSION_CONTROL".toList)).getD "existing".toList
    if !backup_control_known control then
      error_exit ("invalid backup control '".toList ++ control ++ "'\n".toList)
    return { spec with backup_control := some control }
  return spec

/-- The part of `spec_values` that finds the mode. -/
def valueMode (env : Environment) (args : SpecArgs) : Told Stop mode_t :=
  match args.reference with
  | some reference =>
    match env.stat reference with
    | .error e => error_exit ("cannot stat reference file '".toList ++ reference ++ "': ".toList ++ e ++ "\n".toList)
    | .ok st_mode => pure (st_mode &&& CHMOD_MODE_BITS)
  | none =>
    match args.mode with
    | some mode => accepted (parse_mode mode)
    | none => pure 0o666

def spec_values (env : Environment) (spec : FileSpec) (args : SpecArgs) : Told Stop FileSpec := do
  let mode ← valueMode env args
  let (ret,ids) :=
    match args.owner with
    | some owner => parse_owner env.db env.memory (some owner) ⟨spec.uid,spec.gid,spec.set_uid,spec.set_gid⟩
    | none => (0,⟨spec.uid,spec.gid,spec.set_uid,spec.set_gid⟩)
  if ret ≠ 0 then error_exit ("invalid owner: '".toList ++ args.owner.getD [] ++ "'\n".toList)
  let spec := { spec with
    mode, uid := ids.uid, gid := ids.gid, set_uid := ids.set_uid, set_gid := ids.set_gid
    set_owner := args.owner.isSome, uid_changes := ids.set_uid && ids.uid != env.geteuid }
  if spec.size_given then
    match args.size with
    | some size => return { spec with size := ← accepted (parse_size size) }
    | none => throw .null
  return spec

/-- The loop of `spec_parse`, with at most `fuel` calls left. -/
def scanLoop : Nat → Cursor → FileSpec → SpecArgs → Told Ending (Cursor × FileSpec × SpecArgs)
  | 0, _, _, _ => throw (.fault .endless)
  | fuel+1, s, spec, args =>
    match optparse_long s options_optstring options_long with
    | .error f => throw (.fault f)
    | .ok (s,option) =>
      if option = -1 then pure (s,spec,args)
      else do
        let (spec,args) ← (spec_option option s spec args).adapt Ending.stop
        scanLoop fuel s spec args

/-- The part of `spec_parse` behind the loop. -/
def finishSpec (env : Environment) (argc : Nat) (s : Cursor) (spec : FileSpec) (args : SpecArgs) :
    Told Stop (Nat × FileSpec) := do
  if s.opt_ind = argc then
    error_print "missing operand\n".toList
    options_usage EXIT_FAILURE
  let spec ← spec_check env spec args
  let spec ← spec_values env spec args
  return (s.opt_ind,spec)

/-- The index of the first operand and the specification. -/
def spec_parse (env : Environment) (fuel : Nat) (argv : List Word) : Told Ending (Nat × FileSpec) := do
  let (s,spec,args) ← scanLoop fuel { argv } {} {}
  (finishSpec env argv.length s spec args).adapt Ending.stop

/-- What `spec_parse` comes to, and what it has printed. -/
def parsed (env : Environment) (fuel : Nat) (argv : List Word) : Except Ending (Nat × FileSpec) × List Text :=
  (spec_parse env fuel argv).run.run []

/-- `(size_t)(argc - first)`: the operands that `main` hands to `batch_run`, from `argv + first` on. -/
def operandCount (argc first : Nat) : BitVec 64 := BitVec.ofInt 64 (argc-first)

/-! ## Runs of the code -/

theorem bind_run {ε α β : Type} (x : Told ε α) (f : α → Told ε β) (said : List Text) :
    (x >>= f).run.run said =
      match x.run.run said with
      | (.ok a,said) => (f a).run.run said
      | (.error e,said) => (.error e,said) := by
  rw [ExceptT.run_bind,StateT.run_bind]
  change (match x.run.run said with | (r,said) => _) = _
  rcases x.run.run said with ⟨_ | _,_⟩ <;> rfl

/-- Whatever has been printed, the code returns something with `P`, or exits. -/
def Settles {α : Type} (P : α → Prop) (m : Told Ending α) : Prop :=
  ∀ said, match (m.run.run said).1 with
    | .ok a => P a
    | .error (.stop _) => True
    | .error (.fault _) => False

/-- What the code returns has `P`. -/
def Returns {α : Type} (P : α → Prop) (m : Told Stop α) : Prop := ∀ said a, (m.run.run said).1 = .ok a → P a

theorem Settles.bind {α β : Type} {P : α → Prop} {Q : β → Prop} {x : Told Ending α} {f : α → Told Ending β}
    (first : Settles P x) (rest : ∀ a, P a → Settles Q (f a)) : Settles Q (x >>= f) := by
  intro said
  have settled := first said
  rw [bind_run]
  rcases run : x.run.run said with ⟨e | a,printed⟩
  · rw [run] at settled
    cases e <;> exact settled
  · exact rest a (by simpa [run] using settled) printed

theorem Returns.settles {α : Type} {P : α → Prop} {m : Told Stop α} (returns : Returns P m) :
    Settles P (m.adapt Ending.stop) := by
  intro said
  have returned := returns said
  have adapted : (m.adapt Ending.stop).run.run said = ((m.run.run said).1.mapError Ending.stop,(m.run.run said).2) := rfl
  rw [adapted]
  rcases run : m.run.run said with ⟨_ | a,printed⟩
  · trivial
  · exact returned a (by rw [run])

theorem Returns.bind {α β : Type} {P : α → Prop} {Q : β → Prop} {x : Told Stop α} {f : α → Told Stop β}
    (first : Returns P x) (rest : ∀ a, P a → Returns Q (f a)) : Returns Q (x >>= f) := by
  intro said b returned
  rw [bind_run] at returned
  rcases run : x.run.run said with ⟨_ | a,printed⟩
  · simp [run] at returned
  · rw [run] at returned
    exact rest a (first said a (by rw [run])) printed b returned

theorem Returns.any {α : Type} (m : Told Stop α) : Returns (fun _ => True) m := fun _ _ _ => trivial

theorem Returns.pure {α : Type} {P : α → Prop} {a : α} (holds : P a) : Returns P (pure a) := by
  intro said b returned
  obtain rfl : a = b := Except.ok.inj returned
  exact holds

/-- The end of `spec_parse` returns `opt_ind`, and not when it is `argc`. -/
theorem finishSpec_returns (env : Environment) (argc : Nat) (s : Cursor) (spec : FileSpec) (args : SpecArgs) :
    Returns (fun result => result.1 = s.opt_ind ∧ s.opt_ind ≠ argc) (finishSpec env argc s spec args) := by
  rw [finishSpec]
  by_cases missing : s.opt_ind = argc
  · rw [if_pos missing]
    have never : Returns (fun _ : PUnit => False) (options_usage EXIT_FAILURE) := fun _ _ returned => nomatch returned
    exact (Returns.any _).bind fun _ _ => never.bind fun _ => False.elim
  · rw [if_neg missing]
    exact (Returns.any _).bind fun _ _ => (Returns.any _).bind fun _ _ => .pure ⟨rfl,missing⟩

/-! ## Inside the command line -/

/-- The options that a call finds from `s` on are used up before the calls are. -/
theorem scanLoop_settles : ∀ (fuel : Nat) (s : Cursor) (spec : FileSpec) (args : SpecArgs), Placed s →
    extent s.argv < (s.begun options_optstring options_long).reach+fuel →
      Settles (fun result => 1 ≤ result.1.opt_ind ∧ result.1.opt_ind ≤ max 1 s.argv.length) (scanLoop fuel s spec args) := by
  intro fuel
  induction fuel with
  | zero =>
    intro s spec args placed enough
    have most := (placed.begun options_optstring options_long).reach_le
    rw [extent_perm (begun_perm _ _)] at most
    omega
  | succ fuel ih =>
    intro s spec args placed enough
    obtain ⟨s',option,run,-,called⟩ := optparse_long_called options_optstring options_long placed
    have begun := placed.begun options_optstring options_long
    have placed' := called.placed begun rfl
    have perm : s'.argv.Perm s.argv := by rw [called.argv]; exact begun_perm _ _
    rw [scanLoop,run]
    dsimp only
    by_cases ended : option = -1
    · rw [if_pos ended]
      intro said
      exact ⟨placed'.first,by rw [← perm.length_eq]; exact placed'.last⟩
    · rw [if_neg ended]
      have further := called.reach_lt begun ended
      have same : (s'.begun options_optstring options_long).reach = s'.reach := by
        simp [Cursor.reach,Cursor.begun,Cursor.off,called.started]
      refine (Returns.any _).settles.bind fun result _ => ?_
      have rest := ih s' result.1 result.2 placed' (by rw [same,extent_perm perm]; omega)
      rwa [perm.length_eq] at rest

theorem placed_start (argv : List Word) : Placed { argv } :=
  ⟨le_rfl,le_max_left _ _,by simp [Cursor.Points],fun _ => rfl⟩

/-- `spec_parse` comes to an end, and returns an index behind the options. -/
theorem spec_parse_settles (env : Environment) {fuel : Nat} {argv : List Word} (enough : extent argv < fuel) :
    Settles (fun result => 1 ≤ result.1 ∧ result.1 ≤ max 1 argv.length ∧ result.1 ≠ argv.length)
      (spec_parse env fuel argv) := by
  refine (scanLoop_settles fuel { argv } {} {} (placed_start argv) (by simp only []; omega)).bind ?_
  rintro ⟨s,spec,args⟩ ⟨first,last⟩
  have returns := finishSpec_returns env argv.length s spec args
  refine Returns.settles fun said result returned => ?_
  obtain ⟨same,other⟩ := returns said result returned
  dsimp only at first last
  exact ⟨by omega,by omega,by omega⟩

example : (parsed ⟨fun _ => none,fun _ => .error [],0,⟨fun _ => none,fun _ => none⟩,true⟩ 4
    ["newfile".toList,"f".toList,"-pm600".toList,"g".toList,"--size=1K".toList]).1 =
    .ok (3,{ mode := 0o600, size := 1024, parents_mode := true, size_given := true }) := by decide +kernel

def INT_MAX : Nat := 2^31-1

/-- A command line as `main` gets it: `argc` is an `int`. -/
structure CommandLine where
  argv : List Word
  fits : argv.length ≤ INT_MAX

/-- The states in which the loop calls `optparse_long`. -/
inductive Reached (argv : List Word) : Cursor → Prop
  | start : Reached argv { argv }
  | next {s s' : Cursor} {option : Int} (reached : Reached argv s)
    (run : optparse_long s options_optstring options_long = .ok (s',option)) (more : option ≠ -1) : Reached argv s'

theorem Reached.placed {argv : List Word} {s : Cursor} (reached : Reached argv s) : Placed s ∧ s.argv.Perm argv := by
  induction reached with
  | start => exact ⟨placed_start argv,.refl _⟩
  | @next s s' option _ run _ ih =>
    obtain ⟨s'',option',run',-,called⟩ := optparse_long_called options_optstring options_long ih.1
    obtain ⟨rfl,rfl⟩ : s'' = s' ∧ option' = option := by simpa using run'.symm.trans run
    refine ⟨called.placed (ih.1.begun _ _) rfl,?_⟩
    rw [called.argv]
    exact (begun_perm _ _).trans ih.2

/-- The operands from `first` on are those that `main` counts, and there is one at least. -/
def Operands (argc first : Nat) : Prop :=
  1 ≤ first ∧ first < argc ∧ 1 ≤ (operandCount argc first).toNat ∧ first+(operandCount argc first).toNat = argc

/-- The scan of a command line stays inside it. -/
structure Inside (env : Environment) (line : CommandLine) : Prop where
  calls : ∀ s, Reached line.argv s → ∃ s' option, optparse_long s options_optstring options_long = .ok (s',option) ∧
    s'.argv.Perm line.argv ∧ s'.Points ∧ (option ≠ -1 → s.position < s'.position)
  ends : ∃ enough, ∀ fuel, enough ≤ fuel →
    Settles (fun result => Operands line.argv.length result.1) (spec_parse env fuel line.argv)

theorem operandCount_toNat {argc first : Nat} (less : first ≤ argc) (fits : argc ≤ INT_MAX) :
    (operandCount argc first).toNat = argc-first := by
  rw [operandCount,← Int.ofNat_sub less,BitVec.ofInt_natCast,BitVec.toNat_ofNat]
  exact Nat.mod_eq_of_lt (by simp only [INT_MAX] at fits; omega)

/-- Each call of the loop stays inside the command line and goes on in it. -/
theorem calls_inside (argv : List Word) {s : Cursor} (reached : Reached argv s) :
    ∃ s' option, optparse_long s options_optstring options_long = .ok (s',option) ∧
      s'.argv.Perm argv ∧ s'.Points ∧ (option ≠ -1 → s.position < s'.position) := by
  obtain ⟨placed,perm⟩ := reached.placed
  obtain ⟨s',option,run,-,called⟩ := optparse_long_called options_optstring options_long placed
  refine ⟨s',option,run,?_,(called.placed (placed.begun _ _) rfl).points,fun more => called.position_lt more⟩
  rw [called.argv]
  exact (begun_perm _ _).trans perm

/-- With no word at all, not even the program's name, `opt_ind` is past `argc`. -/
theorem spec_parse_nothing (env : Environment) (fuel : Nat) (said : List Text) :
    ((spec_parse env (fuel+1) []).run.run said).1 = .ok (1,{ mode := 0o666 }) := by
  rfl

theorem nothing_not_inside (env : Environment) (fits : [].length ≤ INT_MAX) : ¬ Inside env ⟨[],fits⟩ := by
  intro inside
  obtain ⟨enough,ends⟩ := inside.ends
  have settled := ends (enough+1) (Nat.le_succ _) []
  rw [spec_parse_nothing] at settled
  exact absurd settled.2.1 (by simp)

/-- The scan stays inside the command line exactly when that has a first word. -/
theorem scan_inside_iff (env : Environment) (line : CommandLine) : Inside env line ↔ 0 < line.argv.length := by
  constructor
  · intro inside
    by_contra nothing
    obtain ⟨argv,fits⟩ := line
    obtain rfl : argv = [] := List.length_eq_zero_iff.mp (by simpa using nothing)
    exact nothing_not_inside env fits inside
  · intro positive
    refine ⟨fun s reached => calls_inside line.argv reached,extent line.argv+1,fun fuel enough said => ?_⟩
    have settled := spec_parse_settles env enough said
    split at settled
    case h_1 result _ =>
      obtain ⟨first,last,other⟩ := settled
      have less : result.1 < line.argv.length := by omega
      have count := operandCount_toNat less.le line.fits
      exact ⟨first,less,by omega,by omega⟩
    case h_2 => trivial
    case h_3 => exact settled

/-- No variables, no files and no names. -/
def bareEnvironment : Environment where
  getenv _ := none
  stat _ := .error "No such file or directory".toList
  geteuid := 0
  db := ⟨fun _ => none,fun _ => none⟩
  memory := true

/-- A command line of no words is taken for one with 2^64-1 operands. -/
theorem scan_of_nothing :
    (parsed bareEnvironment 1 []).1 = .ok (1,{ mode := 0o666 }) ∧ operandCount 0 1 = BitVec.allOnes 64 ∧
      ¬ Inside bareEnvironment ⟨[],by decide⟩ :=
  ⟨spec_parse_nothing _ _ _,by decide,nothing_not_inside _ _⟩

end Newfile.Spec
