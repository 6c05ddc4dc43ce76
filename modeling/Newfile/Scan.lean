import Newfile.Permute

/-!
Option scanning against a left-to-right reading of the original command line.
The scanner reads the permuted array; it agrees with the reading of the words as
typed unless the command line ends in an option whose argument is missing and
an operand stands somewhere in front of it.
-/
namespace Newfile.Scan
open Newfile.Optparse Newfile.Permute

/-! ## What the calls return -/

/-- The values returned together with `opt_arg`, up to the first error or -1,
    and the operands when -1 is reached. -/
structure Reading where
  found : List (Int × Option Word)
  operands : Option (List Word)
  deriving DecidableEq, Repr

def Reading.cons (item : Int × Option Word) (r : Reading) : Reading := ⟨item :: r.found,r.operands⟩
def Reading.append (items : List (Int × Option Word)) (r : Reading) : Reading := ⟨items ++ r.found,r.operands⟩

/-- `?`, `:` or `=`. -/
def isError (v : Int) : Bool := v = '?'.toNat || v = ':'.toNat || v = '='.toNat

/-- The calls that a scan makes from a state, at most `fuel` of them. -/
def readingFrom : Nat → Scanner → Reading
  | 0, _ => ⟨[],none⟩
  | fuel+1, s =>
    let (s,v) := optparse_long s options_optstring options_long
    if v = -1 then ⟨[],some (s.argv.drop s.opt_ind)⟩
    else if isError v then ⟨[(v,s.opt_arg)],none⟩
    else (readingFrom fuel s).cons (v,s.opt_arg)

/-- More calls than letters and words. -/
def cost (ws : List Word) : Nat := (ws.map (·.length+1)).sum+1

/-- All calls of a scan of the command line. -/
def readings (argv : List Word) : Reading := readingFrom (cost argv) { argv }

/-! ## The reference reading -/

/-- How a word that holds options leaves the reading: done with, waiting for the
    argument of the option with the given value, or in error. -/
inductive Next where
  | go
  | arg (val : Int)
  | err (val : Int)
  deriving DecidableEq, Repr

structure WordRead where
  found : List (Int × Option Word)
  next : Next
  deriving DecidableEq, Repr

/-- Whether a short option of the table takes an argument. -/
def shortArg (c : Char) : Option HasArg :=
  (options.find? fun o => o.val < OPTVAL_HELP && o.val == c.toNat).map (·.has_arg)

/-- The letters after a single dash, from the left. -/
def letters : Word → WordRead
  | [] => ⟨[],.go⟩
  | c :: cs =>
    match shortArg c with
    | none => ⟨[],.err '?'.toNat⟩
    | some .none => ⟨(c.toNat,none) :: (letters cs).found,(letters cs).next⟩
    | some .required => if cs = [] then ⟨[],.arg c.toNat⟩ else ⟨[(c.toNat,some cs)],.go⟩
    | some .optional => ⟨[(c.toNat,if cs = [] then none else some cs)],.go⟩

/-- The word after two dashes: a name, with an attached argument after `=`. -/
def longName (w : Word) : WordRead :=
  let attached := (strchr w '=').map (·.drop 1)
  match options_long.find? fun o => o.name == w.takeWhile (· ≠ '=') with
  | none => ⟨[],.err '?'.toNat⟩
  | some o =>
    match o.has_arg with
    | .required =>
      match attached with
      | some a => ⟨[(o.val,some a)],.go⟩
      | none => ⟨[],.arg o.val⟩
    | .optional => ⟨[(o.val,attached)],.go⟩
    | .none => if attached.isSome then ⟨[],.err '='.toNat⟩ else ⟨[(o.val,none)],.go⟩

/-- A word that starts with a dash and is neither `-` nor `--`. -/
def readWord (w : Word) : WordRead := if w[1]? = some '-' then longName (w.drop 2) else letters (w.drop 1)

/-- The words after the program's name read from the left, word by word, with the
    operands met so far. -/
def reference : List Word → List Word → Reading
  | [], operands => ⟨[],some operands⟩
  | w :: ws, operands =>
    if w = "--".toList then ⟨[],some (operands ++ ws)⟩
    else if isOperand w then reference ws (operands ++ [w])
    else
      match (readWord w).next with
      | .err e => ⟨(readWord w).found ++ [(e,none)],none⟩
      | .go => (reference ws operands).append (readWord w).found
      | .arg v =>
        match ws with
        | [] => ⟨(readWord w).found ++ [((':'.toNat : Int),none)],none⟩
        | a :: ws => (reference ws operands).append ((readWord w).found ++ [(v,some a)])

/-- The reading comes, without an error on the way, to a last word that is an
    option whose argument is missing, and an operand stands in front of it. -/
def Stranded : List Word → Bool → Prop
  | [], _ => False
  | w :: ws, behind =>
    if w = "--".toList then False
    else if isOperand w then Stranded ws true
    else
      match (readWord w).next with
      | .err _ => False
      | .go => Stranded ws behind
      | .arg _ =>
        match ws with
        | [] => behind = true
        | _ :: ws => Stranded ws behind

/-- The reading of an array whose options come first: it ends at the first operand. -/
def direct : List Word → Reading
  | [] => ⟨[],some []⟩
  | w :: ws =>
    if w = "--".toList then ⟨[],some ws⟩
    else if isOperand w then ⟨[],some (w :: ws)⟩
    else
      match (readWord w).next with
      | .err e => ⟨(readWord w).found ++ [(e,none)],none⟩
      | .go => (direct ws).append (readWord w).found
      | .arg v =>
        match ws with
        | [] => ⟨(readWord w).found ++ [((':'.toNat : Int),none)],none⟩
        | a :: ws => (direct ws).append ((readWord w).found ++ [(v,some a)])

/-- What follows a word read as `r`, in front of the words `ws`. -/
def after (r : WordRead) (ws : List Word) : Reading :=
  match r.next with
  | .err e => ⟨r.found ++ [(e,none)],none⟩
  | .go => (direct ws).append r.found
  | .arg v =>
    match ws with
    | [] => ⟨r.found ++ [((':'.toNat : Int),none)],none⟩
    | a :: ws => (direct ws).append (r.found ++ [(v,some a)])

theorem direct_option {w : Word} (dashes : w ≠ "--".toList) (option : isOperand w = false) (ws : List Word) :
    direct (w :: ws) = after (readWord w) ws := by
  simp only [direct,dashes,option,after]
  cases (readWord w).next with
  | arg v => cases ws <;> rfl
  | _ => rfl

theorem direct_operand {w : Word} (operand : isOperand w = true) (ws : List Word) :
    direct (w :: ws) = ⟨[],some (w :: ws)⟩ := by
  have dashes : w ≠ "--".toList := by rintro rfl; exact absurd operand (by decide)
  rw [direct,if_neg dashes,if_pos operand]

theorem after_cons (item : Int × Option Word) (r : WordRead) (ws : List Word) :
    (after r ws).cons item = after ⟨item :: r.found,r.next⟩ ws := by
  simp only [after]
  cases r.next with
  | arg v => cases ws <;> rfl
  | _ => rfl

/-! ## The table as the scanner looks it up -/

theorem optstring_eq : options_optstring = "m:o:s:pfbAv".toList := by decide

/-- The letters of the table. -/
theorem shortArg_cases (c : Char) :
    (c ∈ "mos".toList ∧ shortArg c = some .required) ∨ (c ∈ "pfbAv".toList ∧ shortArg c = some .none) ∨
      (c ∉ "mospfbAv".toList ∧ shortArg c = none) := by
  by_cases listed : c ∈ "mospfbAv".toList
  · have each : ∀ c ∈ "mospfbAv".toList, (c ∈ "mos".toList ∧ shortArg c = some .required) ∨
        (c ∈ "pfbAv".toList ∧ shortArg c = some .none) := List.forall_iff_forall_mem.mp (by decide)
    rcases each c listed with h | h
    · exact .inl h
    · exact .inr (.inl h)
  · refine .inr (.inr ⟨listed,?_⟩)
    have each : ∀ o ∈ options, o.val < OPTVAL_HELP → o.val ∈ "mospfbAv".toList.map Char.toNat := by decide
    simp only [shortArg,Option.map_eq_none_iff,List.find?_eq_none]
    intro o member found
    simp only [Bool.and_eq_true,decide_eq_true_eq,beq_iff_eq] at found
    obtain ⟨d,inside,same⟩ := List.mem_map.mp (each o member found.1)
    exact listed ((Char.toNat_inj.mp (same.trans found.2)) ▸ inside)

/-- `strchr` on the optstring finds an unlisted character only where it is the colon. -/
theorem strchr_unlisted {c : Char} (listed : c ∉ "mospfbAv".toList) (colon : c ≠ ':') :
    strchr options_optstring c = none := by
  rw [optstring_eq]
  simp only [String.reduceToList,List.mem_cons,List.not_mem_nil,or_false,not_or] at listed
  simp [strchr,listed,colon,eq_comm]

/-- What `strchr` finds for the letters of the table, and what their values are not. -/
theorem strchr_required {c : Char} (member : c ∈ "mos".toList) : c ≠ ':' ∧ isError c.toNat = false ∧
    ∃ spec, strchr options_optstring c = some spec ∧ spec[1]? = some ':' ∧ spec[2]? ≠ some ':' := by
  have each : ∀ c ∈ "mos".toList, c ≠ ':' ∧ isError c.toNat = false ∧ (strchr options_optstring c).isSome ∧
      ((strchr options_optstring c).getD [])[1]? = some ':' ∧
      ((strchr options_optstring c).getD [])[2]? ≠ some ':' := List.forall_iff_forall_mem.mp (by decide)
  obtain ⟨colon,value,found,second,third⟩ := each c member
  obtain ⟨spec,specIs⟩ := Option.isSome_iff_exists.mp found
  rw [specIs,Option.getD_some] at second third
  exact ⟨colon,value,spec,specIs,second,third⟩

theorem strchr_plain {c : Char} (member : c ∈ "pfbAv".toList) : c ≠ ':' ∧ isError c.toNat = false ∧
    ∃ spec, strchr options_optstring c = some spec ∧ spec[1]? ≠ some ':' := by
  have each : ∀ c ∈ "pfbAv".toList, c ≠ ':' ∧ isError c.toNat = false ∧ (strchr options_optstring c).isSome ∧
      ((strchr options_optstring c).getD [])[1]? ≠ some ':' := List.forall_iff_forall_mem.mp (by decide)
  obtain ⟨colon,value,found,second⟩ := each c member
  obtain ⟨spec,specIs⟩ := Option.isSome_iff_exists.mp found
  rw [specIs,Option.getD_some] at second
  exact ⟨colon,value,spec,specIs,second⟩

theorem long_entries : ∀ o ∈ options_long, o.flag = none ∧ isError o.val = false := by decide

/-! ## Long names -/

private theorem strchr_none {w : Word} {c : Char} (absent : strchr w c = none) : w.takeWhile (· ≠ c) = w := by
  induction w with
  | nil => rfl
  | cons d w ih =>
    by_cases same : d = c
    · simp [strchr,same] at absent
    · simp only [strchr,same,↓reduceIte] at absent
      simpa [same] using ih absent

private theorem strchr_some {w rest : Word} {c : Char} (found : strchr w c = some rest) :
    w = w.takeWhile (· ≠ c) ++ rest := by
  induction w with
  | nil => simp [strchr] at found
  | cons d w ih =>
    by_cases same : d = c
    · simp only [strchr,same,↓reduceIte,Option.some.injEq] at found
      simp [same,← found]
    · simp only [strchr,same,↓reduceIte] at found
      simpa [same] using ih found

/-- The length that `parse_long` compares names by is that of the part before `=`. -/
private theorem name_length (w : Word) :
    lenUntil w (strchr w '=') = (w.takeWhile (· ≠ '=')).length := by
  cases found : strchr w '=' with
  | none => rw [strchr_none found,lenUntil]
  | some rest =>
    have split := congrArg List.length (strchr_some found)
    rw [List.length_append] at split
    simp only [lenUntil]
    omega

private theorem same_name (o : OptOption) (w : Word) :
    (o.name.length == (w.takeWhile (· ≠ '=')).length &&
      o.name.take (w.takeWhile (· ≠ '=')).length == w.take (w.takeWhile (· ≠ '=')).length) =
      (o.name == w.takeWhile (· ≠ '=')) := by
  have key : w.take (w.takeWhile (· ≠ '=')).length = w.takeWhile (· ≠ '=') :=
    (List.prefix_iff_eq_take.mp (List.takeWhile_prefix _)).symm
  rw [key,Bool.eq_iff_iff]
  simp only [Bool.and_eq_true,beq_iff_eq]
  constructor
  · rintro ⟨size,same⟩
    rwa [List.take_of_length_le (by omega)] at same
  · rintro same
    rw [same]
    simp

private theorem getElem?_findIdx? {α : Type} (p : α → Bool) (l : List α) :
    match l.findIdx? p with
    | none => l.find? p = none
    | some i => l[i]? = l.find? p ∧ (l.find? p).isSome := by
  induction l with
  | nil => rfl
  | cons x l ih =>
    rw [List.findIdx?_cons]
    by_cases holds : p x = true
    · simp [holds]
    · simp only [holds,Bool.false_eq_true,↓reduceIte]
      cases found : l.findIdx? p with
      | none => simpa [holds,found] using ih
      | some i => simpa [holds,found] using ih

/-! ## The calls read the array from the left -/

/-- What a scan makes of the value of one call, with `fuel` calls left. -/
def resume (fuel : Nat) (r : Scanner × Int) : Reading :=
  if r.2 = -1 then ⟨[],some (r.1.argv.drop r.1.opt_ind)⟩
  else if isError r.2 then ⟨[(r.2,r.1.opt_arg)],none⟩
  else (readingFrom fuel r.1).cons (r.2,r.1.opt_arg)

theorem readingFrom_succ (fuel : Nat) (s : Scanner) :
    readingFrom (fuel+1) s = resume fuel (optparse_long s options_optstring options_long) := rfl

private theorem resume_error (fuel : Nat) (s : Scanner) {v : Int} (error : isError v = true) (arg : s.opt_arg = none) :
    resume fuel (s,v) = ⟨[(v,none)],none⟩ := by
  have : v ≠ -1 := by rintro rfl; exact absurd error (by decide)
  simp [resume,this,error,arg]

private theorem resume_value (fuel : Nat) (s : Scanner) {v : Nat} (fine : isError v = false) :
    resume fuel (s,(v : Int)) = (readingFrom fuel s).cons (v,s.opt_arg) := by
  have : (v : Int) ≠ -1 := by omega
  simp [resume,this,fine]

/-- With `fuel` calls left a scan of the permuted array reads it directly, between
    two words and inside a cluster. -/
private structure Reads (fuel : Nat) : Prop where
  between : ∀ s : Scanner, s.started = true → 0 < s.opt_ind → s.nextchar = none →
    cost (s.argv.drop s.opt_ind) ≤ fuel → readingFrom fuel s = direct (s.argv.drop s.opt_ind)
  inside : ∀ (s : Scanner) (c : Char) (cs : Word), s.started = true → 0 < s.opt_ind → s.nextchar = some (c :: cs) →
    (c :: cs).length+cost (s.argv.drop (s.opt_ind+1)) ≤ fuel →
    readingFrom fuel s = after (letters (c :: cs)) (s.argv.drop (s.opt_ind+1))

private theorem cost_cons (w : Word) (ws : List Word) : cost (w :: ws) = w.length+1+cost ws := by
  simp [cost,Nat.add_assoc]

private theorem drop_two {argv : List Word} {i : Nat} (more : i+1 < argv.length) :
    argv.drop (i+1) = argv.getD (i+1) [] :: argv.drop (i+2) := by
  rw [List.drop_eq_getElem_cons more]
  simp [List.getD,more]

/-- One short option, and the rest of the scan. -/
private theorem short_reads {fuel : Nat} (reads : Reads fuel) (s : Scanner) (c : Char) (cs : Word)
    (started : s.started = true) (positive : 0 < s.opt_ind) (noArg : s.opt_arg = none)
    (enough : cs.length+cost (s.argv.drop (s.opt_ind+1)) ≤ fuel) :
    resume fuel (parse_short s c cs options_optstring) =
      after (letters (c :: cs)) (s.argv.drop (s.opt_ind+1)) := by
  rcases shortArg_cases c with ⟨member,arg⟩ | ⟨member,arg⟩ | ⟨absent,arg⟩
  · obtain ⟨colon,value,spec,specIs,second,third⟩ := strchr_required member
    simp only [parse_short,colon,↓reduceIte,specIs,second,ne_eq,not_true_eq_false,third,letters,arg]
    by_cases attached : cs = []
    · subst attached
      simp only [not_true_eq_false,↓reduceIte]
      by_cases more : s.opt_ind+1 < s.argv.length
      · rw [if_pos more,resume_value _ _ value,drop_two more]
        rw [drop_two more,cost_cons] at enough
        rw [reads.between _ (by exact started) (by simp) rfl (by simp only; omega)]
        rfl
      · rw [if_neg more,resume_error _ _ (by decide) (by exact noArg),List.drop_eq_nil_of_le (by omega)]
        rfl
    · simp only [attached,not_false_eq_true,↓reduceIte]
      rw [resume_value _ _ value,reads.between _ (by exact started) (by simp) rfl (by simp only; omega)]
      rfl
  · obtain ⟨colon,value,spec,specIs,second⟩ := strchr_plain member
    simp only [parse_short,colon,↓reduceIte,specIs,second,ne_eq,not_false_eq_true,letters,arg]
    rw [resume_value _ _ value]
    cases cs with
    | nil =>
      simp only [↓reduceIte]
      rw [reads.between _ (by exact started) (by simp) rfl (by simpa using enough),noArg]
      rfl
    | cons d cs =>
      simp only [reduceCtorEq,↓reduceIte]
      rw [reads.inside _ d cs (by exact started) (by exact positive) (by exact rfl) (by exact enough),after_cons,noArg]
  · have spec : (if c = ':' then none else strchr options_optstring c) = none := by
      by_cases colon : c = ':'
      · simp [colon]
      · simp [colon,strchr_unlisted absent colon]
    simp only [parse_short,spec,letters,arg]
    rw [resume_error _ _ (by decide) (by split <;> exact noArg)]
    rfl

/-- One long option, and the rest of the scan. -/
private theorem long_reads {fuel : Nat} (reads : Reads fuel) (s : Scanner) (w : Word) (ws : List Word)
    (started : s.started = true) (here : s.argv.drop s.opt_ind = w :: ws) (noArg : s.opt_arg = none)
    (noNext : s.nextchar = none) (enough : cost ws ≤ fuel) :
    resume fuel (parse_long s options_long) = after (longName (w.drop 2)) ws := by
  have inside : s.opt_ind < s.argv.length := by
    by_contra outside
    simp [List.drop_eq_nil_of_le (Nat.le_of_not_lt outside)] at here
  have rest : s.argv.drop (s.opt_ind+1) = ws := by rw [← List.tail_drop,here]; rfl
  have word : s.argv.getD s.opt_ind [] = w := by
    have := List.drop_eq_getElem_cons inside
    rw [here,List.cons.injEq] at this
    simp [List.getD,inside,← this.1]
  simp only [parse_long,word,name_length,same_name,longName]
  have lookup := getElem?_findIdx? (fun o : OptOption => o.name == (w.drop 2).takeWhile (· ≠ '=')) options_long
  cases idx : options_long.findIdx? (fun o => o.name == (w.drop 2).takeWhile (· ≠ '=')) with
  | none =>
    simp only [idx] at lookup
    simp only [lookup]
    rw [resume_error _ _ (by decide) (by exact noArg)]
    rfl
  | some i =>
    simp only [idx] at lookup
    obtain ⟨o,found⟩ := Option.isSome_iff_exists.mp lookup.2
    obtain ⟨flag,value⟩ := long_entries o (List.mem_of_find?_eq_some found)
    simp only [lookup.1,found,flag]
    cases attached : strchr (w.drop 2) '=' with
    | some eq =>
      cases arg : o.has_arg with
      | none =>
        simp only [Option.isSome_some,↓reduceIte,Option.map_some]
        rw [resume_error _ _ (by decide) (by exact noArg)]
        rfl
      | _ =>
        simp only [Option.map_some]
        rw [resume_value _ _ value,reads.between _ (by exact started) (by simp) (by exact noNext) (by simpa [rest] using enough)]
        simp only [rest]
        rfl
    | none =>
      cases arg : o.has_arg with
      | required =>
        by_cases more : s.opt_ind+1 < s.argv.length
        · simp only [more,↓reduceIte,Option.map_none]
          rw [resume_value _ _ value]
          rw [drop_two more] at rest
          subst rest
          rw [cost_cons] at enough
          rw [reads.between _ (by exact started) (by simp) (by exact noNext)
            (by change cost (s.argv.drop (s.opt_ind+2)) ≤ fuel; omega)]
          rfl
        · simp only [more,↓reduceIte,Option.map_none]
          rw [resume_error _ _ (by decide) (by exact noArg),← rest,List.drop_eq_nil_of_le (by omega)]
          rfl
      | none =>
        simp only [Option.isSome_none,Bool.false_eq_true,↓reduceIte,Option.map_none]
        rw [resume_value _ _ value,reads.between _ (by exact started) (by simp) (by exact noNext) (by simpa [rest] using enough)]
        simp only [rest,noArg]
        rfl
      | optional =>
        simp only [Option.map_none]
        rw [resume_value _ _ value,reads.between _ (by exact started) (by simp) (by exact noNext) (by simpa [rest] using enough)]
        simp only [rest]
        rfl

private theorem option_shape {w : Word} (dashes : w ≠ "--".toList) (option : isOperand w = false) :
    (∃ c cs, w = '-' :: c :: cs ∧ c ≠ '-') ∨ ∃ c cs, w = '-' :: '-' :: c :: cs := by
  match w with
  | [] => simp [isOperand] at option
  | [c] => simp [isOperand] at option
  | [a,b] =>
    have first : a = '-' := by simpa [isOperand] using option
    subst first
    exact .inl ⟨b,[],rfl,by rintro rfl; exact dashes rfl⟩
  | a :: b :: c :: cs =>
    have first : a = '-' := by simpa [isOperand] using option
    subst first
    by_cases second : b = '-'
    · exact .inr ⟨c,cs,by rw [second]⟩
    · exact .inl ⟨b,c :: cs,rfl,second⟩

private theorem reads_all : ∀ fuel, Reads fuel := by
  intro fuel
  induction fuel with
  | zero =>
    refine ⟨?_,?_⟩
    · intro s _ _ _ enough
      simp [cost] at enough
    · intro s c cs _ _ _ enough
      simp at enough
  | succ fuel reads =>
    refine ⟨?_,?_⟩
    · intro s started positive noNext enough
      have nonzero : s.opt_ind ≠ 0 := by omega
      rw [readingFrom_succ]
      simp only [optparse_long,nonzero,↓reduceIte,started,noNext]
      cases here : s.argv.drop s.opt_ind with
      | nil =>
        have done : s.argv.length ≤ s.opt_ind := List.drop_eq_nil_iff.mp here
        simp [done,resume,direct,here]
      | cons w ws =>
        have inside : s.opt_ind < s.argv.length := by
          by_contra outside
          simp [List.drop_eq_nil_of_le (Nat.le_of_not_lt outside)] at here
        have rest : s.argv.drop (s.opt_ind+1) = ws := by rw [← List.tail_drop,here]; rfl
        have word : s.argv.getD s.opt_ind [] = w := by
          have := List.drop_eq_getElem_cons inside
          rw [here,List.cons.injEq] at this
          simp [List.getD,inside,← this.1]
        rw [here,cost_cons] at enough
        rw [if_neg (by omega),word]
        by_cases dashes : w = "--".toList
        · subst dashes
          simp [resume,rest,direct]
        by_cases operand : isOperand w = true
        · rw [direct_operand operand]
          have stop : ∀ t : Scanner, t.argv = s.argv → t.opt_ind = s.opt_ind →
              resume fuel (t,-1) = ⟨[],some (w :: ws)⟩ := by
            intro t sameArgv sameInd
            simp [resume,sameArgv,sameInd,here]
          match w with
          | [] => exact stop _ rfl rfl
          | [c] =>
            split
            · simp_all
            · simp_all
            · simp_all
            · exact stop _ rfl rfl
          | a :: b :: cs =>
            have first : a ≠ '-' := by simpa [isOperand] using operand
            split
            · simp_all
            · simp_all
            · simp_all
            · exact stop _ rfl rfl
        · simp only [Bool.not_eq_true] at operand
          rw [direct_option dashes operand]
          rcases option_shape dashes operand with ⟨c,cs,rfl,single⟩ | ⟨c,cs,rfl⟩
          · have short : readWord ('-' :: c :: cs) = letters (c :: cs) := by simp [readWord,single]
            rw [short,← rest]
            split
            · simp_all
            · simp_all
            · rename_i shape
              simp only [List.cons.injEq,true_and] at shape
              obtain ⟨rfl,rfl⟩ := shape
              exact short_reads reads _ c cs rfl (by exact positive) rfl
                (by change cs.length+cost (s.argv.drop (s.opt_ind+1)) ≤ fuel; rw [rest]; simp at enough; omega)
            · simp_all
          · have long : readWord ('-' :: '-' :: c :: cs) = longName (('-' :: '-' :: c :: cs).drop 2) := by
              simp [readWord]
            rw [long]
            exact long_reads reads _ _ ws rfl (by exact here) rfl rfl (by omega)
    · intro s c cs started positive next enough
      have nonzero : s.opt_ind ≠ 0 := by omega
      rw [readingFrom_succ]
      simp only [optparse_long,nonzero,↓reduceIte,started,next]
      exact short_reads reads _ c cs rfl (by exact positive) rfl
        (by change cs.length+cost (s.argv.drop (s.opt_ind+1)) ≤ fuel; simp at enough; omega)

/-- The scan reads the permuted array directly. -/
theorem readings_direct (prog : Word) (ws : List Word) :
    readings (prog :: ws) = direct ((parts options_optstring options_long ws).words []) := by
  have start : optparse_long { argv := prog :: ws } options_optstring options_long =
      optparse_long { argv := prog :: (parts options_optstring options_long ws).words [], started := true }
        options_optstring options_long := by
    simp [optparse_long,permute_parts]
  have same : cost ((parts options_optstring options_long ws).words []) = cost ws := by
    rw [cost,cost]
    exact congrArg (·+1) ((words_perm options_optstring options_long ws []).map (·.length+1)).sum_nat
  have size : cost (prog :: ws) = (prog.length+cost ws)+1 := by rw [cost_cons]; omega
  rw [readings,size,readingFrom_succ,start,← readingFrom_succ]
  exact (reads_all _).between _ rfl (by simp) rfl (by simp only [List.drop_succ_cons,List.drop_zero,same]; omega)

/-! ## The permuted array against the original words -/

theorem reference_operand {w : Word} (operand : isOperand w = true) (ws operands : List Word) :
    reference (w :: ws) operands = reference ws (operands ++ [w]) := by
  have dashes : w ≠ "--".toList := by rintro rfl; exact absurd operand (by decide)
  rw [reference,if_neg dashes,if_pos operand]

/-- Read without an error, a word waits for its argument exactly where `permute`
    takes the next word along. -/
private theorem letters_takes (cs : Word) :
    (∀ v, (letters cs).next = .arg v → cluster_takes_arg cs options_optstring = true) ∧
      ((letters cs).next = .go → cluster_takes_arg cs options_optstring = false) := by
  induction cs with
  | nil => simp [letters,cluster_takes_arg]
  | cons c cs ih =>
    rcases shortArg_cases c with ⟨member,arg⟩ | ⟨member,arg⟩ | ⟨absent,arg⟩
    · obtain ⟨colon,_,spec,specIs,second,third⟩ := strchr_required member
      by_cases attached : cs = []
      · simp [letters,arg,cluster_takes_arg,colon,specIs,second,third,attached]
      · simp [letters,arg,cluster_takes_arg,colon,specIs,second,third,attached]
    · obtain ⟨colon,_,spec,specIs,second⟩ := strchr_plain member
      simpa [letters,arg,cluster_takes_arg,colon,specIs,second] using ih
    · simp [letters,arg]

private theorem long_takes_eq (w : Word) (noEq : strchr w '=' = none) :
    long_takes_arg w options_long =
      match options_long.find? fun o => o.name == w.takeWhile (· ≠ '=') with
      | some o => o.has_arg == .required
      | none => false := by
  have all := strchr_none noEq
  have same : (fun o : OptOption => o.name.length == w.length && o.name.take w.length == w.take w.length) =
      fun o => o.name == w.takeWhile (· ≠ '=') := by
    funext o
    rw [← same_name o w,all]
  rw [long_takes_arg,noEq,same]
  cases options_long.find? fun o => o.name == w.takeWhile (· ≠ '=') with
  | none => rfl
  | some o => rfl

private theorem longName_takes (w : Word) :
    (∀ v, (longName w).next = .arg v → long_takes_arg w options_long = true) ∧
      ((longName w).next = .go → long_takes_arg w options_long = false) := by
  cases attached : strchr w '=' with
  | some eq =>
    have no : long_takes_arg w options_long = false := by simp [long_takes_arg,attached]
    refine ⟨?_,fun _ => no⟩
    intro v
    simp only [longName,attached]
    split
    · simp
    · split <;> simp
  | none =>
    rw [long_takes_eq w attached]
    simp only [longName,attached]
    split <;> rename_i found
    · simp
    · simp only [found]
      cases arg : (_ : OptOption).has_arg <;> simp_all

private theorem readWord_takes (w : Word) :
    (∀ v, (readWord w).next = .arg v → takes options_optstring options_long w = true) ∧
      ((readWord w).next = .go → takes options_optstring options_long w = false) := by
  by_cases long : w[1]? = some '-'
  · simpa [readWord,takes,long] using longName_takes (w.drop 2)
  · simpa [readWord,takes,long] using letters_takes (w.drop 1)

private theorem direct_operands {operands : List Word} (all : ∀ o ∈ operands, isOperand o = true) :
    direct operands = ⟨[],some operands⟩ := by
  cases operands with
  | nil => rfl
  | cons o operands => exact direct_operand (all o (by simp)) operands

private theorem Reading.append_inj (items : List (Int × Option Word)) (r r' : Reading) :
    r.append items = r'.append items ↔ r = r' := by
  cases r
  cases r'
  simp [Reading.append]

private theorem reference_option {w : Word} (dashes : w ≠ "--".toList) (option : isOperand w = false)
    (ws operands : List Word) :
    reference (w :: ws) operands =
      match (readWord w).next with
      | .err e => ⟨(readWord w).found ++ [(e,none)],none⟩
      | .go => (reference ws operands).append (readWord w).found
      | .arg v =>
        match ws with
        | [] => ⟨(readWord w).found ++ [((':'.toNat : Int),none)],none⟩
        | a :: ws => (reference ws operands).append ((readWord w).found ++ [(v,some a)]) := by
  rw [reference.eq_def]
  simp only [dashes,option,Bool.false_eq_true,↓reduceIte]

private theorem stranded_option {w : Word} (dashes : w ≠ "--".toList) (option : isOperand w = false)
    (ws : List Word) (behind : Bool) :
    Stranded (w :: ws) behind =
      match (readWord w).next with
      | .err _ => False
      | .go => Stranded ws behind
      | .arg _ =>
        match ws with
        | [] => behind = true
        | _ :: ws => Stranded ws behind := by
  rw [Stranded.eq_def]
  simp only [dashes,option,Bool.false_eq_true,↓reduceIte]

/-- The induction over the partition. The operands behind the scan stand between
    the options and the words still to come. -/
private theorem direct_words : ∀ (ws operands : List Word), (∀ o ∈ operands, isOperand o = true) →
    (direct ((parts options_optstring options_long ws).words operands) = reference ws operands ↔
      ¬ Stranded ws (!operands.isEmpty)) := by
  intro ws
  induction ws using parts.induct options_optstring options_long with
  | case1 =>
    intro operands all
    simp [parts,Parts.words,direct_operands all,reference,Stranded]
  | case2 ws =>
    intro operands _
    have safe : ¬ Stranded ("--".toList :: ws) (!operands.isEmpty) := by rw [Stranded.eq_def]; exact id
    refine iff_of_true ?_ safe
    simp [parts_cons,Parts.words,direct,reference]
  | case3 w ws dashes operand ih =>
    intro operands all
    have grown := ih (operands ++ [w]) (by
      intro o member
      rcases List.mem_append.mp member with member | member
      · exact all o member
      · rw [List.mem_singleton.mp member]
        exact operand)
    rw [reference_operand operand,parts_cons,if_neg dashes,if_pos operand]
    have stranded : Stranded (w :: ws) (!operands.isEmpty) = Stranded ws (!(operands ++ [w]).isEmpty) := by
      rw [Stranded.eq_def]
      simp only [dashes,operand,↓reduceIte]
      cases operands <;> rfl
    rw [stranded,← grown]
    simp [Parts.words]
  | case4 w dashes operand takesNext =>
    intro operands all
    simp only [Bool.not_eq_true] at operand
    have words : (⟨[w],[],[]⟩ : Parts).words operands = w :: operands := by simp [Parts.words]
    rw [parts_cons,if_neg dashes,if_neg (by simp [operand]),if_pos takesNext,words,direct_option dashes operand,
      reference_option dashes operand,stranded_option dashes operand]
    cases next : (readWord w).next with
    | err e => simp [after,next]
    | go => simp [(readWord_takes w).2 next] at takesNext
    | arg v =>
      cases operands with
      | nil => simp [after,next]
      | cons o operands =>
        simp [after,next,direct_operands (fun o member => all o (List.mem_cons_of_mem _ member)),Reading.append]
  | case5 w dashes operand takesNext a ws ih =>
    intro operands all
    simp only [Bool.not_eq_true] at operand
    have words : (parts options_optstring options_long (w :: a :: ws)).words operands =
        w :: a :: (parts options_optstring options_long ws).words operands := by
      rw [parts_cons,if_neg dashes,if_neg (by simp [operand]),if_pos takesNext]
      rfl
    rw [words,direct_option dashes operand,reference_option dashes operand,stranded_option dashes operand]
    cases next : (readWord w).next with
    | err e => simp [after,next]
    | go => simp [(readWord_takes w).2 next] at takesNext
    | arg v => simpa [after,next,Parts.words,Reading.append_inj] using ih operands all
  | case6 w ws dashes operand takesNext ih =>
    intro operands all
    simp only [Bool.not_eq_true] at operand
    rw [parts_cons,if_neg dashes,if_neg (by simp [operand]),if_neg takesNext,Parts.words_group,
      direct_option dashes operand,reference_option dashes operand,stranded_option dashes operand]
    cases next : (readWord w).next with
    | err e => simp [after,next]
    | go => simpa [after,next,Reading.append_inj] using ih operands all
    | arg v => simp [(readWord_takes w).1 v next] at takesNext

/-- The scan of a command line is its reading from the left exactly when no
    operand is carried behind an option that ends the line without its argument. -/
theorem readings_eq_reference_iff (prog : Word) (ws : List Word) :
    readings (prog :: ws) = reference ws [] ↔ ¬ Stranded ws false := by
  rw [readings_direct]
  exact direct_words ws [] (by simp)

/-- `newfile 5 -s`: the operand becomes the argument of the trailing option. -/
theorem readings_ne_reference : readings ["newfile".toList,"5".toList,"-s".toList] ≠ reference ["5".toList,"-s".toList] [] := by
  decide

end Newfile.Scan
