import Newfile.Permute

/-!
`optparse_long` with its accesses written out: an element of `argv` is read below
`argc` only, `nextchar` is a place in a word, and no loop runs on. Each option moves
the scan position forward, and no position is behind the last word.
-/
namespace Newfile.Argv
open Newfile.Optparse

/-- A `char *` to a place in the word at an index of `argv`. -/
structure Ptr where
  word : Nat
  off : Nat
  deriving DecidableEq, Repr

/-- What a call must not do. -/
inductive Fault where
  /-- An access of an element at `argc` or past it. -/
  | outside (i : Nat)
  /-- A letter taken at the end of a word. -/
  | past (p : Ptr)
  /-- A loop that has not ended. -/
  | endless
  deriving DecidableEq, Repr

/-- The variables of `optparse.c` as in `Scanner`, with the place of `nextchar`. -/
structure Cursor where
  argv : List Word
  opt_arg : Option Word := none
  opt_ind : Nat := 1
  opt_opt : Nat := 0
  opt_name : Option Word := none
  nextchar : Option Ptr := none
  started : Bool := false
  longindex : Nat := 0
  stored : List (Nat × Nat) := []
  deriving DecidableEq, Repr

def element (argv : List Word) (i : Nat) : Except Fault Word :=
  match argv[i]? with
  | some w => .ok w
  | none => .error (.outside i)

/-- The string at a place. -/
def Ptr.text (argv : List Word) (p : Ptr) : Word := (argv.getD p.word []).drop p.off

/-! ## The code -/

def reverseLoop : Nat → List Word → Nat → Nat → Except Fault (List Word)
  | 0, argv, first, last => if first < last then .error .endless else .ok argv
  | fuel+1, argv, first, last =>
    if first < last then do
      let held ← element argv first
      let other ← element argv last
      reverseLoop fuel ((argv.set first other).set last held) (first+1) (last-1)
    else .ok argv

def reverse (argv : List Word) (first last : Nat) : Except Fault (List Word) :=
  reverseLoop argv.length argv first (last-1)

def rotate (argv : List Word) (first middle last : Nat) : Except Fault (List Word) := do
  let argv ← reverse argv first middle
  let argv ← reverse argv middle last
  reverse argv first last

def permuteLoop (optstring : Word) (longopts : List OptOption) : Nat → List Word → Nat → Nat → Except Fault (List Word)
  | 0, argv, _, i => if i < argv.length then .error .endless else .ok argv
  | fuel+1, argv, stop, i =>
    if i < argv.length then do
      let arg ← element argv i
      let start := i
      let i := i+1
      if arg = "--".toList then rotate argv stop start i
      else if isOperand arg then permuteLoop optstring longopts fuel argv stop i
      else
        let takes := if arg[1]? = some '-' then long_takes_arg (arg.drop 2) longopts
          else cluster_takes_arg (arg.drop 1) optstring
        let i := if takes && i < argv.length then i+1 else i
        let argv ← rotate argv stop start i
        permuteLoop optstring longopts fuel argv (stop+(i-start)) i
    else .ok argv

def permute (argv : List Word) (optstring : Word) (longopts : List OptOption) : Except Fault (List Word) :=
  permuteLoop optstring longopts argv.length argv 1 1

def parse_long (s : Cursor) (longopts : List OptOption) : Except Fault (Cursor × Int) := do
  let word ← element s.argv s.opt_ind
  let name := word.drop 2
  let eq := strchr name '='
  let len := lenUntil name eq
  let s := { s with opt_name := some word, opt_ind := s.opt_ind+1 }
  match longopts.findIdx? fun o => o.name.length == len && o.name.take len == name.take len with
  | none => .ok ({ s with opt_opt := 0 },'?'.toNat)
  | some i =>
    match longopts[i]? with
    | none => .ok ({ s with opt_opt := 0 },'?'.toNat)
    | some o =>
      let s := { s with opt_name := some o.name, longindex := i }
      let store (s : Cursor) : Except Fault (Cursor × Int) :=
        match o.flag with
        | some v => .ok ({ s with stored := (v,o.val) :: s.stored },0)
        | none => .ok (s,o.val)
      match o.has_arg with
      | .required =>
        match eq with
        | some rest => store { s with opt_arg := some (rest.drop 1) }
        | none =>
          if s.opt_ind < s.argv.length then do
            let value ← element s.argv s.opt_ind
            store { s with opt_arg := some value, opt_ind := s.opt_ind+1 }
          else .ok (s,':'.toNat)
      | .optional => store { s with opt_arg := eq.map (·.drop 1) }
      | .none => if eq.isSome then .ok (s,'='.toNat) else store s

/-- With `nextchar` at `p`. -/
def parse_short (s : Cursor) (p : Ptr) (optstring : Word) : Except Fault (Cursor × Int) :=
  match p.text s.argv with
  | [] => .error (.past p)
  | c :: next => do
    let spec := if c = ':' then none else strchr optstring c
    let s := { s with nextchar := some ⟨p.word,p.off+1⟩ }
    match spec with
    | none =>
      let s := if next = [] then { s with nextchar := none, opt_ind := s.opt_ind+1 } else s
      .ok ({ s with opt_opt := c.toNat },'?'.toNat)
    | some spec =>
      if spec[1]? ≠ some ':' then
        .ok (if next = [] then { s with nextchar := none, opt_ind := s.opt_ind+1 } else s,c.toNat)
      else if next ≠ [] then
        .ok ({ s with opt_arg := some next, nextchar := none, opt_ind := s.opt_ind+1 },c.toNat)
      else
        let s := { s with nextchar := none }
        if spec[2]? = some ':' then .ok ({ s with opt_ind := s.opt_ind+1 },c.toNat)
        else if s.opt_ind+1 < s.argv.length then do
          let value ← element s.argv (s.opt_ind+1)
          .ok ({ s with opt_arg := some value, opt_ind := s.opt_ind+2 },c.toNat)
        else .ok ({ s with opt_opt := c.toNat, opt_ind := s.opt_ind+1 },':'.toNat)

/-- The part of `optparse_long` that looks at the word at `opt_ind`. -/
def nextWord (s : Cursor) (optstring : Word) (longopts : List OptOption) : Except Fault (Cursor × Int) := do
  let s := { s with nextchar := none }
  if s.argv.length ≤ s.opt_ind then .ok (s,-1)
  else
    let arg ← element s.argv s.opt_ind
    if isOperand arg then .ok (s,-1)
    else if arg[1]? = some '-' then
      if arg.drop 2 = [] then .ok ({ s with opt_ind := s.opt_ind+1 },-1) else parse_long s longopts
    else parse_short s ⟨s.opt_ind,1⟩ optstring

def optparse_long (s : Cursor) (optstring : Word) (longopts : List OptOption) : Except Fault (Cursor × Int) := do
  let s := { s with opt_arg := none, opt_name := none }
  let s := if s.opt_ind = 0 then { s with opt_ind := 1, nextchar := none, started := false } else s
  let argv ← if s.started then .ok s.argv else permute s.argv optstring longopts
  let s := { s with argv, started := true }
  match s.nextchar with
  | some p => if p.text s.argv ≠ [] then parse_short s p optstring else nextWord s optstring longopts
  | none => nextWord s optstring longopts

/-! ## Accesses of `permute` -/

theorem element_of_lt {argv : List Word} {i : Nat} (inside : i < argv.length) :
    element argv i = .ok (argv.getD i []) := by
  rw [element,List.getElem?_eq_getElem inside]
  simp [List.getD,List.getElem?_eq_getElem inside]

theorem reverseLoop_ok : ∀ (fuel : Nat) (argv : List Word) (first last : Nat), last ≤ first+fuel →
    (first < last → last < argv.length) →
      reverseLoop fuel argv first last = .ok (Optparse.reverseLoop fuel argv first last) := by
  intro fuel
  induction fuel with
  | zero =>
    intro argv first last enough inside
    rw [reverseLoop,if_neg (by omega),Optparse.reverseLoop]
  | succ fuel ih =>
    intro argv first last enough inside
    rw [reverseLoop,Optparse.reverseLoop]
    by_cases short : first < last
    · have bound := inside short
      rw [if_pos short,if_pos short,element_of_lt (by omega),element_of_lt bound]
      exact ih _ _ _ (by omega) fun _ => by simpa using by omega
    · rw [if_neg short,if_neg short]

theorem reverseLoop_length : ∀ (fuel : Nat) (argv : List Word) (first last : Nat),
    (Optparse.reverseLoop fuel argv first last).length = argv.length := by
  intro fuel
  induction fuel with
  | zero => intro argv first last; rfl
  | succ fuel ih =>
    intro argv first last
    rw [Optparse.reverseLoop]
    split
    · simp [ih]
    · rfl

theorem reverse_length (argv : List Word) (first last : Nat) :
    (Optparse.reverse argv first last).length = argv.length := reverseLoop_length _ _ _ _

theorem rotate_length (argv : List Word) (first middle last : Nat) :
    (Optparse.rotate argv first middle last).length = argv.length := by
  simp [Optparse.rotate,reverse_length]

theorem reverse_ok {argv : List Word} {first last : Nat} (inside : last ≤ argv.length) :
    reverse argv first last = .ok (Optparse.reverse argv first last) :=
  reverseLoop_ok _ _ _ _ (by omega) fun _ => by omega

theorem rotate_ok {argv : List Word} {first middle last : Nat} (ordered : middle ≤ last) (inside : last ≤ argv.length) :
    rotate argv first middle last = .ok (Optparse.rotate argv first middle last) := by
  rw [rotate,reverse_ok (ordered.trans inside)]
  change (reverse _ middle last >>= fun argv => reverse argv first last) = _
  rw [reverse_ok (by rw [reverse_length]; exact inside)]
  exact reverse_ok (by rw [reverse_length,reverse_length]; exact inside)

theorem permuteLoop_ok (optstring : Word) (longopts : List OptOption) : ∀ (fuel : Nat) (argv : List Word) (stop i : Nat),
    argv.length ≤ i+fuel →
      permuteLoop optstring longopts fuel argv stop i = .ok (Optparse.permuteLoop optstring longopts fuel argv stop i) := by
  intro fuel
  induction fuel with
  | zero =>
    intro argv stop i enough
    rw [permuteLoop,if_neg (by omega),Optparse.permuteLoop]
  | succ fuel ih =>
    intro argv stop i enough
    rw [permuteLoop,Optparse.permuteLoop]
    by_cases inside : i < argv.length
    · rw [if_pos inside,if_pos inside,element_of_lt inside]
      change (if argv.getD i [] = "--".toList then _ else _) = _
      by_cases dashes : argv.getD i [] = "--".toList
      · rw [if_pos dashes,if_pos dashes]
        exact rotate_ok (by omega) inside
      · rw [if_neg dashes,if_neg dashes]
        by_cases operand : isOperand (argv.getD i []) = true
        · rw [if_pos operand,if_pos operand]
          exact ih _ _ _ (by omega)
        · rw [if_neg operand,if_neg operand]
          dsimp only
          generalize (if (argv.getD i [])[1]? = some '-' then _ else _) = takes
          set next := if (takes && decide (i+1 < argv.length)) = true then i+1+1 else i+1 with nextIs
          have bounds : i+1 ≤ next ∧ next ≤ argv.length := by
            rw [nextIs]
            split
            case isTrue both =>
              simp only [Bool.and_eq_true,decide_eq_true_eq] at both
              omega
            case isFalse => omega
          rw [rotate_ok (by omega) bounds.2]
          exact ih _ _ _ (by rw [rotate_length]; omega)
    · rw [if_neg inside,if_neg inside]

/-- `permute` ends, and reads and writes inside the command line. -/
theorem permute_ok (argv : List Word) (optstring : Word) (longopts : List OptOption) :
    permute argv optstring longopts = .ok (Optparse.permute argv optstring longopts) :=
  permuteLoop_ok optstring longopts _ _ _ _ (by omega)

/-! ## One call -/

/-- The state without its pointers: `nextchar` is the string it points to. -/
def Cursor.scanner (s : Cursor) : Scanner where
  argv := s.argv
  opt_arg := s.opt_arg
  opt_ind := s.opt_ind
  opt_opt := s.opt_opt
  opt_name := s.opt_name
  nextchar := s.nextchar.map (·.text s.argv)
  started := s.started
  longindex := s.longindex
  stored := s.stored

/-- The place of `nextchar`, at the start of the word when it is `NULL`. -/
def Cursor.off (s : Cursor) : Nat := (s.nextchar.map Ptr.off).getD 0

/-- The scan position: the index of the word and the place in it. -/
def Cursor.position (s : Cursor) : Nat ×ₗ Nat := toLex (s.opt_ind,s.off)

/-- `nextchar` is `NULL` or at a letter of `argv[opt_ind]`. -/
def Cursor.Points (s : Cursor) : Prop :=
  ∀ p, s.nextchar = some p → p.word = s.opt_ind ∧ ∃ w, s.argv[s.opt_ind]? = some w ∧ p.off < w.length

/-- The invariant between two calls. -/
structure Placed (s : Cursor) : Prop where
  first : 1 ≤ s.opt_ind
  last : s.opt_ind ≤ max 1 s.argv.length
  points : s.Points
  fresh : s.started = false → s.nextchar = none

/-- From a place in the word at `opt_ind` onward: in this word, or behind it. -/
structure Onward (s : Cursor) (off : Nat) (s' : Cursor) : Prop where
  argv : s'.argv = s.argv
  started : s'.started = s.started
  moved : s'.opt_ind = s.opt_ind ∧ (∃ q, s'.nextchar = some q ∧ q.word = s.opt_ind ∧ off < q.off ∧
      q.off < (s.argv.getD s.opt_ind []).length) ∨
    s'.nextchar = none ∧ s.opt_ind < s'.opt_ind ∧ s'.opt_ind ≤ s.argv.length

variable {s s' : Cursor} {p : Ptr} (optstring : Word) (longopts : List OptOption)

theorem text_next {argv : List Word} {c : Char} {next : Word} (text : p.text argv = c :: next) :
    (⟨p.word,p.off+1⟩ : Ptr).text argv = next := by
  rw [Ptr.text] at text ⊢
  rw [← List.drop_drop,text]
  rfl

/-- A letter is an option: it is taken, and with the last one the word, and an argument where there is one. -/
theorem parse_short_onward {c : Char} {next : Word} (text : p.text s.argv = c :: next) (here : p.word = s.opt_ind)
    (inside : s.opt_ind < s.argv.length) :
    ∃ s' r, parse_short s p optstring = .ok (s',r) ∧
      Optparse.parse_short s.scanner c next optstring = (s'.scanner,r) ∧ 0 ≤ r ∧ Onward s p.off s' := by
  have after := text_next text
  have letter : next ≠ [] → p.off+1 < (s.argv.getD s.opt_ind []).length := by
    intro more
    rw [← after,Ptr.text,here] at more
    by_contra short
    exact more (List.drop_eq_nil_of_le (Nat.not_lt.mp short))
  have stays (o : Nat) : next ≠ [] → Onward s p.off { s with nextchar := some ⟨p.word,p.off+1⟩, opt_opt := o } :=
    fun more => ⟨rfl,rfl,.inl ⟨rfl,⟨p.word,p.off+1⟩,rfl,here,Nat.lt_succ_self _,letter more⟩⟩
  have leaves (o : Nat) (a : Option Word) (k : Nat) (fits : s.opt_ind+k ≤ s.argv.length) (positive : 0 < k) :
      Onward s p.off { s with nextchar := none, opt_ind := s.opt_ind+k, opt_opt := o, opt_arg := a } :=
    ⟨rfl,rfl,.inr ⟨rfl,Nat.lt_add_of_pos_right positive,fits⟩⟩
  rw [parse_short,text,Optparse.parse_short]
  dsimp only
  generalize (if c = ':' then none else strchr optstring c) = spec
  cases spec with
  | none =>
    by_cases last : next = []
    · exact ⟨_,_,rfl,by simp [Cursor.scanner,last],by simp,by simpa [last] using leaves c.toNat s.opt_arg 1 inside one_pos⟩
    · exact ⟨_,_,rfl,by simp [Cursor.scanner,last,after],by simp,by simpa [last] using stays c.toNat last⟩
  | some spec =>
    dsimp only
    by_cases plain : spec[1]? ≠ some ':'
    · by_cases last : next = []
      · exact ⟨_,_,by rw [if_pos plain],by simp [Cursor.scanner,last,plain],by simp,
          by simpa [last] using leaves s.opt_opt s.opt_arg 1 inside one_pos⟩
      · exact ⟨_,_,by rw [if_pos plain],by simp [Cursor.scanner,last,after,plain],by simp,
          by simpa [last] using stays s.opt_opt last⟩
    · by_cases last : next = []
      · by_cases optional : spec[2]? = some ':'
        · exact ⟨_,_,by rw [if_neg plain,if_neg (by simpa using last),if_pos optional],
            by simp [Cursor.scanner,last,plain,optional],by simp,leaves s.opt_opt s.opt_arg 1 inside one_pos⟩
        · by_cases room : s.opt_ind+1 < s.argv.length
          · refine ⟨_,c.toNat,?_,by simp [Cursor.scanner,last,plain,optional,room],by simp,
              leaves s.opt_opt (some (s.argv.getD (s.opt_ind+1) [])) 2 room two_pos⟩
            rw [if_neg plain,if_neg (by simpa using last),if_neg optional,if_pos room,element_of_lt room]
            rfl
          · exact ⟨_,_,by rw [if_neg plain,if_neg (by simpa using last),if_neg optional,if_neg room],
              by simp [Cursor.scanner,last,plain,optional,room],by simp,leaves c.toNat s.opt_arg 1 inside one_pos⟩
      · exact ⟨_,_,by rw [if_neg plain,if_pos last],by simp [Cursor.scanner,last,plain],by simp,
          leaves s.opt_opt (some next) 1 inside one_pos⟩

/-- A long option takes its word, and the next one as an argument where it needs one. -/
theorem parse_long_onward (inside : s.opt_ind < s.argv.length) (unread : s.nextchar = none) (off : Nat) :
    ∃ s' r, parse_long s longopts = .ok (s',r) ∧ Optparse.parse_long s.scanner longopts = (s'.scanner,r) ∧
      0 ≤ r ∧ Onward s off s' := by
  have leaves {s' : Cursor} (argv : s'.argv = s.argv) (started : s'.started = s.started)
      (nextchar : s'.nextchar = s.nextchar) (moved : s.opt_ind < s'.opt_ind) (fits : s'.opt_ind ≤ s.argv.length) :
      Onward s off s' := ⟨argv,started,.inr ⟨nextchar.trans unread,moved,fits⟩⟩
  rw [parse_long,element_of_lt inside,Optparse.parse_long]
  dsimp only [Cursor.scanner,bind,Except.bind]
  obtain ⟨eq,eqIs⟩ : ∃ eq, strchr ((s.argv.getD s.opt_ind []).drop 2) '=' = eq := ⟨_,rfl⟩
  simp only [eqIs]
  generalize List.findIdx? _ longopts = found
  cases found with
  | none => exact ⟨_,_,rfl,rfl,by simp,leaves rfl rfl rfl (Nat.lt_succ_self _) inside⟩
  | some i =>
    dsimp only
    cases longopts[i]? with
    | none => exact ⟨_,_,rfl,rfl,by simp,leaves rfl rfl rfl (Nat.lt_succ_self _) inside⟩
    | some o =>
      obtain ⟨name,flag,has_arg,val⟩ := o
      cases has_arg with
      | none =>
        cases eq with
        | none => cases flag <;> exact ⟨_,_,rfl,rfl,by simp,leaves rfl rfl rfl (Nat.lt_succ_self _) inside⟩
        | some rest => exact ⟨_,_,rfl,rfl,by simp,leaves rfl rfl rfl (Nat.lt_succ_self _) inside⟩
      | optional => cases flag <;> exact ⟨_,_,rfl,rfl,by simp,leaves rfl rfl rfl (Nat.lt_succ_self _) inside⟩
      | required =>
        cases eq with
        | some rest => cases flag <;> exact ⟨_,_,rfl,rfl,by simp,leaves rfl rfl rfl (Nat.lt_succ_self _) inside⟩
        | none =>
          by_cases room : s.opt_ind+1 < s.argv.length
          · simp only [room,if_true,element_of_lt room]
            cases flag <;> exact ⟨_,_,rfl,rfl,by simp,leaves rfl rfl rfl (by simp only []; omega) room⟩
          · simp only [room,if_false]
            exact ⟨_,_,rfl,rfl,by simp,leaves rfl rfl rfl (Nat.lt_succ_self _) inside⟩

theorem Onward.mono {off off' : Nat} (less : off ≤ off') (onward : Onward s off' s') : Onward s off s' := by
  refine ⟨onward.argv,onward.started,?_⟩
  rcases onward.moved with ⟨same,q,at_q,word,further,inside⟩ | behind
  · exact .inl ⟨same,q,at_q,word,by omega,inside⟩
  · exact .inr behind

/-- How a call ends: after an option, or where the options end. -/
inductive Called (s : Cursor) : Cursor → Int → Prop
  | option {s' : Cursor} {r : Int} (value : 0 ≤ r) (inside : s.opt_ind < s.argv.length) (onward : Onward s s.off s') :
    Called s s' r
  | ended {s' : Cursor} (argv : s'.argv = s.argv) (started : s'.started = s.started) (unread : s'.nextchar = none)
    (moved : s.opt_ind ≤ s'.opt_ind) (last : s'.opt_ind ≤ max s.opt_ind s.argv.length) : Called s s' (-1)

/-- The rest of `optparse_long`, for a scanner at the start of a word. -/
def lookAt (s : Scanner) (optstring : Word) (longopts : List OptOption) : Scanner × Int :=
  if s.argv.length ≤ s.opt_ind then (s,-1)
  else
    match s.argv.getD s.opt_ind [] with
    | '-' :: '-' :: [] => ({ s with opt_ind := s.opt_ind+1 },-1)
    | '-' :: '-' :: _ => Optparse.parse_long s longopts
    | '-' :: c :: next => Optparse.parse_short s c next optstring
    | _ => (s,-1)

theorem nextWord_called (unread : s.nextchar = none) :
    ∃ s' r, nextWord s optstring longopts = .ok (s',r) ∧ lookAt s.scanner optstring longopts = (s'.scanner,r) ∧
      Called s s' r := by
  have start : ({ s with nextchar := none } : Cursor) = s := by rw [← unread]
  have zero : s.off = 0 := by simp [Cursor.off,unread]
  rw [nextWord,lookAt]
  simp only [start]
  by_cases done : s.argv.length ≤ s.opt_ind
  · exact ⟨_,_,by rw [if_pos done],by rw [if_pos (show s.scanner.argv.length ≤ s.scanner.opt_ind from done)],
      .ended rfl rfl unread le_rfl (le_max_left _ _)⟩
  · have inside := Nat.lt_of_not_le done
    rw [if_neg done,if_neg (show ¬ s.scanner.argv.length ≤ s.scanner.opt_ind from done),element_of_lt inside]
    have words : s.scanner.argv.getD s.scanner.opt_ind [] = s.argv.getD s.opt_ind [] := rfl
    obtain ⟨w,wIs⟩ : ∃ w, s.argv.getD s.opt_ind [] = w := ⟨_,rfl⟩
    simp only [words,wIs,bind,Except.bind]
    have operand (yes : isOperand w = true) : Called s s (-1) := .ended rfl rfl unread le_rfl (le_max_left _ _)
    match w,wIs,operand with
    | [],_,operand => exact ⟨_,_,rfl,rfl,operand rfl⟩
    | c :: [],_,operand => exact ⟨_,_,by simp [isOperand],by split <;> simp_all,operand (by simp [isOperand])⟩
    | c :: d :: rest,wIs,operand =>
      by_cases dash : c = '-'
      · subst dash
        by_cases long : d = '-'
        · subst long
          cases rest with
          | nil =>
            exact ⟨_,_,rfl,by simp [Cursor.scanner,unread],
              .ended rfl rfl rfl (Nat.le_succ _) (le_max_of_le_right inside)⟩
          | cons e rest =>
            obtain ⟨s',r,run,same,value,onward⟩ := parse_long_onward longopts inside unread s.off
            exact ⟨s',r,run,same,.option value inside onward⟩
        · have text : (⟨s.opt_ind,1⟩ : Ptr).text s.argv = d :: rest := by
            rw [Ptr.text]
            simp only [wIs]
            rfl
          obtain ⟨s',r,run,same,value,onward⟩ := parse_short_onward optstring text rfl inside
          refine ⟨s',r,?_,?_,.option value inside (onward.mono (by rw [zero]; exact Nat.zero_le _))⟩
          · rw [← run]
            simp [isOperand,long]
          · rw [← same]
            split <;> simp_all
      · exact ⟨_,_,by simp [isOperand,dash],by split <;> simp_all,operand (by simp [isOperand,dash])⟩

/-- The state in which a call starts to look for an option. -/
def Cursor.begun (s : Cursor) (optstring : Word) (longopts : List OptOption) : Cursor :=
  { s with
    opt_arg := none, opt_name := none, started := true
    argv := if s.started then s.argv else Optparse.permute s.argv optstring longopts }

/-- `permute` loses and doubles no word. -/
theorem permute_perm : ∀ argv : List Word, (Optparse.permute argv optstring longopts).Perm argv
  | [] => .refl _
  | prog :: ws => by
    rw [Permute.permute_parts]
    exact (Permute.words_perm optstring longopts ws []).cons prog

theorem begun_perm : (s.begun optstring longopts).argv.Perm s.argv := by
  simp only [Cursor.begun]
  split
  · exact .refl _
  · exact permute_perm optstring longopts _

theorem begun_length : (s.begun optstring longopts).argv.length = s.argv.length := by
  exact (begun_perm optstring longopts).length_eq

theorem Placed.begun (placed : Placed s) : Placed (s.begun optstring longopts) := by
  refine ⟨placed.first,by rw [begun_length]; exact placed.last,?_,by simp [Cursor.begun]⟩
  intro p at_p
  have started : s.started = true := by
    by_contra fresh
    have unread := placed.fresh (by simpa using fresh)
    simp [show s.nextchar = some p from at_p] at unread
  simpa [Cursor.begun,started] using placed.points p at_p

/-- A call is the scanner's, ends without a fault, and is described by `Called`. -/
theorem optparse_long_called (placed : Placed s) :
    ∃ s' r, optparse_long s optstring longopts = .ok (s',r) ∧
      Optparse.optparse_long s.scanner optstring longopts = (s'.scanner,r) ∧ Called (s.begun optstring longopts) s' r := by
  have first : s.opt_ind ≠ 0 := Nat.ne_of_gt placed.first
  cases at_p : s.nextchar with
  | none =>
    obtain ⟨s',r,run,same,called⟩ :=
      nextWord_called optstring longopts (s := s.begun optstring longopts) at_p
    refine ⟨s',r,?_,?_,called⟩
    · rw [← run,optparse_long]
      cases started : s.started <;> simp [Cursor.begun,first,permute_ok,started,at_p,bind,Except.bind]
    · rw [← same,Optparse.optparse_long]
      cases started : s.started <;> simp [Cursor.begun,Cursor.scanner,first,started,at_p] <;> rfl
  | some p =>
    have started : s.started = true := by
      by_contra fresh
      simp [placed.fresh (by simpa using fresh)] at at_p
    have words : (s.begun optstring longopts).argv = s.argv := by simp [Cursor.begun,started]
    obtain ⟨word,w,here,letter⟩ := placed.points p at_p
    obtain ⟨c,next,text⟩ : ∃ c next, p.text s.argv = c :: next := by
      apply List.exists_cons_of_ne_nil
      rw [Ptr.text,word]
      simpa [List.getD,here] using letter
    have inside : s.opt_ind < s.argv.length := (List.getElem?_eq_some_iff.mp here).1
    obtain ⟨s',r,run,same,value,onward⟩ := parse_short_onward optstring (s := s.begun optstring longopts)
      (by rw [words]; exact text) word (by rw [words]; exact inside)
    refine ⟨s',r,?_,?_,.option value (by rw [words]; exact inside) (onward.mono ?_)⟩
    · rw [← run,optparse_long]
      simp [Cursor.begun,first,started,at_p,text,bind,Except.bind]
    · rw [← same,Optparse.optparse_long]
      simp [Cursor.begun,Cursor.scanner,first,started,at_p,text]
    · simp [Cursor.off,Cursor.begun,at_p]

/-! ## Moving on -/

variable {optstring longopts} {r : Int}

theorem Called.argv (called : Called s s' r) : s'.argv = s.argv := by
  cases called with
  | option value inside onward => exact onward.argv
  | ended argv started unread moved last => exact argv

theorem Called.started (called : Called s s' r) : s'.started = s.started := by
  cases called with
  | option value inside onward => exact onward.started
  | ended argv started unread moved last => exact started

theorem Called.placed (placed : Placed s) (started : s.started = true) (called : Called s s' r) : Placed s' := by
  have fresh : s'.started = false → s'.nextchar = none := by simp [called.started,started]
  have first := placed.first
  have last := placed.last
  cases called with
  | option value inside onward =>
    rcases onward.moved with ⟨same,q,at_q,word,-,letter⟩ | ⟨unread,moved,fits⟩
    · refine ⟨by omega,by rw [same,onward.argv]; exact last,?_,fresh⟩
      intro p at_p
      obtain rfl : q = p := Option.some.inj (at_q.symm.trans at_p)
      refine ⟨word.trans same.symm,s.argv.getD s.opt_ind [],?_,letter⟩
      rw [same,onward.argv]
      simp [List.getD,List.getElem?_eq_getElem inside]
    · exact ⟨by omega,by rw [onward.argv]; omega,by simp [Cursor.Points,unread],fresh⟩
  | ended argv _ unread moved bound => exact ⟨by omega,by rw [argv]; omega,by simp [Cursor.Points,unread],fresh⟩

/-- A call that has not come to the end moves the scan position forward. -/
theorem Called.position_lt (called : Called s s' r) (more : r ≠ -1) : s.position < s'.position := by
  rw [Cursor.position,Cursor.position,Prod.Lex.toLex_lt_toLex]
  cases called with
  | option value inside onward =>
    rcases onward.moved with ⟨same,q,at_q,-,further,-⟩ | ⟨-,moved,-⟩
    · exact .inr ⟨same.symm,by simpa [Cursor.off,at_q] using further⟩
    · exact .inl moved
  | ended => exact absurd rfl more

/-- The letters and words in front of the scan position. -/
def Cursor.reach (s : Cursor) : Nat := ((s.argv.take s.opt_ind).map fun w => w.length+1).sum+s.off

/-- The letters and words of the command line. -/
def extent (argv : List Word) : Nat := (argv.map fun w => w.length+1).sum

theorem extent_perm {argv argv' : List Word} (perm : argv.Perm argv') : extent argv = extent argv' :=
  (perm.map _).sum_eq

theorem extent_take_succ {argv : List Word} {i : Nat} (inside : i < argv.length) :
    extent (argv.take (i+1)) = extent (argv.take i)+((argv.getD i []).length+1) := by
  rw [List.take_add_one,List.getElem?_eq_getElem inside,List.getD_eq_getElem _ _ inside,extent,List.map_append,
    List.sum_append]
  rfl

theorem extent_take_mono (argv : List Word) {i j : Nat} (less : i ≤ j) :
    extent (argv.take i) ≤ extent (argv.take j) := by
  have split : argv.take j = argv.take i ++ (argv.drop i).take (j-i) := by
    rw [← List.take_add,Nat.add_sub_cancel' less]
  rw [split,extent,extent,List.map_append,List.sum_append]
  exact Nat.le_add_right _ _

theorem Placed.off_le (placed : Placed s) : s.off ≤ (s.argv.getD s.opt_ind []).length := by
  cases at_p : s.nextchar with
  | none => simp [Cursor.off,at_p]
  | some p =>
    obtain ⟨-,w,here,letter⟩ := placed.points p at_p
    simpa [Cursor.off,at_p,List.getD,here] using letter.le

theorem Placed.reach_le (placed : Placed s) : s.reach ≤ extent s.argv := by
  by_cases inside : s.opt_ind < s.argv.length
  · have off := placed.off_le
    have next := extent_take_succ inside
    have all := extent_take_mono s.argv (show s.opt_ind+1 ≤ _ from inside)
    rw [List.take_length] at all
    change extent (s.argv.take s.opt_ind)+s.off ≤ _
    omega
  · have unread : s.nextchar = none := by
      by_contra read
      obtain ⟨p,at_p⟩ := Option.ne_none_iff_exists'.mp read
      obtain ⟨-,w,here,-⟩ := placed.points p at_p
      exact inside (List.getElem?_eq_some_iff.mp here).1
    simp [Cursor.reach,Cursor.off,unread,extent,List.take_of_length_le (Nat.le_of_not_lt inside)]

theorem Called.reach_lt (placed : Placed s) (called : Called s s' r) (more : r ≠ -1) : s.reach < s'.reach := by
  cases called with
  | option value inside onward =>
    have off := placed.off_le
    have next := extent_take_succ inside
    change extent (s.argv.take s.opt_ind)+s.off < extent (s'.argv.take s'.opt_ind)+s'.off
    rw [onward.argv]
    rcases onward.moved with ⟨same,q,at_q,-,further,-⟩ | ⟨unread,moved,-⟩
    · have here : s'.off = q.off := by simp [Cursor.off,at_q]
      rw [same,here]
      omega
    · have all := extent_take_mono s.argv (show s.opt_ind+1 ≤ _ from moved)
      omega
  | ended => exact absurd rfl more

end Newfile.Argv
