import Newfile.Parse

/-!
What `parse_mode` accepts: octal numerals and lists of clauses, with the meaning
that the clauses have for `chmod`.
-/
namespace Newfile.Modes
open Newfile.Parse

/-! ## The grammar -/

def isWho (c : Char) : Bool := c = 'u' || c = 'g' || c = 'o' || c = 'a'
def isPerm (c : Char) : Bool := c = 'r' || c = 'w' || c = 'x' || c = 's' || c = 't'
def isOp (c : Char) : Bool := c = '=' || c = '+' || c = '-'

/-- `[ugoa]*`, one of `=`, `+` and `-`, and `[rwxst]*`. -/
structure Clause where
  who : Text
  op : Char
  perms : Text
  classes : ∀ c ∈ who, isWho c = true
  single : isOp op = true
  letters : ∀ c ∈ perms, isPerm c = true

def Clause.text (c : Clause) : Text := c.who ++ c.op :: c.perms

/-- Clauses separated by commas. -/
def render : List Clause → Text
  | [] => []
  | [c] => c.text
  | c :: cs => c.text ++ ',' :: render cs

/-- The bits of a class of users: its permissions, with set-user-ID, set-group-ID or sticky. -/
def classBits (c : Char) : mode_t :=
  if c = 'u' then 0o4700 else if c = 'g' then 0o2070 else if c = 'o' then 0o1007 else 0o7777

/-- The bits of a permission letter, for all classes. -/
def permBits (c : Char) : mode_t :=
  if c = 'r' then 0o444 else if c = 'w' then 0o222 else if c = 'x' then 0o111 else if c = 's' then 0o6000 else 0o1000

def union (bits : Char → mode_t) (letters : Text) : mode_t := letters.foldr (fun c u => bits c ||| u) 0

/-- The bits that a clause is about. -/
def Clause.whoBits (c : Clause) : mode_t := if c.who = [] then 0o7777 else union classBits c.who

/-- The bits that it names. -/
def Clause.named (c : Clause) : mode_t := union permBits c.perms &&& c.whoBits

def Clause.apply (mode : mode_t) (c : Clause) : mode_t :=
  if c.op = '=' then (mode &&& ~~~c.whoBits) ||| c.named
  else if c.op = '+' then mode ||| c.named
  else mode &&& ~~~c.named

def meaning (cs : List Clause) (mode : mode_t) : mode_t := cs.foldl Clause.apply mode

/-- An octal numeral of any length. -/
def Octal (s : Text) : Prop := Numeral 8 s

/-! ## A clause -/

theorem whoLoop_spec {who : Text} (classes : ∀ c ∈ who, isWho c = true) {rest : Text} (ends : Ends isWho rest) :
    ∀ bits, whoLoop (who ++ rest) bits = (bits ||| union classBits who,rest) := by
  induction who with
  | nil =>
    intro bits
    cases rest with
    | nil => simp [whoLoop,union]
    | cons c p =>
      have other := ends c p rfl
      simp only [isWho,Bool.or_eq_false_iff,decide_eq_false_iff_not] at other
      simp [whoLoop,union,other]
  | cons c who ih =>
    intro bits
    have this := classes c List.mem_cons_self
    have rest' := ih fun c member => classes c (List.mem_cons_of_mem _ member)
    simp only [isWho,Bool.or_eq_true,decide_eq_true_eq] at this
    have next : ∀ b, whoLoop (who ++ rest) (bits ||| b) = (bits ||| (b ||| union classBits who),rest) := by
      intro b
      rw [rest',BitVec.or_assoc]
    rcases this with ((rfl | rfl) | rfl) | rfl
    · exact next _
    · exact next _
    · exact next _
    · exact next _

theorem union_zero {bits : Char → mode_t} (nonzero : ∀ c, bits c ≠ 0) {letters : Text} (zero : union bits letters = 0) :
    letters = [] := by
  cases letters with
  | nil => rfl
  | cons c letters =>
    have both : bits c ||| union bits letters = 0 := zero
    exact absurd (BitVec.or_eq_zero_iff.mp both).1 (nonzero c)

theorem classBits_ne (c : Char) : classBits c ≠ 0 := by
  rw [classBits]
  split_ifs <;> decide

theorem mode_who_spec {who : Text} (classes : ∀ c ∈ who, isWho c = true) {rest : Text} (ends : Ends isWho rest) :
    mode_who (who ++ rest) = (if who = [] then 0o7777 else union classBits who,rest) := by
  have zero : (0 : mode_t) ||| union classBits who = union classBits who := BitVec.zero_or
  rw [mode_who,whoLoop_spec classes ends,zero]
  by_cases empty : who = []
  · simp [empty,union,CHMOD_MODE_BITS]
  · have nonzero : union classBits who ≠ 0 := fun nought => empty (union_zero classBits_ne nought)
    simp only [if_pos nonzero,if_neg empty]

/-- What may follow a clause. -/
def After (rest : Text) : Prop := rest = [] ∨ ∃ p, rest = ',' :: p

theorem permsLoop_spec (s : Text) {perms : Text} (letters : ∀ c ∈ perms, isPerm c = true) {rest : Text}
    (after : After rest) : ∀ bits, permsLoop s (perms ++ rest) bits = .ok (bits ||| union permBits perms,rest) := by
  induction perms with
  | nil =>
    intro bits
    rcases after with rfl | ⟨p,rfl⟩
    · simp [permsLoop,union]
    · simp [permsLoop,union]
  | cons c perms ih =>
    intro bits
    have this := letters c List.mem_cons_self
    have rest' := ih fun c member => letters c (List.mem_cons_of_mem _ member)
    simp only [isPerm,Bool.or_eq_true,decide_eq_true_eq] at this
    have next : ∀ b, permsLoop s (perms ++ rest) (bits ||| b) = .ok (bits ||| (b ||| union permBits perms),rest) := by
      intro b
      rw [rest',BitVec.or_assoc]
    rcases this with (((rfl | rfl) | rfl) | rfl) | rfl
    · exact next _
    · exact next _
    · exact next _
    · exact next _
    · exact next _

/-- The letters are followed by something else than the end of a clause. -/
theorem permsLoop_error (s : Text) {perms : Text} (letters : ∀ c ∈ perms, isPerm c = true) {c : Char} {p : Text}
    (other : isPerm c = false) (comma : c ≠ ',') :
    ∀ bits, permsLoop s (perms ++ c :: p) bits = .error (.invalid_mode s) := by
  induction perms with
  | nil =>
    intro bits
    simp only [isPerm,Bool.or_eq_false_iff,decide_eq_false_iff_not] at other
    simp [permsLoop,other,comma]
  | cons d perms ih =>
    intro bits
    have this := letters d List.mem_cons_self
    have rest := ih fun c member => letters c (List.mem_cons_of_mem _ member)
    simp only [isPerm,Bool.or_eq_true,decide_eq_true_eq] at this
    rcases this with (((rfl | rfl) | rfl) | rfl) | rfl
    · exact rest _
    · exact rest _
    · exact rest _
    · exact rest _
    · exact rest _

/-! ## A round of the loop -/

theorem Clause.ne_nil (c : Clause) (rest : Text) : c.text ++ rest ≠ [] := by simp [Clause.text]

theorem op_ends {op : Char} (single : isOp op = true) (rest : Text) : Ends isWho (op :: rest) := by
  intro c p found
  obtain ⟨rfl,-⟩ := List.cons.inj found
  simp only [isOp,Bool.or_eq_true,decide_eq_true_eq] at single
  rcases single with (rfl | rfl) | rfl <;> rfl

theorem clauseLoop_cons (m : Text) (rounds : Nat) {s : Text} (nonempty : s ≠ []) (mode : mode_t) :
    clauseLoop m (rounds+1) s mode =
      match mode_who s with
      | (_,[]) => .error (.invalid_mode m)
      | (who,op :: p) =>
        if op ≠ '+' ∧ op ≠ '-' ∧ op ≠ '=' then .error (.invalid_mode m)
        else
          match mode_perms p m with
          | .error e => .error e
          | .ok (perms,p) =>
            match p with
            | ',' :: p =>
              if p = [] then .error (.invalid_mode m)
              else clauseLoop m rounds p (mode_apply mode op who (perms &&& who))
            | p => clauseLoop m rounds p (mode_apply mode op who (perms &&& who)) := by
  cases s with
  | nil => exact absurd rfl nonempty
  | cons c s =>
    rw [clauseLoop]
    rcases mode_who (c :: s) with ⟨who,_ | ⟨op,p⟩⟩
    · rfl
    · rfl

/-- A clause is read to its end, and the comma behind it. -/
theorem clauseLoop_clause (m : Text) (rounds : Nat) (c : Clause) (mode : mode_t) {rest : Text} (after : After rest) :
    clauseLoop m (rounds+1) (c.text ++ rest) mode =
      if rest = [','] then .error (.invalid_mode m) else clauseLoop m rounds rest.tail (c.apply mode) := by
  have shape : c.text ++ rest = c.who ++ c.op :: (c.perms ++ rest) := by simp [Clause.text]
  have zero : (0 : mode_t) ||| union permBits c.perms = union permBits c.perms := BitVec.zero_or
  have operator : ¬(c.op ≠ '+' ∧ c.op ≠ '-' ∧ c.op ≠ '=') := by
    have single := c.single
    simp only [isOp,Bool.or_eq_true,decide_eq_true_eq] at single
    tauto
  rw [clauseLoop_cons m rounds (c.ne_nil rest),shape,mode_who_spec c.classes (op_ends c.single _)]
  simp only [if_neg operator,mode_perms,permsLoop_spec m c.letters after,zero]
  change (match rest with
    | ',' :: p => if p = [] then Except.error (Rejection.invalid_mode m) else clauseLoop m rounds p (c.apply mode)
    | p => clauseLoop m rounds p (c.apply mode)) = _
  rcases after with rfl | ⟨p,rfl⟩
  · simp
  · by_cases empty : p = []
    · simp [empty]
    · simp [empty]

/-- A text starts with a clause, or the loop fails at it. -/
theorem clause_or_error (m s : Text) (nonempty : s ≠ []) :
    (∃ (c : Clause) (rest : Text), s = c.text ++ rest ∧ After rest) ∨
      ∀ rounds mode, clauseLoop m rounds s mode = .error (.invalid_mode m) := by
  have split := List.takeWhile_append_dropWhile (p := isWho) (l := s)
  have classes : ∀ c ∈ s.takeWhile isWho, isWho c = true := fun c => List.mem_takeWhile_imp
  have who := mode_who_spec classes (ends_dropWhile isWho s)
  rw [split] at who
  have failing : (∀ rounds mode, clauseLoop m (rounds+1) s mode = .error (.invalid_mode m)) →
      ∀ rounds mode, clauseLoop m rounds s mode = .error (.invalid_mode m) := by
    intro failed rounds mode
    cases rounds with
    | zero =>
      cases s with
      | nil => exact absurd rfl nonempty
      | cons c s => rfl
    | succ rounds => exact failed rounds mode
  cases found : s.dropWhile isWho with
  | nil =>
    refine .inr (failing fun rounds mode => ?_)
    rw [clauseLoop_cons m rounds nonempty,who,found]
  | cons op p =>
    by_cases operator : op ≠ '+' ∧ op ≠ '-' ∧ op ≠ '='
    · refine .inr (failing fun rounds mode => ?_)
      rw [clauseLoop_cons m rounds nonempty,who,found]
      simp only [if_pos operator]
    · have single : isOp op = true := by
        simp only [isOp,Bool.or_eq_true,decide_eq_true_eq]
        tauto
      have letters : ∀ c ∈ p.takeWhile isPerm, isPerm c = true := fun c => List.mem_takeWhile_imp
      have halves := List.takeWhile_append_dropWhile (p := isPerm) (l := p)
      let c : Clause := ⟨s.takeWhile isWho,op,p.takeWhile isPerm,classes,single,letters⟩
      have whole : s = c.text ++ p.dropWhile isPerm := by
        rw [← split,found]
        simp only [Clause.text,List.append_assoc,List.cons_append,c,halves]
      cases rest : p.dropWhile isPerm with
      | nil => exact .inl ⟨c,[],by rw [rest] at whole; exact whole,.inl rfl⟩
      | cons d q =>
        by_cases comma : d = ','
        · exact .inl ⟨c,d :: q,by rw [rest] at whole; exact whole,.inr ⟨q,by rw [comma]⟩⟩
        · refine .inr (failing fun rounds mode => ?_)
          have other := ends_dropWhile isPerm p d q rest
          have wrong := permsLoop_error m letters other comma 0 (p := q)
          rw [← rest,halves] at wrong
          rw [clauseLoop_cons m rounds nonempty,who,found]
          simp only [if_neg operator,mode_perms,wrong]

/-! ## All rounds -/

theorem render_cons (c : Clause) {cs : List Clause} (nonempty : cs ≠ []) : render (c :: cs) = c.text ++ ',' :: render cs := by
  cases cs with
  | nil => exact absurd rfl nonempty
  | cons d cs => rfl

theorem render_ne_nil {cs : List Clause} (nonempty : cs ≠ []) : render cs ≠ [] := by
  cases cs with
  | nil => exact absurd rfl nonempty
  | cons c cs =>
    by_cases last : cs = []
    · subst last
      simpa [render] using c.ne_nil []
    · rw [render_cons c last]
      exact c.ne_nil _

theorem length_render (cs : List Clause) : cs.length ≤ (render cs).length := by
  induction cs with
  | nil => exact Nat.zero_le _
  | cons c cs ih =>
    have one : 0 < c.text.length := by simp [Clause.text]
    by_cases last : cs = []
    · subst last
      exact one
    · rw [render_cons c last]
      simp only [List.length_cons,List.length_append]
      omega

theorem render_append {cs ds : List Clause} (left : cs ≠ []) (right : ds ≠ []) :
    render (cs ++ ds) = render cs ++ ',' :: render ds := by
  induction cs with
  | nil => exact absurd rfl left
  | cons c cs ih =>
    by_cases last : cs = []
    · subst last
      exact render_cons c right
    · rw [List.cons_append,render_cons c (by simp [right]),ih last,render_cons c last]
      simp

theorem clauseLoop_render (m : Text) {cs : List Clause} :
    ∀ {rounds mode}, cs.length ≤ rounds → clauseLoop m rounds (render cs) mode = .ok (meaning cs mode) := by
  induction cs with
  | nil =>
    intro rounds mode _
    cases rounds with
    | zero => rfl
    | succ rounds => rfl
  | cons c cs ih =>
    intro rounds mode enough
    obtain ⟨fewer,rfl⟩ : ∃ fewer, rounds = fewer+1 := ⟨rounds-1,by simp only [List.length_cons] at enough; omega⟩
    have rest : clauseLoop m fewer (render cs) (c.apply mode) = .ok (meaning cs (c.apply mode)) :=
      ih (by simpa using enough)
    by_cases last : cs = []
    · subst last
      have last : After [] := .inl rfl
      have read := clauseLoop_clause m fewer c mode last
      rw [List.append_nil] at read
      rw [show render [c] = c.text from rfl,read,if_neg (by simp)]
      exact rest
    · rw [render_cons c last,clauseLoop_clause m fewer c mode (.inr ⟨render cs,rfl⟩),
        if_neg (by simp [render_ne_nil last])]
      exact rest

theorem clauseLoop_ok (m : Text) : ∀ {rounds s mode value}, s ≠ [] → clauseLoop m rounds s mode = .ok value →
    ∃ cs, cs ≠ [] ∧ s = render cs ∧ value = meaning cs mode := by
  intro rounds
  induction rounds with
  | zero =>
    intro s mode value nonempty done
    cases s with
    | nil => exact absurd rfl nonempty
    | cons c s => simp [clauseLoop] at done
  | succ rounds ih =>
    intro s mode value nonempty done
    rcases clause_or_error m s nonempty with ⟨c,rest,rfl,after⟩ | failed
    · rw [clauseLoop_clause m rounds c mode after] at done
      by_cases trailing : rest = [',']
      · simp [trailing] at done
      · rw [if_neg trailing] at done
        rcases after with rfl | ⟨p,rfl⟩
        · refine ⟨[c],by simp,by simp [render],?_⟩
          cases rounds with
          | zero => exact (Except.ok.inj done).symm
          | succ rounds => exact (Except.ok.inj done).symm
        · have more : p ≠ [] := by simpa using trailing
          obtain ⟨cs,some',rfl,rfl⟩ := ih more done
          exact ⟨c :: cs,by simp,(render_cons c some').symm,rfl⟩
    · rw [failed] at done
      exact absurd done (by simp)

theorem clauseLoop_error (m : Text) : ∀ {rounds s mode e}, clauseLoop m rounds s mode = .error e →
    e = .invalid_mode m := by
  intro rounds
  induction rounds with
  | zero =>
    intro s mode e failed
    cases s with
    | nil => simp [clauseLoop] at failed
    | cons c s => simpa [clauseLoop,eq_comm] using failed
  | succ rounds ih =>
    intro s mode e failed
    by_cases empty : s = []
    · simp [empty,clauseLoop] at failed
    · rcases clause_or_error m s empty with ⟨c,rest,rfl,after⟩ | wrong
      · rw [clauseLoop_clause m rounds c mode after] at failed
        by_cases trailing : rest = [',']
        · simpa [trailing,eq_comm] using failed
        · rw [if_neg trailing] at failed
          exact ih failed
      · rw [wrong] at failed
        exact (Except.error.inj failed).symm

/-! ## The bits of a result -/

def Within (mode : mode_t) : Prop := mode &&& ~~~CHMOD_MODE_BITS = 0

theorem within_or {a b : mode_t} (left : Within a) (right : Within b) : Within (a ||| b) := by
  unfold Within at *
  rw [BitVec.and_comm,BitVec.and_or_distrib_left,BitVec.and_comm,left,BitVec.and_comm,right]
  rfl

theorem within_and {a : mode_t} (left : Within a) (b : mode_t) : Within (a &&& b) := by
  unfold Within at *
  rw [BitVec.and_assoc,BitVec.and_comm b,← BitVec.and_assoc,left]
  exact BitVec.zero_and

theorem within_union {bits : Char → mode_t} (each : ∀ c, Within (bits c)) (letters : Text) :
    Within (union bits letters) := by
  induction letters with
  | nil => exact BitVec.zero_and
  | cons c letters ih => exact within_or (each c) ih

theorem within_permBits (c : Char) : Within (permBits c) := by
  rw [permBits,Within]
  split_ifs <;> decide

theorem within_apply (c : Clause) {mode : mode_t} (inside : Within mode) : Within (c.apply mode) := by
  have named : Within c.named := within_and (within_union within_permBits c.perms) _
  rw [Clause.apply]
  split_ifs
  · exact within_or (within_and inside _) named
  · exact within_or inside named
  · exact within_and inside _

theorem within_meaning (cs : List Clause) : ∀ {mode}, Within mode → Within (meaning cs mode) := by
  induction cs with
  | nil => exact fun inside => inside
  | cons c cs ih => exact fun inside => ih (within_apply c inside)

theorem within_ofNat {value : Nat} (small : value ≤ 0o7777) : Within (BitVec.ofNat 32 value) := by
  apply BitVec.eq_of_getLsbD_eq
  intro i inside
  by_cases low : i < 12
  · have ones : (~~~CHMOD_MODE_BITS).getLsbD i = false := by interval_cases i <;> rfl
    simp [ones]
  · have short : value < 2^i := lt_of_lt_of_le (by omega) (Nat.pow_le_pow_right (by omega) (not_lt.mp low))
    simp [BitVec.getLsbD_ofNat,Nat.testBit_lt_two_pow short]

/-! ## The whole text -/

/-- What `parse_mode` is for: the value of an octal numeral, or the meaning of clauses. -/
inductive Denotes (s : Text) : mode_t → Prop
  | octal (numeral : Octal s) (small : valueOf 8 s ≤ 0o7777) : Denotes s (BitVec.ofNat 32 (valueOf 8 s))
  | clauses (cs : List Clause) (nonempty : cs ≠ []) (text : s = render cs) : Denotes s (meaning cs 0)

/-- The start of a list of clauses is no octal digit. -/
theorem render_head {cs : List Clause} (nonempty : cs ≠ []) {c : Char} {p : Text} (found : render cs = c :: p) :
    ¬('0' ≤ c ∧ c ≤ '7') := by
  obtain ⟨d,ds,rfl⟩ := List.exists_cons_of_ne_nil nonempty
  obtain ⟨rest,whole⟩ : ∃ rest, render (d :: ds) = d.text ++ rest := by
    by_cases last : ds = []
    · exact ⟨[],by simp [last,render]⟩
    · exact ⟨',' :: render ds,render_cons d last⟩
  have start : c ∈ d.who ∨ c = d.op := by
    rw [whole,Clause.text,List.append_assoc] at found
    cases who : d.who with
    | nil =>
      rw [who] at found
      exact .inr (List.cons.inj found).1.symm
    | cons e who' =>
      rw [who] at found
      exact .inl (by rw [(List.cons.inj found).1]; exact List.mem_cons_self)
  rcases start with member | rfl
  · have letter := d.classes c member
    simp only [isWho,Bool.or_eq_true,decide_eq_true_eq] at letter
    rcases letter with ((rfl | rfl) | rfl) | rfl <;> decide
  · have single := d.single
    simp only [isOp,Bool.or_eq_true,decide_eq_true_eq] at single
    rcases single with (single | single) | single <;> rw [single] <;> decide

theorem isDigitOf_eight (c : Char) : isDigitOf 8 c = true ↔ '0' ≤ c ∧ c ≤ '7' := by
  have order : ∀ a b : Char, a ≤ b ↔ a.toNat ≤ b.toNat := fun _ _ => Iff.rfl
  simp only [isDigitOf,Bool.and_eq_true,decide_eq_true_eq]
  rw [order,order,order,digitOf]
  have : '0'.toNat = 48 := rfl
  have : '9'.toNat = 57 := rfl
  have : '7'.toNat = 55 := rfl
  omega

/-- The octal branch. -/
theorem parse_octal {c : Char} {p : Text} (digit : '0' ≤ c ∧ c ≤ '7') (value : mode_t) :
    parse_mode (c :: p) = .ok value ↔
      Octal (c :: p) ∧ valueOf 8 (c :: p) ≤ 0o7777 ∧ value = BitVec.ofNat 32 (valueOf 8 (c :: p)) := by
  have split := List.takeWhile_append_dropWhile (p := isDigitOf 8) (l := c :: p)
  have numeral : Numeral 8 ((c :: p).takeWhile (isDigitOf 8)) :=
    ⟨by simp [(isDigitOf_eight c).mpr digit],fun d => List.mem_takeWhile_imp⟩
  have converted := strtoull_numeral ULONG_MAX numeral (ends_dropWhile (isDigitOf 8) (c :: p))
  rw [split] at converted
  rw [parse_mode,if_pos digit,converted]
  have limit : CHMOD_MODE_BITS.toNat = 0o7777 := rfl
  by_cases rest : (c :: p).dropWhile (isDigitOf 8) = []
  · have whole : (c :: p).takeWhile (isDigitOf 8) = c :: p := by rw [rest,List.append_nil] at split; exact split
    rw [whole,rest,limit]
    have octal : Octal (c :: p) := by rw [← whole]; exact numeral
    by_cases large : ULONG_MAX < valueOf 8 (c :: p)
    · have outside : ¬valueOf 8 (c :: p) ≤ 0o7777 := by
        have : 0o7777 < ULONG_MAX := by decide
        omega
      have refused : 0o7777 < ULONG_MAX := by decide
      simp [if_pos large,outside,refused]
    · by_cases small : valueOf 8 (c :: p) ≤ 0o7777
      · simp [large,small,octal,not_lt.mpr small,eq_comm]
      · simp [large,small,not_le.mp small]
  · have wrong : ¬Octal (c :: p) := by
      intro octal
      exact rest (List.dropWhile_eq_nil_iff.mpr octal.2)
    by_cases large : ULONG_MAX < valueOf 8 ((c :: p).takeWhile (isDigitOf 8))
    · simp [large,rest,wrong]
    · simp [large,rest,wrong]

theorem parse_mode_iff (s : Text) (value : mode_t) : parse_mode s = .ok value ↔ Denotes s value := by
  cases s with
  | nil =>
    constructor
    · exact fun done => absurd done (by simp [parse_mode])
    · rintro (⟨numeral,_⟩ | ⟨cs,nonempty,text⟩)
      · exact absurd rfl numeral.1
      · exact absurd text.symm (render_ne_nil nonempty)
  | cons c p =>
    by_cases digit : '0' ≤ c ∧ c ≤ '7'
    · rw [parse_octal digit]
      constructor
      · rintro ⟨octal,small,rfl⟩
        exact .octal octal small
      · rintro (⟨octal,small⟩ | ⟨cs,nonempty,text⟩)
        · exact ⟨octal,small,rfl⟩
        · exact absurd digit (render_head nonempty text.symm)
    · have loop : parse_mode (c :: p) = clauseLoop (c :: p) (c :: p).length (c :: p) 0 := by
        rw [parse_mode,if_neg digit]
      rw [loop]
      constructor
      · intro done
        obtain ⟨cs,nonempty,text,rfl⟩ := clauseLoop_ok _ (by simp) done
        exact .clauses cs nonempty text
      · rintro (⟨octal,_⟩ | ⟨cs,nonempty,text⟩)
        · exact absurd ((isDigitOf_eight c).mp (octal.2 c List.mem_cons_self)) digit
        · have enough : cs.length ≤ (c :: p).length := by rw [text]; exact length_render cs
          have read : clauseLoop (c :: p) (c :: p).length (render cs) 0 = .ok (meaning cs 0) := clauseLoop_render _ enough
          rwa [← text] at read

theorem parse_mode_error {s : Text} {e : Rejection} (failed : parse_mode s = .error e) : e = .invalid_mode s := by
  cases s with
  | nil => exact (Except.error.inj failed).symm
  | cons c p =>
    by_cases digit : '0' ≤ c ∧ c ≤ '7'
    · rw [parse_mode,if_pos digit] at failed
      simp only at failed
      split_ifs at failed
      exact (Except.error.inj failed).symm
    · rw [parse_mode,if_neg digit] at failed
      exact clauseLoop_error _ failed

/-- Exactly the octal numerals up to 07777 and the lists of clauses are accepted, every
    other text is rejected, and clauses act on what the clauses before them gave. -/
theorem parse_mode_exact :
    (∀ s value, parse_mode s = .ok value ↔ Denotes s value) ∧
    (∀ s, (¬∃ value, Denotes s value) → parse_mode s = .error (.invalid_mode s)) ∧
    (∀ s value, parse_mode s = .ok value → value &&& ~~~CHMOD_MODE_BITS = 0) ∧
    ∀ cs ds, cs ≠ [] → ds ≠ [] → ∃ first, parse_mode (render cs) = .ok first ∧
      parse_mode (render cs ++ ',' :: render ds) = .ok (meaning ds first) := by
  refine ⟨parse_mode_iff,?_,?_,?_⟩
  · intro s missing
    cases result : parse_mode s with
    | ok value => exact absurd ⟨value,(parse_mode_iff s value).mp result⟩ missing
    | error e => rw [parse_mode_error result]
  · intro s value done
    rcases (parse_mode_iff s value).mp done with ⟨_,small⟩ | ⟨cs,_,_⟩
    · exact within_ofNat small
    · exact within_meaning cs (show Within 0 from BitVec.zero_and)
  · intro cs ds left right
    refine ⟨meaning cs 0,(parse_mode_iff _ _).mpr (.clauses cs left rfl),?_⟩
    have together := (parse_mode_iff _ _).mpr (.clauses (cs ++ ds) (by simp [left]) (render_append left right).symm)
    rwa [meaning,List.foldl_append] at together

def owner_all : Clause := ⟨['u'],'=',['r','w','x'],by simp [isWho],rfl,by simp [isPerm]⟩
def others_read : Clause := ⟨['g','o'],'+',['r'],by simp [isWho],rfl,by simp [isPerm]⟩

theorem parse_mode_exact_sample : ∃ first, parse_mode (render [owner_all]) = .ok first ∧
    parse_mode (render [owner_all] ++ ',' :: render [others_read]) = .ok (meaning [others_read] first) :=
  parse_mode_exact.2.2.2 [owner_all] [others_read] (by simp) (by simp)

example : parse_mode ['u','=','r','w','x',',','g','o','+','r'] = .ok 0o744 := by decide

end Newfile.Modes
