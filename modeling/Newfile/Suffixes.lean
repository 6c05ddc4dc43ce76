import Newfile.Decimals
import Newfile.Traces

/-!
The names of numbered backups: `backup_split` takes apart what `backup_name` puts
together and nothing else, and reads no character outside of the name.
-/
namespace Newfile.Suffixes
open Newfile.Program Newfile.Posix Newfile.Process Newfile.Backup Newfile.Numbers

variable {base base' ds ds' name : List Char}

/-! ## Encoding and decoding -/

/-- The name of a numbered backup of the file `base`. -/
structure Encodes (base ds name : List Char) : Prop where
  nonempty : base ≠ []
  decimal : Decimal ds
  text : name = backupText base ds

theorem takeWhile_digits (decimal : Decimal ds) (front : List Char) :
    ((front ++ ('~' :: ds)).reverse.takeWhile Char.isDigit).reverse = ds := by
  have digits : ∀ c ∈ ds.reverse, c.isDigit = true := fun c here => decimal.digits c (List.mem_reverse.mp here)
  have shape : (front ++ ('~' :: ds)).reverse = ds.reverse ++ ('~' :: front.reverse) := by simp
  rw [shape,List.takeWhile_append_of_pos digits]
  simp

/-- A text and decimal digits are told apart again. -/
theorem backupText_inj (one : Decimal ds) (two : Decimal ds') (same : backupText base ds = backupText base' ds') :
    base = base' ∧ ds = ds' := by
  have digits : ∀ {base ds : List Char}, Decimal ds → ((backupText base ds).dropLast.reverse.takeWhile Char.isDigit).reverse = ds := by
    intro base ds decimal
    have shape : backupText base ds = ((base ++ ['.']) ++ '~' :: ds) ++ ['~'] := by simp [backupText]
    rw [shape,List.dropLast_concat]
    exact takeWhile_digits decimal (base ++ ['.'])
  have equal : ds = ds' := by rw [← @digits base ds one,same,digits two]
  subst equal
  exact ⟨by simpa [backupText] using same,rfl⟩

theorem Encodes.split (encodes : Encodes base ds name) : backup_split name = some (base,ds) := by
  obtain ⟨nonempty,decimal,rfl⟩ := encodes
  have shape : backupText base ds = (base ++ ('.' :: '~' :: ds)) ++ ['~'] := by simp [backupText]
  have digits : (((base ++ ['.']) ++ ('~' :: ds)).reverse.takeWhile Char.isDigit).reverse = ds :=
    takeWhile_digits decimal (base ++ ['.'])
  have same : (base ++ ['.']) ++ ('~' :: ds) = base ++ ('.' :: '~' :: ds) := by simp
  rw [same] at digits
  have first : 0 < base.length := List.length_pos_of_ne_nil nonempty
  have positive : 0 < ds.length := List.length_pos_of_ne_nil decimal.nonempty
  have length : ((base ++ ('.' :: '~' :: ds)) ++ ['~']).length = base.length+ds.length+3 := by simp; omega
  have enough : ¬ (base.length+ds.length+3 < "x.~1~".length) := by
    have five : "x.~1~".length = 5 := by decide
    omega
  have position : base.length+ds.length+3-1-ds.length = base.length+2 := by omega
  rw [shape]
  simp only [backup_split,List.getLast?_concat,List.dropLast_concat,digits,length,enough,position,decimal.nonempty,decimal.front]
  simp
  omega

/-- Two characters behind a base. -/
theorem take_two {text : List Char} {p : Nat} (length : text.length = p) (enough : 3 ≤ p) (last : text[p-1]? = some '~')
    (dot : text[p-2]? = some '.') : text = text.take (p-2) ++ ['.','~'] := by
  have rest : text.drop (p-2) = ['.','~'] := by
    have inside : p-2 < text.length := by omega
    have inside' : p-1 < text.length := by omega
    have one : text[p-2] = '.' := by simpa [List.getElem?_eq_getElem inside] using dot
    have two : text[p-1] = '~' := by simpa [List.getElem?_eq_getElem inside'] using last
    have next : p-2+1 = p-1 := by omega
    have stop : text.drop (p-2+1+1) = [] := List.drop_eq_nil_of_le (by omega)
    rw [List.drop_eq_getElem_cons inside,List.drop_eq_getElem_cons (by omega),stop,one]
    simp only [next,two]
  calc text
    _ = text.take (p-2) ++ text.drop (p-2) := (List.take_append_drop _ _).symm
    _ = text.take (p-2) ++ ['.','~'] := by rw [rest]

theorem encodes_of_split (split_ : backup_split name = some (base,ds)) : Encodes base ds name := by
  have decimal := backup_split_decimal split_
  simp only [backup_split] at split_
  split at split_
  · simp at split_
  · rename_i long
    simp only [not_or,ne_eq,not_not] at long
    split at split_
    · simp at split_
    · rename_i right
      simp only [Option.some.injEq,Prod.mk.injEq] at split_
      simp only [not_or,ne_eq,not_not] at right
      obtain ⟨cut,same⟩ := split_
      rw [same] at right cut
      obtain ⟨-,-,enough,last,dot⟩ := right
      -- What stands in front of the digits ends in the two characters.
      obtain ⟨text,shape⟩ : ∃ text, name = text ++ ['~'] := List.getLast?_eq_some_iff.mp long.2
      subst shape
      rw [List.dropLast_concat] at same
      have parts : text = (text.reverse.dropWhile Char.isDigit).reverse ++ ds := by
        rw [← same,← List.reverse_append,List.takeWhile_append_dropWhile,List.reverse_reverse]
      generalize (text.reverse.dropWhile Char.isDigit).reverse = front at parts
      subst parts
      have position : (front ++ ds ++ ['~']).length-1-ds.length = front.length := by simp
      rw [position,List.append_assoc] at cut
      rw [position] at enough last dot
      rw [List.append_assoc] at last dot
      simp only [Nat.not_lt] at enough
      rw [List.getElem?_append_left (by omega)] at last dot
      rw [List.take_append_of_le_length (by omega)] at cut
      have two := take_two rfl enough last dot
      rw [cut] at two
      refine ⟨?_,decimal,?_⟩
      · refine List.ne_nil_of_length_pos ?_
        rw [← cut,List.length_take]
        omega
      · rw [two,backupText]
        simp

theorem Encodes.unique (one : Encodes base ds name) (two : Encodes base' ds' name) : base = base' ∧ ds = ds' := by
  have same := one.split.symm.trans two.split
  simpa using same

/-! ## In memory -/

/-- A character of a string in memory, its terminator included; the place that is read
    outside of the string. -/
def charAt (name : Path) (i : Int) : Except Int Char :=
  if i < 0 then .error i
  else if i = name.length then .ok (Char.ofNat 0)
  else
    match name[i.toNat]? with
    | some c => .ok c
    | none => .error i

/-- The loop of `backup_split`: where the digits in front of `p` begin. -/
def digitsLoop (name : Path) : Nat → Except Int Nat
  | 0 => .ok 0
  | p+1 => do
    let c ← charAt name (((p+1 : Nat) : Int)-1)
    if '0' ≤ c ∧ c ≤ '9' then digitsLoop name p else return p+1

/-- `backup_split` with pointers into the name: the length of the base and where the
    digits begin. -/
def backup_split_at (name : Path) : Except Int (Option (Nat × Nat)) := do
  let len := name.length
  if len < "x.~1~".length then return none
  else
    let last ← charAt name ((len : Int)-1)
    if last ≠ '~' then return none
    else
      let stop := len-1
      let p ← digitsLoop name stop
      if p = stop then return none
      else
        let first ← charAt name p
        if first = '0' then return none
        else if p < 3 then return none
        else
          let one ← charAt name ((p : Int)-1)
          if one ≠ '~' then return none
          else
            let two ← charAt name ((p : Int)-2)
            if two ≠ '.' then return none else return some (p-2,p)

theorem read_bind {α β : Type} (a : α) (f : α → Except Int β) : ((.ok a : Except Int α) >>= f) = f a := rfl

theorem charAt_inside {i : Int} {n : Nat} (place : i = n) {c : Char} (here : name[n]? = some c) : charAt name i = .ok c := by
  subst place
  have inside := (List.getElem?_eq_some_iff.mp here).1
  rw [charAt,if_neg (by omega),if_neg (by omega),Int.toNat_natCast,here]

/-- The digits at the end of what stands in front of `p`. -/
def tailDigits (name : Path) (p : Nat) : List Char := ((name.take p).reverse.takeWhile Char.isDigit).reverse

theorem tailDigits_succ {p : Nat} {c : Char} (here : name[p]? = some c) :
    tailDigits name (p+1) = if c.isDigit then tailDigits name p ++ [c] else [] := by
  have inside := (List.getElem?_eq_some_iff.mp here).1
  have next : name.take (p+1) = name.take p ++ [c] := by rw [List.take_add_one,here]; rfl
  rw [tailDigits,next,List.reverse_append,List.reverse_singleton,List.singleton_append,List.takeWhile_cons]
  split <;> simp [tailDigits]

theorem tailDigits_length (name : Path) {p : Nat} (inside : p ≤ name.length) : (tailDigits name p).length ≤ p := by
  have short := (List.takeWhile_sublist Char.isDigit (l := (name.take p).reverse)).length_le
  simp only [List.length_reverse,List.length_take] at short
  simp only [tailDigits,List.length_reverse]
  omega

theorem digitsLoop_eq {p : Nat} (inside : p ≤ name.length) :
    digitsLoop name p = .ok (p-(tailDigits name p).length) := by
  induction p with
  | zero => rfl
  | succ p ih =>
    have here : name[p]? = some name[p] := List.getElem?_eq_getElem inside
    have short := tailDigits_length name (p := p) (by omega)
    have range : ('0' ≤ name[p] ∧ name[p] ≤ '9') = (name[p].isDigit = true) := by
      simp only [Char.isDigit,Bool.and_eq_true,decide_eq_true_eq]
      rfl
    rw [digitsLoop,charAt_inside (by omega) here]
    simp only [read_bind,range,tailDigits_succ here]
    split
    · rw [ih (by omega),List.length_append,List.length_singleton]
      exact congrArg Except.ok (by omega)
    · rfl

/-- The first of these digits stands where they begin. -/
theorem tailDigits_head (name : Path) {p : Nat} (inside : p ≤ name.length) (nonempty : tailDigits name p ≠ []) :
    name[p-(tailDigits name p).length]? = (tailDigits name p).head? := by
  obtain ⟨front,parts⟩ : ∃ front, name.take p = front ++ tailDigits name p := by
    refine ⟨((name.take p).reverse.dropWhile Char.isDigit).reverse,?_⟩
    rw [tailDigits,← List.reverse_append,List.takeWhile_append_dropWhile,List.reverse_reverse]
  have length := congrArg List.length parts
  rw [List.length_take,Nat.min_eq_left inside,List.length_append] at length
  have positive := List.length_pos_of_ne_nil nonempty
  have place : p-(tailDigits name p).length = front.length := by omega
  have early : front.length < p := by omega
  rw [place,← List.getElem?_take_of_lt early,parts,List.getElem?_append_right (Nat.le_refl _),Nat.sub_self,
    List.head?_eq_getElem?]

/-- With pointers the same names are taken apart, and nothing outside of them is read. -/
theorem backup_split_at_eq (name : Path) :
    backup_split_at name = .ok ((backup_split name).map fun x => (x.1.length,x.1.length+2)) := by
  have five : "x.~1~".length = 5 := by decide
  simp only [backup_split_at,backup_split,five]
  by_cases short : name.length < 5
  · simp [short]
    rfl
  · have here : name[name.length-1]? = name.getLast? := by rw [List.getLast?_eq_getElem?]
    obtain ⟨c,last⟩ : ∃ c, name.getLast? = some c := by
      cases name with
      | nil => simp at short
      | cons c name => exact ⟨_,List.getLast?_cons⟩
    rw [last] at here
    have tail : (name.dropLast.reverse.takeWhile Char.isDigit).reverse = tailDigits name (name.length-1) := by
      rw [tailDigits,List.dropLast_eq_take]
    have inside := tailDigits_length name (p := name.length-1) (by omega)
    have first := tailDigits_head name (p := name.length-1) (by omega)
    simp only [short,last,tail,false_or,↓reduceIte]
    rw [charAt_inside (by omega) here,digitsLoop_eq (by omega),read_bind]
    generalize tailDigits name (name.length-1) = ds at inside first
    by_cases tilde : c = '~'
    · by_cases empty : ds = []
      · simp [tilde,empty,read_bind]
        rfl
      · have positive := List.length_pos_of_ne_nil empty
        obtain ⟨d,rest,rfl⟩ := List.exists_cons_of_ne_nil empty
        have digit := charAt_inside rfl (first empty)
        simp only [read_bind,tilde,empty,digit,List.head?_cons,Option.some.injEq]
        generalize hp : name.length-1-(d :: rest).length = p at first digit ⊢
        have before : p ≠ name.length-1 := by omega
        by_cases zero : d = '0'
        · simp [zero,before]
          rfl
        · by_cases early : p < 3
          · simp [zero,before,early]
            rfl
          · obtain ⟨one,oneIs⟩ : ∃ one, name[p-1]? = some one := ⟨_,List.getElem?_eq_getElem (by omega)⟩
            obtain ⟨two,twoIs⟩ : ∃ two, name[p-2]? = some two := ⟨_,List.getElem?_eq_getElem (by omega)⟩
            have length : (name.take (p-2)).length = p-2 := by rw [List.length_take]; omega
            have next : p-2+2 = p := by omega
            simp only [charAt_inside (i := p-1) (n := p-1) (by omega) oneIs,charAt_inside (i := p-2) (n := p-2) (by omega) twoIs,
              read_bind,before,zero,early,oneIs,twoIs]
            by_cases mark : one = '~'
            · by_cases dot : two = '.'
              · simp [mark,dot,length,next]
                rfl
              · simp [mark,dot]
                rfl
            · simp [mark]
              rfl
    · simp [tilde]
      rfl

/-! ## Round trip -/

/-- A decoded name with what `*digits` points to. -/
def decoded (name : Path) : Except Int (Option (Nat × List Char)) :=
  (backup_split_at name).map fun r => r.map fun x => (x.1,name.drop x.2)

theorem decoded_eq (name : Path) :
    decoded name = .ok ((backup_split name).map fun x => (x.1.length,x.2 ++ ['~'])) := by
  rw [decoded,backup_split_at_eq]
  cases found : backup_split name with
  | none => rfl
  | some x =>
    obtain ⟨base,ds⟩ := x
    have text := (encodes_of_split found).text
    have shape : name = (base ++ ['.','~']) ++ (ds ++ ['~']) := by rw [text,backupText]; simp
    have digits : name.drop (base.length+2) = ds ++ ['~'] := by
      have length : base.length+2 = (base ++ ['.','~']).length := by simp
      rw [shape,length]
      exact List.drop_left
    simp only [Except.map,Option.map_some,digits]

/-- The name is returned unless there is no memory. -/
theorem backup_name_returned (base ds : List Char) {res : Path → Ino} (k : Kernel) (m : Memory) :
    wp (Traces.logged (exec res)) False (backup_name base ds) (fun r s _ =>
      (∃ name, r = .ok name ∧ name.text = backupText base ds) ∨ ∃ e, r = .error e ∧ ⟨.alloc,.error e⟩ ∈ s.2) (k,[]) m := by
  rintro r ⟨k',h⟩ ⟨_,rfl⟩
  cases r with
  | error e => exact .inr ⟨e,rfl,List.mem_cons_self⟩
  | ok _ => exact .inl ⟨_,rfl,rfl⟩

/-- What `backup_name` makes of a base name, and returns when there is memory, is taken apart
    into that name and the digits; a name that is taken apart is made of its parts in this way
    only; any other is told from it, and no character outside of a name is read. -/
theorem backup_names_decode :
    (∀ (base ds : List Char), base ≠ [] → '/' ∉ base → Decimal ds →
      ∀ (res : Path → Ino) (k : Kernel) (m : Memory), wp (exec res) False (backup_name base ds)
        (fun r _ _ => ∀ name, r = .ok name → decoded (baseText name.text) = .ok (some (base.length,ds ++ ['~']))) k m ∧
        ∀ evs u, Run (exec res) ⟨backup_name base ds,k,m⟩ evs u → ∀ r, u.prog = .ret r →
          (∃ name, r = .ok name ∧ name.text = backupText base ds) ∨ ∃ e, r = .error e ∧ ⟨.alloc,.error e⟩ ∈ evs) ∧
    (∀ (name : Path) (n : Nat) (text : List Char), decoded name = .ok (some (n,text)) →
      ∃ ds, Encodes (name.take n) ds name ∧ text = ds ++ ['~'] ∧
        ∀ base ds', Encodes base ds' name → base = name.take n ∧ ds' = ds) ∧
    (∀ name : Path, (∃ r, decoded name = .ok r) ∧ (decoded name = .ok none ↔ ∀ base ds, ¬ Encodes base ds name)) := by
  refine ⟨fun base ds nonempty slash decimal res k m => ⟨?_,fun evs u run r returned => ?_⟩,fun name n text found => ?_,fun name => ⟨⟨_,decoded_eq name⟩,?_⟩⟩
  · have last : baseText (backupText base ds) = backupText base ds := by
      have other : '/' ∉ backupText base ds := by
        have behind := suffix_slash decimal
        simp only [backupText,List.append_assoc,List.mem_append,not_or] at behind ⊢
        exact ⟨slash,behind⟩
      rw [baseText,path_dir_len,Newfile.Accounts.strrchr_none other,List.drop_zero]
    have split_ := Encodes.split ⟨nonempty,decimal,rfl⟩
    rw [backup_name,newStr]
    intro r k' _
    cases r with
    | error e => exact fun name wrong => by cases wrong
    | ok _ =>
      rintro name ⟨⟩
      rw [last,decoded_eq,split_]
      rfl
  · rcases (Traces.wp_trace (backup_name_returned base ds k m) run).2 r returned with fine | ⟨e,failed,member⟩
    · exact .inl fine
    · exact .inr ⟨e,failed,List.mem_reverse.mp member⟩
  · rw [decoded_eq] at found
    cases split_ : backup_split name with
    | none => simp [split_] at found
    | some x =>
      obtain ⟨base,ds⟩ := x
      have encodes := encodes_of_split split_
      simp only [split_,Option.map_some,Except.ok.injEq,Option.some.injEq,Prod.mk.injEq] at found
      obtain ⟨rfl,rfl⟩ := found
      have front : name.take base.length = base := by rw [encodes.text,backupText]; simp
      rw [front]
      exact ⟨ds,encodes,rfl,fun base' ds' other => other.unique encodes⟩
  · rw [decoded_eq]
    simp only [Except.ok.injEq,Option.map_eq_none_iff]
    constructor
    · intro absent base ds encodes
      rw [encodes.split] at absent
      simp at absent
    · intro other
      cases split_ : backup_split name with
      | none => rfl
      | some x => exact absurd (encodes_of_split split_) (other x.1 x.2)

/-- A backup of a backup: its name is returned. -/
theorem backup_names_decode_sample : ∃ evs u name,
    Run (exec fun _ => 0) ⟨backup_name "a.~1~".toList "20".toList,⟨[],fun _ => {},0,3,[],fun _ => 0,[],[]⟩,{}⟩ evs u ∧
      u.prog = .ret (.ok name) ∧ name.text = "a.~1~.~20~".toList ∧
      decoded (baseText name.text) = .ok (some ("a.~1~".toList.length,"20".toList ++ ['~'])) := by
  obtain ⟨evs,run⟩ := play_run (step fun _ => 0) (backup_name "a.~1~".toList "20".toList) ⟨[],fun _ => {},0,3,[],fun _ => 0,[],[]⟩ {}
    [.done]
  have run' : Run (exec fun _ => 0) _ evs _ := run
  have both := backup_names_decode.1 "a.~1~".toList "20".toList (by simp) (by simp) ⟨by simp,by simp,by simp⟩ (fun _ => 0)
    ⟨[],fun _ => {},0,3,[],fun _ => 0,[],[]⟩ {}
  exact ⟨evs,_,_,run',rfl,by simp [backupText],wp_run run' both.1 _ rfl⟩

end Newfile.Suffixes
