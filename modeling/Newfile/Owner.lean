import Newfile.Optparse
import Newfile.Parse

/-!
`parse_owner` of `parse.c`: an owner, a group or both, each by its name in a database
or by its number.
-/
namespace Newfile.Owner
open Newfile.Parse
open Newfile.Optparse (strchr)

abbrev id_t := BitVec 32

/-- `getpwnam` and `getgrnam`: the ID of a name that is known. -/
structure Databases where
  getpwnam : Text → Option id_t
  getgrnam : Text → Option id_t

/-- What `parse_owner` sets through its pointers. -/
structure OwnerIds where
  uid : id_t
  gid : id_t
  set_uid : Bool
  set_gid : Bool
  deriving DecidableEq, Repr

/-! ## The code -/

def parse_uint_id (id_str : Text) : Option Nat :=
  if id_str = [] then none
  else if id_str.all Char.isDigit = false then none
  else
    let converted := strtoull UINTMAX_MAX 10 id_str
    if converted.erange ∨ converted.rest ≠ [] then none else some converted.val

/-- `lookup_uid` and `lookup_gid`, with the database to look in. -/
def lookup_id (find : Text → Option id_t) (name : Text) : Option id_t :=
  match find name with
  | some id => some id
  | none =>
    match parse_uint_id name with
    | none => none
    | some id => if (BitVec.ofNat 32 id).toNat ≠ id ∨ BitVec.ofNat 32 id = -1 then none else some (BitVec.ofNat 32 id)

def lookup_uid (db : Databases) (name : Text) : Option id_t := lookup_id db.getpwnam name

def lookup_gid (db : Databases) (name : Text) : Option id_t := lookup_id db.getgrnam name

/-- The part of `parse_owner` for the group, which starts behind the colon. -/
def parseGroup (db : Databases) (buf : Text) (colon : Option Text) (o : OwnerIds) : Int × OwnerIds :=
  match colon with
  | none => (0,o)
  | some colon =>
    let group_str := colon.drop 1
    if group_str = [] ∧ buf ≠ [] then (-1,o)
    else if group_str ≠ [] then
      match lookup_gid db group_str with
      | some gid => (0,{ o with gid, set_gid := true })
      | none => (-1,{ o with set_gid := false })
    else (0,o)

/-- The part of `parse_owner` for the user. -/
def parseUser (db : Databases) (buf : Text) (ret : Int) (o : OwnerIds) : Int × OwnerIds :=
  if ret = 0 ∧ buf ≠ [] then
    match lookup_uid db buf with
    | some uid => (0,{ o with uid, set_uid := true })
    | none => (-1,{ o with set_uid := false })
  else (ret,o)

/-- What is returned and set, when `strdup` has memory or has none. -/
def parse_owner (db : Databases) (memory : Bool) (owner_str : Option Text) (o : OwnerIds) : Int × OwnerIds :=
  match owner_str with
  | none => (-1,o)
  | some s =>
    if s = [] then (-1,o)
    else
      let o := { o with set_uid := false, set_gid := false }
      if memory = false then (-1,o)
      else
        let buf := s.takeWhile (· != ':')
        let (ret,o) := parseGroup db buf (strchr s ':') o
        let (ret,o) := parseUser db buf ret o
        if ret = 0 ∧ o.set_uid = false ∧ o.set_gid = false then (-1,o) else (ret,o)

/-! ## What a string says -/

/-- The three shapes, with the owner and the group that are given. -/
inductive Shape : Text → Option Text → Option Text → Prop
  | owner {u : Text} (colon : ':' ∉ u) (user : u ≠ []) : Shape u (some u) none
  | both {u g : Text} (colon : ':' ∉ u) (user : u ≠ []) (group : g ≠ []) : Shape (u ++ (':' :: g)) (some u) (some g)
  | group {g : Text} (group : g ≠ []) : Shape (':' :: g) none (some g)

/-- The highest ID that can be set. -/
def MAX_ID : Nat := 4294967294

/-- The ID of a name that is known, or of a number that is no name. -/
def Known (find : Text → Option id_t) (name : Text) (id : id_t) : Prop :=
  find name = some id ∨ find name = none ∧ name ≠ [] ∧ (∀ c ∈ name, c.isDigit = true) ∧ id.toNat = valueOf 10 name

def Settable (find : Text → Option id_t) (name : Text) (id : id_t) : Prop := Known find name id ∧ id.toNat ≤ MAX_ID

theorem isDigitOf_ten (c : Char) : isDigitOf 10 c = c.isDigit := by
  have same : c.isDigit = ('0' ≤ c && c ≤ '9') := rfl
  rw [same,isDigitOf]
  by_cases low : '0' ≤ c
  · by_cases high : c ≤ '9'
    · have bound : c.toNat ≤ '9'.toNat := high
      have small : digitOf c < 10 := by
        simp only [digitOf,Char.reduceToNat] at bound ⊢
        omega
      simp [low,high,small]
    · simp [high]
  · simp [low]

theorem parse_uint_id_iff {name : Text} {id : Nat} :
    parse_uint_id name = some id ↔ name ≠ [] ∧ (∀ c ∈ name, c.isDigit = true) ∧ id = valueOf 10 name ∧ id ≤ UINTMAX_MAX := by
  rw [parse_uint_id]
  by_cases empty : name = []
  · simp [empty]
  · by_cases digits : ∀ c ∈ name, c.isDigit = true
    · have numeral : Numeral 10 name := ⟨empty,fun c here => by rw [isDigitOf_ten]; exact digits c here⟩
      have ends : Ends (isDigitOf 10) [] := by simp [Ends]
      have converted := strtoull_numeral UINTMAX_MAX numeral ends
      rw [List.append_nil] at converted
      have all : name.all Char.isDigit = true := List.all_eq_true.mpr digits
      rw [if_neg empty,if_neg (by simp [all]),converted]
      by_cases large : UINTMAX_MAX < valueOf 10 name
      · simp only [large,↓reduceIte]
        constructor
        · simp
        · rintro ⟨-,-,rfl,most⟩
          omega
      · simp only [large,↓reduceIte]
        constructor
        · intro found
          have same : valueOf 10 name = id := by simpa using found
          exact ⟨empty,digits,same.symm,by omega⟩
        · rintro ⟨-,-,rfl,-⟩
          simp
    · have all : name.all Char.isDigit = false := by
        rw [List.all_eq_false]
        simpa using digits
      rw [if_neg empty,if_pos all]
      constructor
      · simp
      · exact fun found => absurd found.2.1 digits

/-- A name is looked up before it is read as a number, and only the number is checked. -/
theorem lookup_id_iff {find : Text → Option id_t} {name : Text} {id : id_t} :
    lookup_id find name = some id ↔ Known find name id ∧ (find name = none → id.toNat ≤ MAX_ID) := by
  have last : ((-1 : id_t)).toNat = 4294967295 := by decide
  rw [lookup_id]
  cases found : find name with
  | some id' => simp [Known,found]
  | none =>
    simp only [Known,found,reduceCtorEq,false_or,true_and,forall_const]
    cases parsed : parse_uint_id name with
    | none =>
      simp only [reduceCtorEq,false_iff]
      rintro ⟨⟨nonempty,digits,value⟩,-⟩
      have bound := id.isLt
      have read : parse_uint_id name = some id.toNat :=
        parse_uint_id_iff.mpr ⟨nonempty,digits,value,by rw [UINTMAX_MAX]; omega⟩
      rw [parsed] at read
      simp at read
    | some n =>
      obtain ⟨nonempty,digits,value,-⟩ := parse_uint_id_iff.mp parsed
      have ends : (BitVec.ofNat 32 n).toNat = n%2^32 := BitVec.toNat_ofNat n 32
      have highest : BitVec.ofNat 32 n = -1 ↔ n%2^32 = 4294967295 := by rw [← BitVec.toNat_inj,ends,last]
      simp only [highest,ends]
      constructor
      · intro found
        split at found
        · simp at found
        · rename_i fine
          simp only [not_or,not_not] at fine
          obtain rfl := Option.some.inj found
          rw [ends,MAX_ID]
          exact ⟨⟨nonempty,digits,by omega⟩,by omega⟩
      · rintro ⟨⟨-,-,same⟩,most⟩
        rw [MAX_ID] at most
        have number : n = id.toNat := by rw [value,same]
        rw [if_neg (by omega),number,BitVec.ofNat_toNat,BitVec.setWidth_eq]

/-! ## The shapes -/

variable {db : Databases} {s : Text} {u g : Option Text} {o : OwnerIds}

theorem strchr_none {s : Text} (other : ':' ∉ s) : strchr s ':' = none := by
  induction s with
  | nil => rfl
  | cons c s ih =>
    simp only [List.mem_cons,not_or] at other
    rw [strchr,if_neg (Ne.symm other.1),ih other.2]

theorem strchr_first {u : Text} (other : ':' ∉ u) (g : Text) : strchr (u ++ (':' :: g)) ':' = some (':' :: g) := by
  induction u with
  | nil => rfl
  | cons c u ih =>
    simp only [List.mem_cons,not_or] at other
    rw [List.cons_append,strchr,if_neg (Ne.symm other.1),ih other.2]

theorem takeWhile_colon {u : Text} (other : ':' ∉ u) (g : Text) : (u ++ (':' :: g)).takeWhile (· != ':') = u := by
  have chars : ∀ c ∈ u, (c != ':') = true := fun c here => by
    have away : c ≠ ':' := fun same => other (by rw [← same]; exact here)
    simpa using away
  rw [List.takeWhile_append_of_pos chars]
  simp

theorem takeWhile_whole {u : Text} (other : ':' ∉ u) : u.takeWhile (· != ':') = u := by
  refine List.takeWhile_eq_self_iff.mpr fun c here => ?_
  have away : c ≠ ':' := fun same => other (by rw [← same]; exact here)
  simpa using away

/-- A string has no colon, or it is split at its first one. -/
theorem colon_cases (s : Text) : ':' ∉ s ∨ ∃ u g, ':' ∉ u ∧ s = u ++ (':' :: g) := by
  induction s with
  | nil => exact .inl List.not_mem_nil
  | cons c s ih =>
    by_cases colon : c = ':'
    · exact .inr ⟨[],s,List.not_mem_nil,by rw [colon]; rfl⟩
    · rcases ih with plain | ⟨u,g,plain,rfl⟩
      · exact .inl (by simpa [Ne.symm colon] using plain)
      · exact .inr ⟨c :: u,g,by simpa [Ne.symm colon] using plain,rfl⟩

/-- Every part that is given is found. -/
def Found (db : Databases) (u g : Option Text) : Prop :=
  (∀ n ∈ u, (lookup_uid db n).isSome = true) ∧ ∀ n ∈ g, (lookup_gid db n).isSome = true

/-- What is set when every part is found. -/
structure Filled (db : Databases) (u g : Option Text) (o : OwnerIds) : Prop where
  set_uid : o.set_uid = u.isSome
  set_gid : o.set_gid = g.isSome
  uid : ∀ n ∈ u, lookup_uid db n = some o.uid
  gid : ∀ n ∈ g, lookup_gid db n = some o.gid

/-- What `parse_owner` makes of a string of one of the shapes. -/
def Answered (db : Databases) (u g : Option Text) (r : Int × OwnerIds) : Prop :=
  (r.1 = 0 ↔ Found db u g) ∧ (r.1 = 0 → Filled db u g r.2)

theorem shape_answered (db : Databases) (shape : Shape s u g) (o : OwnerIds) : Answered db u g (parse_owner db true (some s) o) := by
  cases shape with
  | @owner u colon user =>
    cases found : lookup_uid db s with
    | some uid =>
      simp only [parse_owner,user,takeWhile_whole colon,strchr_none colon,parseGroup,parseUser,found,↓reduceIte]
      refine ⟨?_,fun _ => ⟨?_,?_,?_,?_⟩⟩ <;> simp [Found,found,user]
    | none =>
      simp only [parse_owner,user,takeWhile_whole colon,strchr_none colon,parseGroup,parseUser,found,↓reduceIte]
      refine ⟨?_,fun fine => ?_⟩
      · simp [Found,found,user]
      · simp [user] at fine
  | @both u g colon user group =>
    have some_ : u ++ (':' :: g) ≠ [] := by simp
    cases foundGroup : lookup_gid db g with
    | none =>
      simp only [parse_owner,some_,takeWhile_colon colon,strchr_first colon,parseGroup,parseUser,foundGroup,List.drop_one,
        List.tail_cons,↓reduceIte]
      refine ⟨?_,fun fine => ?_⟩
      · simp [Found,foundGroup,group]
      · simp [group] at fine
    | some gid =>
      cases found : lookup_uid db u with
      | some uid =>
        simp only [parse_owner,some_,takeWhile_colon colon,strchr_first colon,parseGroup,parseUser,found,foundGroup,List.drop_one,
          List.tail_cons,↓reduceIte]
        refine ⟨?_,fun _ => ⟨?_,?_,?_,?_⟩⟩ <;> simp [Found,found,foundGroup,user,group]
      | none =>
        simp only [parse_owner,some_,takeWhile_colon colon,strchr_first colon,parseGroup,parseUser,found,foundGroup,List.drop_one,
          List.tail_cons,↓reduceIte]
        refine ⟨?_,fun fine => ?_⟩
        · simp [Found,found,foundGroup,user,group]
        · simp [user,group] at fine
  | @group g group =>
    have first : (':' :: g).takeWhile (· != ':') = [] := rfl
    cases found : lookup_gid db g with
    | some gid =>
      simp only [parse_owner,first,strchr,parseGroup,parseUser,found,List.drop_one,List.tail_cons,↓reduceIte,reduceCtorEq]
      refine ⟨?_,fun _ => ⟨?_,?_,?_,?_⟩⟩ <;> simp [Found,found,group]
    | none =>
      simp only [parse_owner,first,strchr,parseGroup,parseUser,found,List.drop_one,List.tail_cons,↓reduceIte,reduceCtorEq]
      refine ⟨?_,fun fine => ?_⟩
      · simp [Found,found,group]
      · simp [group] at fine

/-- Of any other string nothing is taken. -/
theorem shapeless_rejected (missing : ∀ u g, ¬ Shape s u g) (o : OwnerIds) : (parse_owner db true (some s) o).1 ≠ 0 := by
  by_cases empty : s = []
  · simp [parse_owner,empty]
  · rcases colon_cases s with whole | ⟨u,g,first,rfl⟩
    · exact absurd (.owner whole empty) (missing (some s) none)
    · by_cases group : g = []
      · subst group
        by_cases user : u = []
        · subst user
          simp [parse_owner,strchr,parseGroup,parseUser]
        · simp only [parse_owner,empty,takeWhile_colon first,strchr_first first,parseGroup,parseUser,↓reduceIte]
          simp [user]
      · by_cases user : u = []
        · subst user
          exact absurd (.group group) (missing none (some g))
        · exact absurd (.both first user group) (missing (some u) (some g))

/-! ## What is accepted -/

/-- The string is accepted exactly when it has one of the shapes and an ID can be set for
    each part, and then these IDs are set, and no other. -/
def Meets (db : Databases) (s : Text) : Prop :=
  ∀ o, ((parse_owner db true (some s) o).1 = 0 ↔
      ∃ u g, Shape s u g ∧ (∀ n ∈ u, ∃ id, Settable db.getpwnam n id) ∧ ∀ n ∈ g, ∃ id, Settable db.getgrnam n id) ∧
    ((parse_owner db true (some s) o).1 = 0 → ∀ u g, Shape s u g →
      (parse_owner db true (some s) o).2.set_uid = u.isSome ∧ (parse_owner db true (some s) o).2.set_gid = g.isSome ∧
      (∀ n ∈ u, Settable db.getpwnam n (parse_owner db true (some s) o).2.uid) ∧
      ∀ n ∈ g, Settable db.getgrnam n (parse_owner db true (some s) o).2.gid)

/-- A name in the database, or a number that can be set. -/
def Accepted (find : Text → Option id_t) (name : Text) : Prop :=
  (find name).isSome = true ∨ name ≠ [] ∧ (∀ c ∈ name, c.isDigit = true) ∧ valueOf 10 name ≤ MAX_ID

/-- The ID that `fchown` takes to mean no change. -/
def UNCHANGED : id_t := -1

/-- Each part of the string is accepted, and one of them is a name whose ID in its
    database is the one that cannot be set. -/
def Reserved (db : Databases) (s : Text) : Prop :=
  ∃ u g, Shape s u g ∧ (∀ n ∈ u, Accepted db.getpwnam n) ∧ (∀ n ∈ g, Accepted db.getgrnam n) ∧
    ((∃ n ∈ u, db.getpwnam n = some UNCHANGED) ∨ ∃ n ∈ g, db.getgrnam n = some UNCHANGED)

theorem lookup_id_accepted {find : Text → Option id_t} {name : Text} :
    (lookup_id find name).isSome = true ↔ Accepted find name := by
  rw [Option.isSome_iff_exists]
  simp only [lookup_id_iff,Known,Accepted]
  cases found : find name with
  | some id => simp
  | none =>
    simp only [reduceCtorEq,false_or,true_and,forall_const,Option.isSome_none,Bool.false_eq_true]
    constructor
    · rintro ⟨id,⟨nonempty,digits,value⟩,most⟩
      exact ⟨nonempty,digits,by rw [← value]; exact most⟩
    · rintro ⟨nonempty,digits,most⟩
      have small : (BitVec.ofNat 32 (valueOf 10 name)).toNat = valueOf 10 name := by
        rw [BitVec.toNat_ofNat]
        rw [MAX_ID] at most
        omega
      exact ⟨BitVec.ofNat 32 (valueOf 10 name),⟨nonempty,digits,small⟩,by rw [small]; exact most⟩

/-- An ID that is found can be set, unless it is the database's own. -/
theorem lookup_id_settable {find : Text → Option id_t} {name : Text} {id : id_t} (found : lookup_id find name = some id)
    (other : find name ≠ some UNCHANGED) : Settable find name id := by
  obtain ⟨known,most⟩ := lookup_id_iff.mp found
  refine ⟨known,?_⟩
  rcases known with same | ⟨absent,-⟩
  · have away : id ≠ UNCHANGED := fun wrong => other (by rw [same,wrong])
    have last : UNCHANGED.toNat = 4294967295 := by decide
    have bound := id.isLt
    have different : id.toNat ≠ UNCHANGED.toNat := fun wrong => away (BitVec.toNat_inj.mp wrong)
    rw [MAX_ID]
    omega
  · exact most absent

theorem settable_lookup {find : Text → Option id_t} {name : Text} {id : id_t} (settable : Settable find name id) :
    lookup_id find name = some id ∧ find name ≠ some UNCHANGED := by
  obtain ⟨known,most⟩ := settable
  refine ⟨lookup_id_iff.mpr ⟨known,fun _ => most⟩,fun wrong => ?_⟩
  have last : UNCHANGED.toNat = 4294967295 := by decide
  rcases known with same | ⟨absent,-⟩
  · rw [wrong] at same
    obtain rfl := Option.some.inj same
    rw [last,MAX_ID] at most
    omega
  · rw [wrong] at absent
    simp at absent

theorem found_iff : Found db u g ↔ (∀ n ∈ u, Accepted db.getpwnam n) ∧ ∀ n ∈ g, Accepted db.getgrnam n := by
  simp only [Found,lookup_uid,lookup_gid,lookup_id_accepted]

/-- A string is taken as it must be if and only if no name of it has the ID in the
    database that cannot be set, where the rest of it is accepted too. -/
theorem parse_owner_meets_iff (db : Databases) (s : Text) : Meets db s ↔ ¬ Reserved db s := by
  constructor
  · rintro meets ⟨u,g,shape,users,groups,reserved⟩
    have o : OwnerIds := ⟨0,0,false,false⟩
    have fine := (shape_answered db shape o).1.mpr (found_iff.mpr ⟨users,groups⟩)
    obtain ⟨-,-,user,group⟩ := (meets o).2 fine u g shape
    rcases reserved with ⟨n,here,last⟩ | ⟨n,here,last⟩
    · exact (settable_lookup (user n here)).2 last
    · exact (settable_lookup (group n here)).2 last
  · intro free o
    have settable : ∀ u g, Shape s u g → (parse_owner db true (some s) o).1 = 0 →
        (∀ n ∈ u, Settable db.getpwnam n (parse_owner db true (some s) o).2.uid) ∧
        ∀ n ∈ g, Settable db.getgrnam n (parse_owner db true (some s) o).2.gid := by
      intro u g shape fine
      obtain ⟨accepted,filled⟩ := shape_answered db shape o
      obtain ⟨users,groups⟩ := found_iff.mp (accepted.mp fine)
      refine ⟨fun n here => lookup_id_settable ((filled fine).uid n here) fun last => free ?_,
        fun n here => lookup_id_settable ((filled fine).gid n here) fun last => free ?_⟩
      · exact ⟨u,g,shape,users,groups,.inl ⟨n,here,last⟩⟩
      · exact ⟨u,g,shape,users,groups,.inr ⟨n,here,last⟩⟩
    refine ⟨⟨fun fine => ?_,?_⟩,fun fine u g shape => ?_⟩
    · have shaped : ∃ u g, Shape s u g := by
        by_contra missing
        simp only [not_exists] at missing
        exact shapeless_rejected missing o fine
      obtain ⟨u,g,shape⟩ := shaped
      obtain ⟨user,group⟩ := settable u g shape fine
      exact ⟨u,g,shape,fun n here => ⟨_,user n here⟩,fun n here => ⟨_,group n here⟩⟩
    · rintro ⟨u,g,shape,users,groups⟩
      refine (shape_answered db shape o).1.mpr (found_iff.mpr ⟨fun n here => ?_,fun n here => ?_⟩)
      · obtain ⟨id,known⟩ := users n here
        exact lookup_id_accepted.mp (by rw [(settable_lookup known).1]; rfl)
      · obtain ⟨id,known⟩ := groups n here
        exact lookup_id_accepted.mp (by rw [(settable_lookup known).1]; rfl)
    · obtain ⟨-,filled⟩ := shape_answered db shape o
      obtain ⟨user,group⟩ := settable u g shape fine
      exact ⟨(filled fine).set_uid,(filled fine).set_gid,user,group⟩

/-- A database in which the name `all` has the highest ID that there is. -/
def allOnes : Databases := ⟨fun name => if name = "all".toList then some UNCHANGED else none,fun _ => none⟩

/-- Its name is accepted, and the ID that is set means no change. -/
theorem all_ones_accepted :
    parse_owner allOnes true (some "all".toList) ⟨0,0,false,false⟩ = (0,⟨UNCHANGED,0,true,false⟩) ∧ ¬ Meets allOnes "all".toList := by
  have run : parse_owner allOnes true (some "all".toList) ⟨0,0,false,false⟩ = (0,⟨UNCHANGED,0,true,false⟩) := by
    decide +kernel
  refine ⟨run,fun meets => ?_⟩
  have shape : Shape "all".toList (some "all".toList) none := .owner (by simp) (by simp)
  obtain ⟨-,-,user,-⟩ := (meets ⟨0,0,false,false⟩).2 (by rw [run]) _ _ shape
  have last : allOnes.getpwnam "all".toList = some UNCHANGED := rfl
  exact (settable_lookup (user _ rfl)).2 last

end Newfile.Owner
