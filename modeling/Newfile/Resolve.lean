import Mathlib

/-!
Resolution of paths in a tree of directories with symbolic links: the components of a
path are looked up from left to right, and a link puts its target in front of those that
are left. Repeated slashes are one.
-/
namespace Newfile.Resolve

variable {ι : Type}

/-- What is there. -/
inductive Node where
  | directory
  | link (target : List Char)
  | file
  deriving DecidableEq, Repr

/-- Directories with their entries, the root and the working directory. An entry leads to
    something that is there, and each directory has itself and its parent for entries. -/
structure FileTree (ι : Type) where
  root : ι
  cwd : ι
  node : ι → Option Node
  entry : ι → List Char → Option ι
  root_directory : node root = some .directory
  cwd_directory : node cwd = some .directory
  there : ∀ d n e, entry d n = some e → node e ≠ none
  dot : ∀ d, node d = some .directory → entry d ".".toList = some d
  parent : ∀ d, node d = some .directory → ∃ e, entry d "..".toList = some e ∧ node e = some .directory

/-! ## Components -/

def components (path : List Char) : List (List Char) := (path.splitOn '/').filter (· ≠ [])

theorem components_slash (front rest : List Char) :
    components (front ++ ('/' :: rest)) = components front ++ components rest := by
  rw [components,List.splitOn_append_cons_self,List.filter_append]
  rfl

theorem components_plain {name : List Char} (plain : '/' ∉ name) (nonempty : name ≠ []) : components name = [name] := by
  rw [components,List.splitOn_eq_singleton plain]
  simp [nonempty]

@[simp] theorem components_nil : components [] = [] := rfl

/-! ## Walks -/

variable {t : FileTree ι} {d e f : ι}

namespace FileTree

/-- Where a path starts that is found in `d`. -/
def start (t : FileTree ι) (d : ι) (path : List Char) : ι := if path.head? = some '/' then t.root else d

theorem start_append (t : FileTree ι) (d : ι) {front : List Char} (nonempty : front ≠ []) (rest : List Char) :
    t.start d (front ++ rest) = t.start d front := by
  obtain ⟨c,front,rfl⟩ := List.exists_cons_of_ne_nil nonempty
  rfl

end FileTree

/-- The names lead from a directory to what is there in the end. -/
inductive Walk (t : FileTree ι) : ι → List (List Char) → ι → Prop
  | here (d : ι) : Walk t d [] d
  | step {d e f : ι} {n : List Char} {names : List (List Char)} (directory : t.node d = some .directory)
    (found : t.entry d n = some e) (plain : ∀ target, t.node e ≠ some (.link target)) (rest : Walk t e names f) :
    Walk t d (n :: names) f
  | follow {d e f : ι} {n target : List Char} {names : List (List Char)} (directory : t.node d = some .directory)
    (found : t.entry d n = some e) (link : t.node e = some (.link target)) (nonempty : target ≠ [])
    (rest : Walk t (t.start d target) (components target ++ names) f) : Walk t d (n :: names) f

theorem Walk.unique {names : List (List Char)} (one : Walk t d names e) (two : Walk t d names f) : e = f := by
  induction one with
  | here d =>
    cases two
    rfl
  | step directory found plain rest ih =>
    cases two with
    | step _ found' _ rest' =>
      obtain rfl := Option.some.inj (found.symm.trans found')
      exact ih rest'
    | follow _ found' link _ _ =>
      obtain rfl := Option.some.inj (found.symm.trans found')
      exact absurd link (plain _)
  | follow directory found link nonempty rest ih =>
    cases two with
    | step _ found' plain _ =>
      obtain rfl := Option.some.inj (found.symm.trans found')
      exact absurd link (plain _)
    | follow _ found' link' _ rest' =>
      obtain rfl := Option.some.inj (found.symm.trans found')
      obtain rfl := Node.link.inj (Option.some.inj (link.symm.trans link'))
      exact ih rest'

theorem Walk.append {xs ys : List (List Char)} (one : Walk t d xs e) (two : Walk t e ys f) : Walk t d (xs ++ ys) f := by
  induction one with
  | here d => exact two
  | step directory found plain _ ih => exact .step directory found plain (ih two)
  | follow directory found link nonempty _ ih =>
    have joined := ih two
    rw [List.append_assoc] at joined
    exact .follow directory found link nonempty joined

theorem Walk.split {xs ys : List (List Char)} (walk : Walk t d (xs ++ ys) f) : ∃ e, Walk t d xs e ∧ Walk t e ys f := by
  generalize namesIs : xs ++ ys = names at walk
  induction walk generalizing xs with
  | here d =>
    obtain ⟨rfl,rfl⟩ := List.append_eq_nil_iff.mp namesIs
    exact ⟨d,.here d,.here d⟩
  | @step d e f n names directory found plain rest ih =>
    cases xs with
    | nil =>
      obtain rfl : ys = n :: names := namesIs
      exact ⟨d,.here d,.step directory found plain rest⟩
    | cons x xs =>
      obtain ⟨rfl,rfl⟩ := List.cons.inj namesIs
      obtain ⟨g,first,last⟩ := ih rfl
      exact ⟨g,.step directory found plain first,last⟩
  | @follow d e f n target names directory found link nonempty rest ih =>
    cases xs with
    | nil =>
      obtain rfl : ys = n :: names := namesIs
      exact ⟨d,.here d,.follow directory found link nonempty rest⟩
    | cons x xs =>
      obtain ⟨rfl,rfl⟩ := List.cons.inj namesIs
      obtain ⟨g,first,last⟩ := ih (List.append_assoc _ _ _)
      exact ⟨g,.follow directory found link nonempty first,last⟩

/-- The component `.` leads nowhere else. -/
theorem walk_dot : Walk t d [".".toList] e ∧ t.node e = some .directory ↔ e = d ∧ t.node d = some .directory := by
  constructor
  · rintro ⟨walk,directory⟩
    cases walk with
    | step inside found _ rest =>
      cases rest
      rw [t.dot d inside] at found
      exact ⟨(Option.some.inj found).symm,inside⟩
    | follow inside found link _ _ =>
      rw [t.dot d inside] at found
      obtain rfl := Option.some.inj found
      simp [inside] at link
  · rintro ⟨rfl,directory⟩
    exact ⟨.step directory (t.dot _ directory) (fun target link => by simp [directory] at link) (.here _),directory⟩

/-! ## Paths -/

/-- The path leads to the directory `d`. -/
def Resolves (t : FileTree ι) (path : List Char) (d : ι) : Prop :=
  path ≠ [] ∧ Walk t (t.start t.cwd path) (components path) d ∧ t.node d = some .directory

/-- The path is the entry `n` of the directory `d`, which need not be there. -/
def Holds (t : FileTree ι) (path : List Char) (d : ι) (n : List Char) : Prop :=
  ∃ names, components path = names ++ [n] ∧ Walk t (t.start t.cwd path) names d ∧ t.node d = some .directory

theorem Resolves.unique {path : List Char} (one : Resolves t path d) (two : Resolves t path e) : d = e :=
  one.2.1.unique two.2.1

theorem Holds.unique {path n m : List Char} (one : Holds t path d n) (two : Holds t path e m) : d = e ∧ n = m := by
  obtain ⟨names,split,walk,-⟩ := one
  obtain ⟨names',split',walk',-⟩ := two
  obtain ⟨rfl,last⟩ := List.append_inj' (split.symm.trans split') rfl
  exact ⟨walk.unique walk',(List.cons.inj last).1⟩

/-- The directory of a path without a slash is the working directory. -/
theorem resolves_dot_iff {name : List Char} (plain : '/' ∉ name) (nonempty : name ≠ []) :
    Resolves t ".".toList d ↔ Holds t name d name := by
  have relative : t.start t.cwd name = t.cwd := by
    obtain ⟨c,name,rfl⟩ := List.exists_cons_of_ne_nil nonempty
    have other : c ≠ '/' := fun slash => plain (slash ▸ List.mem_cons_self)
    simp [FileTree.start,other]
  constructor
  · rintro ⟨-,walk,directory⟩
    obtain ⟨rfl,inside⟩ := walk_dot.mp ⟨walk,directory⟩
    refine ⟨[],components_plain plain nonempty,?_,directory⟩
    rw [relative]
    exact .here _
  · rintro ⟨names,split,walk,directory⟩
    rw [components_plain plain nonempty] at split
    obtain rfl := List.self_eq_append_left.mp split
    rw [relative] at walk
    cases walk
    exact ⟨by simp,(walk_dot.mpr ⟨rfl,directory⟩).1,directory⟩

/-- The directory of a path with a last slash is what is in front of it, or the root. -/
theorem resolves_front_iff {front name : List Char} (plain : '/' ∉ name) (nonempty : name ≠ []) :
    Resolves t (if front = [] then ['/'] else front) d ↔ Holds t (front ++ ('/' :: name)) d name := by
  have split : components (front ++ ('/' :: name)) = components front ++ [name] := by
    rw [components_slash,components_plain plain nonempty]
  have same : t.start t.cwd (front ++ ('/' :: name)) = t.start t.cwd (if front = [] then ['/'] else front) ∧
      components (if front = [] then ['/'] else front) = components front := by
    split_ifs with root
    · subst root
      exact ⟨rfl,rfl⟩
    · exact ⟨t.start_append t.cwd root _,rfl⟩
  rw [Resolves,Holds,same.1,same.2]
  constructor
  · rintro ⟨-,walk,directory⟩
    exact ⟨_,split,walk,directory⟩
  · rintro ⟨names,split',walk,directory⟩
    obtain ⟨rfl,-⟩ := List.append_inj' (split.symm.trans split') rfl
    exact ⟨by split_ifs with root; exacts [by simp,root],walk,directory⟩

/-! ## Growth -/

variable {t' t'' : FileTree ι}

/-- What was there is there as it was. -/
structure Extends (t t' : FileTree ι) : Prop where
  root : t'.root = t.root
  cwd : t'.cwd = t.cwd
  node : ∀ {i x}, t.node i = some x → t'.node i = some x
  entry : ∀ {d n e}, t.node d = some .directory → t.entry d n = some e → t'.entry d n = some e

theorem Extends.refl (t : FileTree ι) : Extends t t := ⟨rfl,rfl,id,fun _ => id⟩

theorem Extends.trans (one : Extends t t') (two : Extends t' t'') : Extends t t'' where
  root := two.root.trans one.root
  cwd := two.cwd.trans one.cwd
  node same := two.node (one.node same)
  entry directory found := two.entry (one.node directory) (one.entry directory found)

/-- The empty directory `i` is made as the entry `n` of `d`. -/
structure Grows (t : FileTree ι) (d : ι) (n : List Char) (i : ι) (t' : FileTree ι) : Prop where
  directory : t.node d = some .directory
  missing : t.entry d n = none
  fresh : t.node i = none
  root : t'.root = t.root
  cwd : t'.cwd = t.cwd
  made : t'.node i = some .directory
  others : ∀ j, j ≠ i → t'.node j = t.node j
  named : t'.entry d n = some i
  up : t'.entry i "..".toList = some d
  empty : ∀ m, m ≠ ".".toList → m ≠ "..".toList → t'.entry i m = none
  entries : ∀ e m, e ≠ i → ¬(e = d ∧ m = n) → t'.entry e m = t.entry e m

/-- The tree with a new directory in it. -/
def FileTree.grow [DecidableEq ι] (t : FileTree ι) (d : ι) (n : List Char) (i : ι) (directory : t.node d = some .directory)
    (missing : t.entry d n = none) : FileTree ι where
  root := t.root
  cwd := t.cwd
  node j := if j = i then some .directory else t.node j
  entry e m :=
    if e = i then if m = ".".toList then some i else if m = "..".toList then some d else none
    else if e = d ∧ m = n then some i
    else t.entry e m
  root_directory := by simp [t.root_directory]
  cwd_directory := by simp [t.cwd_directory]
  there e m f found := by
    by_cases new : f = i
    · simp [new]
    · rw [if_neg new]
      split_ifs at found with inside one two three
      · exact absurd (Option.some.inj found).symm new
      · rw [← Option.some.inj found,directory]
        exact Option.some_ne_none _
      · exact absurd (Option.some.inj found).symm new
      · exact t.there e m f found
  dot e inside := by
    by_cases new : e = i
    · simp [new]
    · rw [if_neg new] at inside ⊢
      have found := t.dot e inside
      rw [if_neg (by rintro ⟨rfl,rfl⟩; exact nomatch missing.symm.trans found)]
      exact found
  parent e inside := by
    by_cases new : e = i
    · exact ⟨d,by simp [new],by simp [directory]⟩
    · rw [if_neg new] at inside ⊢
      obtain ⟨f,found,up⟩ := t.parent e inside
      refine ⟨f,?_,by simp [up]⟩
      rw [if_neg (by rintro ⟨rfl,rfl⟩; exact nomatch missing.symm.trans found)]
      exact found

theorem grows_grow [DecidableEq ι] {n : List Char} {i : ι} (directory : t.node d = some .directory)
    (missing : t.entry d n = none) (fresh : t.node i = none) : Grows t d n i (t.grow d n i directory missing) := by
  have other : d ≠ i := by
    rintro rfl
    simp [fresh] at directory
  refine ⟨directory,missing,fresh,rfl,rfl,by simp [FileTree.grow],fun j new => by simp [FileTree.grow,new],?_,?_,?_,?_⟩
  · simp [FileTree.grow,other]
  · simp [FileTree.grow]
  · intro m dot up
    simp only [FileTree.grow,if_true,if_neg dot,if_neg up]
  · intro e m new besides
    simp only [FileTree.grow,if_neg new,if_neg besides]

theorem Grows.extends {n : List Char} {i : ι} (grows : Grows t d n i t') : Extends t t' where
  root := grows.root
  cwd := grows.cwd
  node := by
    intro j x there
    rw [grows.others j (by rintro rfl; simp [grows.fresh] at there)]
    exact there
  entry := by
    intro e m f directory found
    rw [grows.entries e m (by rintro rfl; simp [grows.fresh] at directory)
      (by rintro ⟨rfl,rfl⟩; simp [grows.missing] at found)]
    exact found

theorem Extends.walk {names : List (List Char)} (more : Extends t t') (walk : Walk t d names e) : Walk t' d names e := by
  induction walk with
  | here d => exact .here d
  | @step d e f n names directory found plain _ ih =>
    refine .step (more.node directory) (more.entry directory found) (fun target link => ?_) ih
    cases node : t.node e with
    | none => exact t.there d n e found node
    | some x =>
      rw [more.node node] at link
      exact plain target (node.trans link)
  | @follow d e f n target names directory found link nonempty _ ih =>
    refine .follow (more.node directory) (more.entry directory found) (more.node link) nonempty ?_
    rwa [FileTree.start,more.root]

theorem Extends.start (more : Extends t t') (path : List Char) : t'.start t'.cwd path = t.start t.cwd path := by
  rw [FileTree.start,FileTree.start,more.root,more.cwd]

theorem Extends.resolves {path : List Char} (more : Extends t t') (resolves : Resolves t path d) : Resolves t' path d := by
  refine ⟨resolves.1,?_,more.node resolves.2.2⟩
  rw [more.start]
  exact more.walk resolves.2.1

theorem Extends.holds {path n : List Char} (more : Extends t t') (holds : Holds t path d n) : Holds t' path d n := by
  obtain ⟨names,split,walk,directory⟩ := holds
  refine ⟨names,split,?_,more.node directory⟩
  rw [more.start]
  exact more.walk walk

/-- A new entry leads to what is there now. -/
theorem Holds.resolves {path n : List Char} (holds : Holds t path d n) (found : t.entry d n = some e)
    (directory : t.node e = some .directory) : Resolves t path e := by
  obtain ⟨names,split,walk,inside⟩ := holds
  refine ⟨?_,?_,directory⟩
  · rintro rfl
    exact absurd split (by simp)
  · rw [split]
    exact walk.append (.step inside found (fun target link => by simp [directory] at link) (.here e))

/-- The entry of a path that leads somewhere is there. -/
theorem Holds.found {path n : List Char} (holds : Holds t path d n) (resolves : Resolves t path e) : t.entry d n ≠ none := by
  obtain ⟨names,split,walk,-⟩ := holds
  have all := resolves.2.1
  rw [split] at all
  obtain ⟨f,first,last⟩ := all.split
  obtain rfl := walk.unique first
  cases last with
  | step _ found _ _ => simp [found]
  | follow _ found _ _ _ => simp [found]

end Newfile.Resolve
