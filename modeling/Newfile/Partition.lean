import Newfile.Permute

/-!
`permute` as a partition of the items of a command line, told by a scan from left
to right, and what it does to a line that it has permuted.
-/
namespace Newfile.Partition
open Newfile.Optparse Newfile.Permute

variable {optstring : Word} {longopts : List OptOption}

/-! ## Items -/

/-- An operand, or an option word with the next word where the scan takes it along. -/
inductive Item where
  | operand (w : Word)
  | option (w : Word) (arg : Option Word)
  deriving DecidableEq, Repr

namespace Item

def words : Item → List Word
  | operand w => [w]
  | option w arg => w :: arg.toList

def isOption : Item → Bool
  | operand _ => false
  | option _ _ => true

end Item

/-- The items in front of the first `--` that no option takes along, and what starts
    with that `--`. -/
inductive Scans (optstring : Word) (longopts : List OptOption) : List Word → List Item → List Word → Prop
  | nil : Scans optstring longopts [] [] []
  | dashes (ws : List Word) : Scans optstring longopts ("--".toList :: ws) [] ("--".toList :: ws)
  | operand {w : Word} {ws tail : List Word} {items : List Item} (operand : isOperand w = true)
      (rest : Scans optstring longopts ws items tail) : Scans optstring longopts (w :: ws) (.operand w :: items) tail
  /-- An option that needs no other word. -/
  | alone {w : Word} {ws tail : List Word} {items : List Item} (dashes : w ≠ "--".toList) (option : isOperand w = false)
      (needs : takes optstring longopts w = false) (rest : Scans optstring longopts ws items tail) :
      Scans optstring longopts (w :: ws) (.option w none :: items) tail
  /-- An option that needs a word at the end of the line. -/
  | last {w : Word} (dashes : w ≠ "--".toList) (option : isOperand w = false) (needs : takes optstring longopts w = true) :
      Scans optstring longopts [w] [.option w none] []
  | pair {w a : Word} {ws tail : List Word} {items : List Item} (dashes : w ≠ "--".toList) (option : isOperand w = false)
      (needs : takes optstring longopts w = true) (rest : Scans optstring longopts ws items tail) :
      Scans optstring longopts (w :: a :: ws) (.option w (some a) :: items) tail

def allWords (items : List Item) : List Word := items.flatMap Item.words

def optionWords (items : List Item) : List Word := allWords (items.filter Item.isOption)

def operandWords (items : List Item) : List Word := allWords (items.filter fun i => !i.isOption)

/-- No word is lost or read twice. -/
theorem Scans.line {ws tail : List Word} {items : List Item} (scans : Scans optstring longopts ws items tail) :
    ws = allWords items ++ tail := by
  induction scans with
  | nil => rfl
  | dashes ws => rfl
  | operand _ _ ih => rw [ih]; rfl
  | alone _ _ _ _ ih => rw [ih]; rfl
  | last _ _ _ => rfl
  | pair _ _ _ _ ih => rw [ih]; rfl

/-- What is left of a line starts with the `--`. -/
theorem Scans.tail {ws tail : List Word} {items : List Item} (scans : Scans optstring longopts ws items tail) :
    tail = [] ∨ tail.head? = some "--".toList := by
  induction scans with
  | nil => exact .inl rfl
  | dashes ws => exact .inr rfl
  | operand _ _ ih => exact ih
  | alone _ _ _ _ ih => exact ih
  | last _ _ _ => exact .inl rfl
  | pair _ _ _ _ ih => exact ih

/-- The partition that `permute` finds is the one of the items. -/
theorem Scans.parts {ws tail : List Word} {items : List Item} (scans : Scans optstring longopts ws items tail) :
    parts optstring longopts ws = ⟨optionWords items,operandWords items,tail⟩ := by
  induction scans with
  | nil => rfl
  | dashes ws => rw [parts_cons,if_pos rfl]; rfl
  | @operand w ws tail items operand rest ih =>
    have other : w ≠ "--".toList := by rintro rfl; exact absurd operand (by decide)
    rw [parts_cons,if_neg other,if_pos operand,ih]
    rfl
  | alone dashes option needs rest ih =>
    rw [parts_cons,if_neg dashes,if_neg (by simp [option]),if_neg (by simp [needs]),ih]
    rfl
  | last dashes option needs =>
    rw [parts_cons,if_neg dashes,if_neg (by simp [option]),if_pos needs]
    rfl
  | pair dashes option needs rest ih =>
    rw [parts_cons,if_neg dashes,if_neg (by simp [option]),if_pos needs]
    simp only [ih]
    rfl

theorem scans_exists (optstring : Word) (longopts : List OptOption) (ws : List Word) :
    ∃ items tail, Scans optstring longopts ws items tail := by
  induction ws using parts.induct optstring longopts with
  | case1 => exact ⟨_,_,.nil⟩
  | case2 ws => exact ⟨_,_,.dashes ws⟩
  | case3 w ws dashes operand ih =>
    obtain ⟨items,tail,rest⟩ := ih
    exact ⟨_,_,.operand operand rest⟩
  | case4 w dashes option needs => exact ⟨_,_,.last dashes (by simpa using option) needs⟩
  | case5 w dashes option needs a ws ih =>
    obtain ⟨items,tail,rest⟩ := ih
    exact ⟨_,_,.pair dashes (by simpa using option) needs rest⟩
  | case6 w ws dashes option needs ih =>
    obtain ⟨items,tail,rest⟩ := ih
    exact ⟨_,_,.alone dashes (by simpa using option) (by simpa using needs) rest⟩

/-! ## Permuting again -/

theorem parts_operands {operands : List Word} (all : ∀ o ∈ operands, isOperand o = true) :
    parts optstring longopts operands = ⟨[],operands,[]⟩ := by
  induction operands with
  | nil => rfl
  | cons o operands ih =>
    have operand := all o List.mem_cons_self
    have other : o ≠ "--".toList := by rintro rfl; exact absurd operand (by decide)
    rw [parts_cons,if_neg other,if_pos operand,ih fun w here => all w (List.mem_cons_of_mem _ here)]

/-- A line that its own partition leaves as it is. -/
def Settled (optstring : Word) (longopts : List OptOption) (ws : List Word) : Prop := (parts optstring longopts ws).words [] = ws

theorem settled_operands {operands : List Word} (all : ∀ o ∈ operands, isOperand o = true) :
    Settled optstring longopts operands := by
  rw [Settled,parts_operands all]
  simp [Parts.words]

/-- The partition of a line is settled, with operands of an earlier part in front of its own. -/
theorem words_settled : ∀ (ws earlier : List Word), (∀ o ∈ earlier, isOperand o = true) →
    Settled optstring longopts ((parts optstring longopts ws).words earlier) := by
  intro ws
  induction ws using parts.induct optstring longopts with
  | case1 =>
    intro earlier all
    simpa [parts,Parts.words] using settled_operands all
  | case2 ws =>
    intro earlier all
    have line : (parts optstring longopts ("--".toList :: ws)).words earlier = "--".toList :: (earlier ++ ws) := by
      rw [parts_cons,if_pos rfl]
      simp [Parts.words]
    rw [line,Settled,parts_cons,if_pos rfl]
    simp [Parts.words]
  | case3 w ws dashes operand ih =>
    intro earlier all
    have line : (parts optstring longopts (w :: ws)).words earlier = (parts optstring longopts ws).words (earlier ++ [w]) := by
      rw [parts_cons,if_neg dashes,if_pos operand]
      simp [Parts.words]
    rw [line]
    refine ih _ fun o here => ?_
    rcases List.mem_append.mp here with here | here
    · exact all o here
    · rw [List.mem_singleton.mp here]
      exact operand
  | case4 w dashes option needs =>
    intro earlier all
    have line : (parts optstring longopts [w]).words earlier = w :: earlier := by
      rw [parts_cons,if_neg dashes,if_neg option,if_pos needs]
      simp [Parts.words]
    rw [line,Settled,parts_cons,if_neg dashes,if_neg option,if_pos needs]
    -- The option may now take along the first of the operands that it was moved over.
    cases earlier with
    | nil => rfl
    | cons a earlier =>
      simp only [parts_operands fun o here => all o (List.mem_cons_of_mem _ here)]
      simp [Parts.words]
  | case5 w dashes option needs a ws ih =>
    intro earlier all
    have line : (parts optstring longopts (w :: a :: ws)).words earlier =
        w :: a :: (parts optstring longopts ws).words earlier := by
      rw [parts_cons,if_neg dashes,if_neg option,if_pos needs]
      rfl
    have settled := ih earlier all
    rw [line,Settled,parts_cons,if_neg dashes,if_neg option,if_pos needs]
    exact congrArg (fun rest => w :: a :: rest) settled
  | case6 w ws dashes option needs ih =>
    intro earlier all
    have line : (parts optstring longopts (w :: ws)).words earlier = w :: (parts optstring longopts ws).words earlier := by
      rw [parts_cons,if_neg dashes,if_neg option,if_neg needs]
      rfl
    have settled := ih earlier all
    rw [line,Settled,parts_cons,if_neg dashes,if_neg option,if_neg needs]
    exact congrArg (w :: ·) settled

/-- Every command line is partitioned: the options with what they take along, the first
    `--`, the operands in front of it and all that follows it, each in the order in
    which it stood. A second time changes nothing. -/
theorem permute_partition (optstring : Word) (longopts : List OptOption) (argv : List Word) :
    (∃ items tail, Scans optstring longopts argv.tail items tail) ∧
    (∀ items tail, Scans optstring longopts argv.tail items tail →
      permute argv optstring longopts = argv.take 1 ++ (optionWords items ++ tail.take 1 ++ operandWords items ++ tail.drop 1)) ∧
    (permute argv optstring longopts).Perm argv ∧
    permute (permute argv optstring longopts) optstring longopts = permute argv optstring longopts := by
  refine ⟨scans_exists optstring longopts _,?_⟩
  cases argv with
  | nil =>
    refine ⟨fun items tail scans => ?_,List.Perm.refl _,rfl⟩
    cases scans
    rfl
  | cons prog ws =>
    refine ⟨fun items tail scans => ?_,?_,?_⟩
    · have line : Scans optstring longopts ws items tail := scans
      rw [permute_parts,line.parts]
      simp [Parts.words]
    · rw [permute_parts]
      simpa using (words_perm optstring longopts ws []).cons prog
    · have settled : Settled optstring longopts ((parts optstring longopts ws).words []) := words_settled ws [] (by simp)
      rw [permute_parts,permute_parts,settled]

end Newfile.Partition
