import Newfile.Optparse

/-!
`permute` as a stable partition: three reversals rotate two adjacent blocks, and
the loop gathers the option groups of the command line in front of the first
`--`, the operands before it and all that follows it.
-/
namespace Newfile.Permute
open Newfile.Optparse

/-! ## Reversing and rotating blocks -/

private theorem swap_ends (before middle after : List Word) (x y : Word) :
    ((before ++ (x :: middle ++ [y]) ++ after).set before.length
        ((before ++ (x :: middle ++ [y]) ++ after).getD (before.length+middle.length+1) [])).set
        (before.length+middle.length+1) ((before ++ (x :: middle ++ [y]) ++ after).getD before.length []) =
      (before ++ [y]) ++ middle ++ ([x] ++ after) := by
  have first : (before ++ (x :: middle ++ [y]) ++ after).getD before.length [] = x := by simp [List.getD]
  have last : (before ++ (x :: middle ++ [y]) ++ after).getD (before.length+middle.length+1) [] = y := by
    have shape : before ++ (x :: middle ++ [y]) ++ after = (before ++ x :: middle) ++ (y :: after) := by simp
    rw [shape]
    simp [List.getD,Nat.add_assoc]
  rw [first,last]
  have shape : (before ++ (x :: middle ++ [y]) ++ after).set before.length y = (before ++ y :: middle) ++ (y :: after) := by
    simp
  rw [shape,List.set_append_right _ _ (by simp; omega)]
  simp [Nat.add_assoc]

/-- The reversal loop reverses the block between its two indices. -/
private theorem reverseLoop_block : ∀ (fuel : Nat) (before block after : List Word), block.length ≤ fuel →
    reverseLoop fuel (before ++ block ++ after) before.length (before.length+block.length-1) =
      before ++ block.reverse ++ after := by
  intro fuel
  induction fuel with
  | zero =>
    intro before block after small
    have : block = [] := List.length_eq_zero_iff.mp (by omega)
    simp [this,reverseLoop]
  | succ fuel ih =>
    intro before block after small
    rw [reverseLoop]
    by_cases short : block.length ≤ 1
    · rw [if_neg (by omega)]
      match block,short with
      | [],_ => rfl
      | [x],_ => rfl
    · rw [if_pos (by omega)]
      obtain ⟨x,rest,rfl⟩ : ∃ x rest, block = x :: rest := List.exists_cons_of_ne_nil (by rintro rfl; simp at short)
      have nonempty : rest ≠ [] := by rintro rfl; simp at short
      obtain ⟨middle,y,rfl⟩ : ∃ middle y, rest = middle ++ [y] :=
        ⟨rest.dropLast,rest.getLast nonempty,(List.dropLast_append_getLast nonempty).symm⟩
      have last : before.length+(x :: (middle ++ [y])).length-1 = before.length+middle.length+1 := by simp; omega
      rw [last]
      simp only [← List.cons_append]
      rw [swap_ends,show before.length+1 = (before ++ [y]).length by simp,
        show before.length+middle.length+1-1 = (before ++ [y]).length+middle.length-1 by simp,
        ih (before ++ [y]) middle ([x] ++ after) (by simp at small; omega)]
      simp

theorem reverse_block (before block after : List Word) :
    reverse (before ++ block ++ after) before.length (before.length+block.length) = before ++ block.reverse ++ after :=
  reverseLoop_block _ before block after (by simp; omega)

/-- `rotate` exchanges two adjacent blocks. -/
theorem rotate_blocks (before left right after : List Word) :
    rotate (before ++ left ++ right ++ after) before.length (before.length+left.length)
      (before.length+left.length+right.length) = before ++ right ++ left ++ after := by
  have one : reverse (before ++ left ++ right ++ after) before.length (before.length+left.length) =
      before ++ left.reverse ++ right ++ after := by
    simpa using reverse_block before left (right ++ after)
  have two : reverse (before ++ left.reverse ++ right ++ after) (before.length+left.length)
      (before.length+left.length+right.length) = before ++ left.reverse ++ right.reverse ++ after := by
    simpa using reverse_block (before ++ left.reverse) right after
  have three := reverse_block before (left.reverse ++ right.reverse) after
  rw [rotate,one,two]
  simpa [Nat.add_assoc] using three

/-! ## The partition -/

/-- The lookahead of `permute`: the word is an option whose argument is the next word. -/
def takes (optstring : Word) (longopts : List OptOption) (w : Word) : Bool :=
  if w[1]? = some '-' then long_takes_arg (w.drop 2) longopts else cluster_takes_arg (w.drop 1) optstring

/-- The words after the program's name: the option groups, the operands in front
    of the first `--` that is no argument, and what starts with that `--`. -/
structure Parts where
  groups : List Word
  operands : List Word
  tail : List Word

/-- The partition that the scan of `permute` finds. -/
def parts (optstring : Word) (longopts : List OptOption) : List Word → Parts
  | [] => ⟨[],[],[]⟩
  | w :: ws =>
    if w = "--".toList then ⟨[],[],w :: ws⟩
    else if isOperand w then
      let p := parts optstring longopts ws
      ⟨p.groups,w :: p.operands,p.tail⟩
    else if takes optstring longopts w then
      match ws with
      | [] => ⟨[w],[],[]⟩
      | a :: ws =>
        let p := parts optstring longopts ws
        ⟨w :: a :: p.groups,p.operands,p.tail⟩
    else
      let p := parts optstring longopts ws
      ⟨w :: p.groups,p.operands,p.tail⟩

theorem parts_cons (optstring : Word) (longopts : List OptOption) (w : Word) (ws : List Word) :
    parts optstring longopts (w :: ws) =
      if w = "--".toList then ⟨[],[],w :: ws⟩
      else if isOperand w then
        ⟨(parts optstring longopts ws).groups,w :: (parts optstring longopts ws).operands,
          (parts optstring longopts ws).tail⟩
      else if takes optstring longopts w then
        match ws with
        | [] => ⟨[w],[],[]⟩
        | a :: ws => ⟨w :: a :: (parts optstring longopts ws).groups,(parts optstring longopts ws).operands,
            (parts optstring longopts ws).tail⟩
      else ⟨w :: (parts optstring longopts ws).groups,(parts optstring longopts ws).operands,
        (parts optstring longopts ws).tail⟩ := by
  cases ws <;> rfl

/-- The partition written out: `--` goes between the options and the operands. -/
def Parts.words (p : Parts) (earlier : List Word) : List Word :=
  p.groups ++ p.tail.take 1 ++ (earlier ++ p.operands) ++ p.tail.drop 1

variable (optstring : Word) (longopts : List OptOption)

theorem Parts.words_group (w : Word) (p : Parts) (earlier : List Word) :
    (⟨w :: p.groups,p.operands,p.tail⟩ : Parts).words earlier = w :: p.words earlier := rfl

/-- The partition loses and doubles no word. -/
theorem words_perm : ∀ (ws earlier : List Word), ((parts optstring longopts ws).words earlier).Perm (earlier ++ ws) := by
  intro ws
  induction ws using parts.induct optstring longopts with
  | case1 => intro earlier; simp [parts,Parts.words]
  | case2 ws =>
    intro earlier
    rw [parts_cons,if_pos rfl]
    simp only [Parts.words,List.take_succ_cons,List.take_zero,List.drop_succ_cons,List.drop_zero,List.nil_append,
      List.append_nil,List.cons_append]
    exact List.perm_middle.symm
  | case3 w ws dashes operand ih =>
    intro earlier
    rw [parts_cons,if_neg dashes,if_pos operand]
    simpa [Parts.words] using ih (earlier ++ [w])
  | case4 w dashes operand takes =>
    intro earlier
    rw [parts_cons,if_neg dashes,if_neg operand,if_pos takes]
    simpa [Parts.words] using (List.perm_append_singleton w earlier).symm
  | case5 w dashes operand takes a ws ih =>
    intro earlier
    rw [parts_cons,if_neg dashes,if_neg operand,if_pos takes]
    refine List.Perm.trans (((ih earlier).cons a).cons w) ?_
    simpa using (@List.perm_append_comm _ [w,a] earlier).append_right ws
  | case6 w ws dashes operand takes ih =>
    intro earlier
    rw [parts_cons,if_neg dashes,if_neg operand,if_neg takes]
    exact ((ih earlier).cons w).trans List.perm_middle.symm

private theorem getD_next (front : List Word) (w : Word) (ws : List Word) : (front ++ w :: ws).getD front.length [] = w := by
  simp [List.getD]

/-- The loop of `permute` with the options of `front` and the operands of
    `earlier` behind it. -/
private theorem permuteLoop_parts : ∀ (fuel : Nat) (front earlier ws argv : List Word) (stop i : Nat),
    argv = front ++ earlier ++ ws → stop = front.length → i = (front ++ earlier).length → ws.length ≤ fuel →
      permuteLoop optstring longopts fuel argv stop i = front ++ (parts optstring longopts ws).words earlier := by
  intro fuel
  induction fuel with
  | zero =>
    rintro front earlier ws argv stop i rfl - - small
    have : ws = [] := List.length_eq_zero_iff.mp (by omega)
    simp [this,permuteLoop,parts,Parts.words]
  | succ fuel ih =>
    rintro front earlier ws argv stop i rfl rfl rfl small
    cases ws with
    | nil => simp [permuteLoop,parts,Parts.words]
    | cons w ws =>
      have inside : (front ++ earlier).length < (front ++ earlier ++ w :: ws).length := by simp
      rw [permuteLoop,if_pos inside,getD_next]
      -- The rotation carries one or two words over the operands behind them.
      have move : ∀ (group rest : List Word) (last : Nat), last = (front ++ earlier).length+group.length →
          rotate (front ++ earlier ++ (group ++ rest)) front.length (front ++ earlier).length last =
            (front ++ group) ++ earlier ++ rest := by
        rintro group rest last rfl
        simpa using rotate_blocks front earlier group rest
      have moveOne := move [w] ws ((front ++ earlier).length+1) rfl
      simp only [List.cons_append,List.nil_append] at moveOne
      have small' : ws.length ≤ fuel := by simpa using small
      rw [parts_cons]
      by_cases dashes : w = "--".toList
      · simp only [dashes,↓reduceIte]
        rw [← dashes,moveOne]
        simp [Parts.words]
      · simp only [dashes,↓reduceIte]
        by_cases operand : isOperand w = true
        · simp only [operand,↓reduceIte]
          rw [ih front (earlier ++ [w]) ws _ _ _ (by simp) rfl (by simp; omega) small']
          simp [Parts.words]
        · simp only [operand,Bool.false_eq_true,↓reduceIte]
          set next := if takes optstring longopts w && decide ((front ++ earlier).length+1 <
            (front ++ earlier ++ w :: ws).length) then (front ++ earlier).length+1+1 else (front ++ earlier).length+1
            with nextIs
          change permuteLoop optstring longopts fuel (rotate _ _ _ next) (_+(next-_)) next = _
          by_cases takesNext : takes optstring longopts w = true
          · cases ws with
            | nil =>
              have one : next = (front ++ earlier).length+1 := by simp [nextIs]; omega
              simp only [takesNext,↓reduceIte]
              rw [one,moveOne,ih (front ++ [w]) earlier [] _ _ _ (by simp) (by simp) (by simp; omega) (by simp)]
              simp [Parts.words,parts]
            | cons a ws =>
              have two : next = (front ++ earlier).length+1+1 := by simp [nextIs,takesNext]; omega
              have moveTwo := move [w,a] ws ((front ++ earlier).length+1+1) (by simp)
              simp only [List.cons_append,List.nil_append] at moveTwo
              simp only [takesNext,↓reduceIte]
              rw [two,moveTwo,ih (front ++ [w,a]) earlier ws _ _ _ (by simp) (by simp; omega) (by simp; omega)
                (by simp at small'; omega)]
              simp [Parts.words]
          · have one : next = (front ++ earlier).length+1 := by simp [nextIs,takesNext]
            simp only [takesNext,Bool.false_eq_true,↓reduceIte]
            rw [one,moveOne,ih (front ++ [w]) earlier ws _ _ _ (by simp) (by simp) (by simp; omega) small']
            simp [Parts.words]

/-- `permute` leaves the program's name in place and writes out the partition of
    the words after it. -/
theorem permute_parts (prog : Word) (ws : List Word) :
    permute (prog :: ws) optstring longopts = prog :: (parts optstring longopts ws).words [] := by
  simpa [permute] using permuteLoop_parts optstring longopts _ [prog] [] ws (prog :: ws) 1 1 rfl rfl rfl (by simp)

end Newfile.Permute
