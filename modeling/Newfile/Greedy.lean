import Mathlib.Data.List.Chain

/-!
Greedy filling: items are put on a line as long as the next one fits, and on a new
line where it does not.
-/
namespace Newfile.Greedy

variable {α : Type} {fits : List α → α → Bool} {line : List α} {xs : List α}

/-- The lines of some items behind those of a line that has been begun. -/
def fill (fits : List α → α → Bool) : List α → List α → List (List α)
  | line, [] => [line]
  | line, x :: xs => if fits line x then fill fits (line ++ [x]) xs else line :: fill fits [x] xs

theorem fill_flatten (line xs : List α) : (fill fits line xs).flatten = line ++ xs := by
  induction xs generalizing line with
  | nil => simp [fill]
  | cons x xs ih =>
    rw [fill]
    split
    · simp [ih]
    · simp [ih]

/-- What holds of one item alone and of a line with an item that fits holds of every line. -/
theorem fill_all {P : List α → Prop} (single : ∀ x, P [x])
    (grown : ∀ line x, P line → fits line x = true → P (line ++ [x])) (now : P line) : ∀ l ∈ fill fits line xs, P l := by
  induction xs generalizing line with
  | nil => simpa [fill] using now
  | cons x xs ih =>
    rw [fill]
    split
    · rename_i fine
      exact ih (grown line x now fine)
    · intro l here
      rcases List.mem_cons.mp here with rfl | here
      · exact now
      · exact ih (single x) l here

/-- The first line starts with what it was begun with. -/
theorem fill_head (line xs : List α) : ∃ more lines, fill fits line xs = (line ++ more) :: lines := by
  induction xs generalizing line with
  | nil => exact ⟨[],[],by simp [fill]⟩
  | cons x xs ih =>
    rw [fill]
    split
    · obtain ⟨more,lines,found⟩ := ih (line ++ [x])
      exact ⟨x :: more,lines,by rw [found]; simp⟩
    · exact ⟨[],_,by rw [List.append_nil]⟩

/-- A line ends in front of an item that does not fit. -/
theorem fill_breaks (line xs : List α) :
    (fill fits line xs).IsChain fun l next => ∃ x rest, next = x :: rest ∧ fits l x = false := by
  induction xs generalizing line with
  | nil => simp [fill]
  | cons x xs ih =>
    rw [fill]
    split
    · exact ih (line ++ [x])
    · rename_i full
      obtain ⟨more,lines,found⟩ : ∃ more lines, fill fits [x] xs = ([x] ++ more) :: lines := fill_head [x] xs
      have later := ih [x]
      rw [found] at later ⊢
      exact later.cons_cons ⟨x,more,rfl,by simpa using full⟩

end Newfile.Greedy
