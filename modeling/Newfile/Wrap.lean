import Mathlib
import Newfile.Greedy

/-!
`put_wrapped` of `options.c`: the words of a text on lines of a width, with an indent
on every line but the first.
-/
namespace Newfile.Wrap
open Newfile.Greedy (fill fill_flatten fill_all fill_breaks)

abbrev Text := List Char
abbrev size_t := BitVec 64

/-! ## The code -/

/-- The loop of `put_wrapped`: what it prints, in so many rounds at most. -/
def wrapLoop (indent width : size_t) : Nat → Text → size_t → Text
  | 0, _, _ => []
  | rounds+1, text, col =>
    if text = [] then []
    else
      let gap := (text.takeWhile (· == ' ')).length
      let text := text.dropWhile (· == ' ')
      if text = [] then []
      else
        let word := text.takeWhile (· != ' ')
        let text := text.dropWhile (· != ' ')
        let len := word.length
        if indent < col then
          if width < col+BitVec.ofNat 64 gap+BitVec.ofNat 64 len then
            '\n' :: List.replicate indent.toNat ' ' ++ word ++ wrapLoop indent width rounds text (indent+BitVec.ofNat 64 len)
          else
            List.replicate gap ' ' ++ word ++ wrapLoop indent width rounds text (col+BitVec.ofNat 64 gap+BitVec.ofNat 64 len)
        else word ++ wrapLoop indent width rounds text (col+BitVec.ofNat 64 len)

/-- Each round takes a character at least. -/
def put_wrapped (text : Text) (indent col width : size_t) : Text := wrapLoop indent width text.length text col ++ ['\n']

/-! ## Texts -/

/-- A word with the number of blanks in front of it. -/
structure Piece where
  gap : Nat
  word : Text
  deriving DecidableEq, Repr

def Piece.text (p : Piece) : Text := List.replicate p.gap ' ' ++ p.word

/-- Pieces and blanks behind them. -/
def joined (pieces : List Piece) (trail : Nat) : Text := pieces.flatMap Piece.text ++ List.replicate trail ' '

/-- The pieces of a text: its words are its maximal runs of characters other than blanks. -/
structure Pieces (text : Text) (pieces : List Piece) (trail : Nat) : Prop where
  text : text = joined pieces trail
  words : ∀ p ∈ pieces, p.word ≠ [] ∧ ' ' ∉ p.word
  gaps : ∀ p ∈ pieces.tail, 0 < p.gap

/-- The text taken apart, from its end on. -/
def pieces : Text → List Piece
  | [] => []
  | c :: text =>
    if c = ' ' then
      match pieces text with
      | [] => []
      | p :: ps => { p with gap := p.gap+1 } :: ps
    else
      match pieces text with
      | [] => [⟨0,[c]⟩]
      | p :: ps => if p.gap = 0 then { p with word := c :: p.word } :: ps else ⟨0,[c]⟩ :: p :: ps

/-- What stands on a line behind its indent: no blanks in front of the first word. -/
def lineText : List Piece → Text
  | [] => []
  | p :: ps => p.word ++ ps.flatMap Piece.text

/-- The printed lines. -/
def printed (indent : Nat) : List (List Piece) → List Text
  | [] => []
  | l :: ls => lineText l :: ls.map fun l => List.replicate indent ' ' ++ lineText l

/-- The lines, each but the last ended by a newline. -/
def page (indent : Nat) (lines : List (List Piece)) : Text := List.intercalate ['\n'] (printed indent lines)

/-- Where a line with an indent ends. -/
def columns (indent : Nat) (line : List Piece) : Nat := indent+(lineText line).length

/-- There is room for one more piece. -/
def fits (indent width : Nat) (line : List Piece) (p : Piece) : Bool := columns indent line+p.gap+p.word.length ≤ width

/-- The pieces of a text on lines, as full as they may be. -/
def lines (indent width : Nat) : List Piece → List (List Piece)
  | [] => []
  | p :: ps => fill (fits indent width) [p] ps

theorem lineText_append {line : List Piece} (nonempty : line ≠ []) (p : Piece) : lineText (line ++ [p]) = lineText line ++ p.text := by
  cases line with
  | nil => exact absurd rfl nonempty
  | cons q qs => simp [lineText]

theorem intercalate_append (front x : Text) (xs : List Text) :
    List.intercalate ['\n'] ((front ++ x) :: xs) = front ++ List.intercalate ['\n'] (x :: xs) := by
  cases xs with
  | nil => simp
  | cons y ys => simp [List.intercalate_cons_cons]

theorem page_cons_cons (indent : Nat) (l m : List Piece) (ls : List (List Piece)) :
    page indent (l :: m :: ls) = lineText l ++ ('\n' :: List.replicate indent ' ' ++ page indent (m :: ls)) := by
  rw [page,printed,List.map_cons,List.intercalate_cons_cons,intercalate_append,page,printed]
  simp

/-! ## The loop fills the lines -/

/-- Blanks that are followed by a word, and the word by a blank or the end. -/
theorem joined_cons (p : Piece) (ps : List Piece) (trail : Nat) :
    joined (p :: ps) trail = List.replicate p.gap ' ' ++ (p.word ++ joined ps trail) := by
  simp [joined,Piece.text]

theorem joined_blank {ps : List Piece} (gaps : ∀ p ∈ ps, 0 < p.gap) (trail : Nat) :
    joined ps trail = [] ∨ ∃ rest, joined ps trail = ' ' :: rest := by
  cases ps with
  | nil =>
    cases trail with
    | zero => exact .inl rfl
    | succ trail => exact .inr ⟨List.replicate trail ' ',by simp [joined,List.replicate_succ]⟩
  | cons p ps =>
    obtain ⟨gap,more⟩ : ∃ gap, p.gap = gap+1 := Nat.exists_eq_add_of_lt (gaps p List.mem_cons_self) |>.imp fun _ h => by omega
    exact .inr ⟨_,by rw [joined_cons,more,List.replicate_succ]; rfl⟩

theorem split_gap (gap : Nat) {word : Text} (rest : Text) (nonempty : word ≠ []) (other : ' ' ∉ word) :
    (List.replicate gap ' ' ++ (word ++ rest)).takeWhile (· == ' ') = List.replicate gap ' ' ∧
      (List.replicate gap ' ' ++ (word ++ rest)).dropWhile (· == ' ') = word ++ rest := by
  have blanks : ∀ c ∈ List.replicate gap ' ', (c == ' ') = true := fun c here => by rw [List.eq_of_mem_replicate here]; rfl
  obtain ⟨c,tail,rfl⟩ := List.exists_cons_of_ne_nil nonempty
  have first : (c == ' ') = false := by
    have away : ¬ ' ' = c := fun same => other (by rw [same]; exact List.mem_cons_self)
    simpa using Ne.symm away
  rw [List.takeWhile_append_of_pos blanks,List.dropWhile_append_of_pos blanks,List.cons_append,List.takeWhile_cons,List.dropWhile_cons]
  simp [first]

theorem split_word {word rest : Text} (other : ' ' ∉ word) (blank : rest = [] ∨ ∃ more, rest = ' ' :: more) :
    (word ++ rest).takeWhile (· != ' ') = word ∧ (word ++ rest).dropWhile (· != ' ') = rest := by
  have chars : ∀ c ∈ word, (c != ' ') = true := fun c here => by
    have away : c ≠ ' ' := fun same => other (by rw [← same]; exact here)
    simpa using away
  rw [List.takeWhile_append_of_pos chars,List.dropWhile_append_of_pos chars]
  rcases blank with rfl | ⟨more,rfl⟩
  · simp
  · simp

/-- One round of the loop on a piece. -/
theorem wrapLoop_piece (indent width col : size_t) (rounds : Nat) {p : Piece} {ps : List Piece} (trail : Nat)
    (word : p.word ≠ [] ∧ ' ' ∉ p.word) (gaps : ∀ p ∈ ps, 0 < p.gap) :
    wrapLoop indent width (rounds+1) (joined (p :: ps) trail) col =
      if indent < col then
        if width < col+BitVec.ofNat 64 p.gap+BitVec.ofNat 64 p.word.length then
          '\n' :: List.replicate indent.toNat ' ' ++ p.word ++
            wrapLoop indent width rounds (joined ps trail) (indent+BitVec.ofNat 64 p.word.length)
        else
          List.replicate p.gap ' ' ++ p.word ++
            wrapLoop indent width rounds (joined ps trail) (col+BitVec.ofNat 64 p.gap+BitVec.ofNat 64 p.word.length)
      else p.word ++ wrapLoop indent width rounds (joined ps trail) (col+BitVec.ofNat 64 p.word.length) := by
  obtain ⟨filled,other⟩ := word
  obtain ⟨taken,left⟩ := split_gap p.gap (joined ps trail) filled other
  obtain ⟨taken',left'⟩ := split_word other (joined_blank gaps trail)
  have nonempty : p.word ++ joined ps trail ≠ [] := by simp [filled]
  have nonempty' : List.replicate p.gap ' ' ++ (p.word ++ joined ps trail) ≠ [] := by simp [filled]
  rw [joined_cons,wrapLoop,if_neg nonempty',taken,left,if_neg nonempty,taken',left',List.length_replicate]

theorem wrapLoop_blank (indent width col : size_t) (rounds trail : Nat) : wrapLoop indent width rounds (joined [] trail) col = [] := by
  cases rounds with
  | zero => rfl
  | succ rounds =>
    have empty : (joined [] trail).dropWhile (· == ' ') = [] :=
      List.dropWhile_eq_nil_iff.mpr fun c here => by
        have blank : c ∈ List.replicate trail ' ' := by simpa [joined] using here
        rw [List.eq_of_mem_replicate blank]
        rfl
    rw [wrapLoop,empty]
    split <;> rfl

theorem toNat_add {col : size_t} {n : Nat} (room : col.toNat+n < 2^64) : (col+BitVec.ofNat 64 n).toNat = col.toNat+n := by
  rw [BitVec.toNat_add,BitVec.toNat_ofNat]
  omega

theorem columns_append (indent : Nat) {line : List Piece} (nonempty : line ≠ []) (p : Piece) :
    columns indent (line ++ [p]) = columns indent line+p.gap+p.word.length := by
  rw [columns,lineText_append nonempty,columns,Piece.text]
  simp only [List.length_append,List.length_replicate]
  omega

theorem joined_length (p : Piece) (ps : List Piece) (trail : Nat) :
    (joined (p :: ps) trail).length = p.gap+p.word.length+(joined ps trail).length := by
  rw [joined_cons]
  simp only [List.length_append,List.length_replicate]
  omega

/-- The rest of the loop, on a line that has been begun: it fills this line and the next ones. -/
theorem wrapLoop_fill (indent width : size_t) (trail : Nat) : ∀ (ps line : List Piece) (rounds : Nat) (col : size_t), line ≠ [] →
    (∀ p ∈ ps, p.word ≠ [] ∧ ' ' ∉ p.word) → (∀ p ∈ ps, 0 < p.gap) → (joined ps trail).length ≤ rounds →
    indent.toNat < col.toNat → col.toNat = columns indent.toNat line → col.toNat+(joined ps trail).length < 2^64 →
      lineText line ++ wrapLoop indent width rounds (joined ps trail) col =
        page indent.toNat (fill (fits indent.toNat width.toNat) line ps) := by
  intro ps
  induction ps with
  | nil =>
    intro line rounds col _ _ _ _ _ _ _
    rw [wrapLoop_blank,List.append_nil]
    simp [fill,page,printed]
  | cons p ps ih =>
    intro line rounds col nonempty words gaps enough behind place room
    have word := words p List.mem_cons_self
    have length := List.length_pos_of_ne_nil word.1
    rw [joined_length] at enough room
    obtain ⟨rounds,rfl⟩ : ∃ r, rounds = r+1 := ⟨rounds-1,by omega⟩
    have words : ∀ q ∈ ps, q.word ≠ [] ∧ ' ' ∉ q.word := fun q here => words q (List.mem_cons_of_mem _ here)
    have gaps : ∀ q ∈ ps, 0 < q.gap := fun q here => gaps q (List.mem_cons_of_mem _ here)
    have gap : (col+BitVec.ofNat 64 p.gap).toNat = col.toNat+p.gap := toNat_add (by omega)
    have next : (col+BitVec.ofNat 64 p.gap+BitVec.ofNat 64 p.word.length).toNat = col.toNat+p.gap+p.word.length := by
      rw [toNat_add (by omega),gap]
    have after : indent < col := behind
    rw [wrapLoop_piece _ _ _ _ _ word gaps,if_pos after,fill]
    by_cases full : width < col+BitVec.ofNat 64 p.gap+BitVec.ofNat 64 p.word.length
    · have more : width.toNat < col.toNat+p.gap+p.word.length := by rw [← next]; exact full
      have wide : fits indent.toNat width.toNat line p = false := by
        rw [fits,← place]
        simpa using more
      have start : (indent+BitVec.ofNat 64 p.word.length).toNat = indent.toNat+p.word.length := toNat_add (by omega)
      have rest := ih [p] rounds (indent+BitVec.ofNat 64 p.word.length) (List.cons_ne_nil _ _) words gaps (by omega)
        (by omega) (by rw [start,columns]; simp [lineText]) (by omega)
      obtain ⟨more,others,found⟩ : ∃ more others, fill (fits indent.toNat width.toNat) [p] ps = ([p] ++ more) :: others :=
        Greedy.fill_head [p] ps
      have alone : lineText [p] = p.word := by simp [lineText]
      rw [found,alone] at rest
      rw [if_pos full,wide,if_neg (by decide),found,page_cons_cons,← rest]
      simp only [List.append_assoc,List.cons_append]
    · have most : ¬ width.toNat < col.toNat+p.gap+p.word.length := by rw [← next]; exact full
      have room_ : fits indent.toNat width.toNat line p = true := by
        rw [fits,← place]
        simpa using most
      have rest := ih (line ++ [p]) rounds (col+BitVec.ofNat 64 p.gap+BitVec.ofNat 64 p.word.length) (by simp) words gaps (by omega)
        (by omega) (by rw [next,columns_append _ nonempty,place]) (by omega)
      rw [if_neg full,room_,if_pos rfl,← rest,lineText_append nonempty,Piece.text]
      simp only [List.append_assoc]

/-- What is printed are the lines that the pieces fill. -/
theorem put_wrapped_page {text : Text} {pieces : List Piece} {trail : Nat} (split : Pieces text pieces trail) (indent width : size_t)
    (room : indent.toNat+text.length < 2^64) :
    put_wrapped text indent indent width = page indent.toNat (lines indent.toNat width.toNat pieces) ++ ['\n'] := by
  obtain ⟨rfl,words,gaps⟩ := split
  rw [put_wrapped]
  congr 1
  cases pieces with
  | nil =>
    rw [wrapLoop_blank]
    rfl
  | cons p ps =>
    have word := words p List.mem_cons_self
    have length := List.length_pos_of_ne_nil word.1
    have gaps : ∀ q ∈ ps, 0 < q.gap := gaps
    rw [joined_length] at room
    have start : (indent+BitVec.ofNat 64 p.word.length).toNat = indent.toNat+p.word.length := toNat_add (by omega)
    obtain ⟨rounds,enough⟩ : ∃ r, (joined (p :: ps) trail).length = r+1 := ⟨(joined (p :: ps) trail).length-1,by
      rw [joined_length]
      omega⟩
    have small := enough
    rw [joined_length] at small
    rw [enough,wrapLoop_piece _ _ _ _ _ word gaps,if_neg (BitVec.lt_irrefl _)]
    have rest := wrapLoop_fill indent width trail ps [p] rounds (indent+BitVec.ofNat 64 p.word.length) (List.cons_ne_nil _ _)
      (fun q here => words q (List.mem_cons_of_mem _ here)) gaps (by omega) (by omega) (by rw [start,columns]; simp [lineText])
      (by omega)
    rw [lines,← rest]
    simp [lineText]

/-! ## What is printed -/

theorem pieces_spec (text : Text) : ∃ trail, Pieces text (pieces text) trail := by
  induction text with
  | nil => exact ⟨0,rfl,by simp [pieces],by simp [pieces]⟩
  | cons c text ih =>
    obtain ⟨trail,shape,words,gaps⟩ := ih
    rw [pieces]
    by_cases blank : c = ' '
    · subst blank
      rw [if_pos rfl]
      cases found : pieces text with
      | nil =>
        rw [found] at shape
        exact ⟨trail+1,by rw [shape]; simp [joined,List.replicate_succ],by simp,by simp⟩
      | cons p ps =>
        rw [found] at shape words gaps
        refine ⟨trail,?_,fun q here => ?_,gaps⟩
        · rw [shape,joined_cons,joined_cons]
          simp [List.replicate_succ]
        · rcases List.mem_cons.mp here with rfl | here
          · exact words p List.mem_cons_self
          · exact words q (List.mem_cons_of_mem _ here)
    · have single : [c] ≠ [] ∧ ' ' ∉ [c] := by simpa using Ne.symm blank
      rw [if_neg blank]
      cases found : pieces text with
      | nil =>
        rw [found] at shape
        refine ⟨trail,by rw [shape]; simp [joined,Piece.text],fun q here => ?_,by simp⟩
        rw [List.mem_singleton.mp here]
        exact single
      | cons p ps =>
        rw [found] at shape words gaps
        dsimp only
        split
        · rename_i zero
          refine ⟨trail,?_,fun q here => ?_,gaps⟩
          · rw [shape,joined_cons,joined_cons]
            simp [zero]
          · rcases List.mem_cons.mp here with rfl | here
            · have word := words p List.mem_cons_self
              exact ⟨List.cons_ne_nil _ _,by simpa using ⟨Ne.symm blank,word.2⟩⟩
            · exact words q (List.mem_cons_of_mem _ here)
        · rename_i nonzero
          refine ⟨trail,?_,fun q here => ?_,fun q here => ?_⟩
          · rw [shape]
            simp [joined,Piece.text]
          · rcases List.mem_cons.mp here with rfl | here
            · exact single
            · exact words q here
          · rcases List.mem_cons.mp here with rfl | here
            · exact Nat.pos_of_ne_zero nonzero
            · exact gaps q here

/-- Text on lines that hold its words in order: each line within the width or with one
    word, and none ended where the next word would have fitted. -/
structure Wrapped (pieces : List Piece) (indent width : Nat) (lines : List (List Piece)) (out : Text) : Prop where
  out : out = page indent lines ++ ['\n']
  words : lines.flatten = pieces
  nonempty : ∀ l ∈ lines, l ≠ []
  fit : ∀ l ∈ lines, columns indent l ≤ width ∨ l.length = 1
  full : lines.IsChain fun l next => ∃ p rest, next = p :: rest ∧ width < columns indent l+p.gap+p.word.length

/-- Lines filled with pieces, whatever the widths. -/
theorem lines_wrapped (indent width : Nat) (pieces : List Piece) :
    Wrapped pieces indent width (lines indent width pieces) (page indent (lines indent width pieces) ++ ['\n']) := by
  cases pieces with
  | nil => exact ⟨rfl,rfl,by simp [lines],by simp [lines],List.isChain_nil⟩
  | cons p ps =>
    refine ⟨rfl,fill_flatten [p] ps,?_,?_,?_⟩
    · exact fill_all (P := fun l => l ≠ []) (fun _ => List.cons_ne_nil _ _) (fun _ _ _ _ => by simp) (List.cons_ne_nil _ _)
    · have within : ∀ l ∈ lines indent width (p :: ps), l ≠ [] ∧ (columns indent l ≤ width ∨ l.length = 1) := by
        refine fill_all (P := fun l => l ≠ [] ∧ (columns indent l ≤ width ∨ l.length = 1)) (fun _ => ⟨List.cons_ne_nil _ _,.inr rfl⟩)
          (fun line x before room => ⟨by simp,.inl ?_⟩) ⟨List.cons_ne_nil _ _,.inr rfl⟩
        rw [columns_append _ before.1]
        simpa [fits] using room
      exact fun l here => (within l here).2
    · refine (fill_breaks [p] ps).imp fun l next found => ?_
      obtain ⟨q,rest,rfl,wide⟩ := found
      exact ⟨q,rest,rfl,by simpa [fits] using wide⟩

/-- The printed lines can be read off what is printed, when there is no newline in the text. -/
theorem page_lines {indent : Nat} {lines : List (List Piece)} (nonempty : lines ≠ []) (single : ∀ l ∈ lines, ∀ p ∈ l, '\n' ∉ p.word) :
    (page indent lines).splitOn '\n' = printed indent lines := by
  have blanks : ∀ n, '\n' ∉ List.replicate n ' ' := fun n here => absurd (List.eq_of_mem_replicate here) (by decide)
  have line : ∀ l ∈ lines, '\n' ∉ lineText l := by
    intro l here
    cases l with
    | nil => exact List.not_mem_nil
    | cons p ps =>
      intro wrong
      rcases List.mem_append.mp wrong with wrong | wrong
      · exact single _ here p List.mem_cons_self wrong
      · obtain ⟨q,inside,wrong⟩ := List.mem_flatMap.mp wrong
        rcases List.mem_append.mp wrong with wrong | wrong
        · exact blanks _ wrong
        · exact single _ here q (List.mem_cons_of_mem _ inside) wrong
  refine List.splitOn_intercalate _ (fun l here => ?_) ?_
  · cases lines with
    | nil => exact absurd rfl nonempty
    | cons m ls =>
      rcases List.mem_cons.mp here with rfl | here
      · exact line m List.mem_cons_self
      · obtain ⟨l',inside,rfl⟩ := List.mem_map.mp here
        simp only [List.mem_append,not_or]
        exact ⟨blanks _,line l' (List.mem_cons_of_mem _ inside)⟩
  · cases lines with
    | nil => exact absurd rfl nonempty
    | cons m ls => exact List.cons_ne_nil _ _

/-- A text without a newline that has a word is printed on the lines that it is wrapped to. -/
theorem Wrapped.read {text out : Text} {pieces : List Piece} {trail indent width : Nat} {lines : List (List Piece)}
    (wrapped : Wrapped pieces indent width lines out) (split : Pieces text pieces trail) (nonempty : pieces ≠ [])
    (single : '\n' ∉ text) : out.dropLast.splitOn '\n' = printed indent lines := by
  rw [wrapped.out,List.dropLast_concat]
  refine page_lines (fun empty => ?_) fun l here p inside wrong => single ?_
  · have words := wrapped.words
    rw [empty] at words
    exact nonempty words.symm
  · have member : p ∈ pieces := by
      rw [← wrapped.words]
      exact List.mem_flatten.mpr ⟨l,here,inside⟩
    rw [split.text]
    exact List.mem_append_left _ (List.mem_flatMap.mpr ⟨p,member,List.mem_append_right _ wrong⟩)

/-- Every text is made of words and blanks, and is printed on lines that are as full as
    they may be, as long as no column is counted past the end of `size_t`. Without a newline
    in the text the lines can be read off what is printed. -/
theorem put_wrapped_lines (text : Text) (indent width : size_t) (room : indent.toNat+text.length < 2^64) :
    (∃ pieces trail, Pieces text pieces trail) ∧
    ∀ pieces trail, Pieces text pieces trail →
      ∃ lines, Wrapped pieces indent.toNat width.toNat lines (put_wrapped text indent indent width) ∧
        (pieces ≠ [] → '\n' ∉ text →
          (put_wrapped text indent indent width).dropLast.splitOn '\n' = printed indent.toNat lines) := by
  refine ⟨⟨_,pieces_spec text⟩,fun pieces trail split => ⟨lines indent.toNat width.toNat pieces,?_⟩⟩
  have wrapped : Wrapped pieces indent.toNat width.toNat (lines indent.toNat width.toNat pieces)
      (put_wrapped text indent indent width) := by
    rw [put_wrapped_page split indent width room]
    exact lines_wrapped _ _ _
  exact ⟨wrapped,wrapped.read split⟩

/-- Two words on two lines. -/
theorem put_wrapped_lines_sample :
    ∃ lines, Wrapped [⟨0,"ab".toList⟩,⟨2,"cd".toList⟩] 3 6 lines (put_wrapped "ab  cd".toList 3 3 6) ∧
      (put_wrapped "ab  cd".toList 3 3 6).dropLast.splitOn '\n' = printed 3 lines := by
  obtain ⟨lines,wrapped,read⟩ := (put_wrapped_lines "ab  cd".toList 3 6 (by decide)).2 [⟨0,"ab".toList⟩,⟨2,"cd".toList⟩] 0
    ⟨by decide,by decide,by decide⟩
  exact ⟨lines,wrapped,read (by simp) (by decide)⟩

/-- Two words are never run together. -/
theorem words_apart (indent width : Nat) (lines : List (List Piece)) :
    ¬ Wrapped [⟨0,['a']⟩,⟨1,['b']⟩] indent width lines ['a','b','\n'] := by
  rintro ⟨out,words,nonempty,-,-⟩
  cases lines with
  | nil => simp at words
  | cons l ls =>
    obtain ⟨p,l,rfl⟩ := List.exists_cons_of_ne_nil (nonempty l List.mem_cons_self)
    simp only [List.flatten_cons,List.cons_append,List.cons.injEq] at words
    obtain ⟨rfl,words⟩ := words
    cases l with
    | nil =>
      cases ls with
      | nil => simp at words
      | cons m ls =>
        rw [page_cons_cons] at out
        simp [lineText] at out
    | cons q l =>
      simp only [List.cons_append,List.cons.injEq,List.append_eq_nil_iff] at words
      obtain ⟨rfl,rfl,empty⟩ := words
      cases ls with
      | nil => simp [page,printed,lineText,Piece.text] at out
      | cons m ls =>
        rw [page_cons_cons] at out
        simp [lineText,Piece.text] at out

/-- From the last column that there is the count starts again, and a gap is left out. -/
theorem put_wrapped_last_column :
    Pieces "a b".toList [⟨0,"a".toList⟩,⟨1,"b".toList⟩] 0 ∧
      ¬ ∃ lines, Wrapped [⟨0,"a".toList⟩,⟨1,"b".toList⟩] (2^64-1) 80 lines
        (put_wrapped "a b".toList (BitVec.ofNat 64 (2^64-1)) (BitVec.ofNat 64 (2^64-1)) 80) := by
  refine ⟨⟨by decide,by decide,by decide⟩,?_⟩
  rintro ⟨lines,wrapped⟩
  have text : put_wrapped "a b".toList (BitVec.ofNat 64 (2^64-1)) (BitVec.ofNat 64 (2^64-1)) 80 = ['a','b','\n'] := by
    decide +kernel
  rw [text] at wrapped
  exact words_apart _ _ _ wrapped

end Newfile.Wrap
