import Newfile.Posix

/-!
Contents byte by byte. Beyond its end a content reads as NUL; `Covers d s n` says
that `d`, which ends at `n` at the latest, holds what `s` holds below `n`.
-/
namespace Newfile.Bytes
open Newfile.Posix

theorem eq_of_getD {d s : List Byte} (size : d.length = s.length) (same : ∀ j, d.getD j 0 = s.getD j 0) : d = s := by
  apply List.ext_getElem size
  intro j inside inside'
  simpa [List.getD,inside,inside'] using same j

theorem getD_take (d : List Byte) (n j : Nat) : (d.take n).getD j 0 = if j < n then d.getD j 0 else 0 := by
  by_cases below : j < n
  · simp [List.getD,below]
  · simp [List.getD,below]

theorem getD_drop (d : List Byte) (n j : Nat) : (d.drop n).getD j 0 = d.getD (n+j) 0 := by
  simp [List.getD]

theorem getD_append (d s : List Byte) (j : Nat) :
    (d ++ s).getD j 0 = if j < d.length then d.getD j 0 else s.getD (j-d.length) 0 := by
  by_cases inside : j < d.length
  · simp [List.getD,List.getElem?_append,inside]
  · simp [List.getD,List.getElem?_append,inside]

theorem getD_zeros (n j : Nat) : (List.replicate n (0 : Byte)).getD j 0 = 0 := by
  by_cases inside : j < n
  · simp [List.getD,inside]
  · simp [List.getD,inside]

theorem getD_beyond {d : List Byte} {j : Nat} (beyond : d.length ≤ j) : d.getD j 0 = 0 := by
  simp [List.getD,beyond]

theorem writeAt_length {bytes : List Byte} (nonempty : bytes ≠ []) (d : List Byte) (off : Nat) :
    (writeAt d off bytes).length = max d.length (off+bytes.length) := by
  simp [writeAt,nonempty]
  omega

theorem writeAt_getD {bytes : List Byte} (nonempty : bytes ≠ []) (d : List Byte) (off j : Nat) :
    (writeAt d off bytes).getD j 0 =
      if off ≤ j ∧ j < off+bytes.length then bytes.getD (j-off) 0 else d.getD j 0 := by
  have front : (d.take off ++ List.replicate (off-d.length) 0).length = off := by simp; omega
  rw [writeAt,if_neg nonempty,getD_append,List.length_append,front,getD_append,front,getD_append,List.length_take,
    getD_take,getD_zeros,getD_drop]
  by_cases before : j < off
  · have outside : ¬ (off ≤ j ∧ j < off+bytes.length) := by omega
    rw [if_pos (by omega),if_pos before,if_neg outside]
    by_cases inside : j < min off d.length
    · simp [inside,before]
    · rw [if_neg inside,getD_beyond (by omega)]
  · by_cases inside : j < off+bytes.length
    · rw [if_pos inside,if_neg before,if_pos (by omega)]
    · rw [if_neg inside,if_neg (by omega)]
      congr 1
      omega

theorem resize_length (d : List Byte) (n : Nat) : (resize d n).length = n := by
  simp [resize]
  omega

theorem resize_getD (d : List Byte) (n j : Nat) : (resize d n).getD j 0 = if j < n then d.getD j 0 else 0 := by
  rw [resize,getD_append,getD_take,getD_zeros,List.length_take]
  by_cases below : j < n
  · by_cases inside : j < d.length
    · rw [if_pos (by omega),if_pos below]
    · rw [if_neg (by omega),if_pos below,getD_beyond (by omega)]
  · rw [if_neg (by omega),if_neg below]

/-! ## Copies in progress -/

/-- `d` holds what `s` holds below `n`, and ends there at the latest. -/
structure Covers (d s : List Byte) (n : Nat) : Prop where
  short : d.length ≤ n
  same : ∀ j < n, d.getD j 0 = s.getD j 0

theorem covers_nil (s : List Byte) : Covers [] s 0 := ⟨Nat.le_refl _,by omega⟩

/-- A gap of `s` need not be written. -/
theorem Covers.gap {d s : List Byte} {n n' : Nat} (covers : Covers d s n) (more : n ≤ n')
    (zero : ∀ j, n ≤ j → j < n' → s.getD j 0 = 0) : Covers d s n' := by
  refine ⟨Nat.le_trans covers.short more,fun j below => ?_⟩
  by_cases old : j < n
  · exact covers.same j old
  · rw [getD_beyond (Nat.le_trans covers.short (by omega)),zero j (by omega) below]

/-- Writing the bytes of `s` that come next. -/
theorem Covers.write {d s bytes : List Byte} {n : Nat} (covers : Covers d s n)
    (next : ∀ j < bytes.length, bytes.getD j 0 = s.getD (n+j) 0) :
    Covers (writeAt d n bytes) s (n+bytes.length) := by
  by_cases empty : bytes = []
  · simpa [empty,writeAt] using covers
  · refine ⟨?_,fun j below => ?_⟩
    · rw [writeAt_length empty]
      have := covers.short
      omega
    · rw [writeAt_getD empty]
      by_cases old : j < n
      · rw [if_neg (by omega),covers.same j old]
      · rw [if_pos (by omega),next (j-n) (by omega)]
        congr 1
        omega

theorem Covers.write_length {d s bytes : List Byte} {n : Nat} (covers : Covers d s n) (nonempty : bytes ≠ []) :
    (writeAt d n bytes).length = n+bytes.length := by
  rw [writeAt_length nonempty]
  have := covers.short
  omega

/-- The last gap is made by setting the length. -/
theorem Covers.resize {d s : List Byte} {n : Nat} (covers : Covers d s n) (whole : s.length = n) :
    Posix.resize d n = s := by
  apply eq_of_getD ((resize_length d n).trans whole.symm)
  intro j
  rw [resize_getD]
  by_cases below : j < n
  · rw [if_pos below,covers.same j below]
  · rw [if_neg below,getD_beyond (by omega)]

theorem Covers.eq {d s : List Byte} {n : Nat} (covers : Covers d s n) (whole : s.length = n) (full : d.length = n) :
    d = s := by
  apply eq_of_getD (full.trans whole.symm)
  intro j
  by_cases below : j < n
  · exact covers.same j below
  · rw [getD_beyond (by omega),getD_beyond (by omega)]

end Newfile.Bytes
