import Mathlib.Data.List.TakeWhile

/-!
Arrays in strictly ascending order of a key: binary search finds what is there, and
an entry put in front of the greater ones keeps the order.
-/
namespace Newfile.Ordered

variable {ε κ : Type} {cmp : κ → κ → Ordering} {key : ε → κ} {es lower upper : List ε} {e : ε} {k : κ}

/-- Every key is below the next ones. -/
def Ascending (cmp : κ → κ → Ordering) (key : ε → κ) (es : List ε) : Prop := es.Pairwise fun x y => cmp (key x) (key y) = .lt

/-- Binary search, with at most `fuel` halvings. -/
def bsearch (cmp : κ → κ → Ordering) (key : ε → κ) (k : κ) : Nat → List ε → Option ε
  | 0, _ => none
  | fuel+1, es =>
    match es[es.length/2]? with
    | none => none
    | some e =>
      match cmp k (key e) with
      | .eq => some e
      | .lt => bsearch cmp key k fuel (es.take (es.length/2))
      | .gt => bsearch cmp key k fuel (es.drop (es.length/2+1))

theorem bsearch_mem {fuel : Nat} (found : bsearch cmp key k fuel es = some e) : e ∈ es := by
  fun_induction bsearch cmp key k fuel es with
  | case1 => simp at found
  | case2 => simp at found
  | case3 _ es d middle =>
    obtain rfl := Option.some.inj found
    exact List.mem_of_getElem? middle
  | case4 _ es d middle _ ih => exact List.mem_of_mem_take (ih found)
  | case5 _ es d middle _ ih => exact List.mem_of_mem_drop (ih found)

theorem Ascending.middle (ascending : Ascending cmp key (lower ++ e :: upper)) :
    (∀ x ∈ lower, cmp (key x) (key e) = .lt) ∧ (∀ x ∈ upper, cmp (key e) (key x) = .lt) ∧
      Ascending cmp key lower ∧ Ascending cmp key upper := by
  obtain ⟨left,right,between⟩ := List.pairwise_append.mp ascending
  obtain ⟨above,rest⟩ := List.pairwise_cons.mp right
  exact ⟨fun x here => between x here e List.mem_cons_self,above,left,rest⟩

theorem ascending_insert (ascending : Ascending cmp key (lower ++ upper)) (below : ∀ x ∈ lower, cmp (key x) (key e) = .lt)
    (above : ∀ x ∈ upper, cmp (key e) (key x) = .lt) : Ascending cmp key (lower ++ e :: upper) := by
  obtain ⟨left,right,between⟩ := List.pairwise_append.mp ascending
  refine List.pairwise_append.mpr ⟨left,List.pairwise_cons.mpr ⟨above,right⟩,fun x here y there => ?_⟩
  rcases List.mem_cons.mp there with rfl | there
  · exact below x here
  · exact between x here y there

section
variable [Std.TransCmp cmp]

/-- One entry at most has a key. -/
theorem Ascending.unique {d : ε} (ascending : Ascending cmp key es) (one : e ∈ es) (two : d ∈ es) (same : cmp (key e) (key d) = .eq) :
    e = d := by
  obtain ⟨lower,upper,rfl⟩ := List.append_of_mem one
  obtain ⟨below,above,-,-⟩ := ascending.middle
  rcases List.mem_append.mp two with left | right
  · rw [Std.OrientedCmp.gt_of_lt (below d left)] at same
    exact absurd same (by decide)
  · rcases List.mem_cons.mp right with rfl | right
    · rfl
    · rw [above d right] at same
      exact absurd same (by decide)

/-- Binary search finds the entry with a key, if there is one. -/
theorem bsearch_iff {fuel : Nat} (ascending : Ascending cmp key es) (enough : es.length ≤ fuel) :
    bsearch cmp key k fuel es = some e ↔ e ∈ es ∧ cmp k (key e) = .eq := by
  induction fuel generalizing es with
  | zero =>
    obtain rfl := List.length_eq_zero_iff.mp (Nat.le_zero.mp enough)
    simp [bsearch]
  | succ fuel ih =>
    rw [bsearch]
    cases at_ : es[es.length/2]? with
    | none =>
      have empty : es = [] := by
        have outside := List.getElem?_eq_none_iff.mp at_
        exact List.length_eq_zero_iff.mp (by omega)
      simp [empty]
    | some d =>
      have inside := (List.getElem?_eq_some_iff.mp at_).1
      have shape : es = es.take (es.length/2) ++ d :: es.drop (es.length/2+1) := by
        have found := (List.getElem?_eq_some_iff.mp at_).2
        rw [← found,← List.drop_eq_getElem_cons,List.take_append_drop]
      have short : (es.take (es.length/2)).length ≤ fuel := by rw [List.length_take]; omega
      have short' : (es.drop (es.length/2+1)).length ≤ fuel := by rw [List.length_drop]; omega
      generalize es.take (es.length/2) = lower at shape short
      generalize es.drop (es.length/2+1) = upper at shape short'
      subst shape
      obtain ⟨below,above,left,right⟩ := ascending.middle
      cases order : cmp k (key d) with
      | eq =>
        simp only [order,Option.some.injEq]
        constructor
        · rintro rfl
          exact ⟨List.mem_append_right _ List.mem_cons_self,order⟩
        · rintro ⟨here,same⟩
          refine ascending.unique (List.mem_append_right _ List.mem_cons_self) here ?_
          exact Std.TransCmp.eq_trans (Std.OrientedCmp.eq_symm order) same
      | lt =>
        simp only [order]
        rw [ih left short]
        constructor
        · rintro ⟨here,same⟩
          exact ⟨List.mem_append_left _ here,same⟩
        · rintro ⟨here,same⟩
          refine ⟨?_,same⟩
          rcases List.mem_append.mp here with here | here
          · exact here
          · rcases List.mem_cons.mp here with rfl | here
            · rw [order] at same
              exact absurd same (by decide)
            · rw [Std.TransCmp.lt_trans order (above e here)] at same
              exact absurd same (by decide)
      | gt =>
        simp only [order]
        rw [ih right short']
        constructor
        · rintro ⟨here,same⟩
          exact ⟨List.mem_append_right _ (List.mem_cons_of_mem _ here),same⟩
        · rintro ⟨here,same⟩
          refine ⟨?_,same⟩
          rcases List.mem_append.mp here with here | here
          · have less := Std.OrientedCmp.gt_of_lt (below e here)
            rw [Std.TransCmp.gt_trans order less] at same
            exact absurd same (by decide)
          · rcases List.mem_cons.mp here with rfl | here
            · rw [order] at same
              exact absurd same (by decide)
            · exact here

/-- The entries with greater keys stand at the end. -/
theorem Ascending.split (ascending : Ascending cmp key es) (absent : ∀ x ∈ es, cmp (key x) k ≠ .eq) :
    ∃ lower upper, es = lower ++ upper ∧ upper.length = (es.reverse.takeWhile fun x => cmp (key x) k = .gt).length ∧
      (∀ x ∈ lower, cmp (key x) k = .lt) ∧ ∀ x ∈ upper, cmp k (key x) = .lt := by
  refine ⟨(es.reverse.dropWhile fun x => cmp (key x) k = .gt).reverse,(es.reverse.takeWhile fun x => cmp (key x) k = .gt).reverse,
    ?_,List.length_reverse,?_,?_⟩
  · rw [← List.reverse_append,List.takeWhile_append_dropWhile,List.reverse_reverse]
  · have order : (es.reverse.dropWhile fun x => cmp (key x) k = .gt).Pairwise fun x y => cmp (key y) (key x) = .lt :=
      (List.pairwise_reverse.mpr ascending).sublist (List.dropWhile_sublist _)
    have inside : ∀ x ∈ es.reverse.dropWhile fun x => cmp (key x) k = .gt, x ∈ es := fun x here =>
      List.mem_reverse.mp ((List.dropWhile_sublist _).subset here)
    cases rest : es.reverse.dropWhile fun x => cmp (key x) k = .gt with
    | nil => simp
    | cons d rest' =>
      rw [rest] at order inside
      have last : cmp (key d) k = .lt := by
        have other : ¬ cmp (key d) k = .gt := by
          have stopped := List.head?_dropWhile_not (fun x => decide (cmp (key x) k = .gt)) es.reverse
          rw [rest] at stopped
          simpa using stopped
        have different := absent d (inside d List.mem_cons_self)
        cases order : cmp (key d) k with
        | lt => rfl
        | eq => exact absurd order different
        | gt => exact absurd order other
      intro x here
      rcases List.mem_cons.mp (List.mem_reverse.mp here) with rfl | here
      · exact last
      · exact Std.TransCmp.lt_trans ((List.pairwise_cons.mp order).1 x here) last
  · intro x here
    have greater := List.mem_takeWhile_imp (List.mem_reverse.mp here)
    exact Std.OrientedCmp.lt_of_gt (by simpa using greater)

end

end Newfile.Ordered
