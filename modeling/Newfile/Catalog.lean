import Newfile.Ordered
import Newfile.Suffixes

/-!
The listing of a directory as a map: from the name of a file to the greatest number
of a backup that was listed or noted for it.
-/
namespace Newfile.Catalog
open Newfile.Program Newfile.Posix Newfile.Process Newfile.Backup Newfile.Numbers Newfile.Decimals
open Newfile.Flush (path_dir)
open Newfile.Suffixes
open Newfile.Ordered (Ascending ascending_insert bsearch bsearch_iff)

variable {es lower upper kept : List BackupEntry} {e : BackupEntry} {S S' : Path → List Char → Prop}

theorem strcmp_self (b : Path) : strcmp b b = .eq := Std.ReflCmp.compare_self

theorem ne_of_strcmp {a b : Path} (less : strcmp a b = .lt) : a ≠ b := by
  rintro rfl
  rw [strcmp_self] at less
  exact absurd less (by decide)

/-! ## Entries that stand for a relation -/

/-- One entry for each base that is related to digits, in order, with the greatest digits. -/
structure Represents (es : List BackupEntry) (S : Path → List Char → Prop) : Prop where
  ascending : Ascending strcmp BackupEntry.base es
  decimal : ∀ e ∈ es, Decimal e.digits
  there : ∀ e ∈ es, S e.base e.digits
  greatest : ∀ e ∈ es, ∀ ds, S e.base ds → number ds ≤ number e.digits
  covers : ∀ b ds, S b ds → ∃ e ∈ es, e.base = b

/-- The relation with one more pair. -/
def also (S : Path → List Char → Prop) (e : BackupEntry) : Path → List Char → Prop :=
  fun b ds => S b ds ∨ b = e.base ∧ ds = e.digits

theorem represents_nil : Represents [] (fun _ _ => False) :=
  ⟨List.Pairwise.nil,by simp,by simp,by simp,by simp⟩

theorem Represents.congr (represents : Represents es S) (same : ∀ b ds, S b ds ↔ S' b ds) : Represents es S' := by
  obtain rfl : S = S' := funext fun b => funext fun ds => propext (same b ds)
  exact represents

theorem Represents.unique {d : BackupEntry} (represents : Represents es S) (one : e ∈ es) (two : d ∈ es) (same : e.base = d.base) :
    e = d :=
  represents.ascending.unique one two (by rw [same]; exact strcmp_self _)

/-- A base that was not there is put in its place. -/
theorem Represents.insert (represents : Represents (lower ++ upper) S) (decimal : Decimal e.digits)
    (below : ∀ x ∈ lower, strcmp x.base e.base = .lt) (above : ∀ x ∈ upper, strcmp e.base x.base = .lt) :
    Represents (lower ++ e :: upper) (also S e) := by
  have other : ∀ x ∈ lower ++ upper, x.base ≠ e.base := by
    intro x here same
    rcases List.mem_append.mp here with left | right
    · exact ne_of_strcmp (below x left) same
    · exact ne_of_strcmp (above x right) same.symm
  have cases_ : ∀ x ∈ lower ++ e :: upper, x = e ∨ x ∈ lower ++ upper := by
    intro x here
    rcases List.mem_append.mp here with left | right
    · exact .inr (List.mem_append_left _ left)
    · rcases List.mem_cons.mp right with same | right
      · exact .inl same
      · exact .inr (List.mem_append_right _ right)
  have absent : ∀ ds, ¬ S e.base ds := fun ds known => by
    obtain ⟨x,here,same⟩ := represents.covers _ _ known
    exact other x here same
  refine ⟨ascending_insert represents.ascending below above,?_,?_,?_,?_⟩
  · intro x here
    rcases cases_ x here with rfl | here
    · exact decimal
    · exact represents.decimal x here
  · intro x here
    rcases cases_ x here with rfl | here
    · exact .inr ⟨rfl,rfl⟩
    · exact .inl (represents.there x here)
  · intro x here ds known
    rcases cases_ x here with rfl | here
    · rcases known with known | ⟨-,rfl⟩
      · exact absurd known (absent ds)
      · exact Nat.le_refl _
    · rcases known with known | ⟨same,-⟩
      · exact represents.greatest x here ds known
      · exact absurd same (other x here)
  · rintro b ds (known | ⟨rfl,-⟩)
    · obtain ⟨x,here,same⟩ := represents.covers b ds known
      refine ⟨x,?_,same⟩
      rcases List.mem_append.mp here with left | right
      · exact List.mem_append_left _ left
      · exact List.mem_append_right _ (List.mem_cons_of_mem _ right)
    · exact ⟨e,List.mem_append_right _ List.mem_cons_self,rfl⟩

/-- A number that is not greater than the one of its base changes nothing. -/
theorem Represents.ignore {d : BackupEntry} (represents : Represents es S) (here : d ∈ es) (same : d.base = e.base)
    (smaller : number e.digits ≤ number d.digits) : Represents es (also S e) := by
  refine ⟨represents.ascending,represents.decimal,fun x here => .inl (represents.there x here),?_,?_⟩
  · rintro x inside ds (known | ⟨base,rfl⟩)
    · exact represents.greatest x inside ds known
    · obtain rfl := represents.unique inside here (base.trans same.symm)
      exact smaller
  · rintro b ds (known | ⟨rfl,-⟩)
    · exact represents.covers b ds known
    · exact ⟨d,here,same⟩

/-- The digits of one base replaced. -/
def raise (b : Path) (digits : List Char) (x : BackupEntry) : BackupEntry := if x.base = b then { x with digits } else x

theorem raise_base (b : Path) (digits : List Char) (x : BackupEntry) : (raise b digits x).base = x.base := by
  unfold raise
  split <;> rfl

/-- A greater number takes the place of the one of its base. -/
theorem Represents.raise {d : BackupEntry} (represents : Represents es S) (here : d ∈ es) (same : d.base = e.base)
    (decimal : Decimal e.digits) (greater : number d.digits ≤ number e.digits) :
    Represents (es.map (raise e.base e.digits)) (also S e) := by
  have cases_ : ∀ x ∈ es.map (Catalog.raise e.base e.digits), x = e ∨ x ∈ es ∧ x.base ≠ e.base := by
    intro x inside
    obtain ⟨y,there,rfl⟩ := List.mem_map.mp inside
    unfold Catalog.raise
    split
    · rename_i base
      exact .inl (by rw [base])
    · rename_i base
      exact .inr ⟨there,base⟩
  have most : ∀ ds, S e.base ds → number ds ≤ number e.digits := fun ds known =>
    Nat.le_trans (represents.greatest d here ds (by rw [same]; exact known)) greater
  refine ⟨?_,?_,?_,?_,?_⟩
  · refine List.pairwise_map.mpr (represents.ascending.imp fun order => ?_)
    rw [raise_base,raise_base]
    exact order
  · intro x inside
    rcases cases_ x inside with rfl | ⟨inside,-⟩
    · exact decimal
    · exact represents.decimal x inside
  · intro x inside
    rcases cases_ x inside with rfl | ⟨inside,-⟩
    · exact .inr ⟨rfl,rfl⟩
    · exact .inl (represents.there x inside)
  · intro x inside ds known
    rcases cases_ x inside with rfl | ⟨inside,other⟩
    · rcases known with known | ⟨-,rfl⟩
      · exact most ds known
      · exact Nat.le_refl _
    · rcases known with known | ⟨base,-⟩
      · exact represents.greatest x inside ds known
      · exact absurd base other
  · have covered : ∀ b, (∃ x ∈ es, x.base = b) → ∃ x ∈ es.map (Catalog.raise e.base e.digits), x.base = b := by
      rintro b ⟨x,inside,base⟩
      exact ⟨_,List.mem_map_of_mem inside,by rw [raise_base]; exact base⟩
    rintro b ds (known | ⟨rfl,-⟩)
    · exact covered b (represents.covers b ds known)
    · exact covered _ ⟨d,here,same⟩

/-! ## The operations on entries -/

/-- Not in descending order, as `qsort` leaves the entries. -/
def Sorted (es : List BackupEntry) : Prop := es.Pairwise fun x y => strcmp x.base y.base ≠ .gt

/-- The pairs of entries, and those before them. -/
def joined (S : Path → List Char → Prop) (es : List BackupEntry) : Path → List Char → Prop :=
  fun b ds => S b ds ∨ ∃ e ∈ es, b = e.base ∧ ds = e.digits

theorem joined_cons (S : Path → List Char → Prop) (e : BackupEntry) (es : List BackupEntry) (b : Path) (ds : List Char) :
    joined (also S e) es b ds ↔ joined S (e :: es) b ds := by
  simp [joined,also,or_assoc]

/-- The last entry that was kept is raised. -/
theorem raise_last {k : BackupEntry} (represents : Represents (k :: kept).reverse S) (digits : List Char) :
    ((k :: kept).reverse.map (raise k.base digits)) = ({ k with digits } :: kept).reverse := by
  rw [List.reverse_cons] at represents
  obtain ⟨below,-,-,-⟩ := represents.ascending.middle
  have still : kept.reverse.map (raise k.base digits) = kept.reverse := by
    refine (List.map_congr_left fun x here => ?_).trans (List.map_id _)
    exact if_neg (ne_of_strcmp (below x here))
  rw [List.reverse_cons,List.reverse_cons,List.map_append,still,List.map_singleton]
  congr 2
  exact if_pos rfl

/-- Merging sorted entries into those kept so far, which are not above them. -/
theorem keepLoop_represents : ∀ (es kept : List BackupEntry) (S : Path → List Char → Prop), Represents kept.reverse S →
    (∀ k ∈ kept, ∀ e ∈ es, strcmp k.base e.base ≠ .gt) → Sorted es → (∀ e ∈ es, Decimal e.digits) →
      Represents (keepLoop kept es) (joined S es) := by
  intro es
  induction es with
  | nil =>
    intro kept S represents _ _ _
    rw [keepLoop]
    exact represents.congr fun b ds => by simp [joined]
  | cons e es ih =>
    intro kept S represents ordered sorted decimal
    obtain ⟨first,rest⟩ := List.pairwise_cons.mp sorted
    have own := decimal e List.mem_cons_self
    have others : ∀ e ∈ es, Decimal e.digits := fun x here => decimal x (List.mem_cons_of_mem _ here)
    -- The next entry becomes the last one kept.
    have append : (∀ k ∈ kept, strcmp k.base e.base = .lt) →
        Represents (keepLoop (e :: kept) es) (joined S (e :: es)) := by
      intro below
      have grown : Represents (e :: kept).reverse (also S e) := by
        rw [List.reverse_cons]
        refine Represents.insert ?_ own (fun x here => below x (List.mem_reverse.mp here)) (by simp)
        rw [List.append_nil]
        exact represents
      refine (ih _ _ grown ?_ rest others).congr fun b ds => joined_cons S e es b ds
      intro k here x there
      rcases List.mem_cons.mp here with rfl | here
      · exact first x there
      · exact ordered k here x (List.mem_cons_of_mem _ there)
    cases kept with
    | nil => exact append (by simp)
    | cons k kept =>
      have last : k ∈ (k :: kept).reverse := List.mem_reverse.mpr List.mem_cons_self
      have behind : ∀ digits, ∀ x ∈ ({ k with digits } :: kept : List BackupEntry), ∀ y ∈ es, strcmp x.base y.base ≠ .gt := by
        intro digits x here y there
        rcases List.mem_cons.mp here with rfl | here
        · exact ordered k List.mem_cons_self y (List.mem_cons_of_mem _ there)
        · exact ordered x (List.mem_cons_of_mem _ here) y (List.mem_cons_of_mem _ there)
      rw [keepLoop]
      by_cases same : k.base = e.base
      · rw [if_pos same]
        have compared := digits_cmp_number own (represents.decimal k last)
        by_cases greater : digits_cmp e.digits k.digits = .gt
        · rw [if_pos greater]
          rw [compared] at greater
          have raised := represents.raise last same own (Nat.le_of_lt (Nat.compare_eq_gt.mp greater))
          rw [← same,raise_last represents] at raised
          exact (ih _ _ raised (behind _) rest others).congr fun b ds => joined_cons S e es b ds
        · rw [if_neg greater]
          rw [compared] at greater
          have ignored := represents.ignore last same (Nat.le_of_not_lt fun more => greater (Nat.compare_eq_gt.mpr more))
          exact (ih _ _ ignored (behind k.digits) rest others).congr fun b ds => joined_cons S e es b ds
      · rw [if_neg same]
        refine append fun x here => ?_
        have below : strcmp k.base e.base = .lt := by
          have most := ordered k List.mem_cons_self e List.mem_cons_self
          cases order : strcmp k.base e.base with
          | lt => rfl
          | eq => exact absurd (Std.LawfulEqCmp.eq_of_compare order) same
          | gt => exact absurd order most
        rcases List.mem_cons.mp here with rfl | here
        · exact below
        · rw [List.reverse_cons] at represents
          exact Std.TransCmp.lt_trans (represents.ascending.middle.1 x (List.mem_reverse.mpr here)) below

theorem insertEntry_perm (e : BackupEntry) (es : List BackupEntry) : (insertEntry e es).Perm (e :: es) := by
  induction es with
  | nil => exact List.Perm.refl _
  | cons x es ih =>
    rw [insertEntry]
    split
    · exact (ih.cons x).trans (List.Perm.swap e x es)
    · exact List.Perm.refl _

theorem sortEntries_perm (es : List BackupEntry) : (sortEntries es).Perm es := by
  induction es with
  | nil => exact List.Perm.refl _
  | cons e es ih => exact (insertEntry_perm e _).trans (ih.cons e)

theorem insertEntry_sorted (e : BackupEntry) {es : List BackupEntry} (sorted : Sorted es) : Sorted (insertEntry e es) := by
  induction es with
  | nil => exact List.pairwise_singleton _ _
  | cons x es ih =>
    obtain ⟨first,rest⟩ := List.pairwise_cons.mp sorted
    rw [insertEntry]
    split
    · rename_i above
      refine List.pairwise_cons.mpr ⟨fun y here => ?_,ih rest⟩
      rcases List.mem_cons.mp ((insertEntry_perm e es).mem_iff.mp here) with rfl | here
      · rw [Std.OrientedCmp.lt_of_gt above]
        decide
      · exact first y here
    · rename_i most
      refine List.pairwise_cons.mpr ⟨fun y here => ?_,sorted⟩
      rcases List.mem_cons.mp here with rfl | here
      · exact most
      · intro greater
        have lower : (strcmp e.base x.base).isLE := Ordering.isLE_iff_ne_gt.mpr most
        have upper : (strcmp x.base y.base).isLE := Ordering.isLE_iff_ne_gt.mpr (first y here)
        have both := Std.TransCmp.isLE_trans lower upper
        rw [greater] at both
        exact absurd both (by decide)

theorem sortEntries_sorted (es : List BackupEntry) : Sorted (sortEntries es) := by
  induction es with
  | nil => exact List.Pairwise.nil
  | cons e es ih => exact insertEntry_sorted e ih

/-- The pairs of entries. -/
def pairs (es : List BackupEntry) : Path → List Char → Prop := fun b ds => ∃ e ∈ es, b = e.base ∧ ds = e.digits

/-- However the entries were sorted, what is kept of them stands for them all. -/
theorem merged_represents {sorted : List BackupEntry} (perm : sorted.Perm es) (order : Sorted sorted)
    (decimal : ∀ e ∈ es, Decimal e.digits) : Represents (keepLoop [] sorted) (pairs es) := by
  have kept := keepLoop_represents sorted [] _ represents_nil (by simp) order fun e here => decimal e (perm.mem_iff.mp here)
  refine kept.congr fun b ds => ?_
  simp only [joined,pairs,false_or,perm.mem_iff]

/-- Entries that stand for one relation are the same. -/
theorem Represents.eq {es' : List BackupEntry} (one : Represents es S) (two : Represents es' S) : es = es' := by
  have inside : ∀ {es es' : List BackupEntry}, Represents es S → Represents es' S → ∀ e ∈ es, e ∈ es' := by
    intro es es' one two e here
    obtain ⟨d,there,base⟩ := two.covers _ _ (one.there e here)
    have up : number e.digits ≤ number d.digits := two.greatest d there _ (by rw [base]; exact one.there e here)
    have down : number d.digits ≤ number e.digits := one.greatest e here _ (by rw [← base]; exact two.there d there)
    have digits := number_inj (one.decimal e here) (two.decimal d there) (Nat.le_antisymm up down)
    obtain ⟨b,ds⟩ := e
    obtain ⟨b',ds'⟩ := d
    obtain rfl : b' = b := base
    obtain rfl : ds = ds' := digits
    exact there
  have nodup : ∀ {es : List BackupEntry}, Represents es S → es.Nodup := fun represents =>
    represents.ascending.imp fun less same => ne_of_strcmp less (congrArg BackupEntry.base same)
  have perm := (List.perm_ext_iff_of_nodup (nodup one) (nodup two)).mpr fun e => ⟨inside one two e,inside two one e⟩
  refine perm.eq_of_pairwise ?_ one.ascending two.ascending
  intro x y here there less greater
  have swapped := Std.OrientedCmp.gt_of_lt greater
  rw [less] at swapped
  exact absurd swapped (by decide)

/-- `entries_keep_highest` with any sort in place of `qsort`. -/
theorem any_sort {sorted : List BackupEntry} (perm : sorted.Perm es) (order : Sorted sorted)
    (decimal : ∀ e ∈ es, Decimal e.digits) : keepLoop [] sorted = entries_keep_highest es :=
  (merged_represents perm order decimal).eq (merged_represents (sortEntries_perm es) (sortEntries_sorted es) decimal)

/-! ## Searching and noting -/

theorem searchEntries_bsearch (b : Path) : ∀ (fuel : Nat) (es : List BackupEntry),
    searchEntries b fuel es = bsearch strcmp BackupEntry.base b fuel es := by
  intro fuel
  induction fuel with
  | zero => exact fun es => rfl
  | succ fuel ih =>
    intro es
    rw [searchEntries,bsearch]
    cases es[es.length/2]? with
    | none => rfl
    | some d =>
      dsimp only
      cases strcmp b d.base with
      | eq => rfl
      | lt => exact ih _
      | gt => exact ih _

theorem Represents.find (represents : Represents es S) (dir file : Path) :
    backup_find ⟨dir,es⟩ file = some e ↔ e ∈ es ∧ e.base = baseText file := by
  have found := bsearch_iff (k := baseText file) (e := e) represents.ascending (Nat.le_refl _)
  rw [backup_find,searchEntries_bsearch,found,Std.LawfulEqCmp.compare_eq_iff_eq]
  exact and_congr_right fun _ => eq_comm

theorem Represents.note (represents : Represents es S) (decimal : Decimal e.digits) (absent : ∀ x ∈ es, x.base ≠ e.base) :
    Represents (insertNote e es) (also S e) := by
  obtain ⟨lower,upper,shape,length,below,above⟩ := represents.ascending.split (k := e.base)
    fun x here same => absent x here (Std.LawfulEqCmp.eq_of_compare same)
  have place : es.length-(es.reverse.takeWhile fun x => strcmp x.base e.base = .gt).length = lower.length := by
    rw [← length,shape,List.length_append]
    omega
  rw [insertNote,place,shape,List.take_left,List.drop_left]
  rw [shape] at represents
  exact represents.insert decimal below above

/-! ## Runs -/

/-- A system with memory to spare in which a directory lists these names. -/
def ample (names : List Path) : System posix Unit := fun _ c r _ =>
  match c, r with
  | .alloc, r => r = .ok ()
  | .list _, r => r = .ok names
  | _, _ => True

variable {α : Type} {names : List Path} {m : Memory} {Q : α → Unit → Memory → Prop}

theorem wp_allocate {f : Except Errno Unit → P α} (rest : wp (ample names) False (f (.ok ())) Q () m) :
    wp (ample names) False (allocate >>= f) Q () m := by
  rintro _ _ rfl
  exact rest

/-- The entries of the names that are split. -/
def scanned (names : List Path) : List BackupEntry := names.filterMap fun n => (backup_split n).map fun x => ⟨x.1,x.2⟩

theorem scanned_decimal (names : List Path) : ∀ e ∈ scanned names, Decimal e.digits := by
  intro e member
  obtain ⟨name,-,found⟩ := List.mem_filterMap.mp member
  obtain ⟨x,split_,rfl⟩ := Option.map_eq_some_iff.mp found
  exact (encodes_of_split split_).decimal

/-- There is a name of this base and these digits. -/
def Listed (names : List Path) : Path → List Char → Prop := fun b ds => ∃ name ∈ names, Encodes b ds name

theorem pairs_scanned (names : List Path) (b : Path) (ds : List Char) : pairs (scanned names) b ds ↔ Listed names b ds := by
  constructor
  · rintro ⟨e,member,rfl,rfl⟩
    obtain ⟨name,here,found⟩ := List.mem_filterMap.mp member
    obtain ⟨x,split_,rfl⟩ := Option.map_eq_some_iff.mp found
    exact ⟨name,here,encodes_of_split split_⟩
  · rintro ⟨name,here,encodes⟩
    exact ⟨⟨b,ds⟩,List.mem_filterMap.mpr ⟨name,here,by rw [encodes.split]; rfl⟩,rfl,rfl⟩

theorem copyEntry_wp (es : List BackupEntry) (base : Path) (ds : List Char) (m : Memory) :
    wp (ample names) False (copyEntry es base ds) (fun r _ m' => r = .ok (es ++ [⟨base,ds⟩]) ∧ m' = m) () m :=
  wp_allocate (wp_allocate ⟨rfl,rfl⟩)

theorem listLoop_wp : ∀ (ns : List Path) (es : List BackupEntry) (cap : Nat) (m : Memory),
    wp (ample names) False (listLoop ns es cap) (fun r _ m' => r = .ok (es ++ scanned ns) ∧ m' = m) () m := by
  intro ns
  induction ns with
  | nil => exact fun es cap m => ⟨by simp [scanned],rfl⟩
  | cons n ns ih =>
    intro es cap m
    rw [listLoop]
    cases split_ : backup_split n with
    | none =>
      have same : scanned (n :: ns) = scanned ns := by simp [scanned,split_]
      rw [same]
      exact ih es cap m
    | some x =>
      obtain ⟨b,ds⟩ := x
      have more : es ++ scanned (n :: ns) = (es ++ [⟨b,ds⟩]) ++ scanned ns := by simp [scanned,split_]
      rw [more]
      have room : wp (ample names) False (if (decide (es.length = cap)) = true then allocate else pure (.ok ()))
          (fun r _ m' => r = .ok () ∧ m' = m) () m := by
        split
        · exact wp_allocate (f := pure) ⟨rfl,rfl⟩
        · exact ⟨rfl,rfl⟩
      refine wp_seq room ?_
      rintro _ _ _ ⟨rfl,rfl⟩
      refine wp_seq (copyEntry_wp es b ds _) ?_
      rintro _ _ _ ⟨rfl,rfl⟩
      exact ih _ _ _

/-- The listing of a directory in the cache. -/
def listingOf (m : Memory) (dir : Path) : Option BackupDir := m.backups.find? fun bd => bd.dir = dir

theorem backup_dir_get_listed {file : Path} (fresh : listingOf m (dirText file) = none) :
    wp (ample names) False (backup_dir_get file)
      (fun r _ m' => r = .ok ⟨dirText file,entries_keep_highest (scanned names)⟩ ∧
        listingOf m' (dirText file) = some ⟨dirText file,entries_keep_highest (scanned names)⟩) () m := by
  have listed : ∀ m : Memory, listingOf m (dirText file) = none → wp (ample names) False (backup_dir_get.listed (dirText file))
      (fun r _ m' => r = .ok ⟨dirText file,entries_keep_highest (scanned names)⟩ ∧
        listingOf m' (dirText file) = some ⟨dirText file,entries_keep_highest (scanned names)⟩) () m := by
    intro m fresh
    have read : wp (ample names) False (backup_dir_list (dirText file))
        (fun r _ m' => r = .ok (entries_keep_highest (scanned names)) ∧ m' = m) () m := by
      rintro _ _ rfl
      change wp _ _ (listLoop names [] 0 >>= _) _ _ _
      refine wp_seq (listLoop_wp names [] 0 m) fun r _ m' done => ?_
      obtain ⟨rfl,rfl⟩ := done
      exact ⟨rfl,rfl⟩
    refine wp_seq read fun r _ m' done => ?_
    obtain ⟨rfl,rfl⟩ := done
    refine ⟨rfl,?_⟩
    simp only [listingOf,List.find?_append] at fresh ⊢
    simp [fresh]
  rw [backup_dir_get,path_dir,bind_assoc]
  refine wp_allocate ?_
  simp only [pure_bind]
  rw [wp_bind,wp_get]
  simp only [listingOf] at fresh
  simp only [fresh]
  split
  · refine listed _ ?_
    rfl
  · exact listed m fresh

theorem backup_dir_get_kept {file : Path} {bd : BackupDir} (found : listingOf m (dirText file) = some bd) :
    wp (ample names) False (backup_dir_get file) (fun r _ m' => r = .ok bd ∧ m' = m) () m := by
  rw [backup_dir_get,path_dir,bind_assoc]
  refine wp_allocate ?_
  simp only [pure_bind]
  rw [wp_bind,wp_get]
  simp only [listingOf] at found
  simp only [found]
  exact ⟨rfl,rfl⟩

theorem setEntries_listing {dir : Path} {bd : BackupDir} (found : listingOf m dir = some bd) (es : List BackupEntry) :
    listingOf (setEntries m bd.dir es) dir = some ⟨dir,es⟩ := by
  have same : bd.dir = dir := by simpa using List.find?_some found
  subst same
  have swap : (setEntries m bd.dir es).backups.find? (fun x => x.dir = bd.dir) =
      (m.backups.find? fun x => x.dir = bd.dir).map fun x => { x with entries := es } := by
    simp only [setEntries,List.find?_map]
    have keys : ((fun x : BackupDir => decide (x.dir = bd.dir)) ∘ fun x => if x.dir = bd.dir then { x with entries := es } else x) =
        fun x => decide (x.dir = bd.dir) := by
      funext x
      by_cases own : x.dir = bd.dir <;> simp [own]
    rw [keys]
    change Option.map _ (listingOf m bd.dir) = Option.map _ (listingOf m bd.dir)
    rw [found]
    simp
  rw [listingOf,swap]
  change Option.map _ (listingOf m bd.dir) = _
  rw [found]
  rfl

/-- A number noted for a file of a directory that is listed. -/
theorem backup_note_represents {file : Path} {ds : List Char} (found : listingOf m (dirText file) = some ⟨dirText file,es⟩)
    (represents : Represents es S) (decimal : Decimal ds) :
    wp (ample names) False (backup_note file ds) (fun _ _ m' => ∃ es',
      listingOf m' (dirText file) = some ⟨dirText file,es'⟩ ∧ Represents es' (also S ⟨baseText file,ds⟩)) () m := by
  refine wp_seq (backup_dir_get_kept found) fun r _ m' done => ?_
  obtain ⟨rfl,rfl⟩ := done
  refine wp_allocate ?_
  cases search : backup_find ⟨dirText file,es⟩ file with
  | some d =>
    obtain ⟨here,base⟩ := (represents.find _ _).mp search
    have compared := digits_cmp_number decimal (represents.decimal d here)
    dsimp only
    split
    · rename_i greater
      rw [compared] at greater
      have raised := represents.raise (e := ⟨baseText file,ds⟩) here base decimal (Nat.le_of_lt (Nat.compare_eq_gt.mp greater))
      refine ⟨_,setEntries_listing found _,?_⟩
      rw [base]
      exact raised
    · rename_i most
      rw [compared] at most
      exact ⟨es,found,represents.ignore (e := ⟨baseText file,ds⟩) here base
        (Nat.le_of_not_lt fun more => most (Nat.compare_eq_gt.mpr more))⟩
  | none =>
    have absent : ∀ x ∈ es, x.base ≠ baseText file := by
      intro x here base
      have other := (represents.find (dirText file) file).mpr ⟨here,base⟩
      rw [search] at other
      simp at other
    dsimp only
    refine wp_allocate (wp_allocate ?_)
    exact ⟨_,setEntries_listing found _,represents.note (e := ⟨baseText file,ds⟩) decimal absent⟩

/-- Calls of `backup_note`, one after the other. -/
def notes : List (Path × List Char) → P Unit
  | [] => pure ()
  | n :: ns => do
    backup_note n.1 n.2
    notes ns

/-- What was listed or noted for a name. -/
def Seen (names : List Path) (calls : List (Path × List Char)) : Path → List Char → Prop :=
  fun b ds => Listed names b ds ∨ ∃ n ∈ calls, b = baseText n.1 ∧ ds = n.2

theorem notes_represents {dir : Path} : ∀ (calls : List (Path × List Char)) (es : List BackupEntry) (S : Path → List Char → Prop)
    (m : Memory), (∀ n ∈ calls, dirText n.1 = dir ∧ Decimal n.2) → listingOf m dir = some ⟨dir,es⟩ → Represents es S →
      wp (ample names) False (notes calls) (fun _ _ m' => ∃ es', listingOf m' dir = some ⟨dir,es'⟩ ∧
        Represents es' fun b ds => S b ds ∨ ∃ n ∈ calls, b = baseText n.1 ∧ ds = n.2) () m := by
  intro calls
  induction calls with
  | nil => exact fun es S m _ found represents => ⟨es,found,represents.congr fun b ds => by simp⟩
  | cons n calls ih =>
    intro es S m files found represents
    obtain ⟨rfl,decimal⟩ := files n List.mem_cons_self
    refine wp_seq (backup_note_represents found represents decimal) fun _ _ m' after => ?_
    obtain ⟨es',found',represents'⟩ := after
    refine wp_mono (ih es' _ m' (fun n here => files n (List.mem_cons_of_mem _ here)) found' represents') ?_
    rintro _ _ m'' ⟨es'',found'',represents''⟩
    exact ⟨es'',found'',represents''.congr fun b ds => by simp [also,or_assoc]⟩

/-- What a search must return: the entry with the greatest of the digits related to a name. -/
def Greatest (S : Path → List Char → Prop) (b : Path) : Option BackupEntry → Prop
  | none => ∀ ds, ¬ S b ds
  | some e => e.base = b ∧ S b e.digits ∧ ∀ ds, S b ds → number ds ≤ number e.digits

theorem Represents.search (represents : Represents es S) (dir file : Path) :
    Greatest S (baseText file) (backup_find ⟨dir,es⟩ file) := by
  cases found : backup_find ⟨dir,es⟩ file with
  | none =>
    intro ds known
    obtain ⟨e,here,base⟩ := represents.covers _ ds known
    have other := (represents.find dir file).mpr ⟨here,base⟩
    rw [found] at other
    simp at other
  | some e =>
    obtain ⟨here,base⟩ := (represents.find dir file).mp found
    rw [← base]
    exact ⟨rfl,represents.there e here,represents.greatest e here⟩

/-- The listing of a directory and every sequence of numbers noted after it: however
    `qsort` orders equal names, the entries are in strict order, and a search returns the
    greatest number that was listed or noted for a file. -/
theorem listing_greatest (names : List Path) (file : Path) (calls : List (Path × List Char))
    (same : ∀ n ∈ calls, dirText n.1 = dirText file ∧ Decimal n.2) (m : Memory) (fresh : listingOf m (dirText file) = none) :
    (∀ sorted : List BackupEntry, sorted.Perm (scanned names) → Sorted sorted →
      keepLoop [] sorted = entries_keep_highest (scanned names)) ∧
    wp (ample names) False (do
        let _ ← backup_dir_get file
        notes calls)
      (fun _ _ m' => ∃ bd, listingOf m' (dirText file) = some bd ∧ Ascending strcmp BackupEntry.base bd.entries ∧
        ∀ file', dirText file' = dirText file → Greatest (Seen names calls) (baseText file') (backup_find bd file')) () m := by
  refine ⟨fun sorted perm order => any_sort perm order (scanned_decimal names),?_⟩
  have first : Represents (entries_keep_highest (scanned names)) (Listed names) :=
    (merged_represents (sortEntries_perm _) (sortEntries_sorted _) (scanned_decimal names)).congr (pairs_scanned names)
  refine wp_seq (backup_dir_get_listed fresh) fun _ _ m' done => ?_
  refine wp_mono (notes_represents calls _ _ m' same done.2 first) ?_
  rintro _ _ m'' ⟨es,found,represents⟩
  exact ⟨_,found,represents.ascending,fun file' _ => represents.search _ file'⟩

/-- The number 3 noted where 10 and 2 are listed. -/
theorem listing_greatest_sample :
    wp (ample ["a.~10~".toList,"b".toList,"a.~2~".toList]) False (do
        let _ ← backup_dir_get "a".toList
        notes [("a".toList,"3".toList)])
      (fun _ _ m' => ∃ bd, listingOf m' (dirText "a".toList) = some bd ∧ Ascending strcmp BackupEntry.base bd.entries ∧
        ∀ file', dirText file' = dirText "a".toList →
          Greatest (Seen ["a.~10~".toList,"b".toList,"a.~2~".toList] [("a".toList,"3".toList)]) (baseText file')
            (backup_find bd file')) () {} := by
  refine (listing_greatest _ "a".toList [("a".toList,"3".toList)] ?_ {} rfl).2
  intro n here
  obtain rfl := List.mem_singleton.mp here
  exact ⟨rfl,by simp,by simp,by simp⟩

end Newfile.Catalog
