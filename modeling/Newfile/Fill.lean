import Newfile.Ranges

/-!
A fill gives exactly the requested size: truncation, growth without blocks,
preallocation and writing in chunks all end with the first bytes of the template's
content followed by NUL.
-/
namespace Newfile.Fill
open Newfile.Program Newfile.Posix Newfile.Process Newfile.Pending Newfile.Fastio Newfile.Template Newfile.Bytes
open Newfile.Copy Newfile.Extents Newfile.Copies Newfile.Batch Newfile.Calls Newfile.Ranges

variable {res : Path → Ino} {k : Kernel} {m : Memory} {dst : Fd}

/-- The first `target` bytes of a content followed by NUL without end, or the content itself. -/
def filled (s : List Byte) (size_given : Bool) (target : Nat) : List Byte :=
  if size_given then (s ++ List.replicate target 0).take target else s

theorem resize_eq (d : List Byte) (n : Nat) : resize d n = (d ++ List.replicate n 0).take n := by
  rw [resize,List.take_append,List.take_replicate]
  congr 2
  omega

theorem resize_grown (d : List Byte) (len : Nat) : resize d (d.length+len) = d ++ List.replicate len 0 := by
  rw [resize,List.take_of_length_le (by omega),Nat.add_sub_cancel_left]

/-! ## Filling with NUL -/

theorem sizeLimit_spec {Q : Option Nat → Kernel → Memory → Prop} (fine : ∀ limit m, Q limit k m) :
    wp (exec res) False sizeLimit Q k m := by
  rw [sizeLimit,wp_bind,wp_get]
  split
  · exact fine _ m
  · rw [wp_bind]
    refine wp_perform (fun e _ => ?_) fun hints x found => ?_
    · dsimp only
      rw [wp_bind,wp_modify]
      exact fine none _
    · cases found
      dsimp only
      rw [wp_bind,wp_modify]
      exact fine _ _

/-- The fast path makes the file as long as the writing path would. -/
theorem fast_alloc_spec (off len : Nat) (at_end : (k.data dst).length = off) :
    wp (exec res) False (fast_alloc dst off len)
      (fun r k' _ => Frame dst k k' ∧ (r = .ok .done → k'.data dst = k.data dst ++ List.replicate len 0) ∧
        (r = .ok .cannot → k' = k)) k m := by
  rw [fast_alloc]
  by_cases zero : len = 0
  · rw [if_pos zero]
    exact ⟨Frame.refl _ _,by simp,fun _ => rfl⟩
  · rw [if_neg zero,wp_bind]
    have tried : ∀ m, wp (exec res) False (fast_alloc.allocated dst off len)
        (fun r k' _ => Frame dst k k' ∧ (r = .ok .done → k'.data dst = k.data dst ++ List.replicate len 0) ∧
          (r = .ok .cannot → k' = k)) k m := by
      intro m
      rw [fast_alloc.allocated,wp_bind]
      refine wp_perform (fun e _ => ?_) fun hints x found => ?_
      · refine ⟨Frame.refl _ _,?_,fun _ => rfl⟩
        simp only [afterFailure]
        split <;> simp
      · cases found
        refine ⟨frame_edit _ _ _,fun _ => ?_,by simp⟩
        have short : (k.data dst).length < off+len := by omega
        rw [data_edit,if_pos short,← at_end,resize_grown]
    refine sizeLimit_spec fun limit m' => ?_
    cases limit with
    | none => exact tried m'
    | some limit =>
      dsimp only
      split
      · exact ⟨Frame.refl _ _,by simp,by simp⟩
      · exact tried m'

/-- Chunk by chunk the file comes to hold `s`, which has only NUL from `pos` on. -/
theorem fillLoop_spec {s : List Byte} {start pwrites bufsize : Nat} (buffer : 0 < bufsize) (large : bufsize < pwrites) :
    ∀ (fuel pos remaining : Nat) (k : Kernel) (m : Memory), remaining < fuel → pos+remaining = s.length →
      s.drop pos = List.replicate remaining 0 → Copied dst s start k pos →
      wp (exec res) False (fillLoop pwrites dst bufsize fuel pos remaining)
        (fun r k' _ => Keeps dst k (fun _ k' => Copied dst s start k' s.length) r k') k m := by
  intro fuel
  induction fuel with
  | zero => intro pos remaining k m enough; omega
  | succ fuel ih =>
    intro pos remaining k m enough whole rest copied
    rw [fillLoop]
    by_cases done : remaining = 0
    · rw [if_pos done]
      have ended : pos = s.length := by omega
      rw [ended] at copied
      exact wp_ok (Frame.refl _ _) copied
    · rw [if_neg done]
      dsimp only
      rw [wp_bind]
      have length : (List.replicate (min remaining bufsize) (0 : Byte)).length = min remaining bufsize :=
        List.length_replicate
      have next : List.replicate (min remaining bufsize) (0 : Byte) =
          (s.drop pos).take (List.replicate (min remaining bufsize) (0 : Byte)).length := by
        rw [rest,length,List.take_replicate]
        congr 1
        omega
      have later : s.drop (pos+min remaining bufsize) = List.replicate (remaining-min remaining bufsize) 0 := by
        rw [← List.drop_drop,rest,List.drop_replicate]
      refine wp_mono (io_pwrite_spec next (by omega) copied) fun r k' m' keeps => ?_
      obtain ⟨frame,good⟩ := keeps
      cases r with
      | error e => exact wp_error frame
      | ok _ =>
        have written := good () rfl
        rw [length] at written
        exact wp_mono (ih _ _ k' m' (by omega) (by omega) later written) fun r k'' m'' keeps => keeps.after frame

/-- Both paths of `io_fill` append so many bytes of NUL. -/
theorem io_fill_spec {fuel off len : Nat} (at_end : (k.data dst).length = off) (enough : len < fuel) :
    wp (exec res) False (io_fill fuel dst off len)
      (fun r k' _ => Keeps dst k (fun _ k' => k'.data dst = k.data dst ++ List.replicate len 0) r k') k m := by
  rw [io_fill]
  by_cases zero : len = 0
  · rw [if_pos zero]
    exact wp_ok (Frame.refl _ _) (by simp [zero])
  · rw [if_neg zero,wp_bind]
    refine wp_mono (fast_alloc_spec off len at_end) fun r k' m' tried => ?_
    obtain ⟨frame,done,cannot⟩ := tried
    cases r with
    | error e => exact wp_error frame
    | ok fast =>
      cases fast with
      | done => exact wp_ok frame (done rfl)
      | cannot =>
        obtain rfl := cannot rfl
        dsimp only
        rw [wp_bind]
        refine io_bufsize_spec fun bufsize buffer => ?_
        rw [wp_bind]
        refine wp_allocate (fun e => wp_error (Frame.refl _ _)) ?_
        dsimp only
        have total : (k'.data dst ++ List.replicate len 0).length = off+len := by simp [at_end]
        have zeros : (k'.data dst ++ List.replicate len 0).drop off = List.replicate len 0 := by
          rw [← at_end,List.drop_left]
        have covers : Covers (k'.data dst) (k'.data dst ++ List.replicate len 0) off := by
          refine ⟨by omega,fun j below => ?_⟩
          rw [getD_append,if_pos (by omega)]
        refine wp_mono (fillLoop_spec (by omega) (by omega) fuel off len k' m' enough total.symm zeros
          (Covers.copied covers)) fun r k'' m'' keeps => ?_
        obtain ⟨frame',good⟩ := keeps
        refine ⟨frame',fun a returned => ?_⟩
        have copied := good a returned
        exact Covers.eq copied.covers rfl (copied.full (by omega)).1

theorem apply_size_spec {fuel target : Nat} {sparse tail_hole filled : Bool} (plain : (k.files dst.ino).excess = 0)
    (blank : filled = false → k.data dst = []) (enough : target < fuel) :
    wp (exec res) False (apply_size fuel dst target sparse tail_hole filled)
      (fun r k' _ => Keeps dst k (fun _ k' => k'.data dst = resize (k.data dst) target) r k') k m := by
  have sized : wp (exec res) False (apply_size.sized fuel dst target sparse tail_hole (k.data dst).length)
      (fun r k' _ => Keeps dst k (fun _ k' => k'.data dst = resize (k.data dst) target) r k') k m := by
    rw [apply_size.sized]
    split
    · refine wp_ftruncate (fun e => ⟨Frame.refl _ _,by simp⟩) ⟨frame_edit _ _ _,fun _ _ => ?_⟩
      exact data_edit _ _ _
    · rename_i grows
      have whole : target = (k.data dst).length+(target-(k.data dst).length) := by omega
      refine wp_mono (io_fill_spec rfl (by omega)) fun r k' m' keeps => ⟨keeps.1,fun a returned => ?_⟩
      have grown : k'.data dst = k.data dst ++ List.replicate (target-(k.data dst).length) 0 := keeps.2 a returned
      dsimp only
      rw [grown,← resize_grown,← whole]
  rw [apply_size]
  split
  · rw [wp_bind]
    refine wp_fstat (fun e => wp_error (Frame.refl _ _)) fun hints => ?_
    simp only [Kernel.statOf,plain,Nat.add_zero]
    exact sized
  · rename_i unfilled
    have zero : (k.data dst).length = 0 := by rw [blank (by simpa using unfilled)]; rfl
    rw [zero] at sized
    exact sized

/-! ## The whole fill -/

/-- A new file, and a template that has the bytes `s` to give: without a template there are none. -/
structure Prepared (fuel : Nat) (spec : FileSpec) (s : List Byte) (dst : Fd) (k : Kernel) : Prop where
  blank : k.data dst = []
  plain : (k.files dst.ino).excess = 0
  gives : ∀ tmpl, spec.tmpl = some tmpl → Gives fuel s tmpl dst k
  empty : spec.tmpl = none → s = []
  enough : spec.size < fuel

/-- How the file stands after a fill that succeeded. -/
structure Exactly (dst : Fd) (s : List Byte) (k : Kernel) : Prop where
  content : k.data dst = s
  size : k.size dst = s.length

theorem fill_one_spec {fuel : Nat} {spec : FileSpec} {s : List Byte} (prepared : Prepared fuel spec s dst k) :
    wp (exec res) False (fill_one fuel dst spec)
      (fun r k' _ => r = .ok () → Exactly dst (filled s spec.size_given spec.size) k') k m := by
  obtain ⟨blank,plain,gives,empty,enough⟩ := prepared
  have sized : ∀ (k : Kernel) (m : Memory), (k.files dst.ino).excess = 0 → k.data dst = s →
      wp (exec res) False (fill_one.sized fuel dst spec)
        (fun r k' _ => r = .ok () → Exactly dst (filled s spec.size_given spec.size) k') k m := by
    intro k m plain holds
    rw [fill_one.sized]
    by_cases given : spec.size_given = true
    · rw [if_pos given,wp_bind]
      have blank : spec.tmpl.isSome = false → k.data dst = [] := fun without => by
        rw [holds]
        exact empty (by simpa using without)
      refine wp_mono (apply_size_spec plain blank enough) fun r k' m' keeps => ?_
      obtain ⟨frame,good⟩ := keeps
      cases r with
      | error e => simp
      | ok _ =>
        intro _
        have content : k'.data dst = filled s spec.size_given spec.size := by
          rw [good () rfl,holds,filled,if_pos given,resize_eq]
        exact ⟨content,by rw [Kernel.size,frame.excess,plain,content]; rfl⟩
    · rw [if_neg given]
      intro _
      have same : filled s spec.size_given spec.size = s := if_neg given
      rw [same]
      exact ⟨holds,by rw [Kernel.size,plain,holds]; rfl⟩
  rw [fill_one]
  cases used : spec.tmpl with
  | none => exact sized k m plain (blank.trans (empty used).symm)
  | some tmpl =>
    dsimp only
    rw [wp_bind]
    refine wp_mono (gives_spec (gives tmpl used)) fun r k' m' done => ?_
    obtain ⟨⟨off,frame⟩,arrived⟩ := done
    cases r with
    | error e => simp
    | ok _ => exact sized k' m' (frame.excess.trans plain) (arrived rfl)

theorem Gives.other {fuel : Nat} {s : List Byte} {tmpl : Tmpl} (gives : Gives fuel s tmpl dst k) :
    tmpl.fd.ino ≠ dst.ino ∧ (tmpl.kind ≠ .TMPL_STREAM → tmpl.size = k.size tmpl.fd) := by
  by_cases stream : tmpl.kind = .TMPL_STREAM
  · simp only [Gives,stream,↓reduceIte] at gives
    obtain ⟨_,_,flowing⟩ := gives
    exact ⟨flowing.other,fun other => absurd stream other⟩
  · simp only [Gives,stream,↓reduceIte] at gives
    exact ⟨gives.1.other,fun _ => gives.2.2.1⟩

theorem fill_one_asks {src : Ino} {size fuel : Nat} {spec : FileSpec} (aside : dst.ino ≠ src) (small : size ≤ OFF_MAX)
    (fits : spec.size ≤ OFF_MAX)
    (known : ∀ tmpl, spec.tmpl = some tmpl → tmpl.fd.ino = src ∧ (tmpl.kind ≠ .TMPL_STREAM → tmpl.size = size)) :
    asks (Sane src size) (Allowed src) (fill_one fuel dst spec) fun _ => True := by
  have sized : asks (Sane src size) (Allowed src) (fill_one.sized fuel dst spec) fun _ => True := by
    rw [fill_one.sized]
    split
    · rw [asks_bind]
      refine asks_mono (apply_size_asks aside fits) fun r _ => ?_
      cases r <;> trivial
    · trivial
  rw [fill_one]
  cases used : spec.tmpl with
  | none => exact sized
  | some tmpl =>
    obtain ⟨here,whole⟩ := known tmpl used
    dsimp only
    rw [asks_bind]
    refine asks_mono (tmpl_apply_asks here aside whole small) fun r _ => ?_
    cases r with
    | error e => trivial
    | ok _ => exact sized

/-- Every call of a fill stays among the offsets. -/
theorem fill_one_inRange {fuel : Nat} {spec : FileSpec} {s : List Byte} (prepared : Prepared fuel spec s dst k)
    (small : ∀ fd, k.size fd ≤ OFF_MAX) (fits : spec.size ≤ OFF_MAX) {evs : List (Event posix)}
    {t : Config posix Kernel Memory (Except (Nat × Errno) Unit)}
    (run : Run (limited res) ⟨fill_one fuel dst spec,k,m⟩ evs t) : ∀ e ∈ evs, InRange e.call := by
  cases used : spec.tmpl with
  | none =>
    -- Without a template any other file will do.
    have asked : asks (Sane (dst.ino+1) _) (Allowed _) (fill_one fuel dst spec) fun _ => True :=
      fill_one_asks (Nat.ne_of_lt (Nat.lt_succ_self _)) (small ⟨0,dst.ino+1⟩) fits (by simp [used])
    exact fun e member => (asks_run limited_steady run ⟨rfl,small⟩ asked e member).1
  | some tmpl =>
    obtain ⟨other,whole⟩ := Gives.other (prepared.gives tmpl used)
    have known : ∀ tmpl', spec.tmpl = some tmpl' →
        tmpl'.fd.ino = tmpl.fd.ino ∧ (tmpl'.kind ≠ .TMPL_STREAM → tmpl'.size = k.size tmpl.fd) := by
      intro tmpl' same
      obtain rfl := Option.some.inj (used.symm.trans same)
      exact ⟨rfl,whole⟩
    have asked : asks (Sane tmpl.fd.ino _) (Allowed _) (fill_one fuel dst spec) fun _ => True :=
      fill_one_asks other.symm (small tmpl.fd) fits known
    exact fun e member => (asks_run limited_steady run ⟨rfl,small⟩ asked e member).1

/-- Whatever the calls answer, a fill with loops long enough for the size ends. If it
    succeeds the file holds the first bytes of the template's content followed by NUL, as
    many as were asked for; every range on the way lies among the offsets; and `io_fill`
    leaves the same file by either path. -/
theorem fill_one_exact (fuel : Nat) (spec : FileSpec) (s : List Byte) (prepared : Prepared fuel spec s dst k)
    (small : ∀ fd, k.size fd ≤ OFF_MAX) (fits : spec.size ≤ OFF_MAX) :
    (∀ evs t, Run (limited res) ⟨fill_one fuel dst spec,k,m⟩ evs t →
      t.prog ≠ .spin ∧ (∀ e ∈ evs, InRange e.call) ∧
        (t.prog = .ret (.ok ()) → t.kernel.data dst = filled s spec.size_given spec.size ∧
          t.kernel.size dst = if spec.size_given then spec.size else s.length)) ∧
    ∀ k m off len evs evs' t t', (k.data dst).length = off → len < fuel →
      Run (limited res) ⟨io_fill fuel dst off len,k,m⟩ evs t → t.prog = .ret (.ok ()) →
      Run (limited res) ⟨io_fill fuel dst off len,k,m⟩ evs' t' → t'.prog = .ret (.ok ()) →
      t.kernel.data dst = t'.kernel.data dst ∧ t.kernel.size dst = t'.kernel.size dst := by
  constructor
  · intro evs t run
    have reached := wp_run run (wp_restrict (fun _ _ _ _ answered => answered.1) (fill_one_spec prepared))
    refine ⟨fun spun => ?_,fill_one_inRange prepared small fits run,fun done => ?_⟩
    · rw [spun] at reached
      exact reached
    · rw [done] at reached
      obtain ⟨content,size⟩ := reached rfl
      refine ⟨content,size.trans ?_⟩
      rw [filled]
      split
      · simp
      · rfl
  · intro k m off len evs evs' t t' at_end enough run done run' done'
    have appends : ∀ {evs t}, Run (limited res) ⟨io_fill fuel dst off len,k,m⟩ evs t → t.prog = .ret (.ok ()) →
        t.kernel.data dst = k.data dst ++ List.replicate len 0 ∧
          (t.kernel.files dst.ino).excess = (k.files dst.ino).excess := by
      intro evs t run done
      have reached := wp_run run (wp_restrict (fun _ _ _ _ answered => answered.1) (io_fill_spec at_end enough))
      rw [done] at reached
      exact ⟨reached.2 () rfl,reached.1.excess⟩
    obtain ⟨content,excess⟩ := appends run done
    obtain ⟨content',excess'⟩ := appends run' done'
    exact ⟨content.trans content'.symm,by rw [Kernel.size,Kernel.size,content,content',excess,excess']⟩

/-- A template of three bytes, open, and a new file. -/
def sampleKernel : Kernel where
  names := []
  files := fun i => if i = 1 then { data := [7,0,9] } else {}
  next := 3
  nfds := 2
  opened := [1,0]
  offset := fun _ => 0
  safe := []
  journal := []

/-- Five bytes are asked for. -/
def sampleSpec : FileSpec := { size := 5, size_given := true, tmpl := some ⟨3,.TMPL_EXTENTS,⟨0,1⟩,true,false⟩ }

theorem sample_prepared : Prepared 9 sampleSpec [7,0,9] ⟨1,2⟩ sampleKernel := by
  refine ⟨rfl,rfl,?_,by simp [sampleSpec],by decide⟩
  rintro _ ⟨⟩
  exact ⟨⟨by decide,rfl⟩,rfl,rfl,by decide⟩

theorem sample_small (fd : Fd) : sampleKernel.size fd ≤ OFF_MAX := by
  have bound : sampleKernel.size fd ≤ 3 := by
    simp only [Kernel.size,Kernel.data,sampleKernel]
    split <;> simp
  exact Nat.le_trans bound (by decide)

theorem small_edit {k : Kernel} (small : ∀ fd, k.size fd ≤ OFF_MAX) (i : Ino) (f : List Byte → List Byte)
    (fits : (f (k.files i).data).length+(k.files i).excess ≤ OFF_MAX) (fd : Fd) : (k.edit i f).size fd ≤ OFF_MAX := by
  by_cases here : fd.ino = i
  · simpa [Kernel.size,Kernel.data,Kernel.edit,Kernel.alter,here] using fits
  · simpa [Kernel.size,Kernel.data,Kernel.edit,Kernel.alter,here] using small fd

/-- The template is copied in one piece, and the size limit allows two bytes to be reserved. -/
theorem fill_one_exact_sample :
    ∃ evs t, Run (limited fun _ => 0) ⟨fill_one 9 ⟨1,2⟩ sampleSpec,sampleKernel,{}⟩ evs t ∧
      t.prog = .ret (.ok ()) ∧ t.kernel.data ⟨1,2⟩ = [7,0,9,0,0] := by
  have copied := small_edit sample_small 2 (writeAt · 0 [7,0,9]) (by decide)
  have grown := small_edit copied 2 (fun data => if data.length < 3+2 then resize data (3+2) else data) (by decide)
  have run : Run (limited fun _ => 0) ⟨fill_one 9 ⟨1,2⟩ sampleSpec,sampleKernel,{}⟩ _ _ :=
    .call ⟨⟨.fail .EINVAL,rfl⟩,sample_small⟩ (.call ⟨⟨.ok [3],rfl⟩,copied⟩ (.call ⟨⟨.ok [],rfl⟩,copied⟩
      (.mem (.call ⟨⟨.ok [],rfl⟩,copied⟩ (.mem (.call ⟨⟨.ok [],rfl⟩,grown⟩ (.refl _)))))))
  refine ⟨_,_,run,rfl,?_⟩
  exact (((fill_one_exact 9 sampleSpec [7,0,9] sample_prepared sample_small (by decide)).1 _ _ run).2.2 rfl).1

end Newfile.Fill
