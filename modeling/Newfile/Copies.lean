import Newfile.Extents

/-!
From the template's name to the operands' contents: `tmpl_open` chooses how to
copy and spools what cannot be read twice, and every `tmpl_apply` that follows
gives an empty file the template's content.
-/
namespace Newfile.Copies
open Newfile.Program Newfile.Posix Newfile.Process Newfile.Pending Newfile.Fastio Newfile.Template Newfile.Bytes
open Newfile.Copy Newfile.Extents

/-- A copy of the template into each of some new files. -/
def copies (fuel : Nat) (tmpl : Tmpl) : List Path → P (List (Fd × Except Errno Unit))
  | [] => return []
  | path :: paths => do
    match ← perform (.open_excl path 0o600) with
    | .error _ => copies fuel tmpl paths
    | .ok fd =>
      let r ← tmpl_apply fuel tmpl fd
      let rest ← copies fuel tmpl paths
      return (fd,r) :: rest

/-- What `main` does with a template and some operands, as far as contents go. -/
def templateRun (fuel : Nat) (stdin : Fd) (tmpdir : Option Path) (path : Path) (paths : List Path) :
    P (Except Errno (List (Fd × Except Errno Unit))) := do
  match ← tmpl_open fuel stdin tmpdir path (decide (1 < paths.length)) with
  | .error e => return .error e
  | .ok tmpl => return .ok (← copies fuel tmpl paths)

/-- A descriptor in use that still has the bytes `s` to read. -/
structure Origin (k : Kernel) (fd : Fd) (s : List Byte) : Prop where
  ino : fd.ino < k.next
  num : fd.num < k.nfds
  rest : (k.data fd).drop (k.offset fd.num) = s

variable {res : Path → Ino} {k : Kernel} {m : Memory}

/-! ## New files -/

/-- A new file and its descriptor: everything older is as it was. -/
structure Fresh (k : Kernel) (dst : Fd) (k' : Kernel) : Prop where
  ino : dst.ino = k.next
  num : dst.num = k.nfds
  next : k'.next = k.next+1
  nfds : k'.nfds = k.nfds+1
  data : k'.data dst = []
  excess : (k'.files dst.ino).excess = 0
  start : k'.offset dst.num = 0
  files : ∀ j, j < k.next → k'.files j = k.files j
  offset : ∀ n, n < k.nfds → k'.offset n = k.offset n

theorem fresh_newFile (k : Kernel) (mode : Mode) (uid gid : Nat) :
    Fresh k (k.newFile { mode, uid, gid }).1 (k.newFile { mode, uid, gid }).2 := by
  refine ⟨rfl,rfl,rfl,rfl,?_,?_,?_,fun j old => ?_,fun n old => ?_⟩
  · simp [Kernel.data,Kernel.newFile,Kernel.newFd]
  · simp [Kernel.newFile,Kernel.newFd]
  · simp [Kernel.newFile,Kernel.newFd]
  · simp [Kernel.newFile,Kernel.newFd,Nat.ne_of_lt old]
  · simp [Kernel.newFile,Kernel.newFd,Nat.ne_of_lt old]

theorem Fresh.assign {dst : Fd} {k' : Kernel} (fresh : Fresh k dst k') (g : Group) : Fresh k dst (k'.assign g) :=
  ⟨fresh.ino,fresh.num,fresh.next,fresh.nfds,fresh.data,fresh.excess,fresh.start,fresh.files,fresh.offset⟩

theorem Fresh.origin {dst src : Fd} {s : List Byte} {k' : Kernel} (fresh : Fresh k dst k') (origin : Origin k src s) :
    Origin k' src s := by
  obtain ⟨ino,num,rest⟩ := origin
  refine ⟨by rw [fresh.next]; exact Nat.lt_succ_of_lt ino,by rw [fresh.nfds]; exact Nat.lt_succ_of_lt num,?_⟩
  rw [Kernel.data,fresh.files _ ino,fresh.offset _ num]
  exact rest

theorem Fresh.flowing {dst src : Fd} {s : List Byte} {k' : Kernel} (fresh : Fresh k dst k') (origin : Origin k src s) :
    Flowing dst src s (k'.offset src.num) 0 k' := by
  have moved := fresh.origin origin
  have empty : Covers (k'.data dst) s 0 := by rw [fresh.data]; exact covers_nil s
  refine ⟨?_,?_,moved.rest,rfl,Covers.copied empty,fresh.start,Nat.zero_le _⟩
  · rw [fresh.ino]
    exact Nat.ne_of_lt origin.ino
  · rw [fresh.num]
    exact Nat.ne_of_lt origin.num

/-! ## Spooling -/

theorem spool_open_spec (tmpdir : Option Path) {Q : Except Errno Fd → Kernel → Memory → Prop}
    (failed : ∀ e m, Q (.error e) k m) (fine : ∀ dst k' m, Fresh k dst k' → Q (.ok dst) k' m) :
    wp (exec res) False (spool_open tmpdir) Q k m := by
  rw [spool_open,fast_spool,wp_bind,wp_bind]
  refine wp_perform (fun e _ => ?_) fun hints x found => ?_
  · dsimp only
    split
    · simp only [wp_pure]
      rw [wp_bind]
      refine wp_allocate (fun e => failed e m) ?_
      dsimp only
      rw [pending_hold,wp_bind,wp_bind,wp_get,wp_bind,wp_modify,wp_pure,wp_bind]
      refine wp_perform (fun e _ => failed e _) fun hints x found => ?_
      simp only [answer,Option.ite_none_right_eq_some,Option.some.injEq] at found
      obtain ⟨_,rfl⟩ := found
      dsimp only
      rw [wp_bind]
      refine wp_perform (fun e _ => ?_) fun hints' x found => ?_
      · exact fine _ _ _ ((fresh_newFile k 0o600 0 0).assign _)
      · simp only [answer,Option.ite_none_right_eq_some,Option.some.injEq] at found
        obtain ⟨_,rfl⟩ := found
        exact fine _ _ _ (((fresh_newFile k 0o600 0 0).assign _).assign _)
    · exact failed e m
  · cases found
    exact fine _ _ m (fresh_newFile k 0 0 0)

/-- A spooled source: a new file holds all that was left to read. -/
structure Spooled (k : Kernel) (src dst : Fd) (s : List Byte) (size : Nat) (k' : Kernel) : Prop where
  data : k'.data dst = s
  whole : size = k'.size dst
  exact_ : size = s.length
  ino : dst.ino < k'.next
  num : dst.num < k'.nfds

theorem wp_close {fd : Fd} {spins : Prop} {Q : Except Errno Unit → Kernel → Memory → Prop}
    (failed : ∀ e, Q (.error e) (k.closeFd fd) m) (fine : Q (.ok ()) (k.closeFd fd) m) :
    wp (exec res) spins (perform (.close fd)) Q k m := by
  refine wp_perform (fun e _ => failed e) fun hints x found => ?_
  cases found
  exact fine

private theorem spoolEnd_spec {src dst : Fd} {s : List Byte} {k k' : Kernel} {m : Memory} (r : Except Errno Unit)
    (fresh : dst.ino < k'.next ∧ dst.num < k'.nfds ∧ (k'.files dst.ino).excess = 0) (arrived : r = .ok () → Arrived dst s k') :
    wp (exec res) False (spoolEnd dst r) (fun r k' _ => ∀ x, r = .ok x → Spooled k src x.1 s x.2 k') k' m := by
  cases r with
  | error e =>
    rw [spoolEnd,wp_bind]
    exact wp_close (fun e => by simp [wp_pure]) (by simp [wp_pure])
  | ok _ =>
    have data := arrived rfl
    rw [spoolEnd,wp_bind]
    refine wp_fstat (fun e => ?_) fun hints => ?_
    · dsimp only
      rw [wp_bind]
      exact wp_close (fun e => by simp [wp_pure]) (by simp [wp_pure])
    · rintro _ ⟨⟩
      refine ⟨data,rfl,?_,fresh.1,fresh.2.1⟩
      have length := congrArg List.length data
      simp only [Kernel.statOf,fresh.2.2,Nat.add_zero]
      exact length

theorem spool_spec {fuel : Nat} {src : Fd} {s : List Byte} (tmpdir : Option Path) (enough : s.length < fuel)
    (origin : Origin k src s) :
    wp (exec res) False (spool fuel tmpdir src) (fun r k' _ => ∀ x, r = .ok x → Spooled k src x.1 s x.2 k') k m := by
  rw [spool,wp_bind]
  refine spool_open_spec tmpdir (fun e m => by simp [wp_pure]) fun dst k1 m fresh => ?_
  have flowing := fresh.flowing origin
  have bounds : ∀ {k2}, Drained dst src k1 k2 →
      dst.ino < k2.next ∧ dst.num < k2.nfds ∧ (k2.files dst.ino).excess = 0 := by
    rintro k2 ⟨off,frame⟩
    have next : k2.next = k1.next := frame.next
    have nfds : k2.nfds = k1.nfds := frame.nfds
    have excess : (k2.files dst.ino).excess = (k1.files dst.ino).excess := frame.excess
    rw [next,nfds,excess,fresh.next,fresh.nfds,fresh.ino,fresh.num]
    exact ⟨Nat.lt_succ_self _,Nat.lt_succ_self _,fresh.ino ▸ fresh.excess⟩
  dsimp only
  rw [fast_splice,wp_bind]
  refine wp_mono (spliceLoop_spec fuel 0 false k1 m (by omega) (fun _ => rfl) flowing) fun r k2 m done => ?_
  obtain ⟨drained,arrived,again⟩ := done
  cases r with
  | error e => exact spoolEnd_spec (.error e) (bounds drained) (by simp)
  | ok fast =>
    cases fast with
    | done => exact spoolEnd_spec (.ok ()) (bounds drained) fun _ => arrived rfl
    | cannot =>
      dsimp only
      rw [wp_bind]
      refine wp_mono (copy_stream_spec enough (again rfl)) fun r k3 m done => ?_
      exact spoolEnd_spec r (bounds (drained.trans done.1)) done.2

/-! ## Opening the template -/

/-- A template that can be copied again and again holds the bytes `s`. -/
structure Kept (fuel : Nat) (s : List Byte) (tmpl : Tmpl) (k : Kernel) : Prop where
  ino : tmpl.fd.ino < k.next
  data : k.data tmpl.fd = s
  size : tmpl.size = k.size tmpl.fd
  enough : k.size tmpl.fd+1 < fuel

/-- What `tmpl_open` returns: a stream serves a single operand only. -/
def Ready (fuel : Nat) (s : List Byte) (repeat_ : Bool) (tmpl : Tmpl) (k : Kernel) : Prop :=
  if tmpl.kind = .TMPL_STREAM then repeat_ = false ∧ Origin k tmpl.fd s ∧ s.length < fuel else Kept fuel s tmpl k

private theorem openFail_spec {fuel : Nat} {s : List Byte} {repeat_ : Bool} (fd : Fd) (owned : Bool) (e : Errno) :
    wp (exec res) False (openFail fd owned e) (fun r k' _ => ∀ tmpl, r = .ok tmpl → Ready fuel s repeat_ tmpl k') k m := by
  rw [openFail]
  split
  · rw [wp_bind]
    exact wp_close (fun e => by simp [wp_pure]) (by simp [wp_pure])
  · simp [wp_pure]

/-- Looking for a gap changes nothing. -/
private theorem seek_spec {fd : Fd} {off : Nat} {f : Except Errno Nat → P Bool} {Q : Bool → Kernel → Memory → Prop}
    (pure_ : ∀ r, ∃ b, f r = pure b) (fine : ∀ b, Q b k m) :
    wp (exec res) False (perform (.lseek_data fd off) >>= f) Q k m := by
  rw [wp_bind]
  refine wp_perform (fun e _ => ?_) fun hints x found => ?_
  · obtain ⟨b,same⟩ := pure_ (.error e)
    change wp (exec res) False (f (.error e)) Q k m
    rw [same]
    exact fine b
  · simp only [answer,Option.ite_none_right_eq_some,Option.some.injEq] at found
    obtain ⟨_,rfl⟩ := found
    obtain ⟨b,same⟩ := pure_ (.ok (hints.getD 0 0))
    change wp (exec res) False (f (.ok (hints.getD 0 0))) Q k m
    rw [same]
    exact fine b

private theorem openData_spec {fuel size : Nat} {fd : Fd} {s : List Byte} {owned repeat_ : Bool} (sparse : Bool)
    (kept : ∀ kind tail_hole, Kept fuel s ⟨size,kind,fd,owned,tail_hole⟩ k) :
    wp (exec res) False (openData fd owned size sparse)
      (fun r k' _ => ∀ tmpl, r = .ok tmpl → Ready fuel s repeat_ tmpl k') k m := by
  rw [openData]
  split
  · rw [wp_bind,tail_zero,wp_bind]
    refine wp_pread (fun e => ?_) fun bytes _ _ _ => ?_ <;>
      · rintro _ ⟨⟩
        exact kept .TMPL_ZEROS _
  · rw [wp_bind,hole_tail]
    split
    · rintro _ ⟨⟩
      exact kept .TMPL_EXTENTS _
    · refine seek_spec (fun r => by cases r <;> exact ⟨_,rfl⟩) fun b => ?_
      rintro _ ⟨⟩
      exact kept .TMPL_EXTENTS _

theorem openTmpl_spec {fuel : Nat} {fd : Fd} {s : List Byte} (tmpdir : Option Path) (repeat_ owned : Bool) {at_start : Bool}
    (enough : k.size fd+1 < fuel) (origin : Origin k fd s) (start : at_start = true → k.offset fd.num = 0) :
    wp (exec res) False (openTmpl fuel tmpdir repeat_ fd owned at_start)
      (fun r k' _ => ∀ tmpl, r = .ok tmpl → Ready fuel s repeat_ tmpl k') k m := by
  have short : s.length ≤ k.size fd := by
    rw [← origin.rest,List.length_drop,Kernel.size]
    omega
  rw [openTmpl,wp_bind]
  refine wp_fstat (fun e => openFail_spec fd owned e) fun hints => ?_
  dsimp only
  split
  · exact openFail_spec fd owned _
  · split
    · rename_i regular
      have data : k.data fd = s := by
        have := origin.rest
        rwa [start regular.1,List.drop_zero] at this
      have kept : ∀ kind tail_hole, Kept fuel s ⟨k.size fd,kind,fd,owned,tail_hole⟩ k := fun _ _ =>
        ⟨origin.ino,data,rfl,enough⟩
      split
      · rw [wp_bind,hole_unknown]
        exact seek_spec (fun r => by cases r <;> exact ⟨_,rfl⟩) fun b => openData_spec b kept
      · exact openData_spec false kept
    · split
      · rw [wp_bind]
        refine wp_mono (spool_spec tmpdir (by omega) origin) fun r k' m' spooled => ?_
        cases r with
        | error e => exact openFail_spec fd owned e
        | ok x =>
          obtain ⟨data,whole,exact_,ino,num⟩ := spooled x rfl
          have kept : ∀ k'', k''.files = k'.files → k''.next = k'.next →
              Kept fuel s ⟨x.2,.TMPL_EXTENTS,x.1,true,false⟩ k'' := by
            intro k'' files next
            have size : k''.size x.1 = k'.size x.1 := by simp [Kernel.size,Kernel.data,files]
            refine ⟨by rw [next]; exact ino,by rw [Kernel.data,files]; exact data,?_,?_⟩
            · rw [size]
              exact whole
            · rw [size]
              rw [← whole]
              omega
          dsimp only
          split
          · rw [wp_bind]
            refine wp_close (fun e => ?_) ?_ <;>
              · rintro _ ⟨⟩
                exact kept _ rfl rfl
          · rintro _ ⟨⟩
            exact kept _ rfl rfl
      · rename_i single
        rintro _ ⟨⟩
        exact ⟨by simpa using single,origin,by omega⟩

/-! ## Applying the template -/

/-- The template has the bytes `s` to give to the new file of `dst`. -/
def Gives (fuel : Nat) (s : List Byte) (tmpl : Tmpl) (dst : Fd) (k : Kernel) : Prop :=
  if tmpl.kind = .TMPL_STREAM then
    s.length < fuel ∧ ∃ from_, Flowing dst tmpl.fd s from_ 0 k
  else Source dst tmpl.fd s k ∧ k.data dst = [] ∧ tmpl.size = k.size tmpl.fd ∧ k.size tmpl.fd+1 < fuel

theorem Ready.gives {fuel : Nat} {s : List Byte} {repeat_ : Bool} {tmpl : Tmpl} {dst : Fd} {k' : Kernel}
    (ready : Ready fuel s repeat_ tmpl k) (fresh : Fresh k dst k') : Gives fuel s tmpl dst k' := by
  by_cases stream : tmpl.kind = .TMPL_STREAM
  · simp only [Ready,stream,↓reduceIte] at ready
    simp only [Gives,stream,↓reduceIte]
    exact ⟨ready.2.2,_,fresh.flowing ready.2.1⟩
  · simp only [Ready,stream,↓reduceIte] at ready
    simp only [Gives,stream,↓reduceIte]
    obtain ⟨ino,data,size,enough⟩ := ready
    have older : k'.files tmpl.fd.ino = k.files tmpl.fd.ino := fresh.files _ ino
    have sameSize : k'.size tmpl.fd = k.size tmpl.fd := by simp [Kernel.size,Kernel.data,older]
    rw [sameSize]
    refine ⟨⟨by rw [fresh.ino]; exact Nat.ne_of_lt ino,?_⟩,fresh.data,size,enough⟩
    rw [Kernel.data,older]
    exact data

/-- Only the new file and the offsets of the two descriptors have changed. -/
theorem gives_spec {fuel : Nat} {s : List Byte} {tmpl : Tmpl} {dst : Fd} (gives : Gives fuel s tmpl dst k) :
    wp (exec res) False (tmpl_apply fuel tmpl dst)
      (fun r k' _ => Drained dst tmpl.fd k k' ∧ (r = .ok () → k'.data dst = s)) k m := by
  rw [tmpl_apply]
  cases kind : tmpl.kind with
  | TMPL_STREAM =>
    simp only [Gives,kind,↓reduceIte] at gives
    obtain ⟨enough,_,flowing⟩ := gives
    exact copy_stream_spec enough flowing
  | _ =>
    simp only [Gives,kind] at gives
    obtain ⟨source,empty,size,enough⟩ := gives
    simp only [size]
    first
      | refine wp_mono (copy_extents_spec source enough empty) fun r k' m keeps => ?_
        exact ⟨Frame.drained _ keeps.1,keeps.2 ()⟩
      | refine wp_mono (copy_zeros_spec source enough empty) fun r k' m keeps => ?_
        exact ⟨Frame.drained _ keeps.1,keeps.2 ()⟩

theorem apply_spec {fuel : Nat} {s : List Byte} {repeat_ : Bool} {tmpl : Tmpl} {dst : Fd} {k' : Kernel}
    (ready : Ready fuel s repeat_ tmpl k) (fresh : Fresh k dst k') :
    wp (exec res) False (tmpl_apply fuel tmpl dst)
      (fun r k'' _ => (∀ j, j ≠ dst.ino → k''.files j = k'.files j) ∧ k''.next = k'.next ∧
        (r = .ok () → k''.data dst = s)) k' m := by
  refine wp_mono (gives_spec (ready.gives fresh)) fun r k'' m done => ?_
  obtain ⟨⟨off,frame⟩,arrived⟩ := done
  exact ⟨frame.files,frame.next,arrived⟩

theorem Ready.later {fuel : Nat} {s : List Byte} {repeat_ : Bool} {tmpl : Tmpl} {k' : Kernel}
    (ready : Ready fuel s repeat_ tmpl k) (lasting : tmpl.kind ≠ .TMPL_STREAM)
    (files : ∀ j, j < k.next → k'.files j = k.files j) (next : k.next ≤ k'.next) : Ready fuel s repeat_ tmpl k' := by
  simp only [Ready,lasting,↓reduceIte] at *
  obtain ⟨ino,data,size,enough⟩ := ready
  have same := files _ ino
  have sameSize : k'.size tmpl.fd = k.size tmpl.fd := by simp [Kernel.size,Kernel.data,same]
  refine ⟨Nat.lt_of_lt_of_le ino next,?_,by rw [sameSize]; exact size,by rw [sameSize]; exact enough⟩
  rw [Kernel.data,same]
  exact data

theorem wp_open_excl {path : Path} {mode : Mode} {spins : Prop} {Q : Except Errno Fd → Kernel → Memory → Prop}
    (failed : ∀ e, Q (.error e) k m) (fine : ∀ dst k', Fresh k dst k' → Q (.ok dst) k' m) :
    wp (exec res) spins (perform (.open_excl path mode)) Q k m := by
  refine wp_perform (fun e _ => failed e) fun hints x found => ?_
  simp only [answer,Option.ite_none_right_eq_some,Option.some.injEq] at found
  obtain ⟨_,rfl⟩ := found
  exact fine _ _ ((fresh_newFile k _ _ _).assign _)

/-- Every copy that succeeds holds the template's bytes, and the later copies leave it alone. -/
def AllHold (s : List Byte) (results : List (Fd × Except Errno Unit)) (k' : Kernel) : Prop :=
  ∀ fd, (fd,.ok ()) ∈ results → fd.ino < k'.next ∧ k'.data fd = s

theorem copies_spec {fuel : Nat} {s : List Byte} {repeat_ : Bool} {tmpl : Tmpl} :
    ∀ (paths : List Path) (k : Kernel) (m : Memory), Ready fuel s repeat_ tmpl k → (1 < paths.length → repeat_ = true) →
      wp (exec res) False (copies fuel tmpl paths)
        (fun results k' _ => (∀ j, j < k.next → k'.files j = k.files j) ∧ k.next ≤ k'.next ∧ AllHold s results k') k m := by
  intro paths
  induction paths with
  | nil => exact fun k m _ _ => ⟨fun _ _ => rfl,Nat.le_refl _,by simp [AllHold]⟩
  | cons path paths ih =>
    intro k m ready many
    rw [copies,wp_bind]
    refine wp_open_excl (fun e => ?_) fun dst k1 fresh => ?_
    · exact ih k m ready fun more => many (Nat.lt_succ_of_lt more)
    · dsimp only
      rw [wp_bind]
      refine wp_mono (apply_spec ready fresh) fun r k2 m done => ?_
      obtain ⟨files,next,good⟩ := done
      have older : ∀ j, j < k.next → k2.files j = k.files j := fun j old =>
        (files j (by rw [fresh.ino]; exact Nat.ne_of_lt old)).trans (fresh.files j old)
      have grown : k.next ≤ k2.next := by rw [next,fresh.next]; exact Nat.le_succ _
      have inside : dst.ino < k2.next := by rw [next,fresh.next,fresh.ino]; exact Nat.lt_succ_self _
      rw [wp_bind]
      suffices rest : wp (exec res) False (copies fuel tmpl paths) (fun results k' _ =>
          (∀ j, j < k2.next → k'.files j = k2.files j) ∧ k2.next ≤ k'.next ∧ AllHold s results k') k2 m by
        refine wp_mono rest fun results k3 m later => ?_
        obtain ⟨files',next',hold⟩ := later
        refine ⟨fun j old => (files' j (Nat.lt_of_lt_of_le old grown)).trans (older j old),Nat.le_trans grown next',
          fun fd member => ?_⟩
        rcases List.mem_cons.mp member with here | there
        · obtain ⟨rfl,rfl⟩ := Prod.mk.inj here
          refine ⟨Nat.lt_of_lt_of_le inside next',?_⟩
          rw [Kernel.data,files' _ inside]
          exact good rfl
        · exact hold fd there
      by_cases lasting : tmpl.kind = .TMPL_STREAM
      · -- A stream is read once: there is no further operand.
        have single : repeat_ = false := by
          simp only [Ready,lasting,↓reduceIte] at ready
          exact ready.1
        cases paths with
        | nil => exact ⟨fun _ _ => rfl,Nat.le_refl _,by simp [AllHold]⟩
        | cons path' paths => simp [single] at many
      · exact ih k2 m (ready.later lasting older grown) fun more => many (Nat.lt_succ_of_lt more)

/-! ## The whole run -/

/-- The inode of the template. -/
def templateIno (res : Path → Ino) (k : Kernel) (stdin : Fd) (path : Path) : Option Ino :=
  if path = "-".toList then some stdin.ino else k.names.get (entry res path)

/-- What there is to read of the template: of the standard input, from the current position. -/
def templateBytes (res : Path → Ino) (k : Kernel) (stdin : Fd) (path : Path) : List Byte :=
  if path = "-".toList then (k.data stdin).drop (k.offset stdin.num)
  else ((k.names.get (entry res path)).map fun i => (k.files i).data).getD []

/-- The template is an existing file, and the standard input an open descriptor. -/
structure Start (res : Path → Ino) (k : Kernel) (stdin : Fd) (path : Path) : Prop where
  ino : ∀ i, templateIno res k stdin path = some i → i < k.next
  num : stdin.num < k.nfds

theorem tmpl_open_spec {fuel : Nat} {stdin : Fd} {path : Path} (tmpdir : Option Path) (repeat_ : Bool)
    (start : Start res k stdin path)
    (enough : ∀ i, templateIno res k stdin path = some i → (k.files i).data.length+(k.files i).excess+1 < fuel) :
    wp (exec res) False (tmpl_open fuel stdin tmpdir path repeat_)
      (fun r k' _ => ∀ tmpl, r = .ok tmpl → Ready fuel (templateBytes res k stdin path) repeat_ tmpl k') k m := by
  obtain ⟨ino,num⟩ := start
  rw [tmpl_open,wp_bind]
  refine wp_allocate (fun e => by simp [wp_pure]) ?_
  dsimp only
  by_cases standard : path = "-".toList
  · rw [if_pos standard]
    have ino' := ino stdin.ino (by simp [templateIno,standard])
    have enough' : k.size stdin+1 < fuel := enough stdin.ino (by simp [templateIno,standard])
    have origin : Origin k stdin (templateBytes res k stdin path) := by
      refine ⟨ino',num,?_⟩
      rw [templateBytes,if_pos standard]
    rw [wp_bind]
    refine wp_perform (fun e _ => ?_) fun hints x found => ?_
    · exact openTmpl_spec tmpdir repeat_ false enough' origin (by simp)
    · cases found
      exact openTmpl_spec tmpdir repeat_ false enough' origin (by simp)
  · rw [if_neg standard,wp_bind]
    refine wp_perform (fun e _ => by simp [wp_pure]) fun hints x found => ?_
    simp only [answer] at found
    split at found
    · rename_i i named
      cases found
      have known : templateIno res k stdin path = some i := by rw [templateIno,if_neg standard,named]
      have origin : Origin (k.newFd i).2 (k.newFd i).1 (templateBytes res k stdin path) := by
        refine ⟨ino i known,Nat.lt_succ_self _,?_⟩
        rw [templateBytes,if_neg standard,named]
        simp [Kernel.data,Kernel.newFd]
      exact openTmpl_spec tmpdir repeat_ true (enough i known) origin fun _ => by simp [Kernel.newFd]
    · simp at found

/-- Every run of the copies of a template ends, given loops long enough for the
    template's size, and each copy that succeeds holds what there was to read. -/
theorem templateRun_correct (fuel : Nat) (stdin : Fd) (tmpdir : Option Path) (path : Path) (paths : List Path)
    (start : Start res k stdin path)
    (enough : ∀ i, templateIno res k stdin path = some i → (k.files i).data.length+(k.files i).excess+1 < fuel)
    {evs : List (Event posix)} {t : Config posix Kernel Memory (Except Errno (List (Fd × Except Errno Unit)))}
    (run : Run (exec res) ⟨templateRun fuel stdin tmpdir path paths,k,m⟩ evs t) :
    t.prog ≠ .spin ∧ ∀ results, t.prog = .ret (.ok results) →
      ∀ fd, (fd,.ok ()) ∈ results → t.kernel.data fd = templateBytes res k stdin path := by
  have whole : wp (exec res) False (templateRun fuel stdin tmpdir path paths)
      (fun r k' _ => ∀ results, r = .ok results → AllHold (templateBytes res k stdin path) results k') k m := by
    rw [templateRun,wp_bind]
    refine wp_mono (tmpl_open_spec tmpdir _ start enough) fun r k' m' opened => ?_
    cases r with
    | error e => simp [wp_pure]
    | ok tmpl =>
      dsimp only
      rw [wp_bind]
      refine wp_mono (copies_spec paths k' m' (opened tmpl rfl) fun more => by simpa using more) fun results k2 m2 done => ?_
      rintro _ ⟨⟩
      exact done.2.2
  have reached := wp_run run whole
  refine ⟨fun spun => ?_,fun results done fd member => ?_⟩
  · rw [spun] at reached
    exact reached
  · rw [done] at reached
    exact (reached results rfl fd member).2

/-- A template of three bytes in a directory. -/
def sampleKernel : Kernel where
  names := [((0,"t".toList),1)]
  files := fun _ => { data := [1,0,2] }
  next := 2
  nfds := 1
  opened := [0]
  offset := fun _ => 0
  safe := [((0,"t".toList),1)]
  journal := []

/-- It is copied without looking for gaps, by `copy_file_range` in one piece. -/
def sampleChoices : List Choice :=
  [.done,.done,.done,.fail .EINVAL,.ok [0o600],.fail .EINVAL,.ok [3]]

theorem templateRun_correct_sample :
    let t := play (step fun _ => 0) (templateRun 5 ⟨0,0⟩ none "t".toList ["a".toList]) sampleKernel {} sampleChoices
    t.prog = .ret (.ok [(⟨2,2⟩,.ok ())]) ∧ t.kernel.data ⟨2,2⟩ = [1,0,2] := by
  obtain ⟨evs,run⟩ := play_run (step fun _ => 0) (templateRun 5 ⟨0,0⟩ none "t".toList ["a".toList]) sampleKernel {}
    sampleChoices
  have start : Start (fun _ => 0) sampleKernel ⟨0,0⟩ "t".toList := ⟨by decide,by decide⟩
  have enough : ∀ i, templateIno (fun _ => 0) sampleKernel ⟨0,0⟩ "t".toList = some i →
      (sampleKernel.files i).data.length+(sampleKernel.files i).excess+1 < 5 := fun i _ => Nat.lt_succ_self 4
  exact ⟨rfl,(templateRun_correct 5 ⟨0,0⟩ none "t".toList ["a".toList] start enough run).2 [(⟨2,2⟩,.ok ())] rfl _
    (List.mem_singleton.mpr rfl)⟩

end Newfile.Copies
