import Newfile.Answers
import Newfile.Batches

/-!
What the calls of a run show. The run keeps the ledger whatever the system answers,
so every call that succeeds in changing a name, a file or its mode has the calls
before it to speak for it: nothing is removed that the run has not named itself and
just seen, without `-f` nothing is replaced but a placeholder just made, and no
operand gets a file that is not the run's own and flushed.
-/
namespace Newfile.Evidence
open Newfile.Program Newfile.Posix Newfile.Process Newfile.Pending Newfile.Place Newfile.Backup Newfile.Batch
open Newfile.Effects Newfile.Simulation Newfile.Ledger Newfile.Batches Function

/-! ## Histories -/

section
variable {I : Interface} {R R' : List (Event I) → Event I → Prop} {evs : List (Event I)} {e : Event I}

/-- Of every call it holds what `R` says of a call after others. -/
def Throughout (R : List (Event I) → Event I → Prop) (evs : List (Event I)) : Prop :=
  ∀ pre e post, evs = pre ++ e :: post → R pre e

theorem throughout_nil : Throughout R [] := by
  intro pre e post split_
  simp at split_

theorem Throughout.snoc (before : Throughout R evs) (last : R evs e) : Throughout R (evs ++ [e]) := by
  intro pre e' post split_
  cases post using List.reverseRecOn with
  | nil =>
    obtain ⟨rfl,same⟩ := List.append_inj' split_ rfl
    obtain rfl : e = e' := by simpa using same
    exact last
  | append_singleton post x =>
    rw [← List.cons_append,← List.append_assoc] at split_
    exact before pre e' post (List.append_inj' split_ rfl).1

theorem Throughout.mono (before : Throughout R evs) (weaker : ∀ pre e, R pre e → R' pre e) : Throughout R' evs :=
  fun pre e post split_ => weaker pre e (before pre e post split_)

end

/-! ## What calls have shown -/

variable {paths : List Path} {spec : FileSpec} {evs evs' : List (Event posix)} {m m' : Memory} {g g' : Book} {n : Ino} {p q : Path}

/-- The file was made by a call. -/
def Made (evs : List (Event posix)) (n : Ino) : Prop :=
  ∃ fd : Fd, fd.ino = n ∧ ((∃ q mode, ⟨.open_excl q mode,.ok fd⟩ ∈ evs) ∨ ∃ d mode, ⟨.open_tmpfile d mode,.ok fd⟩ ∈ evs)

/-- The name was looked at, and the file was there. -/
def Looked (evs : List (Event posix)) (p : Path) (n : Ino) : Prop := ∃ st : Stat, ⟨.lstat p,.ok st⟩ ∈ evs ∧ st.ino = n

/-- The name was given to the file: to a new one, or to one that was seen under another name. -/
inductive Gave (evs : List (Event posix)) (q : Path) (n : Ino) : Prop
  | opened {granted : Mode} {fd : Fd} (call : ⟨.open_excl q granted,.ok fd⟩ ∈ evs) (file : fd.ino = n)
  | linked {fd : Fd} (call : ⟨.linkat fd q,.ok ()⟩ ∈ evs) (file : fd.ino = n)
  | copied {a : Path} (looked : Looked evs a n) (call : ⟨.link a q,.ok ()⟩ ∈ evs)
  | exchanged {a : Path} (looked : Looked evs a n) (call : ⟨.rename_exchange q a,.ok ()⟩ ∈ evs)

/-- A file of the run that was flushed, if it has content. -/
def Done (spec : FileSpec) (evs : List (Event posix)) (n : Ino) : Prop :=
  Made evs n ∧ (hasContent spec = true → ∃ fd : Fd, ⟨.fsync fd,.ok ()⟩ ∈ evs ∧ fd.ino = n)

/-- The file was given the mode that the options ask for in the end. -/
def Moded (spec : FileSpec) (evs : List (Event posix)) (n : Ino) (mode : Mode) : Prop :=
  ∃ (fd : Fd) (granted : Mode), fd.ino = n ∧ mode = finalMode spec granted ∧ ⟨.fchmod fd mode,.ok ()⟩ ∈ evs

/-- An operand got its file, under its own name or by way of a temporary one. -/
inductive Got (evs : List (Event posix)) (p : Path) (n : Ino) : Prop
  | named (gave : Gave evs p n)
  | moved {t : Path} (gave : Gave evs t n) (call : ⟨.rename_noreplace t p,.ok ()⟩ ∈ evs ∨ ⟨.link t p,.ok ()⟩ ∈ evs ∨
      ⟨.rename t p,.ok ()⟩ ∈ evs ∨ ⟨.rename_exchange t p,.ok ()⟩ ∈ evs)

/-- A file was just opened under the name and could not be looked at, nor removed. -/
def Abandoned (evs : List (Event posix)) (q : Path) (n : Ino) : Prop :=
  ∃ pre e post, evs = pre ++ ⟨.unlink q,.error e⟩ :: post ∧ JustOpened pre q n false

/-- The names of files that were there before. -/
def Old : Role → Prop
  | .backup | .spare | .twin | .twinned => True
  | _ => False

/-- A name of the run, and the file under it. -/
structure Given (evs : List (Event posix)) (r : Rec) : Prop where
  gave : Gave evs r.path r.ino
  made : ¬Old r.role → Made evs r.ino

/-- What calls have shown of a deed. -/
def Shown (spec : FileSpec) (evs : List (Event posix)) : Deed → Prop
  | .file p n => Done spec evs n ∧ Got evs p n
  | .backup _ b o => Gave evs b o
  | .reused _ b o => ∃ a, Gave evs a o ∧ ⟨.rename a b,.ok ()⟩ ∈ evs
  | .dir q => ⟨.mkdir q,.ok ()⟩ ∈ evs
  | .kept q n | .keptOld q n => Gave evs q n
  | .lost q n => Abandoned evs q n

theorem Made.mono (more : evs ⊆ evs') (made : Made evs n) : Made evs' n := by
  obtain ⟨fd,same,⟨q,mode,call⟩ | ⟨d,mode,call⟩⟩ := made
  · exact ⟨fd,same,.inl ⟨q,mode,more call⟩⟩
  · exact ⟨fd,same,.inr ⟨d,mode,more call⟩⟩

theorem Looked.mono (more : evs ⊆ evs') (looked : Looked evs p n) : Looked evs' p n := by
  obtain ⟨st,call,same⟩ := looked
  exact ⟨st,more call,same⟩

theorem Gave.mono (more : evs ⊆ evs') (gave : Gave evs q n) : Gave evs' q n := by
  cases gave with
  | opened call file => exact .opened (more call) file
  | linked call file => exact .linked (more call) file
  | copied looked call => exact .copied (looked.mono more) (more call)
  | exchanged looked call => exact .exchanged (looked.mono more) (more call)

theorem Done.mono (more : evs ⊆ evs') (done : Done spec evs n) : Done spec evs' n := by
  refine ⟨done.1.mono more,fun content => ?_⟩
  obtain ⟨fd,call,same⟩ := done.2 content
  exact ⟨fd,more call,same⟩

theorem Moded.mono {mode : Mode} (more : evs ⊆ evs') (moded : Moded spec evs n mode) : Moded spec evs' n mode := by
  obtain ⟨fd,granted,same,final,call⟩ := moded
  exact ⟨fd,granted,same,final,more call⟩

theorem Got.mono (more : evs ⊆ evs') (got : Got evs p n) : Got evs' p n := by
  cases got with
  | named gave => exact .named (gave.mono more)
  | moved gave call => exact .moved (gave.mono more) (call.imp (more ·) (Or.imp (more ·) (Or.imp (more ·) (more ·))))

theorem Given.mono {r : Rec} (more : evs ⊆ evs') (given : Given evs r) : Given evs' r :=
  ⟨given.gave.mono more,fun new => (given.made new).mono more⟩

theorem Shown.later {d : Deed} (shown : Shown spec evs d) (e : Event posix) : Shown spec (evs ++ [e]) d := by
  have more : evs ⊆ evs ++ [e] := List.subset_append_left _ _
  cases d with
  | file p n => exact ⟨shown.1.mono more,shown.2.mono more⟩
  | backup p b o | kept q n | keptOld q n => exact Gave.mono more shown
  | reused p b o =>
    obtain ⟨a,gave,call⟩ := shown
    exact ⟨a,gave.mono more,more call⟩
  | dir q => exact more shown
  | lost q n =>
    obtain ⟨pre,e',post,rfl,just⟩ := shown
    exact ⟨pre,e',post ++ [e],by simp,just⟩

/-! ## What a call may do -/

section
variable (paths : List Path) (spec : FileSpec)

/-- A temporary name beside an operand. -/
def Temporary (q : Path) : Prop := ∃ p ∈ paths, TempOf p q

/-- The names that a call makes when it succeeds after the calls `pre`: operands, which get a file of
    the run that is flushed, temporary names, with `-f` backup names, and parents of operands. -/
def Names (pre : List (Event posix)) : (c : Call) → posix.Res c → Prop
  | .open_excl q mode, .ok _ =>
    (q ∈ paths ∧ spec.force_mode = false ∧ (mode = spec.mode ∧ opensPlain spec ∨ mode = 0o600)) ∨ Temporary paths q
  | .linkat fd q, .ok _ => (q ∈ paths ∧ spec.force_mode = false ∧ Done spec pre fd.ino) ∨ Temporary paths q
  | .link a b, .ok _ =>
    (a ∈ paths ∧ spec.force_mode = true ∧ (BackupOf a b ∨ TempOf a b) ∧ ∃ n, Looked pre a n) ∨
      (b ∈ paths ∧ spec.force_mode = false ∧ Temporary paths a ∧ ∃ n, Gave pre a n ∧ Done spec pre n)
  | .rename_noreplace a b, .ok _ =>
    b ∈ paths ∧ spec.force_mode = false ∧ Temporary paths a ∧ ∃ n, Gave pre a n ∧ Done spec pre n
  | .mkdir q, .ok _ => ∃ p ∈ paths, ParentOf p q
  | .mkstemp _, .ok _ => False
  | _, _ => True

/-- The names that a call takes from a file when it succeeds after the calls `pre`. Without `-f` an operand's name
    is replaced only where it was made by the calls just before; with `-f` the file of an operand is replaced, and
    a backup that was in the way of a new one. -/
def Replaces (pre : List (Event posix)) : (c : Call) → posix.Res c → Prop
  | .rename a b, .ok _ =>
    (b ∈ paths ∧ spec.force_mode = false ∧ Temporary paths a ∧ (∃ n, Gave pre a n ∧ Done spec pre n) ∧
        ∃ h, JustOpened pre b h true) ∨
      (b ∈ paths ∧ spec.force_mode = true ∧ TempOf b a ∧ ∃ n, Gave pre a n ∧ Done spec pre n) ∨
      ∃ p ∈ paths, spec.force_mode = true ∧ TempOf p a ∧ BackupOf p b ∧ ∃ p', ⟨.link p' b,.error .EEXIST⟩ ∈ pre
  | .rename_exchange a b, .ok _ =>
    b ∈ paths ∧ spec.force_mode = true ∧ TempOf b a ∧ (∃ o, Looked pre b o) ∧ ∃ n, Gave pre a n ∧ Done spec pre n
  | _, _ => True

/-- What a call may remove after the calls `pre`: a name that the run has given, without `-f` to a file of its own, and
    that the last call has seen to hold this file, or one just opened that could not be looked at. -/
def Removes (pre : List (Event posix)) : (c : Call) → posix.Res c → Prop
  | .unlink q, .ok _ =>
    (∃ n, Seen pre q n ∧ Gave pre q n ∧ (spec.force_mode = false → Made pre n)) ∨ ∃ n, JustOpened pre q n false
  | _, _ => True

/-- The files that a call changes, in content, owner or mode, are those of the run. -/
def Changes (pre : List (Event posix)) (c : Call) : posix.Res c → Prop
  | .ok _ => (∀ fd, altered c = some fd → Made pre fd.ino) ∧ (∀ fd mode, c = .fchmod fd mode → Made pre fd.ino) ∧
      ∀ src dst len, c ≠ .splice src dst len
  | .error _ => True

def Rightful (pre : List (Event posix)) (e : Event posix) : Prop :=
  Names paths spec pre e.call e.res ∧ Replaces paths spec pre e.call e.res ∧ Removes spec pre e.call e.res ∧
    Changes pre e.call e.res

end

/-! ## The calls of a run -/

/-- What the ledger has on its pages was shown by calls. -/
structure Evident (spec : FileSpec) (evs : List (Event posix)) (g : Book) : Prop where
  live : ∀ j r, g.live j = some r → Given evs r
  work : ∀ i w, g.work i = some w → Made evs w.ino
  finished : ∀ n ∈ g.finished, Done spec evs n
  moded : ∀ x ∈ g.moded, Moded spec evs x.1 x.2
  old : ∀ p o, g.old = some (p,o) → Looked evs p o
  taken : ∀ b, g.taken = some b → ∃ p, ⟨.link p b,.error .EEXIST⟩ ∈ evs
  deeds : ∀ d ∈ g.trail, Shown spec evs d

/-- What a move has to show. -/
theorem Evident.next (evident : Evident spec evs g) (e : Event posix)
    (live : ∀ j r, g'.live j = some r → (∃ i role, g.live i = some ⟨r.path,r.ino,role⟩ ∧ (Old role → Old r.role)) ∨ Given (evs ++ [e]) r)
    (work : ∀ i w, g'.work i = some w → (∃ j w', g.work j = some w' ∧ w'.ino = w.ino) ∨ Made (evs ++ [e]) w.ino)
    (finished : ∀ n ∈ g'.finished, n ∈ g.finished ∨ Done spec (evs ++ [e]) n)
    (old : g'.old = none ∨ g'.old = g.old ∨ ∃ p st, e = ⟨.lstat p,.ok st⟩ ∧ g'.old = some (p,st.ino))
    (taken : g'.taken = none ∨ g'.taken = g.taken ∨ ∃ p b, e = ⟨.link p b,.error .EEXIST⟩ ∧ g'.taken = some b)
    (deeds : ∀ d ∈ g'.trail, d ∈ g.trail ∨ Shown spec (evs ++ [e]) d)
    (moded : ∀ x ∈ g'.moded, x ∈ g.moded ∨ Moded spec (evs ++ [e]) x.1 x.2 := by exact fun _ => .inl) :
    Evident spec (evs ++ [e]) g' := by
  have more : evs ⊆ evs ++ [e] := List.subset_append_left _ _
  have here : e ∈ evs ++ [e] := List.mem_append_right _ (List.mem_singleton_self e)
  constructor
  · intro j r found
    rcases live j r found with ⟨i,role,before,same⟩ | now
    · obtain ⟨gave,made⟩ := evident.live i _ before
      exact ⟨gave.mono more,fun new => (made fun old => new (same old)).mono more⟩
    · exact now
  · intro i w found
    rcases work i w found with ⟨j,w',before,same⟩ | now
    · exact same ▸ (evident.work j w' before).mono more
    · exact now
  · intro n member
    rcases finished n member with before | now
    · exact (evident.finished n before).mono more
    · exact now
  · intro x member
    rcases moded x member with before | now
    · exact (evident.moded x before).mono more
    · exact now
  · intro p o found
    rcases old with absent | same | ⟨p',st,rfl,now⟩
    · simp [absent] at found
    · exact (evident.old p o (same ▸ found)).mono more
    · obtain ⟨rfl,rfl⟩ : p' = p ∧ st.ino = o := by simpa [now] using found
      exact ⟨st,here,rfl⟩
  · intro b found
    rcases taken with absent | same | ⟨p,b',rfl,now⟩
    · simp [absent] at found
    · obtain ⟨p,member⟩ := evident.taken b (same ▸ found)
      exact ⟨p,more member⟩
    · obtain rfl : b' = b := by simpa [now] using found
      exact ⟨p,here⟩
  · intro d member
    rcases deeds d member with before | now
    · exact (evident.deeds d before).later e
    · exact now

/-- A move that changes nothing of what was shown. -/
theorem Evident.later (evident : Evident spec evs g) (e : Event posix) : Evident spec (evs ++ [e]) g :=
  evident.next e (fun j r live => .inl ⟨j,r.role,live,id⟩) (fun i w work => .inl ⟨i,w,work,rfl⟩) (fun _ => .inl)
    (.inr (.inl rfl)) (.inr (.inl rfl)) fun _ => .inl

/-- A name is gone. -/
theorem Evident.drop (evident : Evident spec evs g) (e : Event posix) (j : Nat) : Evident spec (evs ++ [e]) (g.drop j) := by
  refine evident.next e (fun i r live => ?_) (fun i w work => .inl ⟨i,w,work,rfl⟩) (fun _ => .inl) (.inr (.inl rfl))
    (.inl rfl) fun _ => .inl
  rw [drop_live] at live
  split at live
  · simp at live
  · exact .inl ⟨i,r.role,live,id⟩

/-- A new name. -/
theorem Evident.fresh (evident : Evident spec evs g) {e : Event posix} {r : Rec} (given : Given (evs ++ [e]) r) :
    Evident spec (evs ++ [e]) (g.fresh r) := by
  refine evident.next e (fun i r' live => ?_) (fun i w work => .inl ⟨i,w,work,rfl⟩) (fun _ => .inl) (.inr (.inl rfl))
    (.inr (.inl rfl)) fun _ => .inl
  rw [fresh_live] at live
  split at live
  · obtain rfl : r = r' := by simpa using live
    exact .inr given
  · exact .inl ⟨i,r'.role,live,id⟩

/-- The file of an operand is named, and its temporary name gone. -/
theorem Evident.commit (evident : Evident spec evs g) {e : Event posix} (deeds : List Deed) {live' lag' old'}
    (kept : ∀ j r, live' j = some r → (∃ i role, g.live i = some ⟨r.path,r.ino,role⟩ ∧ (Old role → Old r.role)) ∨ Given (evs ++ [e]) r)
    (seen : old' = none ∨ old' = g.old) (finished : n ∈ g.finished) (got : Got (evs ++ [e]) p n)
    (others : ∀ d ∈ deeds, Shown spec (evs ++ [e]) d) :
    Evident spec (evs ++ [e]) { g with
      live := live', lag := lag', trail := .file p n :: (deeds ++ g.trail), old := old', taken := none } := by
  refine evident.next e kept (fun i w work => .inl ⟨i,w,work,rfl⟩) (fun _ => .inl) (seen.imp id .inl) (.inl rfl) ?_
  intro d member
  rcases List.mem_cons.mp member with rfl | before
  · exact .inr ⟨(evident.finished n finished).mono (List.subset_append_left _ _),got⟩
  · rcases List.mem_append.mp before with deed | before
    · exact .inr (others d deed)
    · exact .inl before

theorem Evident.backup (evident : Evident spec evs g) (e : Event posix) (p : Path) : ∀ d ∈ backupDeeds g p, Shown spec (evs ++ [e]) d := by
  intro d member
  rw [backupDeeds] at member
  split at member
  · rename_i r made
    rw [List.mem_singleton.mp member]
    exact (evident.live _ r made).gave.mono (List.subset_append_left _ _)
  · simp at member

/-- What becomes of a file in its slot. -/
theorem reworked {i j : Nat} {w w' w'' : Work} (mine : g.work i = some w)
    (work : update g.work i (some w') j = some w'') (same : w'.ino = w.ino) : ∃ k v, g.work k = some v ∧ v.ino = w''.ino := by
  by_cases here : j = i
  · obtain rfl : w' = w'' := Option.some.inj (by simpa [here] using work)
    exact ⟨i,w,mine,same.symm⟩
  · exact ⟨j,w'',by simpa [here] using work,rfl⟩

theorem evident_call {c : Call} {r : posix.Res c} (evident : Evident spec evs g) (move : Move paths spec evs g m c r g') :
    Evident spec (evs ++ [⟨c,r⟩]) g' := by
  have here : ∀ e : Event posix, e ∈ evs ++ [e] := fun e => List.mem_append_right _ (List.mem_singleton_self e)
  have more : ∀ e : Event posix, evs ⊆ evs ++ [e] := fun e => List.subset_append_left _ _
  cases move with
  | quiet | alter => exact evident.later _
  | refuse =>
    exact evident.next _ (fun j r live => .inl ⟨j,r.role,live,id⟩) (fun i w work => .inl ⟨i,w,work,rfl⟩) (fun _ => .inl)
      (.inr (.inl rfl)) (.inr (.inl rfl)) fun _ => .inl
  | create blocked room clean whole opens =>
    rename_i q mode fd i role
    have made : Made (evs ++ [⟨.open_excl q mode,.ok fd⟩]) fd.ino := ⟨fd,rfl,.inl ⟨q,mode,here _⟩⟩
    refine evident.next _ (fun j r live => ?_) (fun j w work => ?_) (fun n member => ?_) (.inr (.inl rfl)) (.inr (.inl rfl))
      fun _ => .inl
    · have live : (g.fresh ⟨q,fd.ino,role⟩).live j = some r := live
      rw [fresh_live] at live
      split at live
      · obtain rfl : _ = r := Option.some.inj live
        exact .inr ⟨.opened (here _) rfl,fun _ => made⟩
      · exact .inl ⟨j,r.role,live,id⟩
    · dsimp only at work
      split at work
      · by_cases same : j = i
        · obtain rfl : _ = w := Option.some.inj (by simpa [same] using work)
          exact .inr made
        · exact .inl ⟨j,w,by simpa [same] using work,rfl⟩
      · exact .inl ⟨j,w,work,rfl⟩
    · dsimp only at member
      split at member
      · rename_i plain
        rcases List.mem_cons.mp member with rfl | before
        · refine .inr ⟨made,fun content => ?_⟩
          subst plain
          exact absurd content (by simp [opens.2.2.1])
        · exact .inl before
      · exact .inl member
  | rollback made clean just => exact evident.drop _ _
  | lose made clean just =>
    refine { evident.drop _ _ with deeds := fun d member => ?_ }
    rcases List.mem_cons.mp member with rfl | before
    · exact ⟨_,_,[],rfl,just⟩
    · exact (evident.later _).deeds d before
  | anon =>
    rename_i d mode fd i
    refine evident.next _ (fun j r live => .inl ⟨j,r.role,live,id⟩) (fun j w work => ?_) (fun _ => .inl) (.inr (.inl rfl))
      (.inr (.inl rfl)) fun _ => .inl
    by_cases same : j = i
    · obtain rfl : _ = w := Option.some.inj (by simpa [same] using work)
      exact .inr ⟨fd,rfl,.inr ⟨d,mode,here _⟩⟩
    · exact .inl ⟨j,w,by simpa [same] using work,rfl⟩
  | conceal mine =>
    exact evident.next _ (fun j r live => .inl ⟨j,r.role,live,id⟩) (fun j w work => .inl (reworked mine work rfl)) (fun _ => .inl)
      (.inr (.inl rfl)) (.inr (.inl rfl)) fun _ => .inl
  | finish mine unsealed final =>
    rename_i fd i phase named mode
    refine evident.next _ (fun j r live => .inl ⟨j,r.role,live,id⟩) (fun j w work => .inl (reworked mine work rfl)) (fun n member => ?_)
      (.inr (.inl rfl)) (.inr (.inl rfl)) (fun _ => .inl) fun x member => ?_
    · dsimp only at member
      split at member
      · exact .inl member
      · rename_i empty
        rcases List.mem_cons.mp member with rfl | before
        · exact .inr ⟨(evident.work _ _ mine).mono (more _),fun content => absurd content empty⟩
        · exact .inl before
    · rcases List.mem_cons.mp member with rfl | before
      · obtain ⟨granted,same⟩ := final
        exact .inr ⟨fd,granted,rfl,same,here _⟩
      · exact .inl before
  | flush mine =>
    rename_i fd i named
    refine evident.next _ (fun j r live => .inl ⟨j,r.role,live,id⟩) (fun j w work => .inl ⟨j,w,work,rfl⟩) (fun n member => ?_)
      (.inr (.inl rfl)) (.inr (.inl rfl)) fun _ => .inl
    rcases List.mem_cons.mp member with rfl | before
    · exact .inr ⟨(evident.work i _ mine).mono (more _),fun _ => ⟨fd,here _,rfl⟩⟩
    · exact .inl before
  | tempLink blocked room clean whole temp mine ready =>
    rename_i fd q i phase
    have fresh : Evident spec _ (g.fresh ⟨q,fd.ino,.temp⟩) := evident.fresh
      ⟨.linked (here ⟨.linkat fd q,.ok ()⟩) rfl,fun _ => (evident.work i _ mine).mono (more _)⟩
    refine { fresh with work := fun j w found => ?_ }
    obtain ⟨k,v,before,same⟩ := reworked mine found rfl
    exact same ▸ (evident.work k v before).mono (more _)
  | regard =>
    exact evident.next _ (fun j r live => .inl ⟨j,r.role,live,id⟩) (fun i w work => .inl ⟨i,w,work,rfl⟩) (fun _ => .inl)
      (.inr (.inr ⟨_,_,rfl,rfl⟩)) (.inr (.inl rfl)) fun _ => .inl
  | exists_ =>
    exact evident.next _ (fun j r live => .inl ⟨j,r.role,live,id⟩) (fun i w work => .inl ⟨i,w,work,rfl⟩) (fun _ => .inl)
      (.inr (.inl rfl)) (.inr (.inr ⟨_,_,rfl,rfl⟩)) fun _ => .inl
  | backLink blocked room clean whole force member name old | twinLink blocked room clean whole force member name old =>
    exact evident.fresh ⟨.copied ((evident.old _ _ old).mono (more _)) (here _),fun new => absurd trivial new⟩
  | twinMove room clean force member name old made temp taken =>
    rename_i p a b o
    refine evident.next _ (fun j r live => ?_) (fun i w work => .inl ⟨i,w,work,rfl⟩) (fun _ => .inl) (.inr (.inl rfl))
      (.inl rfl) fun d member => ?_
    · by_cases same : j = PENDING_BACKUP
      · obtain rfl : _ = r := Option.some.inj (by simpa [same] using live)
        exact .inl ⟨PENDING_BACKUP,_,made,id⟩
      · exact .inl ⟨j,r.role,by simpa [same] using live,id⟩
    · rcases List.mem_cons.mp member with rfl | before
      · exact .inr ⟨a,(evident.live _ _ made).gave.mono (more _),here _⟩
      · exact .inl before
  | remove clean made seen => exact evident.drop _ _
  | vanish clean made gone => exact evident.drop _ _
  | linkCommit clean unforced member mine finished =>
    exact evident.next _ (fun j r live => .inl ⟨j,r.role,live,id⟩) (fun j w work => .inl (reworked mine work rfl)) (fun _ => .inl)
      (.inr (.inl rfl)) (.inr (.inl rfl)) fun d found => by
        rcases List.mem_cons.mp found with rfl | before
        · exact .inr ⟨(evident.finished _ finished).mono (more _),.named (.linked (here _) rfl)⟩
        · exact .inl before
  | noReplace clean unforced member made slot finished =>
    rename_i i t p n
    have gave : Gave (evs ++ [⟨.rename_noreplace t p,.ok ()⟩]) t n := (evident.live i _ made).gave.mono (more _)
    refine evident.commit [] (fun j r live => ?_) (.inr rfl) finished (.moved gave (.inl (here _))) (by simp)
    rw [Book.drop] at live
    by_cases same : j = i
    · simp [same] at live
    · exact .inl ⟨j,r.role,by simpa [same] using live,id⟩
  | linkAlso clean unforced member made finished =>
    rename_i i t p n
    have gave : Gave (evs ++ [⟨.link t p,.ok ()⟩]) t n := (evident.live i _ made).gave.mono (more _)
    exact evident.next _ (fun j r live => .inl ⟨j,r.role,live,id⟩) (fun i w work => .inl ⟨i,w,work,rfl⟩) (fun _ => .inl)
      (.inr (.inl rfl)) (.inr (.inl rfl)) fun d found => by
        rcases List.mem_cons.mp found with rfl | before
        · exact .inr ⟨(evident.finished _ finished).mono (more _),.moved gave (.inr (.inl (here _)))⟩
        · exact .inl before
  | overHolder blocked clean unforced member made slot holder just finished =>
    rename_i i t p n h
    have gave : Gave (evs ++ [⟨.rename t p,.ok ()⟩]) t n := (evident.live i _ made).gave.mono (more _)
    refine evident.commit [] (fun j r live => ?_) (.inr rfl) finished (.moved gave (.inr (.inr (.inl (here _))))) (by simp)
    by_cases same : j = i
    · simp [same] at live
    · by_cases fresh : j = FRESH
      · subst fresh
        simp [same] at live
      · exact .inl ⟨j,r.role,by simpa [same,fresh] using live,id⟩
  | force blocked clean forced member made temp room slot other backed finished =>
    rename_i i t p n
    have gave : Gave (evs ++ [⟨.rename t p,.ok ()⟩]) t n := (evident.live i _ made).gave.mono (more _)
    refine evident.commit _ (fun j r live => ?_) (.inl rfl) finished (.moved gave (.inr (.inr (.inl (here _)))))
      (evident.backup _ p)
    by_cases same : j = i
    · simp [same] at live
    · by_cases backup : j = PENDING_BACKUP
      · subst backup
        simp [same] at live
      · exact .inl ⟨j,r.role,by simpa [same,backup] using live,id⟩
  | exchange blocked clean forced member made temp room slot other old backed finished =>
    rename_i i t p n o
    have gave : Gave (evs ++ [⟨.rename_exchange t p,.ok ()⟩]) t n := (evident.live i _ made).gave.mono (more _)
    refine evident.commit _ (fun j r live => ?_) (.inl rfl) finished (.moved gave (.inr (.inr (.inr (here _)))))
      (evident.backup _ p)
    by_cases same : j = i
    · obtain rfl : _ = r := Option.some.inj (by simpa [same] using live)
      exact .inr ⟨.exchanged ((evident.old p o old).mono (more _)) (here _),fun new => absurd trivial new⟩
    · by_cases backup : j = PENDING_BACKUP
      · subst backup
        simp [same] at live
      · exact .inl ⟨j,r.role,by simpa [same,backup] using live,id⟩
  | mkdir parent =>
    exact evident.next _ (fun j r live => .inl ⟨j,r.role,live,id⟩) (fun i w work => .inl ⟨i,w,work,rfl⟩) (fun _ => .inl)
      (.inr (.inl rfl)) (.inr (.inl rfl)) fun d found => by
        rcases List.mem_cons.mp found with rfl | before
        · exact .inr (here _)
        · exact .inl before

theorem evident_mem (evident : Evident spec evs g) (inv : Inv paths spec m g) (step : Step g m m' g') : Evident spec evs g' := by
  have keep : ∀ live' lag' trail' owner' taken', (∀ j r, live' j = some r → ∃ i, g.live i = some r) →
      (∀ d ∈ trail', d ∈ g.trail ∨ Shown spec evs d) → (taken' = none ∨ taken' = g.taken) →
      Evident spec evs { g with live := live', lag := lag', trail := trail', owner := owner', taken := taken' } := by
    intro live' lag' trail' owner' taken' live deeds taken
    refine { evident with live := fun j r found => ?_, taken := fun b found => ?_, deeds := fun d member => ?_ }
    · obtain ⟨i,before⟩ := live j r found
      exact evident.live i r before
    · rcases taken with absent | same
      · simp [absent] at found
      · exact evident.taken b (same ▸ found)
    · exact (deeds d member).elim (evident.deeds d) id
  have dropped : ∀ i j r, (g.drop i).live j = some r → ∃ i', g.live i' = some r := by
    intro i j r live
    rw [drop_live] at live
    split at live
    · simp at live
    · exact ⟨j,live⟩
  cases step with
  | quiet | hold | release | free | named | dropping | report => exact evident
  | arm clean made text room slot whole =>
    rename_i j s r
    refine keep _ _ _ _ _ (fun i r' live => ?_) (fun _ => .inl) (.inr rfl)
    by_cases same : i = j
    · exact ⟨FRESH,by simpa [same,made] using live⟩
    · by_cases fresh : i = FRESH
      · subst fresh
        simp [same] at live
      · exact ⟨i,by simpa [same,fresh] using live⟩
  | retarget | clear | alloc => exact keep _ _ _ _ _ (fun j r live => ⟨j,live⟩) (fun _ => .inl) (.inr rfl)
  | settle clean made slot =>
    rename_i j p n
    refine keep _ _ _ _ _ (dropped j) (fun d member => ?_) (.inl rfl)
    rcases List.mem_cons.mp member with rfl | before
    · exact .inr ⟨evident.finished n (inv.plain j _ made rfl),.named (evident.live j _ made).gave⟩
    · exact .inl before
  | keep clean made | keepOld clean made =>
    refine keep _ _ _ _ _ (dropped _) (fun d member => ?_) (.inl rfl)
    rcases List.mem_cons.mp member with rfl | before
    · exact .inr (evident.live _ _ made).gave
    · exact .inl before

/-- A move is a rightful call. -/
theorem rightful_call {c : Call} {r : posix.Res c} (evident : Evident spec evs g) (inv : Inv paths spec m g)
    (move : Move paths spec evs g m c r g') : Rightful paths spec evs ⟨c,r⟩ := by
  have temporary : ∀ {j q n}, g.live j = some ⟨q,n,.temp⟩ → Temporary paths q := fun live => inv.shape _ _ live
  have given : ∀ {j q n}, g.live j = some ⟨q,n,.temp⟩ → n ∈ g.finished → ∃ n, Gave evs q n ∧ Done spec evs n :=
    fun live finished => ⟨_,(evident.live _ _ live).gave,evident.finished _ finished⟩
  cases move with
  | quiet still =>
    rcases still with silent | ⟨e,rfl⟩
    · cases c <;> cases r <;> simp_all [matters,altered,Rightful,Names,Replaces,Removes,Changes]
    · cases c <;> simp [Rightful,Names,Replaces,Removes,Changes]
  | refuse => simp [Rightful,Names,Replaces,Removes,Changes]
  | alter alters mine unsealed =>
    have made := evident.work _ _ mine
    cases c <;> cases r <;> simp_all [altered,Rightful,Names,Replaces,Removes,Changes]
  | create blocked room clean whole opens =>
    rename_i q mode fd i role
    refine ⟨?_,trivial,trivial,by simp [Changes,altered]⟩
    cases role with
    | plain => exact .inl ⟨opens.1,opens.2.2.2.2.2,.inl ⟨opens.2.1,opens.2.2⟩⟩
    | probe => exact .inr opens
    | temp => exact .inr opens.1
    | holder => exact .inl ⟨opens.1,opens.2.2,.inr opens.2.1⟩
    | _ => exact opens.elim
  | rollback made clean just => exact ⟨trivial,trivial,.inr ⟨_,just⟩,by simp [Changes,altered]⟩
  | lose => simp [Rightful,Names,Replaces,Removes,Changes]
  | anon | regard => simp [Rightful,Names,Replaces,Removes,Changes,altered]
  | conceal mine | finish mine =>
    have made := evident.work _ _ mine
    refine ⟨trivial,trivial,trivial,by simp [altered],fun fd mode same => ?_,by simp⟩
    cases same
    exact made
  | flush => simp [Rightful,Names,Replaces,Removes,Changes,altered]
  | mkdir parent => exact ⟨parent,trivial,trivial,by simp [Changes,altered]⟩
  | exists_ => simp [Rightful,Names,Replaces,Removes,Changes]
  | tempLink blocked room clean whole temp mine ready => exact ⟨.inr temp,trivial,trivial,by simp [Changes,altered]⟩
  | backLink blocked room clean whole force member name old =>
    exact ⟨.inl ⟨member,force,.inl name,_,evident.old _ _ old⟩,trivial,trivial,by simp [Changes,altered]⟩
  | twinLink blocked room clean whole force member temp old =>
    exact ⟨.inl ⟨member,force,.inr temp,_,evident.old _ _ old⟩,trivial,trivial,by simp [Changes,altered]⟩
  | twinMove room clean force member name old made temp taken =>
    exact ⟨trivial,.inr (.inr ⟨_,member,force,temp,name,evident.taken _ taken⟩),trivial,by simp [Changes,altered]⟩
  | remove clean made seen =>
    rename_i j q n role
    obtain ⟨gave,own⟩ := evident.live _ _ made
    refine ⟨trivial,trivial,.inl ⟨n,seen,gave,fun unforced => own fun old => ?_⟩,by simp [Changes,altered]⟩
    have shape := inv.shape _ _ made
    cases role with
    | backup =>
      obtain ⟨_,_,_,forced⟩ := shape
      simp [unforced] at forced
    | spare | twin | twinned => exact absurd shape.2 (by simp [unforced])
    | _ => exact old
  | vanish clean made gone =>
    cases c <;> simp only [Gone] at gone
    · exact ⟨trivial,trivial,trivial,by cases r <;> simp [Changes,altered]⟩
    · rw [gone.2]
      exact ⟨trivial,trivial,trivial,trivial⟩
  | linkCommit clean unforced member mine finished =>
    exact ⟨.inl ⟨member,unforced,evident.finished _ finished⟩,trivial,trivial,by simp [Changes,altered]⟩
  | noReplace clean unforced member made slot finished =>
    exact ⟨⟨member,unforced,temporary made,given made finished⟩,trivial,trivial,by simp [Changes,altered]⟩
  | linkAlso clean unforced member made finished =>
    exact ⟨.inr ⟨member,unforced,temporary made,given made finished⟩,trivial,trivial,by simp [Changes,altered]⟩
  | overHolder blocked clean unforced member made slot holder just finished =>
    exact ⟨trivial,.inl ⟨member,unforced,temporary made,given made finished,_,just⟩,trivial,by simp [Changes,altered]⟩
  | force blocked clean forced member made temp room slot other backed finished =>
    exact ⟨trivial,.inr (.inl ⟨member,forced,temp,given made finished⟩),trivial,by simp [Changes,altered]⟩
  | exchange blocked clean forced member made temp room slot other old backed finished =>
    exact ⟨trivial,⟨member,forced,temp,⟨_,evident.old _ _ old⟩,given made finished⟩,trivial,by simp [Changes,altered]⟩

/-! ## Runs -/

/-- The memory of a program that has made no name yet. -/
structure Started (m : Memory) : Prop where
  pending : ∀ j, (m.pending j).path = none
  freed : ∀ b ∈ m.freed, b < m.heap
  failures : m.failures = [] ∧ m.failures_lost = false
  backups : m.backups = []
  told : m.told = []

theorem Started.inv (started : Started m) : Inv paths spec m {} where
  synced j _ _ := by simp [armed,started.pending j]
  closed _ := ⟨rfl,by simp⟩
  whole j s found := by simp [started.pending j] at found
  freed := started.freed
  shape := by simp
  plain := by simp
  trail := by simp
  reports p left member := by simp [started.told] at member
  tidy := ⟨by simp [started.backups],by simp [started.failures]⟩

theorem started_follows (fuel : Nat) : Follows (ledger paths spec) (batch_run fuel paths spec) (Ran paths) m {} :=
  batch_run_spec fuel ⟨⟨rfl,rfl,by simp [Untwinned]⟩,fun _ => rfl⟩ rfl

section
variable {K : Type} {exec : System posix K} {fuel : Nat} {k : K} {t : Config posix K Memory Bool}

/-- Wherever a run has come, it has kept the ledger, and every page of it was shown by a call. -/
theorem run_evident (truth : ∀ {k c r k'}, exec k c r k' → Sane c r) (started : Started m)
    (run : Run exec ⟨batch_run fuel paths spec,k,m⟩ evs t) :
    ∃ g, Inv paths spec t.memory g ∧ Evident spec evs g ∧ Throughout (Rightful paths spec) evs ∧
      After (ledger paths spec) t.prog (Ran paths) evs t.memory g := by
  have blank : Evident spec [] {} := ⟨by simp,by simp,by simp,by simp,by simp,by simp,by simp⟩
  have start : Evident spec [] {} ∧ Throughout (Rightful paths spec) [] := ⟨blank,throughout_nil⟩
  obtain ⟨g,⟨evident,rightful⟩,inv,follows⟩ := follows_run (P := ledger paths spec) (Q := Ran paths)
    (J := fun evs _ _ g => Evident spec evs g ∧ Throughout (Rightful paths spec) evs) truth
    (fun holds inv _ move => ⟨evident_call holds.1 move,holds.2.snoc (rightful_call holds.1 inv move)⟩)
    (fun holds inv step => ⟨evident_mem holds.1 inv step,holds.2⟩) run start started.inv (started_follows fuel _)
  exact ⟨g,inv,evident,rightful,follows⟩

end

/-- A directory with one file in it. -/
def sampleKernel : Kernel where
  names := [((0,"b".toList),1)]
  files := fun _ => {}
  next := 2
  nfds := 0
  opened := []
  offset := fun _ => 0
  safe := [((0,"b".toList),1)]
  journal := []

/-- Where a run of one operand comes to. -/
def sampleEnd (path : Path) (spec : FileSpec) (choices : List Choice) : Config posix Kernel Memory Bool :=
  play (step fun _ => 0) (batch_run 9 [path] spec) sampleKernel {} choices

theorem sample_run (path : Path) (spec : FileSpec) (choices : List Choice) :
    ∃ evs, Run (exec fun _ => 0) ⟨batch_run 9 [path] spec,sampleKernel,{}⟩ evs (sampleEnd path spec choices) :=
  play_run _ _ _ _ _

/-- All goes well, with so many calls after a temporary name is chosen. -/
def sampleForced (n : Nat) : List Choice := List.replicate 11 .done ++ .ok [0,1,2,3,4,5] :: List.replicate n .done

/-- A plain file that was made cannot be flushed. -/
def sampleFailed (n : Nat) : List Choice := List.replicate 4 .done ++ .fail .EFBIG :: List.replicate n .done

def returned {α : Type} : P α → Option α
  | .ret a => some a
  | _ => none

theorem returned_ret {α : Type} {p : P α} {a : α} (found : returned p = some a) : p = .ret a := by
  cases p with
  | ret b => rw [Option.some.inj found]
  | _ => simp [returned] at found

/-- The name that a program is about to remove. -/
def upcoming {α : Type} : P α → Option Path
  | .call (.unlink q) _ => some q
  | _ => none

theorem upcoming_unlink {α : Type} {p : P α} {q : Path} (found : upcoming p = some q) :
    ∃ next, p = .call (.unlink q) next := by
  cases p with
  | call c next =>
    cases c with
    | unlink q' =>
      obtain rfl : q' = q := by simpa [upcoming] using found
      exact ⟨next,rfl⟩
    | _ => simp [upcoming] at found
  | _ => simp [upcoming] at found

theorem sample_started : Started {} := ⟨fun _ => rfl,by simp,⟨rfl,rfl⟩,rfl,rfl⟩

section
variable {K : Type} {exec : System posix K} {fuel : Nat} {k : K} {t : Config posix K Memory Bool}

/-- Whatever the system answers, a run removes no name that it has not given to a file itself, and that the call
    just before has not seen to hold this file, but for one just opened that could not be looked at. -/
theorem run_removing (truth : ∀ {k c r k'}, exec k c r k' → Sane c r) (started : Started m)
    (run : Run exec ⟨batch_run fuel paths spec,k,m⟩ evs t) :
    Throughout (fun pre e => Removes spec pre e.call e.res) evs := by
  obtain ⟨_,_,_,rightful,_⟩ := run_evident truth started run
  exact rightful.mono fun _ _ right => right.2.2.1

theorem run_removing_sample : ∃ evs t, Run (Posix.exec fun _ => 0) ⟨batch_run 9 ["a".toList] {},sampleKernel,{}⟩ evs t ∧
    t.prog = .ret false ∧ Throughout (fun pre e => Removes {} pre e.call e.res) evs := by
  obtain ⟨evs,run⟩ := sample_run "a".toList {} (sampleFailed 3)
  exact ⟨evs,_,run,returned_ret (by decide +kernel),run_removing Answers.exec_sane sample_started run⟩

/-- Whatever the system answers, a run changes the content, owner or mode of no file but those it has made. -/
theorem run_changing (truth : ∀ {k c r k'}, exec k c r k' → Sane c r) (started : Started m)
    (run : Run exec ⟨batch_run fuel paths spec,k,m⟩ evs t) :
    Throughout (fun pre e => Changes pre e.call e.res) evs := by
  obtain ⟨_,_,_,rightful,_⟩ := run_evident truth started run
  exact rightful.mono fun _ _ right => right.2.2.2

theorem run_changing_sample : ∃ evs t, Run (Posix.exec fun _ => 0) ⟨batch_run 9 ["b".toList] { force_mode := true },sampleKernel,{}⟩ evs t ∧
    t.prog = .ret true ∧ Throughout (fun pre e => Changes pre e.call e.res) evs := by
  obtain ⟨evs,run⟩ := sample_run "b".toList { force_mode := true } (sampleForced 9)
  exact ⟨evs,_,run,returned_ret (by decide +kernel),run_changing Answers.exec_sane sample_started run⟩

/-- Wherever a run is interrupted, no slot that the handler reads holds a string that was freed, and no two hold
    the same. -/
theorem run_strings (truth : ∀ {k c r k'}, exec k c r k' → Sane c r) (started : Started m)
    (run : Run exec ⟨batch_run fuel paths spec,k,m⟩ evs t) {j b : Nat} {s : Str} (armed : (t.memory.pending j).path = some s)
    (block : s.block = some b) :
    b ∉ t.memory.freed ∧ ∀ i s', (t.memory.pending i).path = some s' → s'.block = some b → i = j := by
  obtain ⟨g,inv,_⟩ := run_evident truth started run
  obtain ⟨owner,_,unfreed⟩ := inv.whole j s armed b block
  refine ⟨unfreed,fun i s' armed' same => ?_⟩
  exact (inv.whole i s' armed' b same).1.symm.trans owner

/-- The temporary name of a file that is about to replace another. -/
theorem run_strings_sample : ∃ t : Config posix Kernel Memory Bool, (t.memory.pending 0).path = some ⟨".newfile.ABCDEF".toList,some 0⟩ ∧
    0 ∉ t.memory.freed ∧ ∀ i s', (t.memory.pending i).path = some s' → s'.block = some 0 → i = 0 := by
  obtain ⟨evs,run⟩ := sample_run "b".toList { force_mode := true } (sampleForced 1)
  have armed : ((sampleEnd "b".toList { force_mode := true } (sampleForced 1)).memory.pending 0).path =
      some ⟨".newfile.ABCDEF".toList,some 0⟩ := by decide +kernel
  exact ⟨_,armed,run_strings Answers.exec_sane sample_started run armed rfl⟩

/-- Of every operand a run that returns has told how it has fared, and what it tells of success is true: the operand
    got a file that the run has made and, if it has content, flushed. -/
theorem run_reports (truth : ∀ {k c r k'}, exec k c r k' → Sane c r) (started : Started m)
    (run : Run exec ⟨batch_run fuel paths spec,k,m⟩ evs t) :
    (∀ p left, .report p none left ∈ t.memory.told → ∃ n, Done spec evs n ∧ Got evs p n) ∧
      ∀ ok, t.prog = .ret ok → ∀ p ∈ paths, ∃ fail left, .report p fail left ∈ t.memory.told ∧
        (ok = true → fail = none ∧ left = false) := by
  obtain ⟨g,inv,evident,_,follows⟩ := run_evident truth started run
  refine ⟨fun p left told => ?_,fun ok returned p member => ?_⟩
  · obtain ⟨n,deed⟩ := inv.reports p left told
    exact ⟨n,evident.deeds _ deed⟩
  · rw [returned] at follows
    exact (follows inv).reported p member

theorem run_reports_sample : ∃ evs t, Run (Posix.exec fun _ => 0) ⟨batch_run 9 ["a".toList] {},sampleKernel,{}⟩ evs t ∧
    t.prog = .ret true ∧ .report "a".toList none false ∈ t.memory.told ∧ ∃ n, Done {} evs n ∧ Got evs "a".toList n := by
  obtain ⟨evs,run⟩ := sample_run "a".toList {} (List.replicate 12 .done)
  have told : .report "a".toList none false ∈ (sampleEnd "a".toList {} (List.replicate 12 .done)).memory.told := by decide +kernel
  exact ⟨evs,_,run,returned_ret (by decide +kernel),told,(run_reports Answers.exec_sane sample_started run).1 _ _ told⟩

end

end Newfile.Evidence
