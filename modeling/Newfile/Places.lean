import Newfile.Bookkeeping

/-!
The functions of `place.c` keep the ledger.
-/
namespace Newfile.Places
open Newfile.Program Newfile.Program.Prog Newfile.Posix Newfile.Process Newfile.Pending Newfile.Fastio Newfile.Flush
open Newfile.Place Newfile.Batch Newfile.Ledger Newfile.Bookkeeping Newfile.Simulation Function

variable {paths : List Path} {spec : FileSpec} {α : Type} {m m' : Memory} {g g' : Book}

/-! ## Making a name -/

/-- The ledger once a file was opened under a name, in a slot to come. -/
def created (g : Book) (q : Path) (n : Ino) (role : Role) (i : Nat) : Book :=
  { g.fresh ⟨q,n,role⟩ with
    work := if role = .temp then update g.work i (some ⟨n,.secret,true⟩) else g.work
    finished := if role = .plain then n :: g.finished else g.finished }

theorem created_onward {names : List Nat} {ok : Deed → Prop} (q : Path) (n : Ino) (role : Role) (i : Nat) (fresh : FRESH ∈ names) :
    Onward names [i] ok m g m (created g q n role i) := by
  refine ⟨?_,?_,rfl,?_,Nat.le_refl _,fun _ _ => rfl,Nat.le_refl _,List.Subset.refl _,⟨[],rfl,by simp⟩⟩
  · intro j other
    have : j ≠ FRESH := fun same => other (same ▸ fresh)
    simp [created,this]
  · intro j other
    simp only [List.mem_singleton] at other
    by_cases temp : role = .temp
    · simp [created,temp,other]
    · simp [created,temp]
  · by_cases plain : role = .plain
    · simp [created,plain]
    · simp [created,plain]

/-- A name that was made and is gone again, or lost. -/
theorem undone_onward {names files : List Nat} {ok : Deed → Prop} (rest : Rest g) (onward : Onward [FRESH] files ok m g m g')
    (new : List Deed) (minor : ∀ d ∈ new, ok d) :
    Onward names files ok m g m { g'.drop FRESH with trail := new ++ g'.trail } := by
  obtain ⟨before,grown,minor'⟩ := onward.trail
  refine ⟨?_,onward.work,rest.2.1.symm,onward.finished,onward.heap,onward.owner,onward.failed,onward.told,
    ⟨new ++ before,by rw [grown,List.append_assoc],?_⟩⟩
  · intro j _
    by_cases fresh : j = FRESH
    · simp [fresh,rest.1]
    · simpa [fresh] using onward.live j (by simpa using fresh)
  · intro d member
    rcases List.mem_append.mp member with now | earlier
    · exact minor d now
    · exact minor' d earlier

/-- The rule for `create_excl`: what follows knows the calls before it. -/
theorem follows_create_excl {q : Path} {mode : Mode} {role : Role} (i : Nat) {f : Except Errno (Fd × Stat) → P α}
    {Q : α → Memory → Book → Prop} (blocked : m.blocked = true) (rest : Rest g) (opens : Opens paths spec q mode role)
    (failed : ∀ e g', Onward [] [i] (Minor False) m g m g' → Follows (ledger paths spec) (f (.error e)) Q m g')
    (opened : ∀ evs fd (st : Stat), st.ino = fd.ino → After (ledger paths spec) (f (.ok (fd,st))) Q
      (evs ++ [⟨.open_excl q mode,.ok fd⟩,⟨.fstat fd,.ok st⟩]) m (created g q fd.ino role i)) :
    Follows (ledger paths spec) (create_excl q mode >>= f) Q m g := by
  intro evs
  rw [create_excl,LawfulMonad.bind_assoc]
  refine after_call fun _ r _ => ?_
  cases r with
  | error e => exact ⟨g,.quiet (.inr ⟨e,rfl⟩),failed e g (Onward.refl m g) _⟩
  | ok fd =>
    refine ⟨created g q fd.ino role i,.create blocked rest.1 rest.2.1 rest.2.2 opens,?_⟩
    have made : (created g q fd.ino role i).live FRESH = some ⟨q,fd.ino,role⟩ := by simp [created]
    dsimp only
    rw [LawfulMonad.bind_assoc]
    refine after_call fun _ r sane => ⟨_,.quiet (.inl rfl),?_⟩
    cases r with
    | ok st => simpa using opened evs fd st sane
    | error e =>
      dsimp only
      rw [LawfulMonad.bind_assoc]
      refine after_call fun _ closed _ => ⟨_,.quiet (.inl rfl),?_⟩
      rw [LawfulMonad.bind_assoc]
      refine after_call fun _ r _ => ?_
      have just : JustOpened (evs ++ [⟨.open_excl q mode,.ok fd⟩] ++ [⟨.fstat fd,.error e⟩] ++ [⟨.close fd,closed⟩]) q fd.ino false :=
        ⟨evs,mode,fd,.error e,closed,by simp,rfl,rfl⟩
      have onward : Onward [FRESH] [i] (Minor False) m g m (created g q fd.ino role i) := created_onward _ _ _ _ (by simp)
      cases r with
      | ok _ => exact ⟨_,.rollback made rest.2.1 just,failed e _ (undone_onward rest onward [] (by simp)) _⟩
      | error e' =>
        exact ⟨_,.lose made rest.2.1 just,failed e _ (undone_onward rest onward [.lost q fd.ino] (by simp [Minor])) _⟩

/-! ## Temporary names -/

theorem suffixOf_chars (rnd : List Nat) : ∀ c ∈ suffixOf rnd, c ∈ tempChars := by
  intro c member
  obtain ⟨b,_,rfl⟩ := List.mem_map.mp member
  have below : b%tempChars.length < tempChars.length := Nat.mod_lt _ (by decide)
  rw [List.getD_eq_getElem _ _ below]
  exact List.getElem_mem below

theorem lcgBytes_length (n seed : Nat) : (lcgBytes n seed).length = n := by
  induction n generalizing seed with
  | zero => rfl
  | succ n ih => simp [lcgBytes,ih]

theorem temp_fill_tame : Tame none (fun suffix => suffix.length = TEMP_RAND ∧ ∀ c ∈ suffix, c ∈ tempChars) temp_fill := by
  rw [temp_fill]
  refine tame_perform rfl fun r sane => ?_
  cases r with
  | ok rnd =>
    have length : rnd.length = TEMP_RAND := sane
    exact tame_ret ⟨by simpa [suffixOf] using length,suffixOf_chars rnd⟩
  | error e =>
    refine tame_modify (fun m _ => ?_) (tame_get fun m _ => tame_ret ?_)
    · exact ⟨rfl,rfl,rfl,rfl,rfl,⟨[],rfl⟩,Nat.le_refl _,fun ⟨d,f⟩ => ⟨d,f⟩⟩
    · exact ⟨by simp [suffixOf,lcgBytes_length],suffixOf_chars _⟩

/-- A way of making a temporary name for a slot. It starts out from `pre`, and when it
    succeeds the name is there with what `extra` says of it. -/
structure Makes (paths : List Path) (spec : FileSpec) (target : Path) (slot : Nat) (role : Role) (pre : Book → Prop)
    (make : Path → P (Except Errno Made)) (extra : Made → Option Work → Option (Path × Ino) → Option Path → Prop) : Prop where
  owner : ∀ {g : Book} owner, pre g → pre { g with owner }
  call : ∀ {m : Memory} {g : Book} {q : Path}, m.blocked = true → Rest g → pre g → TempOf target q →
    Follows (ledger paths spec) (make q) (fun r m' g' => m' = m ∧
      match r with
      | .ok made => Onward [FRESH] [slot] (Minor False) m g m g' ∧ g'.live FRESH = some ⟨q,made.st.ino,role⟩ ∧
          extra made (g'.work slot) g'.old g'.taken
      | .error _ => Onward [] [slot] (Minor False) m g m g' ∧ pre g') m g

section
variable {target : Path} {slot : Nat} {role : Role} {pre : Book → Prop} {make : Path → P (Except Errno Made)}
  {extra : Made → Option Work → Option (Path × Ino) → Option Path → Prop}

/-- A name that was made is armed. -/
theorem arm_onward {blocked : Bool} {name : Str} {r : Rec} {files : List Nat} (rest : Rest g)
    (onward : Onward [FRESH] files (Minor False) { m with blocked } g { m with blocked } g') :
    Onward [slot] files (Minor False) m g { Memory.setPending { m with blocked } slot ⟨some name,r.ino⟩ with blocked := m.blocked }
      { g' with live := update (update g'.live FRESH none) slot (some r) } := by
  refine ⟨?_,onward.work,onward.lag,onward.finished,onward.heap,onward.owner,onward.failed,onward.told,onward.trail⟩
  intro j other
  simp only [List.mem_singleton] at other
  by_cases fresh : j = FRESH
  · subst fresh
    simp [other,rest.1]
  · simpa [other,fresh] using onward.live j (by simpa using fresh)

/-- The mask is as it was before. -/
theorem mask_onward {blocked : Bool} {names files : List Nat} {ok : Deed → Prop}
    (onward : Onward names files ok { m with blocked } g { m with blocked } g') :
    Onward names files ok m g { m with blocked := m.blocked } g' :=
  ⟨onward.live,onward.work,onward.lag,onward.finished,onward.heap,onward.owner,onward.failed,onward.told,onward.trail⟩

theorem tryMake_spec {name : Str} (makes : Makes paths spec target slot role pre make extra) (rest : Rest g)
    (fits : slot < FRESH) (room : g.live slot = none) (start : pre g) (whole : Whole g m slot name)
    (temp : TempOf target name.text) : Follows (ledger paths spec) (tryMake slot make name) (fun r m' g' =>
      match r with
      | .ok made => Onward [slot] [slot] (Minor False) m g m' g' ∧ g'.live slot = some ⟨name.text,made.st.ino,role⟩ ∧
          extra made (g'.work slot) g'.old g'.taken
      | .error _ => m' = m ∧ Onward [] [slot] (Minor False) m g m g' ∧ pre g') m g := by
  rw [tryMake]
  refine follows_hold (follows_seq (makes.call rfl rest start temp) ?_)
  rintro r _ g' _ ⟨rfl,result⟩
  cases r with
  | ok made =>
    obtain ⟨onward,live,holds⟩ := result
    have clean : g'.lag = [] := onward.lag.trans rest.2.1
    have room' : g'.live slot = none := (onward.live slot (by simpa using fits.ne)).trans room
    have whole' : Whole g' { m with blocked := true } slot name := by
      intro b block
      obtain ⟨owner,below,unfreed⟩ := whole b block
      exact ⟨(onward.owner b below).trans owner,below,unfreed⟩
    refine follows_step (.arm clean live rfl room' fits whole') (follows_release ?_ (follows_pure ⟨?_,?_,holds⟩))
    · exact ⟨by simp [fits.ne'],clean⟩
    · exact arm_onward (r := ⟨name.text,made.st.ino,role⟩) rest onward
    · simp
  | error e =>
    obtain ⟨onward,still⟩ := result
    refine follows_release (rest.closed.onward onward (by simp)) (follows_pure ⟨rfl,?_,still⟩)
    exact mask_onward onward

/-- What `temp_make` leaves: a name for the slot, or none. -/
def TempMade (target : Path) (slot : Nat) (role : Role) (extra : Made → Option Work → Option (Path × Ino) → Option Path → Prop) (m : Memory) (g : Book)
    (r : Except Errno (Str × Made)) (m' : Memory) (g' : Book) : Prop :=
  match r with
  | .ok (name,made) => Onward [slot] [slot] (Minor False) m g m' g' ∧ g'.live slot = some ⟨name.text,made.st.ino,role⟩ ∧
      extra made (g'.work slot) g'.old g'.taken ∧ Owned g' m' slot name ∧ TempOf target name.text
  | .error _ => Onward [] [slot] (Minor False) m g m' g'

theorem makeLoop_spec (makes : Makes paths spec target slot role pre make extra) (fits : slot < FRESH) (block : Option Nat) :
    ∀ (tries : Nat) (e : Errno) (m : Memory) (g : Book), Rest g → g.live slot = none → pre g →
      Whole g m slot ⟨[],block⟩ →
      Follows (ledger paths spec) (makeLoop slot make (target.take (path_dir_len target) ++ TEMP_STEM) block tries e)
        (fun r m' g' => TempMade target slot role extra m g r m' g' ∧
          ∀ e, r = .error e → Owned g' m' slot ⟨[],block⟩) m g := by
  intro tries
  induction tries with
  | zero =>
    intro e m g rest room start whole
    exact follows_pure ⟨Onward.refl m g,fun _ _ => Whole.owned whole⟩
  | succ tries ih =>
    intro e m g rest room start whole
    rw [makeLoop]
    refine follows_tame temp_fill_tame fun suffix m₁ ⟨length,chars⟩ same => ?_
    have temp : TempOf target (target.take (path_dir_len target) ++ TEMP_STEM ++ suffix) := ⟨suffix,rfl,length,chars⟩
    have whole₁ : Whole g m₁ slot ⟨target.take (path_dir_len target) ++ TEMP_STEM ++ suffix,block⟩ := by
      intro b is
      rw [same.heap,same.freed]
      exact whole b is
    refine follows_seq (tryMake_spec makes rest fits room start whole₁ temp) ?_
    rintro r m₂ g₂ _ result
    cases r with
    | ok made =>
      obtain ⟨onward,live,holds⟩ := result
      have owned : Owned g m₁ slot ⟨[],block⟩ := Whole.owned whole₁
      exact follows_pure ⟨⟨(same_onward same g).trans onward,live,holds,owned.onward onward,temp⟩,by simp⟩
    | error e' =>
      obtain ⟨rfl,onward,still⟩ := result
      have sofar : Onward [] [slot] (Minor False) m g m₂ g₂ := (same_onward same g).trans onward
      have whole₂ : Whole g₂ m₂ slot ⟨[],block⟩ := by
        intro b is
        obtain ⟨owner,below,unfreed⟩ := whole₁ b is
        exact ⟨(onward.owner b below).trans owner,below,unfreed⟩
      by_cases again : e' = .EEXIST
      · dsimp only
        rw [if_pos again]
        have next := ih e' m₂ g₂ (rest.onward sofar (by simp) (by simp)) ((sofar.live slot (by simp)).trans room) still whole₂
        refine follows_mono next ?_
        rintro r m₃ g₃ _ ⟨result,owned⟩
        refine ⟨?_,owned⟩
        cases r with
        | ok named =>
          obtain ⟨onward',rest'⟩ := result
          exact ⟨(sofar.mono (by simp) (List.Subset.refl _) fun _ => id).trans onward',rest'⟩
        | error e'' => exact sofar.trans result
      · dsimp only
        rw [if_neg again]
        exact follows_pure ⟨sofar,fun _ _ => Whole.owned whole₂⟩

theorem temp_make_spec (makes : Makes paths spec target slot role pre make extra) (fits : slot < FRESH) (rest : Rest g)
    (room : g.live slot = none) (start : pre g) :
    Follows (ledger paths spec) (temp_make target slot make) (TempMade target slot role extra m g) m g := by
  rw [temp_make]
  refine follows_newStr slot (fun e => follows_pure (Onward.refl m g)) fun freed => ?_
  have whole : Whole { g with owner := update g.owner m.heap slot } { m with heap := m.heap+1 } slot ⟨[],some m.heap⟩ :=
    newStr_whole g slot [] freed
  refine follows_seq (makeLoop_spec makes fits (some m.heap) TEMP_TRIES .EEXIST _ _ ?_ room (makes.owner _ start) whole) ?_
  · exact rest
  · rintro r m₁ g₁ _ ⟨result,owned⟩
    cases r with
    | ok made =>
      obtain ⟨onward,rest⟩ := result
      exact follows_pure ⟨(newStr_onward m g slot).trans onward,rest⟩
    | error e =>
      have sofar : Onward [] [slot] (Minor False) m g m₁ g₁ := (newStr_onward m g slot).trans result
      refine follows_free (owned e rfl) fits.ne (sofar.lag.trans rest.2.1) ((sofar.live slot (by simp)).trans room)
        (follows_pure ?_)
      exact sofar.trans (free_onward m₁ g₁ ⟨[],some m.heap⟩)

end

/-! ## The ways of making a temporary name -/

/-- The descriptor is on the file that was made. -/
def Opened (role : Role) (made : Made) (work : Option Work) (_ : Option (Path × Ino)) (_ : Option Path) : Prop :=
  ∃ fd, made.fd = some fd ∧ made.st.ino = fd.ino ∧ (role = .temp → work = some ⟨fd.ino,.secret,true⟩)

theorem make_open_makes {target : Path} {slot : Nat} {role : Role} {mode : Mode}
    (opens : ∀ q, TempOf target q → Opens paths spec q mode role) :
    Makes paths spec target slot role (fun _ => True) (make_open mode) (Opened role) where
  owner _ _ := trivial
  call {m g q} blocked rest _ temp := by
    rw [make_open]
    refine follows_create_excl slot blocked rest (opens q temp) ?_ ?_
    · exact fun e g' undone => follows_pure ⟨rfl,undone,trivial⟩
    · refine fun evs fd st same => follows_pure ⟨rfl,created_onward _ _ _ _ (by simp),?_,fd,rfl,same,?_⟩ _
      · simp [created,same]
      · intro temp
        simp [created,temp]

/-- A file without a name that may get a temporary one. -/
def Linkable (slot : Nat) (fd : Fd) (phase : Phase) (g : Book) : Prop :=
  g.work slot = some ⟨fd.ino,phase,false⟩ ∧ (phase = .secret ∨ phase = .sealed ∧ fd.ino ∈ g.finished)

theorem fresh_onward {names files : List Nat} {ok : Deed → Prop} (r : Rec) (fresh : FRESH ∈ names) :
    Onward names files ok m g m (g.fresh r) := by
  refine ⟨?_,fun _ _ => rfl,rfl,List.Subset.refl _,Nat.le_refl _,fun _ _ => rfl,Nat.le_refl _,
    List.Subset.refl _,⟨[],rfl,by simp⟩⟩
  intro j other
  have : j ≠ FRESH := fun same => other (same ▸ fresh)
  simp [this]

/-- How far a file is. -/
theorem worked_onward {names : List Nat} {ok : Deed → Prop} {slot : Nat} (w : Work) :
    Onward names [slot] ok m g m { g with work := update g.work slot (some w) } := by
  refine ⟨fun _ _ => rfl,?_,rfl,List.Subset.refl _,Nat.le_refl _,fun _ _ => rfl,Nat.le_refl _,List.Subset.refl _,
    ⟨[],rfl,by simp⟩⟩
  intro j other
  exact update_of_ne (by simpa using other) _ _

theorem make_fdlink_makes {target : Path} {slot : Nat} {fd : Fd} {st : Stat} {phase : Phase} (member : target ∈ paths)
    (same : st.ino = fd.ino) :
    Makes paths spec target slot .temp (Linkable slot fd phase) (make_fdlink fd st)
      (fun made work _ _ => made.st.ino = fd.ino ∧ work = some ⟨fd.ino,phase,true⟩) where
  owner _ start := start
  call {m g q} blocked rest start temp := by
    rw [make_fdlink,fast_link]
    refine follows_perform (fun e => follows_pure ⟨rfl,Onward.refl m g,start⟩) fun _ _ _ _ => ?_
    refine ⟨_,.tempLink blocked rest.1 rest.2.1 rest.2.2 ⟨target,member,temp⟩ start.1 start.2,follows_pure ⟨rfl,?_,?_,same,update_self ..⟩⟩
    · exact (fresh_onward _ (by simp)).trans (worked_onward _)
    · simp [same]

theorem make_link_makes {src taken : Path} {slot : Nat} {st : Stat} (member : src ∈ paths)
    (force : spec.force_mode = true) :
    Makes paths spec src slot .twin (fun g => g.old = some (src,st.ino) ∧ g.taken = some taken) (make_link src st)
      (fun made _ old taken' => made.st = st ∧ old = some (src,st.ino) ∧ taken' = some taken) where
  owner _ start := start
  call {m g q} blocked rest start temp := by
    rw [make_link]
    refine follows_perform (fun e => follows_pure ⟨rfl,Onward.refl m g,start⟩) fun _ _ _ _ => ?_
    refine ⟨_,.twinLink blocked rest.1 rest.2.1 rest.2.2 force member temp start.1,follows_pure ⟨rfl,?_,?_,rfl,start⟩⟩
    · exact fresh_onward _ (by simp)
    · simp

/-! ## Opening a file -/

theorem place_create_spec {path : Str} {mode : Mode} {slot : Nat} (fits : slot < FRESH) (rest : Rest g)
    (room : g.live slot = none) (outside : path.block = none) (opens : Opens paths spec path.text mode .plain) :
    Follows (ledger paths spec) (place_create path mode slot) (fun r m' g' =>
      match r with
      | .ok fd => Onward [slot] [slot] (Minor False) m g m' g' ∧ g'.live slot = some ⟨path.text,fd.ino,.plain⟩
      | .error _ => Onward [] [slot] (Minor False) m g m' g') m g := by
  rw [place_create]
  refine follows_hold (follows_create_excl slot rfl rest opens ?_ ?_)
  · exact fun e g' undone => follows_release (rest.closed.onward undone (by simp)) (follows_pure (mask_onward undone))
  · intro evs fd st same
    have onward : Onward [FRESH] [slot] (Minor False) { m with blocked := true } g { m with blocked := true }
        (created g path.text fd.ino .plain slot) := created_onward _ _ _ _ (by simp)
    have live : (created g path.text fd.ino .plain slot).live FRESH = some ⟨path.text,fd.ino,.plain⟩ := by simp [created]
    have room' : (created g path.text fd.ino .plain slot).live slot = none :=
      (onward.live slot (by simpa using fits.ne)).trans room
    have whole : Whole (created g path.text fd.ino .plain slot) { m with blocked := true } slot path := by
      simp [Whole,outside]
    have clean : (created g path.text fd.ino .plain slot).lag = [] := rest.2.1
    dsimp only
    rw [same]
    refine Follows.after (follows_step (.arm clean live rfl room' fits whole) (follows_release ?_ (follows_pure ?_)))
    · exact ⟨by simp [fits.ne'],rest.2.1⟩
    · refine ⟨arm_onward (r := ⟨path.text,fd.ino,.plain⟩) rest onward,?_⟩
      simp

theorem place_temp_spec {target : Path} {slot : Nat} (member : target ∈ paths) (fits : slot < FRESH) (rest : Rest g)
    (room : g.live slot = none) : Follows (ledger paths spec) (place_temp target 0o600 slot) (fun r m' g' =>
      match r with
      | .ok (name,fd) => ∃ d : Fd, fd = some d ∧ Onward [slot] [slot] (Minor False) m g m' g' ∧
          g'.live slot = some ⟨name.text,d.ino,.temp⟩ ∧ g'.work slot = some ⟨d.ino,.secret,true⟩ ∧
          Owned g' m' slot name ∧ TempOf target name.text
      | .error _ => Onward [] [slot] (Minor False) m g m' g') m g := by
  rw [place_temp]
  have makes : Makes paths spec target slot .temp (fun _ => True) (make_open 0o600) (Opened .temp) :=
    make_open_makes fun q temp => ⟨⟨target,member,temp⟩,rfl⟩
  refine follows_seq (temp_make_spec makes fits rest room trivial) ?_
  rintro r m' g' _ result
  cases r with
  | ok made =>
    obtain ⟨name,made⟩ := made
    obtain ⟨onward,live,⟨fd,opened,same,work⟩,owned,temp⟩ := result
    rw [same] at live
    exact follows_pure ⟨fd,opened,onward,live,work rfl,owned,temp⟩
  | error e => exact follows_pure result

theorem place_temp_link_spec {target : Path} {slot : Nat} {fd : Fd} {phase : Phase} (member : target ∈ paths)
    (fits : slot < FRESH) (rest : Rest g) (room : g.live slot = none) (linkable : Linkable slot fd phase g) :
    Follows (ledger paths spec) (place_temp_link fd target slot) (fun r m' g' =>
      match r with
      | .ok name => Onward [slot] [slot] (Minor False) m g m' g' ∧ g'.live slot = some ⟨name.text,fd.ino,.temp⟩ ∧
          g'.work slot = some ⟨fd.ino,phase,true⟩ ∧ Owned g' m' slot name ∧ TempOf target name.text
      | .error _ => Onward [] [slot] (Minor False) m g m' g') m g := by
  rw [place_temp_link]
  refine follows_silent rfl fun r sane => ?_
  cases r with
  | error e => exact follows_pure (Onward.refl m g)
  | ok st =>
    refine follows_seq (temp_make_spec (make_fdlink_makes member sane) fits rest room linkable) ?_
    rintro r m' g' _ result
    cases r with
    | ok made =>
      obtain ⟨name,made⟩ := made
      obtain ⟨onward,live,⟨same,work⟩,owned,temp⟩ := result
      rw [same] at live
      exact follows_pure ⟨onward,live,work,owned,temp⟩
    | error e => exact follows_pure result

theorem place_temp_alias_spec {src taken : Path} {st : Stat} {slot : Nat} (member : src ∈ paths)
    (force : spec.force_mode = true) (fits : slot < FRESH) (rest : Rest g) (room : g.live slot = none)
    (old : g.old = some (src,st.ino)) (there : g.taken = some taken) :
    Follows (ledger paths spec) (place_temp_alias src st slot) (fun r m' g' =>
      match r with
      | .ok name => Onward [slot] [slot] (Minor False) m g m' g' ∧ g'.live slot = some ⟨name.text,st.ino,.twin⟩ ∧
          g'.old = some (src,st.ino) ∧ g'.taken = some taken ∧ Owned g' m' slot name ∧ TempOf src name.text
      | .error _ => Onward [] [slot] (Minor False) m g m' g') m g := by
  rw [place_temp_alias]
  refine follows_seq (temp_make_spec (make_link_makes member force) fits rest room ⟨old,there⟩) ?_
  rintro r m' g' _ result
  cases r with
  | ok made =>
    obtain ⟨name,made⟩ := made
    obtain ⟨onward,live,⟨same,old,there⟩,owned,temp⟩ := result
    rw [same] at live
    exact follows_pure ⟨onward,live,old,there,owned,temp⟩
  | error e => exact follows_pure result

theorem tame_path_dir (path : Path) : Tame none (fun r => ∀ dir, r = .ok dir → dir = dirText path) (path_dir path) := by
  rw [path_dir]
  refine tame_perform rfl fun r _ => ?_
  cases r with
  | ok _ => exact tame_ret (by rintro _ ⟨⟩; rfl)
  | error e => exact tame_ret (by simp)

theorem place_probe_mode_spec {target : Path} {mode : Mode} {slot : Nat} (member : target ∈ paths) (fits : slot < FRESH)
    (rest : Rest g) (room : g.live slot = none) :
    Follows (ledger paths spec) (place_probe_mode target mode slot) (fun r m' g' => g'.live slot = none ∧
      Onward [slot] [slot] (Minor (∀ granted, r ≠ .ok (granted,false))) m g m' g') m g := by
  rw [place_probe_mode]
  refine follows_tame (tame_path_dir target) fun r m₁ _ still => ?_
  cases r with
  | error e => exact follows_pure ⟨room,same_onward still g⟩
  | ok dir =>
    refine follows_get ?_
    cases m₁.probes.find? fun p => p.dir = dir with
    | some p => exact follows_pure ⟨room,same_onward still g⟩
    | none =>
      have makes : Makes paths spec target slot .probe (fun _ => True) (make_open mode) (Opened .probe) :=
        make_open_makes fun q temp => ⟨target,member,temp⟩
      refine follows_seq (temp_make_spec makes fits rest room trivial) ?_
      rintro r m₂ g₂ _ result
      cases r with
      | error e =>
        have onward : Onward [] [slot] (Minor False) m g m₂ g₂ := (same_onward still g).trans result
        exact follows_pure ⟨(onward.live slot (by simp)).trans room,
          onward.mono (by simp) (List.Subset.refl _) fun _ => Minor.mono False.elim⟩
      | ok made =>
        obtain ⟨name,made⟩ := made
        obtain ⟨onward,live,⟨fd,opened,same,_⟩,owned,_⟩ := result
        have sofar : Onward [slot] [slot] (Minor False) m g m₂ g₂ := (same_onward still g).trans onward
        dsimp only
        rw [place_probe_mode.closeMade,opened]
        refine follows_silent rfl fun ret _ => ?_
        refine follows_seq (pending_remove_spec fits.ne (sofar.lag.trans rest.2.1)) ?_
        rintro removed m₃ g₃ _ ⟨onward',gone,_⟩
        have clean : g₃.lag = [] := (onward'.lag.trans sofar.lag).trans rest.2.1
        refine follows_free (owned.onward onward') fits.ne clean gone ?_
        have all : Onward [slot] [slot] (Minor (removed = false)) m g { m₃ with freed := name.block.toList ++ m₃.freed } g₃ :=
          (sofar.mono (List.Subset.refl _) (List.Subset.refl _) fun _ => Minor.mono False.elim).trans
            ((onward'.mono (List.Subset.refl _) (by simp) fun _ => id).trans (free_onward m₃ g₃ name))
        cases ret with
        | error e => exact follows_pure ⟨gone,all.mono (List.Subset.refl _) (List.Subset.refl _) fun _ => Minor.mono (by simp)⟩
        | ok _ =>
          have same' : ∀ m : Memory, Same m
              (if m.probes.length < NEWFILE_BATCH then { m with probes := m.probes ++ [⟨dir,made.st.mode⟩] } else m) := by
            intro m
            split
            · exact ⟨rfl,rfl,rfl,rfl,rfl,⟨[],rfl⟩,Nat.le_refl _,fun ⟨d,f⟩ => ⟨d,f⟩⟩
            · exact Same.refl m
          refine follows_step (.quiet (same' _)) (follows_pure ⟨gone,?_⟩)
          refine (all.mono (List.Subset.refl _) (List.Subset.refl _) fun _ => Minor.mono ?_).trans (same_onward (same' _) g₃)
          rintro rfl granted ⟨⟩

/-! ## Naming a file -/

/-- The name in a slot has become that of an operand. -/
theorem moved_onward {slot : Nat} {p : Path} {n : Ino} {q : PendingName} {files : List Nat} (rest : Rest g)
    (onward : Onward [FRESH] files (Minor False) { m with blocked := true } g { m with blocked := true } g')
    {book : Book}
    (is : book = { g' with
      live := update (update g'.live FRESH none) slot none, lag := [], trail := .file p n :: g'.trail
      taken := none }) :
    Onward [slot] files (Naming p False) m g
      { Memory.setPending { m with blocked := true } slot q with blocked := m.blocked } book := by
  subst is
  obtain ⟨new,grown,minor⟩ := onward.trail
  refine ⟨?_,onward.work,rest.2.1.symm,onward.finished,onward.heap,onward.owner,onward.failed,onward.told,
    ⟨.file p n :: new,by rw [grown]; rfl,?_⟩⟩
  · intro j other
    simp only [List.mem_singleton] at other
    by_cases fresh : j = FRESH
    · subst fresh
      simp [other,rest.1]
    · simpa [other,fresh] using onward.live j (by simpa using fresh)
  · intro d member
    rcases List.mem_cons.mp member with rfl | before
    · rfl
    · exact (minor d before).naming

theorem place_over_spec {tmp target : Path} {slot : Nat} {n : Ino} (member : target ∈ paths)
    (unforced : spec.force_mode = false) (fits : slot ≠ FRESH) (rest : Rest g) (live : g.live slot = some ⟨tmp,n,.temp⟩)
    (finished : n ∈ g.finished) : Follows (ledger paths spec) (place_over tmp target slot) (fun r m' g' =>
      match r with
      | .ok _ => Onward [slot] [slot] (Naming target False) m g m' g' ∧ g'.live slot = none ∧ .file target n ∈ g'.trail
      | .error _ => Onward [] [slot] (Minor True) m g m' g') m g := by
  rw [place_over]
  have opens : Opens paths spec target 0o600 .holder := ⟨member,rfl,unforced⟩
  refine follows_hold (follows_create_excl slot rfl rest opens ?_ ?_)
  · refine fun e g' undone => follows_release (rest.closed.onward undone (by simp)) (follows_pure ?_)
    exact (mask_onward undone).mono (List.Subset.refl _) (List.Subset.refl _) fun _ => Minor.mono False.elim
  · intro evs fd st same
    have onward : Onward [FRESH] [slot] (Minor False) { m with blocked := true } g { m with blocked := true }
        (created g target fd.ino .holder slot) := created_onward _ _ _ _ (by simp)
    have holder : (created g target fd.ino .holder slot).live FRESH = some ⟨target,fd.ino,.holder⟩ := by simp [created]
    have live' : (created g target fd.ino .holder slot).live slot = some ⟨tmp,n,.temp⟩ :=
      (onward.live slot (by simpa using fits)).trans live
    have clean : (created g target fd.ino .holder slot).lag = [] := rest.2.1
    refine after_call fun _ closed _ => ⟨_,.quiet (.inl rfl),after_call fun _ r _ => ?_⟩
    cases r with
    | ok _ =>
      have just : JustOpened (evs ++ [⟨.open_excl target 0o600,.ok fd⟩,⟨.fstat fd,.ok st⟩] ++ [⟨.close fd,closed⟩]) target
          fd.ino true := ⟨evs,0o600,fd,.ok st,closed,by simp,rfl,rfl⟩
      refine ⟨_,.overHolder rfl clean unforced member live' fits holder just finished,follows_clear (by simp) ?_ _⟩
      refine follows_release ⟨by simp [fits.symm],by simp⟩ (follows_pure ⟨?_,by simp,List.mem_cons_self⟩)
      exact moved_onward (n := n) rest onward (by simp)
    | error e =>
      refine ⟨_,.quiet (.inr ⟨e,rfl⟩),?_⟩
      dsimp only
      rw [pending_unlink,same]
      refine follows_seq (remove_ours_spec clean holder) ?_ _
      rintro r _ g₁ _ ⟨rfl,⟨removed,rfl⟩ | ⟨e',rfl,rfl⟩⟩
      · have undone : Onward [] [slot] (Minor False) _ g _ _ := undone_onward rest onward [] (by simp)
        have back : Onward [] [slot] (Minor True) m g _ _ :=
          mask_onward (undone.mono (List.Subset.refl _) (List.Subset.refl _) fun _ => Minor.mono False.elim)
        have settled : Closed ((created g target fd.ino .holder slot).drop FRESH) := ⟨by simp,by simp [Book.drop]⟩
        cases r with
        | failed e' => exact absurd rfl (removed e')
        | gone => exact follows_release settled (follows_pure back)
        | other => exact follows_release settled (follows_pure back)
      · refine follows_keep clean holder (follows_release ⟨by simp,by simp [Book.drop]⟩ (follows_pure ?_))
        have onward' : Onward [FRESH] [slot] (Minor True) _ g _ _ :=
          onward.mono (List.Subset.refl _) (List.Subset.refl _) fun _ => Minor.mono False.elim
        have undone : Onward [] [slot] (Minor True) _ g _ _ := undone_onward rest onward' [.kept target fd.ino] (by simp [Minor])
        exact ⟨undone.live,undone.work,undone.lag,undone.finished,undone.heap,undone.owner,undone.failed,undone.told,
          undone.trail⟩

end Newfile.Places
