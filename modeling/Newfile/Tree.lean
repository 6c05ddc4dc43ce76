import Newfile.Veiled

/-!
The names of a run. At any time every name is as it was at the start, or is in a
ledger, or is there for good by a deed; and what was there at the start still is, but
for the operands that are replaced with `-f` and backup names that are used again.
-/
namespace Newfile.Tree
open Newfile.Program Newfile.Posix Newfile.Process Newfile.Pending Newfile.Place Newfile.Backup Newfile.Batch
open Newfile.Effects Newfile.Simulation Newfile.Ledger Newfile.Batches Newfile.Evidence Newfile.Answers Newfile.Crowds Newfile.Agreement
open Newfile.Files Newfile.Veiled Function

variable {ι : Type} {res : Path → Ino} {paths : ι → List Path} {spec : ι → FileSpec} {k₀ k k' : Kernel} {g : ι → Book} {i : ι}
  {b : Book}

/-- The name that a deed leaves, and the file under it. -/
def Leaves (res : Path → Ino) (e : Entry) (n : Ino) : Deed → Prop
  | .file p n' => e = entry res p ∧ n' = n
  | .backup _ b o | .reused _ b o => e = entry res b ∧ o = n
  | .dir q => e = entry res q ∧ res q = n
  | .kept q n' | .keptOld q n' | .lost q n' => e = entry res q ∧ n' = n

/-- The name of a file that was there is given to another. -/
def Replaces (res : Path → Ino) (e : Entry) : Deed → Prop
  | .file p _ => e = entry res p
  | .reused _ b _ => e = entry res b
  | _ => False

/-- The names on the system, as far as the ledgers explain them. -/
structure Rooted (res : Path → Ino) (spec : ι → FileSpec) (k₀ k : Kernel) (g : ι → Book) : Prop where
  new : ∀ i j r, (g i).live j = some r → k₀.names.get (entry res r.path) = none
  kept : ∀ e n, k₀.names.get e = some n → k.names.get e = some n ∨
    (k.names.get e).isSome = true ∧ ∃ i, (spec i).force_mode = true ∧ ∃ d ∈ (g i).trail, Replaces res e d
  known : ∀ e n, k.names.get e = some n → k₀.names.get e = some n ∨
    (∃ i j r, (g i).live j = some r ∧ e = entry res r.path ∧ r.ino = n) ∨ ∃ i, ∃ d ∈ (g i).trail, Leaves res e n d
  own : ∀ i j r, (g i).live j = some r → r.role = .temp → k₀.next ≤ r.ino
  sole : ∀ i j r, (g i).live j = some r → r.role = .temp → (spec i).force_mode = true →
    ∀ e, k.names.get e = some r.ino → e = entry res r.path
  holder : ∀ i j r i' j' r', (g i).live j = some r → (g i').live j' = some r' → r.role = .temp → r'.role = .holder → r.ino ≠ r'.ino
  done : ∀ i p n, .file p n ∈ (g i).trail → (spec i).force_mode = false → k.names.get (entry res p) = some n ∧
    k₀.names.get (entry res p) = none ∧ ∀ i' j r, (g i').live j = some r → entry res r.path ≠ entry res p
  put : ∀ i p n, .file p n ∈ (g i).trail →
    ∃ p' n', .file p' n' ∈ (g i).trail ∧ entry res p' = entry res p ∧ k.names.get (entry res p) = some n'
  once : ∀ i p n i' p' n', .file p n ∈ (g i).trail → .file p' n' ∈ (g i').trail → (spec i).force_mode = false →
    entry res p = entry res p' → i = i'

theorem Rooted.isSome (rooted : Rooted res spec k₀ k g) {e : Entry} (there : k₀.names.get e ≠ none) : (k.names.get e).isSome = true := by
  obtain ⟨n,before⟩ := Option.ne_none_iff_exists'.mp there
  rcases rooted.kept e n before with same | ⟨now,_⟩
  · rw [same]
    rfl
  · exact now

/-- A name that is not there was not there at the start. -/
theorem Rooted.absent (rooted : Rooted res spec k₀ k g) {e : Entry} (absent : k.names.get e = none) : k₀.names.get e = none := by
  by_contra there
  have now := rooted.isSome there
  simp [absent] at now

theorem backupDeeds_file {g : Book} {p p' : Path} {n : Ino} : .file p n ∉ backupDeeds g p' := by
  rw [backupDeeds]
  split <;> simp

theorem backup_slot : FRESH ≠ PENDING_BACKUP := by decide

/-- A file that is new gets its first name; an old one that is about to be replaced gets another. -/
theorem made_source {veil : Path → Prop} {born : Entry → Ino → Prop} {first : Ino} {snap : Ino → File → Prop} {m : Memory}
    {evs : List (Event posix)} {c : Call} {r : posix.Res c} {made : Rec} (filed : Filed res paths spec veil born first snap k g) (holds : Holds res paths spec k g)
    (move : Move (paths i) (spec i) evs (g i) m c r b) (answered : exec res k c r k') (room : (g i).live FRESH = none)
    (live : b.live = update (g i).live FRESH (some made)) :
    (first ≤ made.ino ∧ ∀ e, k.names.get e ≠ some made.ino) ∨
      Old made.role ∧ (spec i).force_mode = true ∧ ∃ p ∈ paths i, k.names.get (entry res p) = some made.ino := by
  have here : b.live FRESH = some made := by rw [live,update_self]
  have still : b.live FRESH = (g i).live FRESH → False := fun same => by simp [same,room] at here
  cases move with
  | create blocked _ clean whole opens =>
    obtain ⟨makes,_⟩ := exec_open_excl answered
    obtain rfl : _ = made := by simpa using here
    refine .inl ⟨?_,fun e there => ?_⟩
    · rw [show Rec.ino _ = k.next from makes.ino]
      exact filed.next
    · exact absurd (filed.names e _ there) (by rw [show Rec.ino _ = k.next from makes.ino]; exact Nat.lt_irrefl _)
  | tempLink blocked _ clean whole temp mine ready =>
    obtain rfl : _ = made := by simpa using here
    exact .inl ⟨(filed.work i _ _ mine).1,filed.unnamed i _ _ mine rfl⟩
  | backLink blocked _ clean whole force member name old =>
    obtain rfl : _ = made := by simpa using here
    exact .inr ⟨trivial,force,_,member,holds.old i _ _ old member force⟩
  | twinLink blocked _ clean whole force member temp old =>
    obtain rfl : _ = made := by simpa using here
    exact .inr ⟨trivial,force,_,member,holds.old i _ _ old member force⟩
  | rollback | lose | remove | vanish | noReplace => simp [room] at here
  | overHolder blocked clean unforced member _ slot holder => simp [room] at holder
  | force blocked clean forced member _ temp _ slot => simp [slot.symm,backup_slot,room] at here
  | exchange blocked clean forced member _ temp _ slot => simp [slot.symm,backup_slot,room] at here
  | twinMove => simp [backup_slot,room] at here
  | _ => exact absurd rfl still

variable [DecidableEq ι]

/-- What a move has to show, with the deeds that it adds. -/
theorem Rooted.next (rooted : Rooted res spec k₀ k g) (holds : Holds res paths spec k g) (company : Company res paths spec)
    (deeds : List Deed) (trail : b.trail = deeds ++ (g i).trail)
    (new : ∀ j r, b.live j = some r → k₀.names.get (entry res r.path) = none)
    (temps : ∀ j r, b.live j = some r → r.role = .temp ∨ r.role = .holder →
      (∃ j', (g i).live j' = some r) ∨ j = FRESH ∧ k₀.next ≤ r.ino ∧ ∀ e, k.names.get e ≠ some r.ino)
    (before : ∀ e n, k₀.names.get e = some n → k'.names.get e = k.names.get e ∨
      (k'.names.get e).isSome = true ∧ (spec i).force_mode = true ∧ ∃ d ∈ deeds, Replaces res e d)
    (known : ∀ e n, k'.names.get e = some n →
      k.names.get e = some n ∧ (∀ j r, (g i).live j = some r → e = entry res r.path → r.ino = n →
        (∃ j' r', b.live j' = some r' ∧ e = entry res r'.path ∧ r'.ino = n) ∨ ∃ d ∈ deeds, Leaves res e n d) ∨
      (∃ j r, b.live j = some r ∧ e = entry res r.path ∧ r.ino = n) ∨ ∃ d ∈ deeds, Leaves res e n d)
    (sole : (spec i).force_mode = true → ∀ j r, b.live j = some r → r.role = .temp →
      ∀ e, k'.names.get e = some r.ino → e = entry res r.path)
    (put : (spec i).force_mode = true → ∀ p n, .file p n ∈ (g i).trail → k'.names.get (entry res p) = k.names.get (entry res p) ∨
      ∃ p' n', .file p' n' ∈ deeds ∧ entry res p' = entry res p ∧ k'.names.get (entry res p) = some n')
    (puts : (spec i).force_mode = true → ∀ p n, .file p n ∈ deeds → k'.names.get (entry res p) = some n)
    (apart : (spec i).force_mode = false → ∀ i' p n, .file p n ∈ (g i').trail →
      k'.names.get (entry res p) = k.names.get (entry res p) ∧ ∀ j r, b.live j = some r → entry res r.path ≠ entry res p)
    (done : (spec i).force_mode = false → ∀ p n, .file p n ∈ deeds → k'.names.get (entry res p) = some n ∧
      k₀.names.get (entry res p) = none ∧ (∀ i' j r, (update g i b i').live j = some r → entry res r.path ≠ entry res p) ∧
      (∀ i' p' n', .file p' n' ∈ (g i').trail → entry res p' ≠ entry res p)) :
    Rooted res spec k₀ k' (update g i b) := by
  have more : ∀ i' d, d ∈ (g i').trail → d ∈ (update g i b i').trail := by
    intro i' d member
    by_cases mine : i' = i
    · subst mine
      rw [update_self,trail]
      exact List.mem_append_right _ member
    · rwa [update_of_ne mine]
  have fewer : ∀ i' d, d ∈ (update g i b i').trail → i' = i ∧ d ∈ deeds ∨ d ∈ (g i').trail := by
    intro i' d member
    by_cases mine : i' = i
    · subst mine
      rw [update_self,trail] at member
      exact (List.mem_append.mp member).imp (fun now => ⟨rfl,now⟩) id
    · rw [update_of_ne mine] at member
      exact .inr member
  have ours : ∀ d, d ∈ deeds → d ∈ (update g i b i).trail := by
    intro d member
    rw [update_self,trail]
    exact List.mem_append_left _ member
  have mineLive : ∀ {j r}, b.live j = some r → (update g i b i).live j = some r := by
    intro j r live
    rw [update_self]
    exact live
  -- Where a run with `-f` moves, there is none without.
  have unforced : ∀ {i'}, (spec i').force_mode = false → (spec i).force_mode = false := by
    intro i' creating
    by_contra replacing
    have forced : (spec i).force_mode = true := by simpa using replacing
    simp [company.alone i forced i',forced] at creating
  have named : ∀ {i' j r}, (g i').live j = some r → r.role = .temp ∨ r.role = .holder → k.names.get (entry res r.path) = some r.ino := by
    intro i' j r live role
    refine holds.there i' j r live ?_ ?_
    · rcases role with temp | holder <;> simp [*]
    · rcases role with temp | holder <;> simp [*]
  have cases_ : ∀ {i' j r}, (update g i b i').live j = some r → r.role = .temp ∨ r.role = .holder →
      (∃ j', (g i').live j' = some r) ∨ i' = i ∧ j = FRESH ∧ k₀.next ≤ r.ino ∧ ∀ e, k.names.get e ≠ some r.ino := by
    intro i' j r live role
    rcases live_update live with ⟨rfl,mine⟩ | ⟨_,others⟩
    · exact (temps j r mine role).imp id fun now => ⟨rfl,now⟩
    · exact .inl ⟨j,others⟩
  have settled : ∀ i' p n, .file p n ∈ (update g i b i').trail → (spec i').force_mode = false → k'.names.get (entry res p) = some n ∧
      k₀.names.get (entry res p) = none ∧ ∀ i'' j r, (update g i b i'').live j = some r → entry res r.path ≠ entry res p := by
    intro i' p n member creating
    rcases fewer i' _ member with ⟨rfl,now⟩ | was
    · obtain ⟨there,absent,away,_⟩ := done creating p n now
      exact ⟨there,absent,away⟩
    · obtain ⟨there,absent,away⟩ := rooted.done i' p n was creating
      obtain ⟨same,aside⟩ := apart (unforced creating) i' p n was
      refine ⟨same.trans there,absent,fun i'' j r live => ?_⟩
      rcases live_update live with ⟨rfl,mine⟩ | ⟨_,others⟩
      · exact aside j r mine
      · exact away i'' j r others
  constructor
  · intro i' j r live
    rcases live_update live with ⟨rfl,mine⟩ | ⟨_,others⟩
    · exact new j r mine
    · exact rooted.new i' j r others
  · intro e n there
    rcases before e n there with same | ⟨now,forced,d,member,replaces⟩
    · rw [same]
      refine (rooted.kept e n there).imp id ?_
      rintro ⟨now,i',forced,d,member,replaces⟩
      exact ⟨now,i',forced,d,more i' d member,replaces⟩
    · exact .inr ⟨now,i,forced,d,ours d member,replaces⟩
  · intro e n there
    rcases known e n there with ⟨was,live⟩ | ⟨j,r,now,at_⟩ | ⟨d,member,leaves⟩
    · rcases rooted.known e n was with start | ⟨i',j,r,there',at_,same⟩ | ⟨i',d,member,leaves⟩
      · exact .inl start
      · by_cases this : i' = i
        · subst this
          rcases live j r there' at_ same with ⟨j',r',now,at'⟩ | ⟨d,member,leaves⟩
          · exact .inr (.inl ⟨i',j',r',mineLive now,at'⟩)
          · exact .inr (.inr ⟨i',d,ours d member,leaves⟩)
        · exact .inr (.inl ⟨i',j,r,by rwa [update_of_ne this],at_,same⟩)
      · exact .inr (.inr ⟨i',d,more i' d member,leaves⟩)
    · exact .inr (.inl ⟨i,j,r,mineLive now,at_⟩)
    · exact .inr (.inr ⟨i,d,ours d member,leaves⟩)
  · intro i' j r live temp
    rcases cases_ live (.inl temp) with ⟨j',was⟩ | ⟨_,_,own,_⟩
    · exact rooted.own i' j' r was temp
    · exact own
  · intro i' j r live temp forced
    obtain rfl := company.alone i' forced i
    exact sole forced j r (by simpa using live) temp
  · intro i₁ j₁ r₁ i₂ j₂ r₂ one two temp holder same
    rcases cases_ one (.inl temp) with ⟨j,was₁⟩ | ⟨rfl,rfl,_,unnamed⟩
    · rcases cases_ two (.inr holder) with ⟨j',was₂⟩ | ⟨_,_,_,unnamed⟩
      · exact rooted.holder _ _ _ _ _ _ was₁ was₂ temp holder same
      · exact unnamed _ (same ▸ named was₁ (.inl temp))
    · rcases cases_ two (.inr holder) with ⟨j',was₂⟩ | ⟨rfl,rfl,_⟩
      · exact unnamed _ (same ▸ named was₂ (.inr holder))
      · obtain rfl := Option.some.inj (one.symm.trans two)
        simp [temp] at holder
  · exact settled
  · intro i' p n member
    by_cases forced : (spec i').force_mode = true
    · obtain rfl := company.alone i' forced i
      rcases fewer i _ member with ⟨_,now⟩ | was
      · exact ⟨p,n,ours _ now,rfl,puts forced p n now⟩
      · rcases put forced p n was with same | ⟨p',n',now,equal,there⟩
        · obtain ⟨p',n',member',equal,there⟩ := rooted.put i p n was
          exact ⟨p',n',more i _ member',equal,same.trans there⟩
        · exact ⟨p',n',ours _ now,equal,there⟩
    · exact ⟨p,n,member,rfl,(settled i' p n member (by simpa using forced)).1⟩
  · intro i₁ p₁ n₁ i₂ p₂ n₂ one two creating same
    rcases fewer i₁ _ one with ⟨rfl,now₁⟩ | was₁
    · rcases fewer i₂ _ two with ⟨rfl,now₂⟩ | was₂
      · rfl
      · exact absurd same.symm ((done creating p₁ n₁ now₁).2.2.2 i₂ p₂ n₂ was₂)
    · rcases fewer i₂ _ two with ⟨rfl,now₂⟩ | was₂
      · exact absurd same ((done (unforced creating) p₂ n₂ now₂).2.2.2 i₁ p₁ n₁ was₁)
      · exact rooted.once i₁ p₁ n₁ i₂ p₂ n₂ was₁ was₂ creating same

/-- The names made become fewer, and there are no deeds but those of names that are gone from the ledger. -/
theorem Rooted.fewer (rooted : Rooted res spec k₀ k g) (holds : Holds res paths spec k g) (company : Company res paths spec)
    (deeds : List Deed) (trail : b.trail = deeds ++ (g i).trail) (sub : ∀ j r, b.live j = some r → ∃ j', (g i).live j' = some r)
    (before : ∀ e n, k₀.names.get e = some n → k'.names.get e = k.names.get e ∨
      (k'.names.get e).isSome = true ∧ (spec i).force_mode = true ∧ ∃ d ∈ deeds, Replaces res e d)
    (known : ∀ e n, k'.names.get e = some n →
      k.names.get e = some n ∧ (∀ j r, (g i).live j = some r → e = entry res r.path → r.ino = n →
        (∃ j' r', b.live j' = some r' ∧ e = entry res r'.path ∧ r'.ino = n) ∨ ∃ d ∈ deeds, Leaves res e n d) ∨
      ∃ d ∈ deeds, Leaves res e n d)
    (sole : (spec i).force_mode = true → ∀ j r, b.live j = some r → r.role = .temp →
      ∀ e, k'.names.get e = some r.ino → k.names.get e = some r.ino)
    (put : (spec i).force_mode = true → ∀ p n, .file p n ∈ (g i).trail → k'.names.get (entry res p) = k.names.get (entry res p) ∨
      ∃ p' n', .file p' n' ∈ deeds ∧ entry res p' = entry res p ∧ k'.names.get (entry res p) = some n')
    (puts : (spec i).force_mode = true → ∀ p n, .file p n ∈ deeds → k'.names.get (entry res p) = some n)
    (apart : (spec i).force_mode = false → ∀ i' p n, .file p n ∈ (g i').trail → k'.names.get (entry res p) = k.names.get (entry res p))
    (done : (spec i).force_mode = false → ∀ p n, .file p n ∈ deeds → k'.names.get (entry res p) = some n ∧
      k₀.names.get (entry res p) = none ∧ (∀ i' j r, (update g i b i').live j = some r → entry res r.path ≠ entry res p) ∧
      (∀ i' p' n', .file p' n' ∈ (g i').trail → entry res p' ≠ entry res p)) :
    Rooted res spec k₀ k' (update g i b) := by
  refine rooted.next holds company deeds trail (fun j r live => ?_) (fun j r live _ => .inl (sub j r live)) before
    (fun e n there => (known e n there).imp id .inr) (fun forced j r live temp e there => ?_) put puts
    (fun creating i' p n member => ⟨apart creating i' p n member,fun j r live => ?_⟩) done
  · obtain ⟨j',was⟩ := sub j r live
    exact rooted.new i j' r was
  · obtain ⟨j',was⟩ := sub j r live
    exact rooted.sole i j' r was temp forced e (sole forced j r live temp e there)
  · obtain ⟨j',was⟩ := sub j r live
    by_cases forced : (spec i').force_mode = true
    · obtain rfl := company.alone i' forced i
      simp [forced] at creating
    · exact (rooted.done i' p n member (by simpa using forced)).2.2 i j' r was

variable {veil : Path → Prop} {born : Entry → Ino → Prop} {snap : Ino → File → Prop} {m : Memory} {evs : List (Event posix)} {c : Call}
  {r : posix.Res c}

theorem rooted_call (rooted : Rooted res spec k₀ k g) (filed : Filed res paths spec veil born k₀.next snap k g) (company : Company res paths spec)
    (low : ∀ q, res q < k₀.next) (shaped : Shaped paths spec g) (members : ∀ i p n, .file p n ∈ (g i).trail → p ∈ paths i)
    (holds : Holds res paths spec k g)
    (move : Move (paths i) (spec i) evs (g i) m c r b) (answered : exec res k c r k') : Rooted res spec k₀ k' (update g i b) := by
  have alone : (spec i).force_mode = false → ∀ i', (spec i').force_mode = false := by
    intro creating i'
    by_contra replacing
    have forced : (spec i').force_mode = true := by simpa using replacing
    simp [company.alone i' forced i,forced] at creating
  -- Without `-f` there are no names of old files.
  have plain : (spec i).force_mode = false → ∀ {i' j r}, (g i').live j = some r → r.role ≠ .backup ∧ r.role ≠ .twinned := by
    intro creating i' j r live
    have shape := shaped i' j r live
    have unforced := alone creating i'
    constructor
    · intro role
      rw [Shape,role] at shape
      obtain ⟨_,_,_,forced⟩ := shape
      simp [unforced] at forced
    · intro role
      rw [Shape,role] at shape
      simp [unforced] at shape
  -- A deed without `-f` is there.
  have there : (spec i).force_mode = false → ∀ {i' p n}, .file p n ∈ (g i').trail → k.names.get (entry res p) = some n :=
    fun creating i' p n member => (rooted.done i' p n member (alone creating i')).1
  have effect := holds.moved move answered
  cases effect with
  | still names live trail old =>
    refine rooted.fewer holds company [] (by simpa using trail) (fun j r found => ⟨j,live ▸ found⟩) (fun e n _ => .inl (by rw [names]))
      (fun e n found => .inl ⟨names ▸ found,fun j r made at_ same => .inl ⟨j,r,live ▸ made,at_,same⟩⟩)
      (fun _ j r _ _ e found => names ▸ found) (fun _ p n _ => .inl (by rw [names])) (by simp) (fun _ i' p n _ => by rw [names]) (by simp)
  | forget made absent names live trail old =>
    rename_i j₀ r₀
    refine rooted.fewer holds company [] (by simpa using trail) (fun j r found => ⟨j,(update_none (live ▸ found)).2⟩)
      (fun e n _ => .inl (by rw [names])) (fun e n found => .inl ⟨names ▸ found,fun j r now at_ same => .inl ⟨j,r,?_,at_,same⟩⟩)
      (fun _ j r _ _ e found => names ▸ found) (fun _ p n _ => .inl (by rw [names])) (by simp) (fun _ i' p n _ => by rw [names]) (by simp)
    rw [live,update_of_ne]
    · exact now
    · rintro rfl
      obtain rfl := Option.some.inj (made.symm.trans now)
      rw [names,at_,← same] at found
      exact absent found
  | lose made names live trail old =>
    rename_i r₀
    refine rooted.fewer holds company [.lost r₀.path r₀.ino] (by simpa using trail) (fun j r found => ⟨j,(update_none (live ▸ found)).2⟩)
      (fun e n _ => .inl (by rw [names])) (fun e n found => .inl ⟨names ▸ found,fun j r now at_ same => ?_⟩)
      (fun _ j r _ _ e found => names ▸ found) (fun _ p n _ => .inl (by rw [names])) (by simp) (fun _ i' p n _ => by rw [names]) (by simp)
    by_cases here : j = FRESH
    · subst here
      obtain rfl := Option.some.inj (made.symm.trans now)
      exact .inr ⟨_,List.mem_singleton_self _,at_,same⟩
    · exact .inl ⟨j,r,by rw [live,update_of_ne here]; exact now,at_,same⟩
  | remove made names live trail old =>
    rename_i j₀ r₀
    have away : k₀.names.get (entry res r₀.path) = none := rooted.new i j₀ r₀ made
    have other : ∀ {e n}, k'.names.get e = some n → e ≠ entry res r₀.path ∧ k.names.get e = some n := by
      intro e n found
      rw [names] at found
      split at found
      · simp at found
      · exact ⟨‹_›,found⟩
    refine rooted.fewer holds company [] (by simpa using trail) (fun j r found => ⟨j,(update_none (live ▸ found)).2⟩)
      (fun e n start => .inl ?_) (fun e n found => .inl ⟨(other found).2,fun j r now at_ same => .inl ⟨j,r,?_,at_,same⟩⟩)
      (fun _ j r _ _ e found => (other found).2)
      (fun forced p n member => .inl ?_) (by simp) (fun creating i' p n member => ?_) (by simp)
    · rw [names,if_neg]
      rintro rfl
      simp [away] at start
    · rw [live,update_of_ne]
      · exact now
      · rintro rfl
        obtain rfl := Option.some.inj (made.symm.trans now)
        exact (other found).1 at_
    · rw [names,if_neg]
      exact (company.forced_entry forced (shaped i j₀ r₀ made) (members i p n member)).symm
    · rw [names,if_neg]
      exact fun same => (rooted.done i' p n member (alone creating i')).2.2 i j₀ r₀ made same.symm
  | link unforced member finished absent names live trail old =>
    rename_i p₀ n₀
    have away := rooted.absent absent
    refine rooted.fewer holds company [.file p₀ n₀] (by simpa using trail) (fun j r found => ⟨j,live ▸ found⟩)
      (fun e n start => .inl ?_) (fun e n found => ?_) (fun forced => by simp [unforced] at forced)
      (fun forced => by simp [unforced] at forced) (fun forced => by simp [unforced] at forced) (fun creating i' p n member => ?_) ?_
    · rw [names,if_neg]
      rintro rfl
      simp [away] at start
    · rw [names] at found
      split at found
      · exact .inr ⟨_,List.mem_singleton_self _,‹_›,Option.some.inj found⟩
      · exact .inl ⟨found,fun j r now at_ same => .inl ⟨j,r,live ▸ now,at_,same⟩⟩
    · rw [names,if_neg]
      intro same
      simp [← same,there creating member] at absent
    · intro creating p n member
      obtain ⟨rfl,rfl⟩ : p = p₀ ∧ n = n₀ := by simpa using member
      refine ⟨by rw [names,if_pos rfl],away,fun i' j r found => ?_,fun i' p' n' member same => ?_⟩
      · have was : (g i').live j = some r := by
          rcases live_update found with ⟨rfl,mine⟩ | ⟨_,others⟩
          · exact live ▸ mine
          · exact others
        exact holds.present absent was (plain creating was).1 (plain creating was).2
      · simp [← same,there creating member] at absent
  | move unforced member finished made absent names live trail old =>
    rename_i j₀ t p₀ n₀
    have away := rooted.absent absent
    have start := rooted.new i j₀ _ made
    obtain ⟨at_,⟨stays,_⟩ | ⟨_,names⟩⟩ := names
    · simp [absent] at stays
    refine rooted.fewer holds company [.file p₀ n₀] (by simpa using trail) (fun j r found => ⟨j,(update_none (live ▸ found)).2⟩)
      (fun e n before => .inl ?_) (fun e n found => ?_) (fun forced => by simp [unforced] at forced)
      (fun forced => by simp [unforced] at forced) (fun forced => by simp [unforced] at forced) (fun creating i' p n member => ?_) ?_
    · rw [names,if_neg,if_neg]
      · rintro rfl
        simp [away] at before
      · rintro rfl
        simp [start] at before
    · rw [names] at found
      split at found
      · simp at found
      · rename_i other
        split at found
        · exact .inr ⟨_,List.mem_singleton_self _,‹_›,Option.some.inj found⟩
        · refine .inl ⟨found,fun j r now here same => .inl ⟨j,r,?_,here,same⟩⟩
          rw [live,update_of_ne]
          · exact now
          · rintro rfl
            obtain rfl := Option.some.inj (made.symm.trans now)
            exact other here
    · rw [names,if_neg,if_neg]
      · intro same
        simp [← same,there creating member] at absent
      · exact fun same => (rooted.done i' p n member (alone creating i')).2.2 i j₀ _ made same.symm
    · intro creating p n member
      obtain ⟨rfl,rfl⟩ : p = p₀ ∧ n = n₀ := by simpa using member
      refine ⟨?_,away,fun i' j r found => ?_,fun i' p' n' member same => ?_⟩
      · rw [names,if_neg,if_pos rfl]
        intro same
        simp [same,at_] at absent
      · have was : (g i').live j = some r := by
          rcases live_update found with ⟨rfl,mine⟩ | ⟨_,others⟩
          · exact (update_none (live ▸ mine)).2
          · exact others
        exact holds.present absent was (plain creating was).1 (plain creating was).2
      · simp [← same,there creating member] at absent
  | cover unforced member finished made slot holder names live trail old =>
    rename_i j₀ t p₀ n₀ h
    have away := rooted.new i FRESH _ holder
    have start := rooted.new i j₀ _ made
    have held := holds.there i FRESH _ holder (by simp) (by simp)
    obtain ⟨at_,⟨stays,_⟩ | ⟨_,names⟩⟩ := names
    · -- A file is not its own place holder.
      exact absurd (Option.some.inj (stays.symm.trans held)) (rooted.holder i j₀ _ i FRESH _ made holder rfl rfl)
    have apart : entry res t ≠ entry res p₀ := by
      refine holds.elsewhere company shaped holder made ?_ (by simp)
      exact fun both => slot both.2
    refine rooted.fewer holds company [.file p₀ n₀] (by simpa using trail)
      (fun j r found => ⟨j,(update_none (update_none (live ▸ found)).2).2⟩) (fun e n before => .inl ?_) (fun e n found => ?_)
      (fun forced => by simp [unforced] at forced)
      (fun forced => by simp [unforced] at forced) (fun forced => by simp [unforced] at forced) (fun creating i' p n member => ?_) ?_
    · rw [names,if_neg,if_neg]
      · rintro rfl
        simp [away] at before
      · rintro rfl
        simp [start] at before
    · rw [names] at found
      split at found
      · simp at found
      · rename_i other
        split at found
        · exact .inr ⟨_,List.mem_singleton_self _,‹_›,Option.some.inj found⟩
        · rename_i other'
          refine .inl ⟨found,fun j r now here same => .inl ⟨j,r,?_,here,same⟩⟩
          rw [live,update_of_ne,update_of_ne]
          · exact now
          · rintro rfl
            obtain rfl := Option.some.inj (holder.symm.trans now)
            exact other' here
          · rintro rfl
            obtain rfl := Option.some.inj (made.symm.trans now)
            exact other here
    · rw [names,if_neg,if_neg]
      · exact fun same => (rooted.done i' p n member (alone creating i')).2.2 i FRESH _ holder same.symm
      · exact fun same => (rooted.done i' p n member (alone creating i')).2.2 i j₀ _ made same.symm
    · intro creating p n member
      obtain ⟨rfl,rfl⟩ : p = p₀ ∧ n = n₀ := by simpa using member
      refine ⟨?_,away,fun i' j r found => ?_,fun i' p' n' member same => ?_⟩
      · rw [names,if_neg apart.symm,if_pos rfl]
      · have was : (g i').live j = some r ∧ ¬(i' = i ∧ j = FRESH) := by
          rcases live_update found with ⟨rfl,mine⟩ | ⟨other,others⟩
          · obtain ⟨_,mine⟩ := update_none (live ▸ mine)
            exact ⟨(update_none mine).2,fun both => (update_none mine).1 both.2⟩
          · exact ⟨others,fun both => other both.1⟩
        exact holds.elsewhere company shaped holder was.1 was.2 (plain creating was.1).1
      · exact (rooted.done i' p' n' member (alone creating i')).2.2 i FRESH _ holder same.symm
  | dir parent absent names live trail old =>
    rename_i q
    have away := rooted.absent absent
    refine rooted.fewer holds company [.dir q] (by simpa using trail) (fun j r found => ⟨j,live ▸ found⟩)
      (fun e n start => .inl ?_) (fun e n found => ?_) (fun _ j r found temp e there => ?_) (fun _ p n member => .inl ?_) (by simp)
      (fun creating i' p n member => ?_) (by simp)
    · rw [names,if_neg]
      rintro rfl
      simp [away] at start
    · rw [names] at found
      split at found
      · exact .inr ⟨_,List.mem_singleton_self _,‹_›,Option.some.inj found⟩
      · exact .inl ⟨found,fun j r now at_ same => .inl ⟨j,r,live ▸ now,at_,same⟩⟩
    · rw [names] at there
      split at there
      · have own := rooted.own i j r (live ▸ found) temp
        rw [← Option.some.inj there] at own
        exact absurd own (Nat.not_le_of_lt (low q))
      · exact there
    · rw [names,if_neg]
      intro same
      obtain ⟨_,_,_,_,present⟩ := rooted.put i p n member
      simp [same,absent] at present
    · rw [names,if_neg]
      intro same
      simp [← same,there creating member] at absent
  | replace forced member finished made other backed names live trail old =>
    rename_i j₀ t p₀ n₀
    have start := rooted.new i j₀ _ made
    have outside : entry res t ≠ entry res p₀ := company.forced_entry forced (shaped _ _ _ made) member
    obtain ⟨at_,⟨stays,_⟩ | ⟨_,names⟩⟩ := names
    · -- The new file has no name but the temporary one.
      exact absurd (rooted.sole i j₀ _ made rfl forced _ stays).symm outside
    refine rooted.fewer holds company (.file p₀ n₀ :: backupDeeds (g i) p₀) (by simpa using trail)
      (fun j r found => ⟨j,(update_none (update_none (live ▸ found)).2).2⟩) (fun e n before => ?_) (fun e n found => ?_)
      (fun _ j r found temp e there => ?_) (fun _ p n member' => ?_) (fun _ p n member' => ?_)
      (fun creating => by simp [forced] at creating) (fun creating => by simp [forced] at creating)
    · rw [names]
      split
      · rename_i here
        simp [here,start] at before
      · split
        · rename_i here
          exact .inr ⟨rfl,forced,_,List.mem_cons_self,here⟩
        · exact .inl rfl
    · rw [names] at found
      split at found
      · simp at found
      · rename_i other'
        split at found
        · exact .inr ⟨_,List.mem_cons_self,‹_›,Option.some.inj found⟩
        · refine .inl ⟨found,fun j r now here same => ?_⟩
          by_cases backup : j = PENDING_BACKUP
          · subst backup
            refine .inr ⟨.backup p₀ r.path r.ino,List.mem_cons_of_mem _ ?_,here,same⟩
            simp [backupDeeds,now]
          · refine .inl ⟨j,r,?_,here,same⟩
            rw [live,update_of_ne,update_of_ne backup]
            · exact now
            · rintro rfl
              obtain rfl := Option.some.inj (made.symm.trans now)
              exact other' here
    · obtain ⟨apart,found⟩ := update_none (live ▸ found)
      have was := (update_none found).2
      rw [names] at there
      split at there
      · simp at there
      · split at there
        · have same : n₀ = r.ino := Option.some.inj there
          have equal := rooted.sole i j r was temp forced _ (same ▸ at_)
          exact absurd equal.symm (holds.elsewhere company shaped made was (fun both => apart both.2) (by simp [temp]))
        · exact there
    · rw [names,if_neg (company.forced_entry forced (shaped _ _ _ made) (members i p n member')).symm]
      split
      · exact .inr ⟨p₀,n₀,List.mem_cons_self,(‹entry res p = entry res p₀›).symm,rfl⟩
      · exact .inl rfl
    · rcases List.mem_cons.mp member' with same | never
      · cases same
        rw [names,if_neg outside.symm,if_pos rfl]
      · exact absurd never backupDeeds_file
  | make room whole untwinned absent names live trail old =>
    rename_i r₀
    have away := rooted.absent absent
    have source := made_source filed holds move answered room live
    have cases_ : ∀ {j r}, b.live j = some r → j = FRESH ∧ r = r₀ ∨ j ≠ FRESH ∧ (g i).live j = some r := by
      intro j r found
      by_cases fresh : j = FRESH
      · exact .inl ⟨fresh,by simpa [live,fresh,eq_comm] using found⟩
      · exact .inr ⟨fresh,by simpa [live,fresh] using found⟩
    refine rooted.next holds company [] (by simpa using trail) (fun j r found => ?_) (fun j r found role => ?_)
      (fun e n start => .inl ?_) (fun e n found => ?_) (fun forced j r found temp e there => ?_) (fun _ p n member => .inl ?_)
      (by simp) (fun creating i' p n member => ⟨?_,fun j r found => ?_⟩) (by simp)
    · rcases cases_ found with ⟨_,rfl⟩ | ⟨_,was⟩
      · exact away
      · exact rooted.new i j r was
    · rcases cases_ found with ⟨rfl,rfl⟩ | ⟨_,was⟩
      · rcases source with fresh | ⟨old,_⟩
        · exact .inr ⟨rfl,fresh⟩
        · rcases role with temp | holder
          · simp [temp,Old] at old
          · simp [holder,Old] at old
      · exact .inl ⟨j,was⟩
    · rw [names,if_neg]
      rintro rfl
      simp [away] at start
    · rw [names] at found
      split at found
      · exact .inr (.inl ⟨FRESH,r₀,by rw [live,update_self],‹_›,Option.some.inj found⟩)
      · refine .inl ⟨found,fun j r now at_ same => .inl ⟨j,r,?_,at_,same⟩⟩
        rw [live,update_of_ne]
        · exact now
        · rintro rfl
          simp [room] at now
    · rcases cases_ found with ⟨rfl,rfl⟩ | ⟨_,was⟩
      · rcases source with ⟨_,unnamed⟩ | ⟨old,_⟩
        · rw [names] at there
          split at there
          · assumption
          · exact absurd there (unnamed e)
        · simp [temp,Old] at old
      · refine rooted.sole i j r was temp forced e ?_
        rw [names] at there
        split at there
        · have same : r₀.ino = r.ino := Option.some.inj there
          rcases source with ⟨_,unnamed⟩ | ⟨_,_,p,member,at_⟩
          · exact absurd (same ▸ holds.there i j r was (by simp [temp]) (by simp [temp])) (unnamed _)
          · have equal := rooted.sole i j r was temp forced _ (same ▸ at_)
            exact absurd equal.symm (company.forced_entry forced (shaped _ _ _ was) member)
        · exact there
    · rw [names,if_neg]
      intro same
      obtain ⟨_,_,_,_,present⟩ := rooted.put i p n member
      simp [same,absent] at present
    · rw [names,if_neg]
      intro same
      simp [← same,there creating member] at absent
    · rcases cases_ found with ⟨_,rfl⟩ | ⟨_,was⟩
      · intro same
        simp [same,there creating member] at absent
      · exact (rooted.done i' p n member (alone creating i')).2.2 i j r was
  | exchange forced member finished made other backed was names live trail old =>
    rename_i j₀ t p₀ n₀ o
    have start := rooted.new i j₀ _ made
    have at_ := holds.there i j₀ _ made (by simp) (by simp)
    have cases_ : ∀ {j r}, b.live j = some r → j = j₀ ∧ r = ⟨t,o,.spare⟩ ∨ j ≠ j₀ ∧ (g i).live j = some r := by
      intro j r found
      by_cases here : j = j₀
      · exact .inl ⟨here,by simpa [live,here,eq_comm] using found⟩
      · rw [live,update_of_ne here] at found
        exact .inr ⟨here,(update_none found).2⟩
    refine rooted.next holds company (.file p₀ n₀ :: backupDeeds (g i) p₀) (by simpa using trail) (fun j r found => ?_)
      (fun j r found role => ?_) (fun e n before => ?_) (fun e n found => ?_) (fun _ j r found temp e there => ?_)
      (fun _ p n member' => ?_) (fun _ p n member' => ?_) (fun creating => by simp [forced] at creating) (fun creating => by simp [forced] at creating)
    · rcases cases_ found with ⟨_,rfl⟩ | ⟨_,was⟩
      · exact start
      · exact rooted.new i j r was
    · rcases cases_ found with ⟨_,rfl⟩ | ⟨_,was⟩
      · simp at role
      · exact .inl ⟨j,was⟩
    · rw [names]
      split
      · rename_i here
        exact .inr ⟨rfl,forced,_,List.mem_cons_self,here⟩
      · split
        · rename_i here
          simp [here,start] at before
        · exact .inl rfl
    · rw [names] at found
      split at found
      · exact .inr (.inr ⟨_,List.mem_cons_self,‹_›,Option.some.inj found⟩)
      · split at found
        · exact .inr (.inl ⟨j₀,⟨t,o,.spare⟩,by rw [live,update_self],‹_›,Option.some.inj found⟩)
        · rename_i other'
          refine .inl ⟨found,fun j r now here same => ?_⟩
          by_cases backup : j = PENDING_BACKUP
          · subst backup
            refine .inr ⟨.backup p₀ r.path r.ino,List.mem_cons_of_mem _ ?_,here,same⟩
            simp [backupDeeds,now]
          · refine .inl ⟨j,r,?_,here,same⟩
            rw [live,update_of_ne,update_of_ne backup]
            · exact now
            · rintro rfl
              obtain rfl := Option.some.inj (made.symm.trans now)
              exact other' here
    · rcases cases_ found with ⟨_,rfl⟩ | ⟨apart,was'⟩
      · simp at temp
      · have sole := rooted.sole i j r was' temp forced
        rw [names] at there
        split at there
        · have same : n₀ = r.ino := Option.some.inj there
          have away : entry res r.path ≠ entry res t :=
            holds.elsewhere company shaped made was' (fun both => apart both.2) (by simp [temp])
          exact absurd (sole _ (same ▸ at_)).symm away
        · split at there
          · have same : o = r.ino := Option.some.inj there
            have equal := sole _ (same ▸ was)
            exact absurd equal.symm (company.forced_entry forced (shaped _ _ _ was') member)
          · exact sole e there
    · rw [names]
      split
      · exact .inr ⟨p₀,n₀,List.mem_cons_self,(‹entry res p = entry res p₀›).symm,rfl⟩
      · rw [if_neg (company.forced_entry forced (shaped _ _ _ made) (members i p n member')).symm]
        exact .inl rfl
    · rcases List.mem_cons.mp member' with same | never
      · cases same
        rw [names,if_pos rfl]
      · exact absurd never backupDeeds_file
  | twin forced member name made names live trail old =>
    rename_i a b₀ o p₀
    have start := rooted.new i PENDING_BACKUP _ made
    have cases_ : ∀ {j r}, b.live j = some r → j = PENDING_BACKUP ∧ r = ⟨a,o,.twinned⟩ ∨ j ≠ PENDING_BACKUP ∧ (g i).live j = some r := by
      intro j r found
      by_cases here : j = PENDING_BACKUP
      · exact .inl ⟨here,by simpa [live,here,eq_comm] using found⟩
      · exact .inr ⟨here,by simpa [live,here] using found⟩
    have stays : ∀ {j r}, (g i).live j = some r → ∃ j' r', b.live j' = some r' ∧ r'.path = r.path ∧ r'.ino = r.ino := by
      intro j r now
      by_cases here : j = PENDING_BACKUP
      · subst here
        obtain rfl := Option.some.inj (made.symm.trans now)
        exact ⟨PENDING_BACKUP,⟨a,o,.twinned⟩,by rw [live,update_self],rfl,rfl⟩
      · exact ⟨j,r,by rw [live,update_of_ne here]; exact now,rfl,rfl⟩
    have others : ∀ {e n}, k.names.get e = some n → k.names.get e = some n ∧ (∀ j r, (g i).live j = some r → e = entry res r.path →
        r.ino = n → (∃ j' r', b.live j' = some r' ∧ e = entry res r'.path ∧ r'.ino = n) ∨ ∃ d ∈ [Deed.reused p₀ b₀ o], Leaves res e n d) := by
      intro e n found
      refine ⟨found,fun j r now here same => .inl ?_⟩
      obtain ⟨j',r',now',path,ino⟩ := stays now
      exact ⟨j',r',now',path ▸ here,ino.trans same⟩
    obtain ⟨at_,names⟩ := names
    refine rooted.next holds company [.reused p₀ b₀ o] (by simpa using trail) (fun j r found => ?_) (fun j r found role => ?_)
      (fun e n before => ?_) (fun e n found => ?_) (fun _ j r found temp e there => ?_) (fun _ p n member' => .inl ?_) (by simp)
      (fun creating => by simp [forced] at creating) (fun creating => by simp [forced] at creating)
    · rcases cases_ found with ⟨_,rfl⟩ | ⟨_,was⟩
      · exact start
      · exact rooted.new i j r was
    · rcases cases_ found with ⟨_,rfl⟩ | ⟨_,was⟩
      · simp at role
      · exact .inl ⟨j,was⟩
    · rcases names with ⟨_,same⟩ | ⟨_,names⟩
      · rw [same]
        exact .inl rfl
      · rw [names]
        split
        · rename_i here
          simp [here,start] at before
        · split
          · rename_i here
            exact .inr ⟨rfl,forced,_,List.mem_singleton_self _,here⟩
          · exact .inl rfl
    · rcases names with ⟨_,same⟩ | ⟨_,names⟩
      · exact .inl (others (same ▸ found))
      · rw [names] at found
        split at found
        · simp at found
        · split at found
          · exact .inr (.inr ⟨_,List.mem_singleton_self _,‹_›,Option.some.inj found⟩)
          · exact .inl (others found)
    · rcases cases_ found with ⟨_,rfl⟩ | ⟨apart,was⟩
      · simp at temp
      · have sole := rooted.sole i j r was temp forced
        rcases names with ⟨_,same⟩ | ⟨_,names⟩
        · exact sole e (same ▸ there)
        · rw [names] at there
          split at there
          · simp at there
          · split at there
            · have same : o = r.ino := Option.some.inj there
              have equal := sole _ (same ▸ at_)
              exact absurd equal.symm (holds.elsewhere company shaped made was (fun both => apart both.2) (by simp [temp]))
            · exact sole e there
    · rcases names with ⟨_,same⟩ | ⟨_,names⟩
      · rw [same]
      · rw [names,if_neg (company.forced_entry forced (shaped _ _ _ made) (members i p n member')).symm,
          if_neg (company.apart i forced p (members i p n member') p₀ member b₀ name).symm]

theorem rooted_mem {m' : Memory} (rooted : Rooted res spec k₀ k g) (company : Company res paths spec) (shaped : Shaped paths spec g)
    (holds : Holds res paths spec k g) (step : Step (g i) m m' b) : Rooted res spec k₀ k (update g i b) := by
  have same : b.live = (g i).live → b.trail = (g i).trail → Rooted res spec k₀ k (update g i b) := by
    intro live trail
    exact rooted.fewer holds company [] (by simpa using trail) (fun j r found => ⟨j,live ▸ found⟩) (fun _ _ _ => .inl rfl)
      (fun e n found => .inl ⟨found,fun j r now at_ same => .inl ⟨j,r,live ▸ now,at_,same⟩⟩) (fun _ _ _ _ _ _ there => there)
      (fun _ _ _ _ => .inl rfl) (by simp) (fun _ _ _ _ _ => rfl) (by simp)
  -- A name leaves the ledger, and a deed says that it is there.
  have told : ∀ {j r d}, (g i).live j = some r → b.live = update (g i).live j none → b.trail = d :: (g i).trail →
      Leaves res (entry res r.path) r.ino d → (∀ p n, d = .file p n → r.path = p ∧ r.ino = n ∧ r.role = .plain) →
      Rooted res spec k₀ k (update g i b) := by
    intro j r d made live trail leaves plain
    refine rooted.fewer holds company [d] (by simpa using trail) (fun j' r' found => ⟨j',(update_none (live ▸ found)).2⟩)
      (fun _ _ _ => .inl rfl) (fun e n found => .inl ⟨found,fun j' r' now at_ same => ?_⟩) (fun _ _ _ _ _ _ there => there)
      (fun _ _ _ _ => .inl rfl) (fun _ p n member => ?_) (fun _ _ _ _ _ => rfl) fun creating p n member => ?_
    · by_cases here : j' = j
      · subst here
        obtain rfl := Option.some.inj (made.symm.trans now)
        exact .inr ⟨d,List.mem_singleton_self _,at_ ▸ same ▸ leaves⟩
      · exact .inl ⟨j',r',by rw [live,update_of_ne here]; exact now,at_,same⟩
    · obtain ⟨rfl,rfl,role⟩ := plain p n (List.mem_singleton.mp member).symm
      exact holds.there i j r made (by simp [role]) (by simp [role])
    · obtain ⟨rfl,rfl,role⟩ := plain p n (List.mem_singleton.mp member).symm
      refine ⟨holds.there i j r made (by simp [role]) (by simp [role]),rooted.new i j r made,fun i' j' r' found => ?_,fun i' p' n' was same => ?_⟩
      · have unforced : ∀ i', (spec i').force_mode = false := by
          intro i'
          by_contra replacing
          have forced : (spec i').force_mode = true := by simpa using replacing
          simp [company.alone i' forced i,forced] at creating
        have was : (g i').live j' = some r' ∧ ¬(i' = i ∧ j' = j) := by
          rcases live_update found with ⟨rfl,mine⟩ | ⟨other,others⟩
          · obtain ⟨other,mine⟩ := update_none (live ▸ mine)
            exact ⟨mine,fun both => other both.2⟩
          · exact ⟨others,fun both => other both.1⟩
        refine holds.elsewhere company shaped made was.1 was.2 fun backup => ?_
        have shape := shaped i' j' r' was.1
        rw [Shape,backup] at shape
        obtain ⟨_,_,_,forced⟩ := shape
        simp [unforced i'] at forced
      · refine (rooted.done i' p' n' was ?_).2.2 i j r made same.symm
        by_contra replacing
        have forced : (spec i').force_mode = true := by simpa using replacing
        simp [company.alone i' forced i,forced] at creating
  cases step with
  | settle clean made slot => exact told made rfl rfl ⟨rfl,rfl⟩ (by simp)
  | keep clean made => exact told made rfl rfl ⟨rfl,rfl⟩ (by simp)
  | keepOld clean made why => exact told made rfl rfl ⟨rfl,rfl⟩ (by simp)
  | arm clean made text room slot whole =>
    rename_i j s r
    have cases_ : ∀ {j' r'}, update (update (g i).live FRESH none) j (some r) j' = some r' → ∃ j'', (g i).live j'' = some r' := by
      intro j' r' found
      by_cases here : j' = j
      · exact ⟨FRESH,by simpa [here,made] using found⟩
      · rw [update_of_ne here] at found
        exact ⟨j',(update_none found).2⟩
    refine rooted.fewer holds company [] rfl (fun j' r' found => cases_ found) (fun _ _ _ => .inl rfl)
      (fun e n found => .inl ⟨found,fun j' r' now at_ same => .inl ?_⟩) (fun _ _ _ _ _ _ there => there)
      (fun _ _ _ _ => .inl rfl) (by simp) (fun _ _ _ _ _ => rfl) (by simp)
    by_cases fresh : j' = FRESH
    · subst fresh
      obtain rfl := Option.some.inj (made.symm.trans now)
      exact ⟨j,r,update_self _ _ _,at_,same⟩
    · refine ⟨j',r',?_,at_,same⟩
      dsimp only
      rw [update_of_ne,update_of_ne fresh]
      · exact now
      · rintro rfl
        simp [room] at now
  | _ => exact same rfl rfl

omit [DecidableEq ι] in
theorem rooted_start (k : Kernel) : Rooted res spec k k fun _ => {} where
  new := by simp
  kept _ _ there := .inl there
  known _ _ there := .inl there
  own := by simp
  sole := by simp
  holder := by simp
  done := by simp
  put := by simp
  once := by simp


/-! ## Runs -/

/-- A name in the ledger is armed, but where signals are blocked. -/
theorem live_armed {paths : List Path} {spec : FileSpec} {g : Book} {j : Nat} {r : Rec} (inv : Inv paths spec m g)
    (live : g.live j = some r) (unblocked : m.blocked = false) : armed m j = some (r.path,r.ino) := by
  obtain ⟨dead,late⟩ := inv.closed unblocked
  have slot : j ≠ FRESH := by
    rintro rfl
    simp [dead] at live
  have current : j ∉ g.lag := by
    intro lag
    simp [late j lag] at live
  rw [inv.synced j slot current,live]
  rfl

/-- The invariant of files and names. -/
def Kempt (res : Path → Ino) (paths : ι → List Path) (spec : ι → FileSpec) (k₀ : Kernel) (evs : List (ι × Event posix)) (k : Kernel)
    (g : ι → Book) : Prop :=
  Guarded res paths spec k₀.next (Initial res k₀) evs k g ∧ Rooted res spec k₀ k g

theorem kempt_call {evs : List (ι × Event posix)} {m : ι → Memory} {c : Call} {r : posix.Res c} (kempt : Kempt res paths spec k₀ evs k g)
    (company : Company res paths spec) (dirs : ∀ q, res q < k₀.next) (holds : Holds res paths spec k g)
    (inv : ∀ i, Inv (paths i) (spec i) (m i) (g i)) (move : Move (paths i) (spec i) (own i evs) (g i) (m i) c r b)
    (answered : exec res k c r k') : Kempt res paths spec k₀ (evs ++ [(i,⟨c,r⟩)]) k' (update g i b) :=
  ⟨guarded_call kempt.1 company.alone (fun i => (inv i).shape) dirs move answered,
    rooted_call kempt.2 (kempt.1.filed _ veil_temp) company dirs (fun i => (inv i).shape) (fun i _ _ done => ((inv i).trail _ done).1)
      holds move answered⟩

theorem kempt_mem {evs : List (ι × Event posix)} {m : ι → Memory} {m' : Memory} (kempt : Kempt res paths spec k₀ evs k g)
    (company : Company res paths spec) (holds : Holds res paths spec k g) (inv : ∀ i, Inv (paths i) (spec i) (m i) (g i))
    (step : Step (g i) (m i) m' b) : Kempt res paths spec k₀ evs k (update g i b) :=
  ⟨guarded_mem kempt.1 step,rooted_mem kempt.2 company (fun i => (inv i).shape) holds step⟩

variable {fuel : ι → Nat} {s t : Crowd ι posix Kernel Memory Bool} {trace : List (ι × Event posix)} {e : Entry} {n : Ino}

theorem ready_kempt (company : Company res paths spec) (sound : Sound res s.kernel) (ready : Ready fuel paths spec s)
    (runs : Runs (exec res) s trace t) :
    ∃ g, Underway res paths spec (fun evs k _ g => Kempt res paths spec s.kernel evs k g) trace t g := by
  simpa using (ready.underway (J := fun evs k _ g => Kempt res paths spec s.kernel evs k g)
      ⟨guarded_start sound,rooted_start _⟩).runs company runs
    (fun kempt holds inv _ answered move => kempt_call kempt company sound.dirs holds inv move answered)
    fun kempt holds inv _ step => kempt_mem kempt company holds inv step

/-- Of a run that has returned success every operand refers to a file that the run has made, that no run will change,
    and that is on the disk if it has content. -/
theorem success_names (company : Company res paths spec) (sound : Sound res s.kernel) (ready : Ready fuel paths spec s)
    (runs : Runs (exec res) s trace t) (returned : t.prog i = .ret true) {p : Path} (member : p ∈ paths i) :
    ∃ n, t.kernel.names.get (entry res p) = some n ∧ Done (spec i) (own i trace) n ∧
      (hasContent (spec i) = true → (t.kernel.files n).synced = true) ∧
      ∀ trace' u, Runs (exec res) t trace' u → Since (t.kernel.files n) (u.kernel.files n) := by
  obtain ⟨g,underway⟩ := ready_kempt company sound ready runs
  have after := underway.after i
  rw [returned] at after
  obtain ⟨n,deed⟩ := (after (underway.inv i)).named rfl p member
  obtain ⟨p',n',latest,_,there⟩ := underway.more.2.put i p n deed
  obtain ⟨own,used,frozen,synced⟩ := (underway.more.1.filed _ veil_temp).finished i n' ((underway.inv i).trail _ latest).2
  refine ⟨n',there,((underway.evident i).deeds _ latest).1,synced,fun trace' u runs' => ?_⟩
  exact Guarded.stays company.alone sound.dirs own used frozen { underway with more := underway.more.1 } runs'

theorem success_names_sample : ∃ trace t n, Runs (exec fun _ => 0) (sampleStart "b".toList { force_mode := true }) trace t ∧
    t.kernel.names.get (0,"b".toList) = some n ∧ Done { force_mode := true } (own () trace) n := by
  obtain ⟨trace,runs⟩ := sample_runs "b".toList { force_mode := true } (sampleForced 9)
  obtain ⟨n,there,done,_⟩ := success_names sample_company sample_sound (sample_ready _ _) runs (i := ())
    (returned_ret (by decide +kernel)) (List.mem_singleton_self "b".toList)
  exact ⟨trace,_,n,runs,there,done⟩

end Newfile.Tree
