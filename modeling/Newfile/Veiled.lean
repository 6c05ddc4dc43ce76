import Newfile.Files

/-!
No unfinished file is ever seen. Whatever the operands are called, each call keeps the
invariant of the files; so at any point of a run a new file is finished, or it has a
temporary name and is its owner's alone, or it is an empty one that holds a place.
-/
namespace Newfile.Veiled
open Newfile.Program Newfile.Posix Newfile.Process Newfile.Pending Newfile.Place Newfile.Backup Newfile.Batch
open Newfile.Effects Newfile.Simulation Newfile.Ledger Newfile.Batches Newfile.Evidence Newfile.Answers Newfile.Crowds Newfile.Agreement
open Newfile.Numbers Newfile.Standing Newfile.Files Function

variable {ι : Type} [DecidableEq ι] {res : Path → Ino} {paths : ι → List Path} {spec : ι → FileSpec} {veil : Path → Prop}
  {born : Entry → Ino → Prop} {first : Ino} {snap : Ino → File → Prop} {k k' : Kernel} {g g' : ι → Book}

/-! ## Moves -/

variable {evs : List (Event posix)} {m : Memory} {i : ι} {c : Call} {r : posix.Res c} {b : Book}

/-- The call makes the file under the name, or gives a file without a name its first one. -/
def Births (res : Path → Ino) (e : Entry) (n : Ino) : Event posix → Prop
  | ⟨.open_excl q _,.ok fd⟩ | ⟨.linkat fd q,.ok _⟩ => e = entry res q ∧ fd.ino = n
  | _ => False

theorem fresh_held {g : Book} {r r' : Rec} (held : Held (g.fresh r) r') : r' = r ∨ Held g r' := by
  have cases_ : ∀ {j}, (g.fresh r).live j = some r' → r' = r ∨ g.live j = some r' := by
    intro j live
    rw [fresh_live] at live
    split at live
    · exact .inl (Option.some.inj live).symm
    · exact .inr live
  rcases held with ⟨temp,j,live⟩ | ⟨twin,live | live⟩
  · exact (cases_ live).imp id fun was => .inl ⟨temp,j,was⟩
  · exact (cases_ live).imp id fun was => .inr ⟨twin,.inl was⟩
  · exact (cases_ live).imp id fun was => .inr ⟨twin,.inr was⟩

omit [DecidableEq ι] in
/-- No name of a ledger is at an entry where there was none. -/
theorem vacant (stands : Stands res k g) {e : Entry} (absent : k.names.get e = none) {i : ι} {r : Rec} (held : Held (g i) r) :
    e ≠ entry res r.path := by
  rintro rfl
  obtain ⟨j,live⟩ := held.live
  exact stands.there i j r live held.untwinned absent

omit [DecidableEq ι] in
theorem veil_entry (veils : Veil res paths spec veil) {p q : Path} (temp : TempOf p q) : veil (entry res q).2 :=
  veils.temp _ (temp_entry res temp)

/-- A file is opened under a name of its own. -/
theorem filed_opened (filed : Filed res paths spec veil born first snap k g) (veils : Veil res paths spec veil) (stands : Stands res k g)
    {q : Path} {mode : Mode} {fd : Fd} {role : Role} {j : Nat} (opens : Opens (paths i) (spec i) q mode role)
    (answered : exec res k (.open_excl q mode) (.ok fd) k') (now : born (entry res q) fd.ino) :
    Filed res paths spec veil born first snap k' (update g i { (g i).fresh ⟨q,fd.ino,role⟩ with
      work := if role = .temp then update (g i).work j (some ⟨fd.ino,.secret,true⟩) else (g i).work
      finished := if role = .plain then fd.ino :: (g i).finished else (g i).finished }) := by
  obtain ⟨makes,absent,names,secret,data⟩ := exec_open_excl answered
  -- The file is there before it has its name.
  have nameless : Makes k fd { k' with names := k.names } := ⟨makes.ino,makes.next,makes.files⟩
  obtain ⟨made,own,used,unworked,unnamed,free⟩ := filed.made nameless rfl
  have same : Renames { k' with names := k.names } k' := ⟨rfl,rfl⟩
  have values := sets_values names
  have bare : ∀ i' j' w, (g i').work j' = some w → w.ino = fd.ino → w.named = true :=
    fun i' j' w found same => absurd same (unworked i' j' w found)
  have behind : ∀ {g' : ι → Book}, (∀ i, (g' i).live = (g i).live) → veil (entry res q).2 →
      Behind res paths spec veil born g' (entry res q) fd.ino := by
    intro g' live veiled
    refine ⟨veiled,fun _ => now,fun i' r held here => absurd here (vacant stands (i := i') absent (held.sub fun j r found _ => ?_))⟩
    exact live i' ▸ found
  -- The new name is in the ledger of the run last.
  have listed : ∀ {b b' : Book}, Filed res paths spec veil born first snap k' (update g i b) → b.live = (g i).live → b.old = (g i).old →
      b'.live = ((g i).fresh ⟨q,fd.ino,role⟩).live → b'.old = (g i).old → b'.work = b.work → b'.finished = b.finished →
      b'.moded = b.moded → (role = .twin → False) → Filed res paths spec veil born first snap k' (update g i b') := by
    intro b b' named live old live' old' work finished moded untwinned
    refine named.ledger work finished moded fun r held => ?_
    have held' : Held ((g i).fresh ⟨q,fd.ino,role⟩) r := held.sub fun j r found _ => live' ▸ found
    rcases fresh_held held' with rfl | was
    · refine .inr fun n there _ => .inl ⟨fun _ => ?_,fun twin => absurd twin untwinned⟩
      rw [names,if_pos rfl] at there
      exact Option.some.inj there
    · exact .inl ⟨was.sub fun j r found _ => live ▸ found,.inl (old'.trans old.symm)⟩
  cases role with
  | temp =>
    obtain ⟨⟨p,member,temp⟩,rfl⟩ := opens
    have noted := made.noted (i := i) (j := j) (w := ⟨fd.ino,.secret,true⟩) rfl rfl (fun _ _ => rfl) own used
      (fun i' j' v found same => absurd same (unworked i' j' v found)) (by simp) (fun _ => secret rfl) (by simp)
      (List.Subset.refl _) (by simp) (.inl free)
    have named : Filed res paths spec veil born first snap k' _ := noted.renamed same fun e n there => by
      rcases values e n there with before | ⟨rfl,rfl⟩
      · exact .inl before
      · refine .inr ⟨.inr ⟨used,fun i' j' w found equal => ?_,fun _ => .inl (secret rfl)⟩,fun _ => ⟨.temp member temp rfl,.inl ?_⟩⟩
        · rw [noted.only (i := i) (j := j) (w := ⟨fd.ino,.secret,true⟩) (by simp) found equal]
        · exact behind (update_same rfl) (veil_entry veils temp)
    exact listed named rfl rfl rfl rfl rfl rfl rfl (by simp)
  | plain =>
    have work := update_same (g := g) (f := Book.work) (i := i) (b := { g i with finished := fd.ino :: (g i).finished }) rfl
    have done := (made.self i).completed (n := fd.ino) own used
      (fun i' j' w found equal => absurd equal (unworked i' j' w (by rwa [update_eq_self] at found)))
      (fun content => by simp [opens.2.2.1] at content) (.inr ⟨opens.2.2,q,opens.1,now⟩)
    have named : Filed res paths spec veil born first snap k' _ := done.renamed same fun e n there => by
      rcases values e n there with before | ⟨rfl,rfl⟩
      · exact .inl before
      · refine .inr ⟨.inr ⟨used,fun i' j' w found equal => ?_,fun _ => .inr (.inl data)⟩,fun _ => ⟨.operand opens.1 rfl,.inr (.inl ⟨i,?_⟩)⟩⟩
        · exact bare i' j' w (work i' ▸ found) equal
        · simp
    exact listed named rfl rfl rfl rfl rfl rfl rfl (by simp)
  | probe =>
    obtain ⟨p,member,temp⟩ := opens
    have named : Filed res paths spec veil born first snap k' g := made.renamed same fun e n there => by
      rcases values e n there with before | ⟨rfl,rfl⟩
      · exact .inl before
      · exact .inr ⟨.inr ⟨used,bare,fun _ => .inr (.inl data)⟩,fun _ => ⟨.temp member temp rfl,.inl (behind (fun _ => rfl) (veil_entry veils temp))⟩⟩
    exact listed (named.self i) rfl rfl rfl rfl rfl rfl rfl (by simp)
  | holder =>
    obtain ⟨member,rfl,creating⟩ := opens
    have named : Filed res paths spec veil born first snap k' g := made.renamed same fun e n there => by
      rcases values e n there with before | ⟨rfl,rfl⟩
      · exact .inl before
      · refine .inr ⟨.inr ⟨used,bare,fun _ => .inr (.inl data)⟩,fun _ => ⟨.operand member rfl,.inr (.inr ⟨⟨i,creating⟩,used,data,secret rfl,?_⟩)⟩⟩
        exact fun i' j' w found equal => absurd equal (unworked i' j' w found)
    exact listed (named.self i) rfl rfl rfl rfl rfl rfl rfl (by simp)
  | _ => exact opens.elim

theorem filed_call (filed : Filed res paths spec veil born first snap k g) (veils : Veil res paths spec veil) (stands : Stands res k g)
    (shaped : Shaped paths spec g) (low : ∀ q, res q < first) (now : ∀ e n, Births res e n ⟨c,r⟩ → born e n)
    (move : Move (paths i) (spec i) evs (g i) m c r b) (answered : exec res k c r k') : Filed res paths spec veil born first snap k' (update g i b) := by
  -- Of the names from which files are moved on none is new.
  have forget : ∀ {k' : Kernel} (_ : Filed res paths spec veil born first snap k' g) {b : Book}, b.work = (g i).work →
      b.finished = (g i).finished → b.moded = (g i).moded → (∀ r, Held b r → Held (g i) r ∧ (b.old = (g i).old ∨ r.role = .temp)) →
      Filed res paths spec veil born first snap k' (update g i b) :=
    fun {_} filed' {_} work finished moded held => (filed'.self i).ledger work finished moded fun r now => .inl (held r now)
  have same : ∀ {b : Book}, b.live = (g i).live → b.old = (g i).old → ∀ r, Held b r → Held (g i) r ∧ (b.old = (g i).old ∨ r.role = .temp) :=
    fun live old r held => ⟨held.sub fun _ _ found _ => live ▸ found,.inl old⟩
  have dropped : ∀ {j} r, Held ((g i).drop j) r → Held (g i) r ∧ (((g i).drop j).old = (g i).old ∨ r.role = .temp) :=
    fun r held => ⟨held.sub fun _ _ found _ => drop_sub found,.inl rfl⟩
  -- Once an operand is replaced no backup is under way.
  have settled : ∀ {j} {now : Option Rec} {b : Book}, (g i).live FRESH = none → j ≠ FRESH → (∀ r, now = some r → r.role = .spare) →
      b.live = update (update (g i).live PENDING_BACKUP none) j now →
      ∀ r, Held b r → Held (g i) r ∧ (b.old = (g i).old ∨ r.role = .temp) := by
    intro j now b room slot spare live r held
    have this : b.live j = some r → r.role = .spare := by
      rw [live,update_self]
      exact spare r
    have before : ∀ {j'}, j' ≠ j → b.live j' = some r → j' ≠ PENDING_BACKUP ∧ (g i).live j' = some r := by
      intro j' other found
      rw [live,update_of_ne other] at found
      exact update_none found
    rcases held with ⟨temp,j',found⟩ | ⟨twin,found | found⟩
    · have other : j' ≠ j := by
        rintro rfl
        simp [this found] at temp
      exact ⟨.inl ⟨temp,j',(before other found).2⟩,.inr temp⟩
    · have was := (before slot.symm found).2
      simp [room] at was
    · by_cases here : PENDING_BACKUP = j
      · subst here
        simp [this found] at twin
      · exact absurd rfl (before here found).1
  -- The file of an operand, whatever is under its temporary name by now.
  have good : ∀ {j t n n'}, (g i).live j = some ⟨t,n,.temp⟩ → n ∈ (g i).finished → k.names.get (entry res t) = some n' → first ≤ n' →
      Good spec k g n' := by
    intro j t n n' made finished at_ own
    rcases filed.shown _ _ at_ own with behind | good
    · have same : n = n' := (behind.fair i ⟨t,n,.temp⟩ (.inl ⟨rfl,j,made⟩) rfl).temp rfl
      exact .inl ⟨i,same ▸ finished⟩
    · exact good
  cases move with
  | quiet still =>
    rw [update_eq_self]
    rcases still with silent | ⟨e,rfl⟩
    · exact filed.still silent answered
    · exact filed.failed answered
  | refuse => exact forget (filed.failed answered) rfl rfl rfl (same rfl rfl)
  | alter alters mine unsealed =>
    rw [update_eq_self]
    have changed := exec_altered alters answered
    exact filed.changed mine unsealed changed.names changed.next changed.files fun _ => changed.secret
  | create blocked room clean whole opens => exact filed_opened filed veils stands opens answered (now _ _ ⟨rfl,rfl⟩)
  | rollback made clean just =>
    obtain ⟨renames,_,names⟩ := exec_unlink answered
    refine forget (filed.fewer renames fun e n found => ?_) rfl rfl rfl dropped
    rw [names] at found
    split at found
    · simp at found
    · exact found
  | lose made clean just => exact forget (filed.failed answered) rfl rfl rfl dropped
  | anon =>
    rename_i d mode fd j
    obtain ⟨makes,names⟩ := exec_open_tmpfile answered
    obtain ⟨made,own,used,unworked,unnamed,free⟩ := filed.made makes names
    exact made.noted (w := ⟨fd.ino,.raw,false⟩) rfl rfl (fun _ _ => rfl) own used
      (fun i' j' v found same => absurd same (unworked i' j' v found)) (fun _ => rfl) (by simp) (by simp) (List.Subset.refl _)
      (fun _ => unnamed) (.inl free)
  | conceal mine =>
    obtain ⟨names,next,files,mode⟩ := exec_fchmod answered
    refine filed.reworked mine names next files .secret _ _ (by simp) (fun _ => ?_) (by simp) (List.Subset.refl _) id (by simp)
    rw [mode]
    exact BitVec.and_self
  | finish mine unsealed final =>
    rename_i fd j phase named mode
    obtain ⟨names,next,files,now⟩ := exec_fchmod answered
    have worked := filed.reworked mine names next files .sealed named ((fd.ino,mode) :: (g i).moded) (by simp) (by simp)
      (fun _ => by rw [now]; exact List.mem_cons_self) (List.subset_cons_self _ _) id (absurd · unsealed)
    by_cases content : hasContent (spec i) = true
    · rw [if_pos content]
      exact worked
    · rw [if_neg content]
      obtain ⟨own,used⟩ := worked.work i j ⟨fd.ino,.sealed,named⟩ (by simp)
      have mine' : (update g i { g i with
          work := update (g i).work j (some ⟨fd.ino,.sealed,named⟩), moded := (fd.ino,mode) :: (g i).moded } i).work j =
            some ⟨fd.ino,.sealed,named⟩ := by simp
      exact worked.completed own used (worked.sealed mine' rfl) (fun filled => absurd filled content) (.inl (worked.done i j _ mine' rfl))
  | flush mine =>
    rename_i fd j named
    obtain ⟨_,_,_,synced⟩ := exec_fsync answered
    have later : Filed res paths spec veil born first snap k' g := filed.still rfl answered
    obtain ⟨own,used⟩ := later.work i _ _ mine
    refine (later.self i).completed own used ?_ (fun _ => ?_) (.inl ?_)
    · rw [update_eq_self]
      exact later.sealed mine rfl
    · rw [synced]
    · rw [update_eq_self]
      exact later.done i _ _ mine rfl
  | tempLink blocked room clean whole temp mine ready =>
    rename_i fd q j phase
    obtain ⟨p,member,temp⟩ := temp
    obtain ⟨renames,absent,names⟩ := exec_linkat answered
    have worked := filed.reworked mine rfl rfl (fun _ _ => rfl) phase true (g i).moded (by rintro rfl; simp at ready)
      (fun secret => filed.secret _ _ _ mine secret) (fun sealed => filed.done _ _ _ mine sealed) (List.Subset.refl _) (by simp)
      fun sealed => ⟨sealed,rfl⟩
    have live := update_same (g := g) (f := Book.live) (i := i)
      (b := { g i with work := update (g i).work j (some ⟨fd.ino,phase,true⟩), moded := (g i).moded }) rfl
    have named := worked.renamed renames fun e n found => by
      rcases sets_values names e n found with before | ⟨rfl,rfl⟩
      · exact .inl before
      · refine .inr ⟨.inr ⟨(filed.work i j _ mine).2,fun i' j' w other equal => ?_,fun ice => ?_⟩,fun _ => ⟨.temp member temp rfl,.inl ⟨?_,fun _ => now _ _ ⟨rfl,rfl⟩,?_⟩⟩⟩
        · rw [worked.only (i := i) (j := j) (w := ⟨fd.ino,phase,true⟩) (by simp) other equal]
        · have sealed : phase = .sealed := ice i j ⟨fd.ino,phase,true⟩ (by simp) rfl
          exact .inr (.inr ⟨i,worked.done i j ⟨fd.ino,phase,true⟩ (by simp) sealed⟩)
        · exact veil_entry veils temp
        · exact fun i' r held here => absurd here (vacant stands (i := i') absent (held.sub fun j r found _ => live i' ▸ found))
    refine named.ledger rfl rfl rfl fun r held => ?_
    rcases fresh_held (g := g i) (held.sub fun j r found _ => found) with rfl | was
    · refine .inr fun n there _ => .inl ⟨fun _ => ?_,by simp⟩
      rw [names,if_pos rfl] at there
      exact Option.some.inj there
    · exact .inl ⟨was,.inl rfl⟩
  | regard fresh room =>
    refine forget (filed.still rfl answered) rfl rfl rfl fun r held => ⟨held.sub fun _ _ found _ => found,.inr ?_⟩
    rcases held with ⟨temp,_⟩ | ⟨_,live | live⟩
    · exact temp
    · simp [fresh] at live
    · simp [room] at live
  | exists_ => exact forget (filed.failed answered) rfl rfl rfl (same rfl rfl)
  | backLink blocked room clean whole force member name old =>
    rename_i p b o
    obtain ⟨renames,absent,n,at_,names⟩ := exec_link answered
    have fine : first ≤ n → Behind res paths spec veil born g (entry res b) n ∨ Good spec k g n := fun own => by
      refine (filed.shown _ n at_ own).imp (fun behind => ⟨?_,fun plain => ?_,fun i' r held here => ?_⟩) id
      · exact veils.backup i force p member b name behind.veiled
      · exact absurd behind.veiled (plain i force p member)
      · exact absurd here (vacant stands absent held)
    refine ((filed.moved renames (.backup member force name rfl) at_ fine (sets_values names)).self i).ledger rfl rfl rfl fun r held => ?_
    rcases fresh_held held with rfl | was
    · exact absurd held.untwinned (by rcases held with ⟨role,_⟩ | ⟨role,_⟩ <;> simp at role)
    · exact .inl ⟨was,.inl rfl⟩
  | twinLink blocked room clean whole force member temp old =>
    rename_i p a o
    obtain ⟨renames,absent,n,at_,names⟩ := exec_link answered
    have fine : first ≤ n → Behind res paths spec veil born g (entry res a) n ∨ Good spec k g n := fun own =>
      (filed.shown _ n at_ own).imp (fun behind => ⟨veil_entry veils temp,fun plain => absurd behind.veiled (plain i force p member),
        fun i' r held here => absurd here (vacant stands absent held)⟩) id
    have linked := filed.moved renames (.temp member temp rfl) at_ fine (sets_values names)
    refine (linked.self i).ledger rfl rfl rfl fun r held => ?_
    rcases fresh_held held with rfl | was
    · refine .inr fun n' there own => ?_
      rw [names,if_pos rfl] at there
      obtain rfl := Option.some.inj there
      have still : k'.names.get (entry res p) = some n := by
        rw [names]
        split <;> simp [at_]
      rw [update_eq_self]
      exact (linked.shown _ n still own).imp (fun behind => ⟨by simp,fun _ => ⟨p,o,old,member,force,behind.veiled⟩⟩) id
    · exact .inl ⟨was,.inl rfl⟩
  | twinMove room clean force member name old made temp taken =>
    rename_i p a b o
    obtain ⟨renames,n,at_,names⟩ := exec_rename answered
    have fine : first ≤ n → Behind res paths spec veil born g (entry res b) n ∨ Good spec k g n := fun own => by
      refine (filed.shown _ n at_ own).imp (fun behind => ?_) id
      obtain ⟨p',o',old',_,_,veiled⟩ := (behind.fair i ⟨a,o,.twin⟩ (.inr ⟨rfl,.inr made⟩) rfl).twin rfl
      obtain ⟨rfl,rfl⟩ : p = p' ∧ o = o' := by simpa [old] using old'
      refine ⟨veils.backup i force p member b name veiled,fun plain => absurd veiled (plain i force p member),fun i' r held here => ?_⟩
      obtain ⟨j,live⟩ := held.live
      obtain ⟨p',_,temp'⟩ := held.shape (shaped i' j r live)
      exact absurd (here ▸ temp_entry res temp') (backup_entry res name)
    refine forget (filed.moved renames (.backup member force name rfl) at_ fine (moves_values names)) rfl rfl rfl fun r held =>
      ⟨held.sub fun j r found role => ?_,.inl rfl⟩
    by_cases here : j = PENDING_BACKUP
    · obtain rfl : _ = r := by simpa [here] using found
      simp at role
    · simpa [here] using found
  | remove clean made seen =>
    obtain ⟨renames,_,names⟩ := exec_unlink answered
    refine forget (filed.fewer renames fun e n found => ?_) rfl rfl rfl dropped
    rw [names] at found
    split at found
    · simp at found
    · exact found
  | vanish clean made gone =>
    refine forget ?_ rfl rfl rfl dropped
    cases c with
    | lstat q => exact filed.still rfl answered
    | unlink q =>
      obtain ⟨_,rfl⟩ := gone
      exact filed.failed answered
    | _ => exact gone.elim
  | linkCommit clean unforced member mine finished =>
    rename_i fd p j
    obtain ⟨renames,_,names⟩ := exec_linkat answered
    have worked := filed.reworked mine rfl rfl (fun _ _ => rfl) .sealed true (g i).moded (by simp) (by simp)
      (fun sealed => filed.done _ _ _ mine sealed) (List.Subset.refl _) (by simp) fun _ => ⟨rfl,rfl⟩
    have named := worked.renamed renames fun e n found => by
      rcases sets_values names e n found with before | ⟨rfl,rfl⟩
      · exact .inl before
      · refine .inr ⟨.inr ⟨(filed.work i j _ mine).2,fun i' j' w other equal => ?_,fun _ => ?_⟩,fun _ =>
          ⟨.operand member rfl,.inr (.inl ⟨i,by simpa using finished⟩)⟩⟩
        · rw [worked.only (i := i) (j := j) (w := ⟨fd.ino,.sealed,true⟩) (by simp) other equal]
        · exact .inr (.inr ⟨i,worked.done i j ⟨fd.ino,.sealed,true⟩ (by simp) rfl⟩)
    exact named.ledger rfl rfl rfl fun r held => .inl ⟨held.sub fun _ _ found _ => found,.inl rfl⟩
  | noReplace clean unforced member made slot finished =>
    obtain ⟨renames,absent,n',at_,names⟩ := exec_noreplace answered
    refine forget (filed.moved renames (.operand member rfl) at_ (fun own => .inr (good made finished at_ own)) ?_) rfl rfl rfl dropped
    exact moves_values (.inr ⟨by simp [absent],names⟩)
  | linkAlso clean unforced member made finished =>
    obtain ⟨renames,_,n',at_,names⟩ := exec_link answered
    exact forget (filed.moved renames (.operand member rfl) at_ (fun own => .inr (good made finished at_ own)) (sets_values names))
      rfl rfl rfl (same rfl rfl)
  | overHolder blocked clean unforced member made slot holder just finished =>
    obtain ⟨renames,n',at_,names⟩ := exec_rename answered
    exact forget (filed.moved renames (.operand member rfl) at_ (fun own => .inr (good made finished at_ own)) (moves_values names))
      rfl rfl rfl fun r held => ⟨held.sub fun _ _ found _ => (update_none (update_none found).2).2,.inl rfl⟩
  | force blocked clean forced member made temp room slot other backed finished =>
    obtain ⟨renames,n',at_,names⟩ := exec_rename answered
    exact forget (filed.moved renames (.operand member rfl) at_ (fun own => .inr (good made finished at_ own)) (moves_values names))
      rfl rfl rfl (settled room slot (by simp) rfl)
  | exchange blocked clean forced member made temp room slot other old backed finished =>
    rename_i j t p n o
    obtain ⟨renames,n',o',at_,at',names⟩ := exec_exchange answered
    have replaced := forget (b := { g i with
      live := update (update (g i).live PENDING_BACKUP none) j (some ⟨t,o,.spare⟩), lag := [j,PENDING_BACKUP]
      trail := .file p n :: (backupDeeds (g i) p ++ (g i).trail), old := none, taken := none }) filed rfl rfl rfl
      (settled room slot (by simp) rfl)
    refine replaced.renamed renames fun e n'' found => ?_
    rw [names] at found
    split at found
    · obtain rfl := Option.some.inj found
      refine .inr ⟨.inl ⟨_,at_⟩,fun own => ⟨.operand member ‹_›,.inr ((good made finished at_ own).ledgers (update_same rfl) (update_same rfl))⟩⟩
    · split at found
      · rename_i here
        obtain rfl := Option.some.inj found
        refine .inr ⟨.inl ⟨_,at'⟩,fun own => ⟨.temp member temp here,?_⟩⟩
        refine (replaced.shown _ o' at' own).imp (fun behind => ⟨here ▸ veil_entry veils temp,?_,fun i' r held equal => ?_⟩) id
        · exact fun plain => absurd behind.veiled (plain i forced p member)
        -- No other name of a ledger is at the entry.
        obtain ⟨j',live⟩ := held.live
        rcases live_update live with ⟨rfl,mine⟩ | ⟨other,others⟩
        · by_cases this : j' = j
          · subst this
            obtain rfl : _ = r := by simpa using mine
            rcases held with ⟨role,_⟩ | ⟨role,_⟩ <;> simp at role
          · dsimp only at mine
            rw [update_of_ne this] at mine
            exact absurd (stands.apart _ _ _ _ _ _ (update_none mine).2 made (equal.symm.trans here)).2 this
        · exact absurd (stands.apart _ _ _ _ _ _ others made (equal.symm.trans here)).1 other
      · exact .inl found
  | mkdir parent =>
    obtain ⟨next,files,_,names⟩ := exec_mkdir answered
    exact forget (filed.directory (low _) next files names) rfl rfl rfl (same rfl rfl)

omit [DecidableEq ι] in
/-- A step on the memory adds no name from which a file is moved on. -/
theorem step_held {g g' : Book} {m m' : Memory} {r : Rec} (step : Step g m m' g') (held : Held g' r) :
    Held g r ∧ g'.old = g.old := by
  have same : (∀ j r, g'.live j = some r → g.live j = some r) → g'.old = g.old → Held g r ∧ g'.old = g.old :=
    fun sub old => ⟨held.sub fun j r found _ => sub j r found,old⟩
  cases step with
  | arm clean made text room slot whole =>
    rename_i j s r'
    refine ⟨?_,rfl⟩
    have before : ∀ {j'}, update (update g.live FRESH none) j (some r') j' = some r → j' = j ∧ r = r' ∨ j' ≠ FRESH ∧ g.live j' = some r := by
      intro j' found
      by_cases here : j' = j
      · subst here
        exact .inl ⟨rfl,by simpa [eq_comm] using found⟩
      · rw [update_of_ne here] at found
        exact .inr (update_none found)
    rcases held with ⟨temp,j',found⟩ | ⟨twin,found | found⟩
    · rcases before found with ⟨_,rfl⟩ | ⟨_,was⟩
      · exact .inl ⟨temp,FRESH,made⟩
      · exact .inl ⟨temp,j',was⟩
    · rcases before found with ⟨_,rfl⟩ | ⟨fresh,_⟩
      · exact .inr ⟨twin,.inl made⟩
      · exact absurd rfl fresh
    · rcases before found with ⟨_,rfl⟩ | ⟨_,was⟩
      · exact .inr ⟨twin,.inl made⟩
      · exact .inr ⟨twin,.inr was⟩
  | settle | keep | keepOld => exact same (fun _ _ => drop_sub) rfl
  | _ => exact same (fun _ _ => id) rfl

theorem filed_mem {m' : Memory} (filed : Filed res paths spec veil born first snap k g) (step : Step (g i) m m' b) :
    Filed res paths spec veil born first snap k (update g i b) := by
  refine (filed.self i).ledger ?_ ?_ ?_ fun r held => .inl ?_
  · cases step <;> rfl
  · cases step <;> rfl
  · cases step <;> rfl
  · obtain ⟨was,old⟩ := step_held step held
    exact ⟨was,.inl old⟩

/-! ## Runs -/

/-- What the system has in use is known as such, the directories of operands as well. -/
structure Sound (res : Path → Ino) (k : Kernel) : Prop where
  names : ∀ e n, k.names.get e = some n → n < k.next
  dirs : ∀ q, res q < k.next

/-- A call has made the file under the name, or given it its first one. -/
def Born (res : Path → Ino) (evs : List (ι × Event posix)) (e : Entry) (n : Ino) : Prop := ∃ x ∈ evs, Births res e n x.2

/-- The invariant of names and files, whatever kind of names is set apart. -/
structure Guarded (res : Path → Ino) (paths : ι → List Path) (spec : ι → FileSpec) (first : Ino) (snap : Ino → File → Prop)
    (evs : List (ι × Event posix)) (k : Kernel) (g : ι → Book) : Prop where
  stands : Stands res k g
  filed : ∀ veil, Veil res paths spec veil → Filed res paths spec veil (Born res evs) first snap k g

theorem guarded_call {evs : List (ι × Event posix)} (guarded : Guarded res paths spec first snap evs k g) (alone : Alone spec)
    (shaped : Shaped paths spec g) (low : ∀ q, res q < first) (move : Move (paths i) (spec i) (own i evs) (g i) m c r b)
    (answered : exec res k c r k') : Guarded res paths spec first snap (evs ++ [(i,⟨c,r⟩)]) k' (update g i b) where
  stands := stands_call guarded.stands alone shaped move answered
  filed veil veils := by
    have later : Filed res paths spec veil (Born res (evs ++ [(i,⟨c,r⟩)])) first snap k g := (guarded.filed veil veils).mono
      fun e n ⟨x,member,births⟩ => ⟨x,List.mem_append_left _ member,births⟩
    exact filed_call later veils guarded.stands shaped low
      (fun e n births => ⟨_,List.mem_append_right _ (List.mem_singleton_self _),births⟩) move answered

theorem guarded_mem {evs : List (ι × Event posix)} {m' : Memory} (guarded : Guarded res paths spec first snap evs k g)
    (step : Step (g i) m m' b) : Guarded res paths spec first snap evs k (update g i b) where
  stands := stands_mem guarded.stands step
  filed veil veils := filed_mem (guarded.filed veil veils) step

variable {fuel : ι → Nat} {s t : Crowd ι posix Kernel Memory Bool} {before trace : List (ι × Event posix)} {e : Entry} {n : Ino}

theorem Guarded.runs (alone : Alone spec) (low : ∀ q, res q < first)
    (booked : Booked paths spec (fun evs k _ g => Guarded res paths spec first snap evs k g) before s g) (runs : Runs (exec res) s trace t) :
    ∃ g', Booked paths spec (fun evs k _ g => Guarded res paths spec first snap evs k g) (before ++ trace) t g' :=
  booked.runs runs (fun guarded inv _ answered move => guarded_call guarded alone (fun i => (inv i).shape) low move answered)
    fun guarded _ _ step => guarded_mem guarded step

/-- What there is at the start. -/
def Initial (res : Path → Ino) (k : Kernel) (n : Ino) (file : File) : Prop := n < k.next ∧ (∀ q, n ≠ res q) ∧ file = k.files n

omit [DecidableEq ι] in
theorem guarded_start (sound : Sound res k) : Guarded res paths spec k.next (Initial res k) [] k fun _ => {} where
  stands := stands_start
  filed veil veils := by
    refine ⟨Nat.le_refl _,sound.names,by simp,by simp,by simp,by simp,by simp,by simp,by simp,by simp,?_,?_,?_,?_⟩
    · exact fun e n there own => absurd (sound.names e n there) (Nat.not_lt_of_le own)
    · exact fun e n there own => absurd (sound.names e n there) (Nat.not_lt_of_le own)
    · exact fun e n there own => absurd (sound.names e n there) (Nat.not_lt_of_le own)
    · rintro n file ⟨used,plain,rfl⟩
      exact ⟨used,plain,by simp [Frozen],Since.refl _⟩

theorem ready_guarded (ready : Ready fuel paths spec s) (sound : Sound res s.kernel) (alone : Alone spec) (runs : Runs (exec res) s trace t) :
    ∃ g, Booked paths spec (fun evs k _ g => Guarded res paths spec s.kernel.next (Initial res s.kernel) evs k g) trace t g := by
  simpa using Guarded.runs alone sound.dirs (ready.booked (guarded_start sound)) runs

theorem temp_begins {name : Path} (temp : isTemp name) : TEMP_STEM <+: name := by
  obtain ⟨suffix,rfl,_⟩ := temp
  exact List.prefix_append _ _

omit [DecidableEq ι] in
/-- The names of temporary files are set apart, whatever the operands are called. -/
theorem veil_temp : Veil res paths spec fun name => TEMP_STEM <+: name where
  temp _ := temp_begins
  backup i forced p member b name veiled := by
    obtain ⟨s,plain,rfl⟩ := backup_suffix name
    rw [entry_append res p plain]
    exact veiled.trans (List.prefix_append _ _)

/-- A file that no run is to change stays as it is. -/
theorem Guarded.stays (alone : Alone spec) (low : ∀ q, res q < first) (own : first ≤ n) (used : n < s.kernel.next) (frozen : Frozen g n)
    (booked : Booked paths spec (fun evs k _ g => Guarded res paths spec first snap evs k g) before s g) (runs : Runs (exec res) s trace t) :
    Since (s.kernel.files n) (t.kernel.files n) := by
  have plain : ∀ q, n ≠ res q := fun q same => absurd (same ▸ own) (Nat.not_le_of_lt (low q))
  -- The file is looked at from here on.
  have watched : Guarded res paths spec first (fun n' file => n' = n ∧ file = s.kernel.files n) before s.kernel g := by
    refine ⟨booked.more.stands,fun veil veils => { booked.more.filed veil veils with kept := fun n' file snapped => ?_ }⟩
    obtain ⟨rfl,rfl⟩ := snapped
    exact ⟨used,plain,frozen,Since.refl _⟩
  obtain ⟨g',after⟩ := Guarded.runs alone low { booked with more := watched } runs
  exact ((after.more.filed _ veil_temp).kept n _ ⟨rfl,rfl⟩).2.2.2

/-! ## First names -/

/-- A file gets its first name once, and is not worked on without it any more. -/
structure Firsts (res : Path → Ino) (evs : List (ι × Event posix)) (k : Kernel) (g : ι → Book) : Prop where
  used : ∀ e n, Born res evs e n → n < k.next
  named : ∀ e n, Born res evs e n → ∀ i j w, (g i).work j = some w → w.ino = n → w.named = true
  once : ∀ e e' n, Born res evs e n → Born res evs e' n → e = e'

omit [DecidableEq ι] in
/-- The files that a run works on are those it did, with the names that they had, or new. -/
theorem move_work (move : Move (paths i) (spec i) evs (g i) m c r b) (answered : exec res k c r k') {j : Nat} {w : Work}
    (found : b.work j = some w) :
    (∃ j' w', (g i).work j' = some w' ∧ w'.ino = w.ino ∧ (w'.named = true → w.named = true)) ∨
      w.ino = k.next ∧ ∀ e, Births res e w.ino ⟨c,r⟩ → w.named = true := by
  have same : b.work = (g i).work → (∃ j' w', (g i).work j' = some w' ∧ w'.ino = w.ino ∧ (w'.named = true → w.named = true)) ∨
      w.ino = k.next ∧ ∀ e, Births res e w.ino ⟨c,r⟩ → w.named = true := fun work => .inl ⟨j,w,work ▸ found,rfl,id⟩
  have changed : ∀ {j' : Nat} {w' w'' : Work}, b.work = update (g i).work j' (some w'') → (g i).work j' = some w' → w'.ino = w''.ino →
      (w'.named = true → w''.named = true) →
      (∃ j' w', (g i).work j' = some w' ∧ w'.ino = w.ino ∧ (w'.named = true → w.named = true)) ∨
        w.ino = k.next ∧ ∀ e, Births res e w.ino ⟨c,r⟩ → w.named = true := by
    intro j' w' w'' work mine ino named
    rw [work] at found
    by_cases here : j = j'
    · obtain rfl : w'' = w := by simpa [here] using found
      exact .inl ⟨j',w',mine,ino,named⟩
    · exact .inl ⟨j,w,by simpa [here] using found,rfl,id⟩
  cases move with
  | create blocked room clean whole opens =>
    rename_i q mode fd j' role
    have ino := (exec_open_excl answered).1.ino
    dsimp only at found
    split at found
    · by_cases here : j = j'
      · obtain rfl : _ = w := by simpa [here] using found
        exact .inr ⟨ino,fun _ _ => rfl⟩
      · exact .inl ⟨j,w,by simpa [here] using found,rfl,id⟩
    · exact .inl ⟨j,w,found,rfl,id⟩
  | anon =>
    rename_i d mode fd j'
    have ino := (exec_open_tmpfile answered).1.ino
    by_cases here : j = j'
    · obtain rfl : _ = w := by simpa [here] using found
      exact .inr ⟨ino,fun _ births => births.elim⟩
    · exact .inl ⟨j,w,by simpa [here] using found,rfl,id⟩
  | conceal mine | finish mine => exact changed rfl mine rfl id
  | tempLink blocked room clean whole temp mine | linkCommit clean unforced member mine => exact changed rfl mine rfl fun _ => rfl
  | _ => exact same rfl

omit [DecidableEq ι] in
/-- A file gets its first name when it is made, or when a run links the one that it works on. -/
theorem move_births (move : Move (paths i) (spec i) evs (g i) m c r b) (answered : exec res k c r k') {e : Entry} {n : Ino}
    (births : Births res e n ⟨c,r⟩) : (n = k.next ∧ k'.next = k.next+1) ∨
      ∃ j w phase, (g i).work j = some w ∧ w.ino = n ∧ w.named = false ∧ b.work = update (g i).work j (some ⟨n,phase,true⟩) := by
  cases move with
  | create =>
    obtain ⟨_,rfl⟩ := births
    have makes := (exec_open_excl answered).1
    exact .inl ⟨makes.ino,makes.next⟩
  | tempLink blocked room clean whole temp mine | linkCommit clean unforced member mine =>
    obtain ⟨_,rfl⟩ := births
    exact .inr ⟨_,_,_,mine,rfl,rfl,rfl⟩
  | quiet still =>
    rcases still with silent | ⟨err,rfl⟩
    · cases c <;> cases r <;> simp [matters,Births] at silent births
    · cases c <;> simp [Births] at births
  | alter alters => cases c <;> cases r <;> simp [altered,Births] at alters births
  | vanish clean made gone => cases c <;> cases r <;> simp [Gone,Births] at gone births
  | _ => exact births.elim

theorem firsts_call {evs : List (ι × Event posix)} (firsts : Firsts res evs k g) (filed : Filed res paths spec veil born first snap k g)
    (move : Move (paths i) (spec i) (own i evs) (g i) m c r b) (answered : exec res k c r k') :
    Firsts res (evs ++ [(i,⟨c,r⟩)]) k' (update g i b) := by
  have cases_ : ∀ {e n}, Born res (evs ++ [(i,⟨c,r⟩)]) e n → Born res evs e n ∨ Births res e n ⟨c,r⟩ := by
    rintro e n ⟨x,member,births⟩
    rcases List.mem_append.mp member with was | now
    · exact .inl ⟨x,was,births⟩
    · obtain rfl := List.mem_singleton.mp now
      exact .inr births
  -- A file that has its first name does not get another.
  have new : ∀ {e e' n}, Born res evs e n → Births res e' n ⟨c,r⟩ → False := by
    intro e e' n was now
    rcases move_births move answered now with ⟨same,_⟩ | ⟨j,w,_,mine,same,unnamed,_⟩
    · exact Nat.ne_of_lt (firsts.used e n was) same
    · simp [firsts.named e n was i j w mine same] at unnamed
  constructor
  · intro e n given
    rcases cases_ given with was | now
    · exact Nat.lt_of_lt_of_le (firsts.used e n was) (exec_next answered)
    · rcases move_births move answered now with ⟨rfl,next⟩ | ⟨j,w,_,mine,rfl,_⟩
      · rw [next]
        exact Nat.lt_succ_self _
      · exact Nat.lt_of_lt_of_le (filed.work i j w mine).2 (exec_next answered)
  · intro e n given i' j w found same
    by_cases this : i' = i
    · subst this
      rw [update_self] at found
      rcases move_work move answered found with ⟨j',w',was,ino,named⟩ | ⟨ino,named⟩
      · rcases cases_ given with before | now
        · exact named (firsts.named e n before i' j' w' was (ino.trans same))
        · rcases move_births move answered now with ⟨rfl,_⟩ | ⟨j₀,w₀,phase,mine,same₀,_,work⟩
          · exact absurd (ino.trans same) (Nat.ne_of_lt (filed.work i' j' w' was).2)
          · obtain ⟨_,rfl⟩ := filed.apart _ _ _ _ _ _ was mine ((ino.trans same).trans same₀.symm)
            rw [work] at found
            by_cases here : j = j'
            · obtain rfl : _ = w := by simpa [here] using found
              rfl
            · have there : (g i').work j = some w := by simpa [here] using found
              exact absurd (filed.apart _ _ _ _ _ _ there mine (same.trans same₀.symm)).2 here
      · rcases cases_ given with before | now
        · exact absurd (same.symm.trans ino) (Nat.ne_of_lt (firsts.used e n before))
        · exact named e (same.symm ▸ now)
    · rw [update_of_ne this] at found
      rcases cases_ given with before | now
      · exact firsts.named e n before i' j w found same
      · rcases move_births move answered now with ⟨rfl,_⟩ | ⟨j₀,w₀,_,mine,same₀,_⟩
        · exact absurd same (Nat.ne_of_lt (filed.work i' j w found).2)
        · exact absurd (filed.apart _ _ _ _ _ _ found mine (same.trans same₀.symm)).1 this
  · intro e e' n one two
    rcases cases_ one with before | now
    · rcases cases_ two with before' | now'
      · exact firsts.once e e' n before before'
      · exact (new before now').elim
    · rcases cases_ two with before' | now'
      · exact (new before' now).elim
      · cases c <;> cases r <;> simp only [Births] at now now'
        all_goals exact now.1.trans now'.1.symm

theorem firsts_mem {evs : List (ι × Event posix)} {m' : Memory} (firsts : Firsts res evs k g) (step : Step (g i) m m' b) :
    Firsts res evs k (update g i b) where
  used := firsts.used
  named e n given i' j w found := by
    have work : b.work = (g i).work := by cases step <;> rfl
    rw [update_same (f := Book.work) work] at found
    exact firsts.named e n given i' j w found
  once := firsts.once

/-! ## What is seen of the files -/

omit [DecidableEq ι] in
/-- Where no operand is named like a temporary file, backups are not either. -/
theorem veil_plain (plain : Unveiled res paths spec isTemp) : Veil res paths spec isTemp where
  temp _ temp := temp
  backup i forced p member _ _ veiled := absurd veiled (plain i forced p member)

/-- The files of runs are as they should be, and each has had its first name once. -/
def Tended (res : Path → Ino) (paths : ι → List Path) (spec : ι → FileSpec) (first : Ino) (snap : Ino → File → Prop)
    (evs : List (ι × Event posix)) (k : Kernel) (g : ι → Book) : Prop :=
  Guarded res paths spec first snap evs k g ∧ Firsts res evs k g

/-- Nothing is done to the file any more but a flush. -/
def Final (res : Path → Ino) (t : Crowd ι posix Kernel Memory Bool) (n : Ino) : Prop :=
  ∀ trace u, Runs (exec res) t trace u → Since (t.kernel.files n) (u.kernel.files n)

/-- The file was given its mode after all else, or it was made with it under the name of an operand. -/
def LastMode (res : Path → Ino) (paths : ι → List Path) (spec : ι → FileSpec) (trace : List (ι × Event posix))
    (t : Crowd ι posix Kernel Memory Bool) (i : ι) (n : Ino) : Prop :=
  Moded (spec i) (own i trace) n (t.kernel.files n).mode ∨ opensPlain (spec i) ∧ ∃ p ∈ paths i, Born res trace (entry res p) n

/-- What a file that a run has made may be like under one of its names. -/
inductive Visible (res : Path → Ino) (paths : ι → List Path) (spec : ι → FileSpec) (trace : List (ι × Event posix))
    (t : Crowd ι posix Kernel Memory Bool) (e : Entry) (n : Ino) : Prop
  /-- Finished, and flushed if it has content. -/
  | finished {i : ι} (done : Done (spec i) (own i trace) n) (last : LastMode res paths spec trace t i n)
      (flushed : hasContent (spec i) = true → (t.kernel.files n).synced = true) (final : Final res t n)
  | secret (temp : TEMP_STEM <+: e.2) (mode : Private (t.kernel.files n).mode)
  /-- Its content, its owner and at last its mode were set. -/
  | set {i : ι} (temp : TEMP_STEM <+: e.2) (mode : Moded (spec i) (own i trace) n (t.kernel.files n).mode) (final : Final res t n)
  /-- Empty, and never given another name, if no operand that is replaced is named like a temporary file. -/
  | probe (temp : TEMP_STEM <+: e.2) (empty : (t.kernel.files n).data = []) (final : Final res t n)
      (sole : Unveiled res paths spec isTemp → Born res trace e n ∧ ∀ e', t.kernel.names.get e' = some n → e' = e)
  /-- Empty, to hold the place of an operand's file. -/
  | holder {i : ι} {p : Path} (creating : (spec i).force_mode = false) (member : p ∈ paths i) (here : e = entry res p)
      (empty : (t.kernel.files n).data = []) (mode : Private (t.kernel.files n).mode) (final : Final res t n)

theorem ready_tended (ready : Ready fuel paths spec s) (sound : Sound res s.kernel) (alone : Alone spec) (runs : Runs (exec res) s trace t) :
    ∃ g, Booked paths spec (fun evs k _ g => Tended res paths spec s.kernel.next (Initial res s.kernel) evs k g) trace t g := by
  have start : Tended res paths spec s.kernel.next (Initial res s.kernel) [] s.kernel fun _ => {} :=
    ⟨guarded_start sound,by simp [Born],by simp [Born],by simp [Born]⟩
  simpa using (ready.booked start).runs runs
    (fun tended inv _ answered move => ⟨guarded_call tended.1 alone (fun i => (inv i).shape) sound.dirs move answered,
      firsts_call tended.2 (tended.1.filed _ veil_temp) move answered⟩)
    fun tended _ _ step => ⟨guarded_mem tended.1 step,firsts_mem tended.2 step⟩

/-- No unfinished file is ever seen, whatever the operands are called and whatever the calls answer. At any point, also
    where the run is stopped dead, a new file is under any of its names as `Visible` says; and its names are those of
    operands, of temporary files beside them and of backups of them. A file whose content or owner may still change is its
    owner's alone. -/
theorem unfinished_unseen (alone : Alone spec) (sound : Sound res s.kernel) (ready : Ready fuel paths spec s)
    (runs : Runs (exec res) s trace t) (there : t.kernel.names.get e = some n) (new : s.kernel.next ≤ n) :
    Visible res paths spec trace t e n ∧ Site res paths spec e ∧ (¬Final res t n → Private (t.kernel.files n).mode) := by
  obtain ⟨g,booked⟩ := ready_tended ready sound alone runs
  obtain ⟨guarded,firsts⟩ := booked.more
  have filed := guarded.filed _ veil_temp
  have stays : Frozen g n → Final res t n := fun frozen trace' u runs' =>
    Guarded.stays alone sound.dirs new (filed.names e n there) frozen { booked with more := guarded } runs'
  -- A file that a run may still change.
  have secret : ¬Frozen g n → Private (t.kernel.files n).mode := by
    intro unfrozen
    simp only [Frozen,not_forall] at unfrozen
    obtain ⟨i,j,w,found,rfl,unsealed⟩ := unfrozen
    exact filed.secret i j w found (filed.private_ found unsealed there)
  refine ⟨?_,filed.sites e n there new,fun unfinal => secret fun frozen => unfinal (stays frozen)⟩
  by_cases complete : Complete g n
  · obtain ⟨i,member⟩ := complete
    obtain ⟨_,_,frozen,synced⟩ := filed.finished i n member
    exact .finished ((booked.evident i).finished n member) ((filed.settled i n member).imp ((booked.evident i).moded _) id) synced
      (stays frozen)
  by_cases temp : TEMP_STEM <+: e.2
  · by_cases mode : Private (t.kernel.files n).mode
    · exact .secret temp mode
    · have frozen : Frozen g n := by
        by_contra unfrozen
        exact mode (secret unfrozen)
      by_cases moded : ∃ i, (n,(t.kernel.files n).mode) ∈ (g i).moded
      · obtain ⟨i,member⟩ := moded
        exact .set temp ((booked.evident i).moded _ member) (stays frozen)
      · refine .probe temp (((filed.fit e n there new frozen).resolve_left mode).resolve_right moded) (stays frozen) fun plain => ?_
        have unfinished : ¬Good spec t.kernel g n := by
          rintro (done | placeholder)
          · exact complete done
          · exact mode placeholder.mode
        have given : ∀ {e'}, t.kernel.names.get e' = some n → Born res trace e' n := fun at_ =>
          (((guarded.filed isTemp (veil_plain plain)).shown _ n at_ new).resolve_right unfinished).made plain
        exact ⟨given there,fun e' at_ => firsts.once e' e n (given at_) (given there)⟩
  · have placeholder := ((filed.shown e n there new).resolve_left fun behind => temp behind.veiled).resolve_left complete
    obtain ⟨i,creating⟩ := placeholder.creating
    cases filed.sites e n there new with
    | operand member here =>
      rename_i i' p
      have creating' : (spec i').force_mode = false := by
        by_contra replacing
        have forced : (spec i').force_mode = true := by simpa using replacing
        simp [alone i' forced i,forced] at creating
      exact .holder creating' member here placeholder.data placeholder.mode (stays placeholder.frozen)
    | backup member forced name here =>
      rename_i i' p b
      simp [alone i' forced i,forced] at creating
    | temp member name here => exact absurd (temp_begins (temp_entry res name)) (here ▸ temp)

omit [DecidableEq ι] in
theorem sample_sound : Sound (fun _ => 0) sampleKernel where
  names e n there := by
    simp only [sampleKernel,Names.get_cons,Names.get_nil] at there
    split at there
    · exact Option.some.inj there ▸ by decide
    · simp at there
  dirs _ := by decide

theorem unfinished_unseen_sample : ∃ trace t, Runs (exec fun _ => 0) (sampleStart "b".toList { force_mode := true }) trace t ∧
    t.kernel.names.get (0,"b".toList) = some 2 ∧
    Visible (fun _ => 0) (fun _ => ["b".toList]) (fun _ => { force_mode := true }) trace t (0,"b".toList) 2 := by
  obtain ⟨trace,runs⟩ := sample_runs "b".toList { force_mode := true } (sampleForced 9)
  have there : (sampleEnd "b".toList { force_mode := true } (sampleForced 9)).kernel.names.get (0,"b".toList) = some 2 := by decide +kernel
  exact ⟨trace,_,runs,there,
    (unfinished_unseen (fun _ _ _ => rfl) sample_sound (sample_ready _ _) runs there (Nat.le_refl 2)).1⟩

/-- An operand that is named like a temporary file. -/
def tempOperand : Path := ".newfile.AAAAAA".toList

def backedSpec : FileSpec := { size := 5, size_given := true, force_mode := true, backup_given := true, backup_control := "simple" }

/-- There are no files without names, and the probe gets the name of the operand and cannot be removed. -/
def probedChoices : List Choice :=
  List.replicate 4 .done ++ [.fail .EOPNOTSUPP,.done,.done,.ok (List.replicate 6 0),.ok [0o644],.done,.done,.fail .EACCES,.done,
    .ok (List.replicate 6 1)] ++ List.replicate 11 .done

/-- The probe is left under the name of the operand and is backed up there: it has two names, though everybody may read
    it and its mode was never set. -/
theorem probe_backed_up : ∃ trace t, Runs (exec fun _ => 0) (sampleStart tempOperand backedSpec) trace t ∧
    (sampleStart tempOperand backedSpec).kernel.next ≤ 2 ∧ t.kernel.names.get (0,tempOperand) = some 2 ∧
    t.kernel.names.get (0,tempOperand ++ "~".toList) = some 2 ∧ (t.kernel.files 2).data = [] ∧ (t.kernel.files 2).mode = 0o644 ∧
    ∀ x ∈ trace, ∀ fd mode, x.2.call = .fchmod fd mode → fd.ino ≠ 2 := by
  have run := Runs.of_run (played_run (step fun _ => 0) (batch_run 9 [tempOperand] backedSpec) sampleKernel {} probedChoices)
  refine ⟨_,_,run,by decide,by decide +kernel,by decide +kernel,by decide +kernel,by decide +kernel,?_⟩
  have others : ((played (step fun _ => 0) (batch_run 9 [tempOperand] backedSpec) sampleKernel {} probedChoices).all fun x =>
      match x.call with
      | .fchmod fd _ => fd.ino ≠ 2
      | _ => true) = true := by decide +kernel
  intro x member fd mode same
  obtain ⟨y,played,rfl⟩ := List.mem_map.mp member
  have other := List.all_eq_true.mp others y played
  rw [same] at other
  simpa using other

/-- No run writes to a file that was there before, whatever becomes of its names: it has the content, the owner and
    the mode that it had. -/
theorem old_files (alone : Alone spec) (sound : Sound res s.kernel) (ready : Ready fuel paths spec s)
    (runs : Runs (exec res) s trace t) (used : n < s.kernel.next) (plain : ∀ q, n ≠ res q) :
    Since (s.kernel.files n) (t.kernel.files n) := by
  obtain ⟨g,booked⟩ := ready_guarded ready sound alone runs
  exact ((booked.more.filed _ veil_temp).kept n _ ⟨used,plain,rfl⟩).2.2.2

theorem old_files_sample : ∃ trace t, Runs (exec fun _ => 0) (sampleStart "b".toList { force_mode := true }) trace t ∧
    t.kernel.names.get (0,"b".toList) = some 2 ∧ Since (sampleKernel.files 1) (t.kernel.files 1) := by
  obtain ⟨trace,runs⟩ := sample_runs "b".toList { force_mode := true } (sampleForced 9)
  have there : (sampleEnd "b".toList { force_mode := true } (sampleForced 9)).kernel.names.get (0,"b".toList) = some 2 := by decide +kernel
  exact ⟨trace,_,runs,there,old_files (fun _ _ _ => rfl) sample_sound (sample_ready _ _) runs (by decide) (by simp)⟩

end Newfile.Veiled
