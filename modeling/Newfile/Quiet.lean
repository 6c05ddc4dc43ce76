import Newfile.Books
import Newfile.Effects
import Newfile.Walks

/-!
The parts of the program that open and close nothing and leave the tables alone:
the calls on names, the pending names, and the fills of one file.
-/
namespace Newfile.Quiet
open Newfile.Program Newfile.Posix Newfile.Process Newfile.Pending Newfile.Fastio Newfile.Template Newfile.Flush
open Newfile.Place Newfile.Backup Newfile.Batch Newfile.Calls Newfile.Effects Newfile.Books Newfile.Walks

/-- A program of plain calls that changes no file before `own`. -/
abbrev Calm {α : Type} (own : Ino) (p : P α) : Prop := uses (Plain own) Still p

variable {own : Ino}

theorem still_tables {m m' : Memory} (same : Tables m m') : Still m m' :=
  ⟨same.dirs,same.dirs_max,same.failures,same.probes,same.backups,by simp only [reports,same.told]⟩

theorem handles_calm : Handles fun _ p => Calm own p := handles_uses (fun {c} _ => by cases c <;> trivial) still_tables

/-- Only a report is a report. -/
theorem tell_calm {t : Told} (other : ∀ path fail leftover, t ≠ .report path fail leftover) : Calm own (tell t) := by
  refine uses_modify fun m => ⟨rfl,rfl,rfl,rfl,rfl,?_⟩
  cases t with
  | report path fail leftover => exact absurd rfl (other path fail leftover)
  | _ => simp [reports]

/-! ## Fills -/

theorem idles (own : Ino) : Idles (Plain own) Still where
  idle {c} free := by cases c <;> trivial
  same := Still.refl
  limit _ _ := ⟨rfl,rfl,rfl,rfl,rfl,rfl⟩

theorem plain_altered {fd : Fd} (mine : own ≤ fd.ino) {c : Call} (alters : altered c = some fd) : Plain own c := by
  cases c <;> first | trivial | (cases alters; exact mine)

theorem fill_one_calm {fd : Fd} (mine : own ≤ fd.ino) (fuel : Nat) (spec : FileSpec) : Calm own (fill_one fuel fd spec) :=
  fill_one_uses (idles own) (plain_altered mine) fuel spec

/-! ## Names -/

theorem sync_one_calm (fd : Fd) (dir : Bool) (fuel : Nat) : Calm own (sync_one fuel fd dir) :=
  handles_calm.sync_one uses_spin (uses_sys trivial) dir fuel

theorem place_temp_link_calm (fd : Fd) (target : Path) (slot : Nat) : Calm own (place_temp_link fd target slot) :=
  handles_calm.place_temp_link slot (uses_sys trivial) fun _ => uses_sys trivial

theorem backup_simple_calm (filepath : Path) (st : Stat) : Calm own (backup_simple filepath st) :=
  handles_calm.backup_simple st (uses_sys trivial) (handles_calm.place_temp_alias _ fun _ _ => uses_sys trivial)
    fun _ _ => uses_sys trivial

/-! ## Operands -/

theorem holdSpare_calm (held : Bool) : Calm own (holdSpare held) :=
  uses_ite (uses_pure _) (uses_bind handles_calm.pending_hold fun _ => uses_modify fun _ => ⟨rfl,rfl,rfl,rfl,rfl,rfl⟩)

theorem releaseSpare_calm (held : Bool) : Calm own (releaseSpare held) :=
  uses_ite (uses_pure _) (uses_bind (uses_modify fun _ => ⟨rfl,rfl,rfl,rfl,rfl,rfl⟩) fun _ =>
    uses_bind (uses_get Still.refl) fun _ => handles_calm.release _)

theorem dir_unflushed_calm (path : Path) : Calm own (dir_unflushed path) :=
  uses_try (handles_calm.path_dir path) (fun _ => uses_pure _) fun _ => handles_calm.flush_set_failed (uses_sys trivial)

end Newfile.Quiet
