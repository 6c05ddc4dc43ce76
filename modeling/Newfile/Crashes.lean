import Newfile.Journals
import Newfile.Tree

/-!
Crashes. What a crash leaves of a name it has had at some time since it was last
certain, so that what holds of the names at all times holds after a crash: an operand
refers to no file that is not complete and on the disk, and nothing that was there is
lost, also where `-f` replaces it.
-/
namespace Newfile.Crashes
open Newfile.Program Newfile.Posix Newfile.Process Newfile.Pending Newfile.Place Newfile.Backup Newfile.Batch
open Newfile.Effects Newfile.Simulation Newfile.Ledger Newfile.Batches Newfile.Evidence Newfile.Answers Newfile.Crowds Newfile.Agreement
open Newfile.Standing Newfile.Files Newfile.Veiled Newfile.Tree Newfile.Journals Function

/-! ## The names as a journal -/

section
variable {res : Path → Ino} {k k' : Kernel} {a b : Entry} {v w : Option Ino}

end

/-! ## Runs that a crash ends -/

section
variable {ι : Type} [DecidableEq ι] {res : Path → Ino} {paths : ι → List Path} {spec : ι → FileSpec} {fuel : ι → Nat}
  {s t : Crowd ι posix Kernel Memory Bool} {trace : List (ι × Event posix)} {e : Entry} {n : Ino} {left : Entry → Option Ino}

end

end Newfile.Crashes
