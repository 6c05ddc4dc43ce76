import Mathlib.Data.List.Induction
import Mathlib.Logic.Function.Basic

/-!
A map that is written in groups. A group takes effect at once, but is certain only
after a flush of the part of the map that it is about; a crash keeps what is certain,
and of the groups since any in their order (`Survives`).
-/
namespace Newfile.Journals
open Function

variable {κ ν : Type} [DecidableEq κ]

/-- Assignments that take effect together. -/
abbrev Group (κ ν : Type) := List (κ × Option ν)

def write (s : κ → Option ν) (G : Group κ ν) : κ → Option ν := G.foldl (fun s x => update s x.1 x.2) s

def writes (s : κ → Option ν) (Gs : List (Group κ ν)) : κ → Option ν := Gs.foldl write s

/-- The map, what is certain of it, and the groups that are not, the oldest first. -/
structure Disk (κ ν : Type) where
  now : κ → Option ν
  safe : κ → Option ν
  journal : List (Group κ ν)

/-- What a crash may leave. -/
def Survives (d : Disk κ ν) (s : κ → Option ν) : Prop := ∃ kept, kept.Sublist d.journal ∧ s = writes d.safe kept

/-- The value was given to the key, and may come back. -/
def Once (d : Disk κ ν) (e : κ) (v : Option ν) : Prop := d.safe e = v ∨ ∃ G ∈ d.journal, (e,v) ∈ G

/-- No crash takes the value from the key. -/
structure Firm (d : Disk κ ν) (e : κ) (v : Option ν) : Prop where
  safe : d.safe e = v
  journal : ∀ G ∈ d.journal, ∀ v', (e,v') ∈ G → v' = v

/-- The map stays, a group is written, or a part is flushed. -/
inductive Step (d d' : Disk κ ν) : Prop
  | still (safe : d'.safe = d.safe) (journal : d'.journal = d.journal)
  | wrote {G} (safe : d'.safe = d.safe) (journal : d'.journal = d.journal ++ [G]) (now : ∀ x ∈ G, d'.now x.1 = x.2)
  | flushed {part : Group κ ν → Bool} (safe : d'.safe = writes d.safe (d.journal.filter part))
      (journal : d'.journal = d.journal.filter fun G => !part G)

variable {d d' : Disk κ ν} {s : κ → Option ν} {e : κ} {v : Option ν}

theorem write_once (s : κ → Option ν) (G : Group κ ν) (e : κ) : write s G e = s e ∨ (e,write s G e) ∈ G := by
  induction G using List.reverseRecOn with
  | nil => exact .inl rfl
  | append_singleton G x ih =>
    have last : write s (G ++ [x]) = update (write s G) x.1 x.2 := by simp [write]
    rw [last]
    by_cases here : e = x.1
    · subst here
      rw [update_self]
      exact .inr (by simp)
    · rw [update_of_ne here]
      exact ih.imp id (List.mem_append_left _)

theorem writes_once (s : κ → Option ν) (Gs : List (Group κ ν)) (e : κ) :
    writes s Gs e = s e ∨ ∃ G ∈ Gs, (e,writes s Gs e) ∈ G := by
  induction Gs using List.reverseRecOn with
  | nil => exact .inl rfl
  | append_singleton Gs G ih =>
    have last : writes s (Gs ++ [G]) = write (writes s Gs) G := by simp [writes]
    rw [last]
    rcases write_once (writes s Gs) G e with same | here
    · rw [same]
      rcases ih with before | ⟨G',member,there⟩
      · exact .inl before
      · exact .inr ⟨G',List.mem_append_left _ member,there⟩
    · exact .inr ⟨G,by simp,here⟩

theorem Survives.once (survives : Survives d s) (e : κ) : Once d e (s e) := by
  obtain ⟨kept,sub,rfl⟩ := survives
  rcases writes_once d.safe kept e with same | ⟨G,member,there⟩
  · exact .inl same.symm
  · exact .inr ⟨G,sub.subset member,there⟩

omit [DecidableEq κ] in
theorem Firm.once {v' : Option ν} (firm : Firm d e v) (once : Once d e v') : v' = v := by
  rcases once with safe | ⟨G,member,there⟩
  · exact safe.symm.trans firm.safe
  · exact firm.journal G member v' there

/-- What may come back after a step might have before, or is there now. -/
theorem Step.once (step : Step d d') (once : Once d' e v) : Once d e v ∨ d'.now e = v := by
  cases step with
  | still safe journal => exact .inl (by rwa [Once,← safe,← journal])
  | wrote safe journal now =>
    rcases once with same | ⟨G',member,there⟩
    · exact .inl (.inl (safe ▸ same))
    · rw [journal] at member
      rcases List.mem_append.mp member with before | here
      · exact .inl (.inr ⟨G',before,there⟩)
      · obtain rfl := List.mem_singleton.mp here
        exact .inr (now _ there)
  | flushed safe journal =>
    rcases once with same | ⟨G,member,there⟩
    · rw [safe] at same
      rcases writes_once d.safe (d.journal.filter _) e with before | ⟨G,member,there⟩
      · exact .inl (.inl (before.symm.trans same))
      · rw [same] at there
        exact .inl (.inr ⟨G,(List.mem_filter.mp member).1,there⟩)
    · rw [journal] at member
      exact .inl (.inr ⟨G,(List.mem_filter.mp member).1,there⟩)

end Newfile.Journals
