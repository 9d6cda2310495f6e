import Mathlib.Logic.Relation

/-!
# Runs that end

A step gives the next state, or none where nothing is left to do.  The run from
a state ends in a state without a step.  It does end if every step makes the
state smaller, and what every step keeps holds where it ends.
-/

namespace Scriptlet

/-- One step after the other leads from the one state to the other, where none is left. -/
def HaltsAt {State : Type} (next? : State → Option State) (start last : State) : Prop :=
  Relation.ReflTransGen (fun s t => next? s = some t) start last ∧ next? last = none

variable {State : Type} {next? : State → Option State} {start last : State}

theorem HaltsAt.head {next : State} (hstep : next? start = some next)
    (h : HaltsAt next? next last) : HaltsAt next? start last :=
  ⟨.head hstep h.1, h.2⟩

theorem exists_haltsAt (size : State → Nat) (hsize : ∀ s t, next? s = some t → size t < size s)
    (start : State) : ∃ last, HaltsAt next? start last := by
  induction hstart : size start using Nat.strongRecOn generalizing start with
  | _ n ih =>
      cases hnext : next? start with
      | none => exact ⟨start, .refl, hnext⟩
      | some t =>
          obtain ⟨last, hlast⟩ := ih (size t) (hstart ▸ hsize start t hnext) t rfl
          exact ⟨last, hlast.head hnext⟩

theorem HaltsAt.holds_last (h : HaltsAt next? start last) {P : State → Prop} (hstart : P start)
    (hstep : ∀ s t, P s → next? s = some t → P t) : P last := by
  obtain ⟨hrun, -⟩ := h
  induction hrun with
  | refl => exact hstart
  | tail _ hnext ih => exact hstep _ _ ih hnext

end Scriptlet
