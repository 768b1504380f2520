import Mathlib.Data.Finset.Sort
import OSChallenges.Library.Runs

/-!
# Taking the least element

Steps that take the least element out of a finite set each, as long as there is one, take the elements
in increasing order and each of them once.
-/

namespace Least

open Runs

universe u v w

variable {σ : Type u} {α : Type v} {β : Type w} [LinearOrder α]

/-- A step returns the least element and takes it out; without elements it returns `stop`. -/
def Takes (elements : σ → Finset α) (result : α → β) (stop : β) (s : σ) (r : β) (s' : σ) : Prop :=
  (elements s = ∅ ∧ r = stop ∧ elements s' = ∅) ∨
    ∃ a, IsLeast (elements s : Set α) a ∧ r = result a ∧ elements s' = (elements s).erase a

variable {elements : σ → Finset α} {result : α → β} {stop r : β} {s : σ} {run : List (β × σ)}

theorem sort_eq_cons {A : Finset α} {a : α} (h : IsLeast (A : Set α) a) :
    A.sort = a :: (A.erase a).sort := by
  have hrest : ∀ b ∈ A.erase a, a ≤ b := fun b hb => h.2 (Finset.mem_of_mem_erase hb)
  calc A.sort = (insert a (A.erase a)).sort := by rw [Finset.insert_erase h.1]
    _ = a :: (A.erase a).sort := Finset.sort_insert _ hrest (Finset.notMem_erase a A)

theorem result_eq (h : EachStep (Takes elements result stop) s run) {i : Nat}
    (hi : (run.map Prod.fst)[i]? = some r) : r = ((elements s).sort.map result).getD i stop := by
  induction run generalizing s i with
  | nil => cases hi
  | cons entry rest ih =>
    obtain ⟨hstep, hrest⟩ := h
    obtain ⟨hempty, hstop, hempty'⟩ | ⟨a, hleast, hresult, hrest'⟩ := hstep
    · rw [hempty, Finset.sort_empty]
      cases i with
      | zero => exact (Option.some.inj hi).symm.trans hstop
      | succ i =>
        have hnext := ih hrest hi
        rwa [hempty', Finset.sort_empty] at hnext
    · rw [sort_eq_cons hleast]
      cases i with
      | zero => exact (Option.some.inj hi).symm.trans hresult
      | succ i =>
        have hnext := ih hrest hi
        rwa [hrest'] at hnext

end Least
