import Mathlib.Data.Finset.Card
import Mathlib.Data.List.Iterate
import Mathlib.Data.List.Perm.Subperm
import Mathlib.Data.Nat.Find

/-!
# Taking turns

A function that goes from each element of a finite set to another one takes turns among them if it comes
from every element to every other. Then any stretch of selections as long as the set has elements selects
each of them once.
-/

namespace RoundRobin

universe u

variable {α : Type u} {R : Finset α} {next : α → α} {a x y : α}

theorem iterate_mem (hmem : ∀ x ∈ R, next x ∈ R) (ha : a ∈ R) (k : Nat) : next^[k] a ∈ R := by
  induction k generalizing a with
  | zero => exact ha
  | succ k ih => exact ih (hmem a ha)

theorem reaches_of_closer (dist : α → Nat) (hmem : ∀ x ∈ R, next x ∈ R)
    (hcloser : ∀ x ∈ R, x ≠ y → dist (next x) < dist x) (ha : a ∈ R) : ∃ k, next^[k] a = y := by
  induction h : dist a using Nat.strong_induction_on generalizing a with
  | _ d ih =>
    by_cases hay : a = y
    · exact ⟨0, hay⟩
    · obtain ⟨k, hk⟩ := ih _ (h ▸ hcloser a ha hay) (hmem a ha) rfl
      exact ⟨k + 1, hk⟩

/-- What is reached at all is reached before as many steps as there are elements. -/
theorem mem_iterate_of_reaches (hmem : ∀ x ∈ R, next x ∈ R) (ha : a ∈ R)
    (hreach : ∃ k, next^[k] a = y) : y ∈ List.iterate next a R.card := by
  classical
  have hfind : next^[Nat.find hreach] a = y := Nat.find_spec hreach
  -- Two equal elements on the way would be a detour.
  have hapart : ∀ i j, i < j → j ≤ Nat.find hreach → next^[i] a ≠ next^[j] a := by
    intro i j hij hj heq
    have hshort : next^[Nat.find hreach - j + i] a = y := by
      rw [Function.iterate_add_apply, heq, ← Function.iterate_add_apply, Nat.sub_add_cancel hj, hfind]
    exact Nat.find_min hreach (by omega) hshort
  have hcard : Nat.find hreach + 1 ≤ R.card := by
    rw [← Finset.card_range (Nat.find hreach + 1)]
    refine Finset.card_le_card_of_injOn (fun i => next^[i] a) (fun i _ => iterate_mem hmem ha i) ?_
    intro i hi j hj heq
    have hi' := Finset.mem_range.mp hi
    have hj' := Finset.mem_range.mp hj
    obtain hlt | heq' | hgt := Nat.lt_trichotomy i j
    · exact absurd heq (hapart i j hlt (by omega))
    · exact heq'
    · exact absurd heq.symm (hapart j i hgt (by omega))
  exact List.mem_iterate.mpr ⟨Nat.find hreach, hcard, hfind.symm⟩

theorem perm_iterate (hmem : ∀ x ∈ R, next x ∈ R) (hreach : ∀ x ∈ R, ∀ y ∈ R, ∃ k, next^[k] x = y)
    (ha : a ∈ R) : (List.iterate next a R.card).Perm R.toList := by
  have hsub : R.toList ⊆ List.iterate next a R.card := fun y hy =>
    mem_iterate_of_reaches hmem ha (hreach a ha y (Finset.mem_toList.mp hy))
  have hlen : (List.iterate next a R.card).length ≤ R.toList.length := by
    rw [List.length_iterate, Finset.length_toList]
  exact ((R.nodup_toList.subperm hsub).perm_of_length_le hlen).symm

/-- Each element is selected from the one before. -/
def Selects (next : α → α) : α → List α → Prop
  | _, [] => True
  | x, t :: rest => t = next x ∧ Selects next t rest

theorem Selects.eq_iterate {l : List α} (h : Selects next x l) :
    l = List.iterate next (next x) l.length := by
  induction l generalizing x with
  | nil => rfl
  | cons t rest ih =>
    obtain ⟨rfl, hrest⟩ := h
    rw [List.length_cons, List.iterate, ← ih hrest]

theorem Selects.left {l l' : List α} (h : Selects next x (l ++ l')) : Selects next x l := by
  induction l generalizing x with
  | nil => trivial
  | cons t rest ih => exact ⟨h.1, ih h.2⟩

/-- Every stretch of selections of this length selects each element once. -/
theorem Selects.perm {before window after : List α}
    (h : Selects next x (before ++ window ++ after)) (hlen : window.length = R.card)
    (hnext : ∀ x, next x ∈ R) (hreach : ∀ x ∈ R, ∀ y ∈ R, ∃ k, next^[k] x = y) :
    window.Perm R.toList := by
  induction before generalizing x with
  | nil =>
    have hwindow : Selects next x window := Selects.left h
    rw [hwindow.eq_iterate, hlen]
    exact perm_iterate (fun x _ => hnext x) hreach (hnext x)
  | cons t rest ih => exact ih h.2

end RoundRobin
