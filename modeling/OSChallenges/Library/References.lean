import Mathlib.Algebra.Order.BigOperators.Group.Finset
import Mathlib.Data.List.NodupEquivFin

/-!
# Counting references

Numbered tables of pointers. The number of pointers to an object changes by what one table gains and
loses, and an object with at most one pointer is at one place.
-/

namespace References

variable {α : Type*} [DecidableEq α] {n index : Nat} {tables tables' : Nat → List α} {a : α}

/-- How many entries of the first `n` tables point to an object. -/
def pointers (n : Nat) (tables : Nat → List α) (a : α) : Nat :=
  ∑ i ∈ Finset.range n, (tables i).count a

theorem pointers_change (hindex : index < n) (hsame : ∀ i, i ≠ index → tables' i = tables i)
    (a : α) : pointers n tables' a + (tables index).count a =
      pointers n tables a + (tables' index).count a := by
  have hmem : index ∈ Finset.range n := Finset.mem_range.mpr hindex
  have hothers : ∑ i ∈ (Finset.range n).erase index, (tables' i).count a =
      ∑ i ∈ (Finset.range n).erase index, (tables i).count a := by
    apply Finset.sum_congr rfl
    intro i hi
    rw [hsame i (Finset.ne_of_mem_erase hi)]
  unfold pointers
  rw [← Finset.add_sum_erase _ _ hmem, ← Finset.add_sum_erase _ _ hmem, hothers]
  omega

theorem count_le_pointers (hindex : index < n) : (tables index).count a ≤ pointers n tables a :=
  Finset.single_le_sum (f := fun i => (tables i).count a) (fun _ _ => Nat.zero_le _)
    (Finset.mem_range.mpr hindex)

theorem pointers_set {k : Nat} {x old : α} (hindex : index < n)
    (hsame : ∀ i, i ≠ index → tables' i = tables i)
    (hset : tables' index = (tables index).set k x) (hk : (tables index)[k]? = some old) (a : α) :
    pointers n tables' a + (if old = a then 1 else 0) =
      pointers n tables a + (if x = a then 1 else 0) := by
  obtain ⟨hlt, hold⟩ := List.getElem?_eq_some_iff.mp hk
  have hchange := pointers_change hindex hsame a
  rw [hset, List.count_set hlt, hold] at hchange
  have hmem : old = a → 0 < (tables index).count a := by
    intro heq
    rw [← heq]
    exact List.count_pos_iff.mpr (List.mem_of_getElem? hk)
  simp only [beq_iff_eq] at hchange
  split at hchange
  · have hpos := hmem ‹_›
    rw [if_pos ‹_›]
    omega
  · rw [if_neg ‹_›]
    omega

theorem pointers_eq_zero (h : ∀ i, a ∉ tables i) : pointers n tables a = 0 := by
  apply Finset.sum_eq_zero
  intro i _
  exact List.count_eq_zero.mpr (h i)

theorem pointers_le (h : ∀ i, (tables' i).count a ≤ (tables i).count a) :
    pointers n tables' a ≤ pointers n tables a :=
  Finset.sum_le_sum fun i _ => h i

theorem add_le_pointers {i j : Nat} (hi : i < n) (hj : j < n) (hij : i ≠ j) :
    (tables i).count a + (tables j).count a ≤ pointers n tables a := by
  unfold pointers
  rw [← Finset.add_sum_erase _ _ (Finset.mem_range.mpr hi)]
  apply Nat.add_le_add_left
  exact Finset.single_le_sum (f := fun i => (tables i).count a) (fun _ _ => Nat.zero_le _)
    (Finset.mem_erase.mpr ⟨Ne.symm hij, Finset.mem_range.mpr hj⟩)

theorem position_unique_of_count {l : List α} {x y : Nat} (h : l.count a ≤ 1) (hx : l[x]? = some a)
    (hy : l[y]? = some a) : x = y := by
  by_contra hne
  obtain ⟨hxlt, hxa⟩ := List.getElem?_eq_some_iff.mp hx
  obtain ⟨hylt, hya⟩ := List.getElem?_eq_some_iff.mp hy
  have hdup : l.Duplicate a := by
    rw [List.duplicate_iff_exists_distinct_get]
    obtain hlt | hlt := Nat.lt_or_gt_of_ne hne
    · exact ⟨⟨x, hxlt⟩, ⟨y, hylt⟩, hlt, hxa.symm, hya.symm⟩
    · exact ⟨⟨y, hylt⟩, ⟨x, hxlt⟩, hlt, hya.symm, hxa.symm⟩
  have htwo := List.duplicate_iff_two_le_count.mp hdup
  omega

theorem position_unique {i j x y : Nat} (h : pointers n tables a ≤ 1) (hi : i < n) (hj : j < n)
    (hx : (tables i)[x]? = some a) (hy : (tables j)[y]? = some a) : i = j ∧ x = y := by
  have hij : i = j := by
    by_contra hne
    have hsum : (tables i).count a + (tables j).count a ≤ pointers n tables a :=
      add_le_pointers hi hj hne
    have hone := List.count_pos_iff.mpr (List.mem_of_getElem? hx)
    have hother := List.count_pos_iff.mpr (List.mem_of_getElem? hy)
    omega
  subst hij
  exact ⟨rfl, position_unique_of_count ((count_le_pointers hi).trans h) hx hy⟩

end References
