import OSChallenges.FileSystem.Bitmap
import OSChallenges.Library.Least
import OSChallenges.Library.Outcomes
import Mathlib.Data.Set.Basic

/-!
# The bitmap as a finite set

`findUsedBlocksBit` and `writeUsedBlocksBit` find the bit of a position each in its own way, the first
with a flag that is an `int`. They agree on every position, so the bitmap is the set of its positions,
and searching and marking takes the clear ones in order.
-/

namespace OSChallenges.FileSystem

open Least Outcomes Runs

/-- What `findUsedBlocksBit` computes for the position `i`: the flag is an `int` that is converted to
`unsigned` for the mask, and what is left of the word becomes a `bool`. -/
def testUsedBlocksBit (bitmap : Bitmap) (i : Nat) : Except Fault Bool := do
  let word ← index 256 (i / 32 : Nat)
  let flag : Int := (1#32 <<< (i % 32)).toInt
  return bitmap word &&& BitVec.ofInt 32 flag ≠ 0

/-- The loop of `findUsedBlocksBit` with these tests, from position `i` on. -/
def searchUsedBlocksBit (bitmap : Bitmap) : Nat → Nat → Except Fault Int
  | 0, _ => .ok (-1)
  | n + 1, i => do
    if ← testUsedBlocksBit bitmap i then searchUsedBlocksBit bitmap n (i + 1) else return i

/-- A position is searched for and marked, as `fs_create` does it. -/
def markNext (bitmap : Bitmap) : Except Fault (Int × Bitmap) := do
  let position ← searchUsedBlocksBit bitmap diskBlocks 0
  let bitmap ← writeUsedBlocksBit bitmap position true
  return (position, bitmap)

def Marks (bitmap : Bitmap) (position : Int) (bitmap' : Bitmap) : Prop :=
  markNext bitmap = .ok (position, bitmap')

def clearPositions (bitmap : Bitmap) : Finset Nat :=
  (Finset.range diskBlocks).filter fun q => taken bitmap q = false

variable {bitmap bitmap' : Bitmap} {i n p q : Nat} {position : Int}

/-! ### The tests -/

/-- A word has anything in common with a flag exactly if the bit of the flag is set in it. -/
theorem and_flag_ne_zero_iff (word : BitVec 32) {bit : Nat} (hbit : bit < 32) :
    word &&& (1#32 <<< bit) ≠ 0#32 ↔ word.getLsbD bit = true := by
  have hmasked : ∀ k, (word &&& (1#32 <<< bit)).getLsbD k = (word.getLsbD k && decide (k = bit)) := by
    intro k
    rw [BitVec.getLsbD_and, getLsbD_flag hbit]
  constructor
  · intro hne
    by_contra hclear
    apply hne
    apply BitVec.eq_of_getLsbD_eq
    intro k hk
    rw [hmasked, BitVec.getLsbD_zero]
    by_cases hk : k = bit
    · rw [hk, Bool.eq_false_iff.mpr hclear, Bool.false_and]
    · rw [decide_eq_false hk, Bool.and_false]
  · intro hset hzero
    have hbits := hmasked bit
    rw [hzero, hset, BitVec.getLsbD_zero, decide_eq_true rfl] at hbits
    cases hbits

/-- It does not matter that the flag can be negative. -/
theorem testUsedBlocksBit_eq (hi : i < diskBlocks) :
    testUsedBlocksBit bitmap i = .ok (taken bitmap i) := by
  have hword : i / 32 < 256 := by
    unfold diskBlocks at hi
    omega
  rw [testUsedBlocksBit, index_of_lt hword, taken, dif_pos hword]
  show Except.ok (decide (bitmap ⟨i / 32, hword⟩ &&&
    BitVec.ofInt 32 (1#32 <<< (i % 32)).toInt ≠ 0#32)) = _
  have hiff := and_flag_ne_zero_iff (bitmap ⟨i / 32, hword⟩) (Nat.mod_lt i (by decide))
  rw [BitVec.ofInt_toInt]
  exact congrArg Except.ok (Bool.eq_iff_iff.mpr (decide_eq_true_iff.trans hiff))

theorem testUsedBlocksBit_iff {set : Bool} (hi : i < diskBlocks) :
    testUsedBlocksBit bitmap i = .ok set ↔ taken bitmap i = set := by
  rw [testUsedBlocksBit_eq hi]
  exact ⟨Except.ok.inj, congrArg Except.ok⟩

theorem searchUsedBlocksBit_eq (h : i + n ≤ diskBlocks) :
    searchUsedBlocksBit bitmap n i = .ok (scanBitmap bitmap n i) := by
  induction n generalizing i with
  | zero => rfl
  | succ n ih =>
    rw [searchUsedBlocksBit, testUsedBlocksBit_eq (by omega), ok_bind, scanBitmap]
    split
    · exact ih (by omega)
    · rfl

/-- The search that the other calls of the model make. -/
theorem search_eq (bitmap : Bitmap) :
    searchUsedBlocksBit bitmap diskBlocks 0 = .ok (findUsedBlocksBit bitmap) :=
  searchUsedBlocksBit_eq (Nat.le_of_eq (Nat.zero_add _))

/-! ### The set -/

theorem mem_clearPositions :
    q ∈ clearPositions bitmap ↔ q < diskBlocks ∧ testUsedBlocksBit bitmap q = .ok false := by
  rw [clearPositions, Finset.mem_filter, Finset.mem_range]
  exact and_congr_right fun hq => (testUsedBlocksBit_iff hq).symm

theorem write_spec (bitmap : Bitmap) (hp : p < diskBlocks) (set : Bool) :
    ∃ bitmap', writeUsedBlocksBit bitmap p set = .ok bitmap' ∧ ∀ q, q < diskBlocks →
      testUsedBlocksBit bitmap' q = if q = p then .ok set else testUsedBlocksBit bitmap q := by
  obtain ⟨bitmap', hwrite, htaken⟩ := exists_write bitmap hp set
  refine ⟨bitmap', hwrite, fun q hq => ?_⟩
  rw [testUsedBlocksBit_eq hq, testUsedBlocksBit_eq hq, htaken]
  split
  · rfl
  · rfl

/-- The search finds the least clear position, or nothing. -/
theorem find_cases (bitmap : Bitmap) :
    (findUsedBlocksBit bitmap = -1 ∧ clearPositions bitmap = ∅) ∨
      ∃ p : Nat, findUsedBlocksBit bitmap = p ∧ IsLeast (clearPositions bitmap : Set Nat) p := by
  obtain ⟨hnone, hall⟩ | ⟨p, hp, hlt, hfree, hbefore⟩ := findUsedBlocksBit_cases bitmap
  · refine .inl ⟨hnone, Finset.filter_false_of_mem fun q hq => ?_⟩
    rw [hall q (Finset.mem_range.mp hq)]
    exact Bool.true_eq_false.mp
  · refine .inr ⟨p, hp, ?_, fun q hq => ?_⟩
    · exact Finset.mem_coe.mpr (Finset.mem_filter.mpr ⟨Finset.mem_range.mpr hlt, hfree⟩)
    · have hclear := (Finset.mem_filter.mp (Finset.mem_coe.mp hq)).2
      refine Nat.le_of_not_lt fun hqp => ?_
      rw [hbefore q hqp] at hclear
      cases hclear

theorem find_eq_iff : findUsedBlocksBit bitmap = p ↔ IsLeast (clearPositions bitmap : Set Nat) p := by
  obtain ⟨hnone, hempty⟩ | ⟨p', hp', hleast⟩ := find_cases bitmap
  · refine iff_of_false (by omega) fun hleast => ?_
    rw [hempty] at hleast
    exact absurd (Finset.mem_coe.mp hleast.1) (Finset.notMem_empty p)
  · rw [hp', Int.ofNat_inj]
    constructor
    · rintro rfl
      exact hleast
    · exact fun h => hleast.unique h

theorem find_eq_none_iff : findUsedBlocksBit bitmap = -1 ↔
    ∀ q, q < diskBlocks → testUsedBlocksBit bitmap q = .ok true := by
  obtain ⟨hnone, hempty⟩ | ⟨p, hp, hleast⟩ := find_cases bitmap
  · refine iff_of_true hnone fun q hq => ?_
    have hnot : q ∉ clearPositions bitmap := hempty ▸ Finset.notMem_empty q
    rw [testUsedBlocksBit_iff hq]
    by_contra hclear
    exact hnot (mem_clearPositions.mpr
      ⟨hq, (testUsedBlocksBit_iff hq).mpr (Bool.eq_false_iff.mpr hclear)⟩)
  · refine iff_of_false (by omega) fun hall => ?_
    obtain ⟨hlt, hclear⟩ := mem_clearPositions.mp (Finset.mem_coe.mp hleast.1)
    rw [hall p hlt] at hclear
    cases hclear

/-! ### Searching and marking -/

theorem exists_marks (bitmap : Bitmap) :
    ∃ position bitmap', Marks bitmap position bitmap' := by
  obtain ⟨bitmap', hwrite, -⟩ := exists_mark bitmap
  refine ⟨findUsedBlocksBit bitmap, bitmap', ?_⟩
  rw [Marks, markNext, search_eq, ok_bind, hwrite]
  rfl

/-- What is marked is what the search has found, and nothing else. -/
theorem Marks.clear (h : Marks bitmap position bitmap') : position = findUsedBlocksBit bitmap ∧
    ∀ q, q ∈ clearPositions bitmap' ↔ q ∈ clearPositions bitmap ∧ (q : Int) ≠ position := by
  rw [Marks, markNext, search_eq, ok_bind] at h
  obtain ⟨marked, hwrite, htaken⟩ := exists_mark bitmap
  rw [hwrite] at h
  cases h
  refine ⟨rfl, fun q => ?_⟩
  rw [clearPositions, clearPositions, Finset.mem_filter, Finset.mem_filter, and_assoc]
  refine and_congr_right fun _ => ?_
  rw [← Bool.not_eq_true, ← Bool.not_eq_true, htaken, not_or]

theorem Marks.takes (h : Marks bitmap position bitmap') :
    Takes clearPositions (fun p : Nat => (p : Int)) (-1) bitmap position bitmap' := by
  obtain ⟨rfl, hclear⟩ := h.clear
  obtain ⟨hnone, hempty⟩ | ⟨p, hp, hleast⟩ := find_cases bitmap
  · refine .inl ⟨hempty, hnone, Finset.eq_empty_of_forall_notMem fun q hq => ?_⟩
    exact absurd ((hclear q).mp hq).1 (hempty ▸ Finset.notMem_empty q)
  · refine .inr ⟨p, hleast, hp, Finset.ext fun q => ?_⟩
    rw [hclear, hp, Finset.mem_erase, and_comm]
    exact and_congr_left fun _ => Int.ofNat_inj.not

theorem exists_run (bitmap : Bitmap) (n : Nat) :
    ∃ run, run.length = n ∧ EachStep Marks bitmap run := by
  induction n generalizing bitmap with
  | zero => exact ⟨[], rfl, trivial⟩
  | succ n ih =>
    obtain ⟨position, bitmap', hmarks⟩ := exists_marks bitmap
    obtain ⟨run, hlength, hrun⟩ := ih bitmap'
    exact ⟨(position, bitmap') :: run, congrArg (· + 1) hlength, hmarks, hrun⟩

/-- Search and update are those of a finite set: a write changes one position and no other, a search
finds the least clear one, and searching and marking again and again takes the clear positions in
increasing order, each of them once, and then finds nothing. -/
theorem bitmap_is_set (bitmap : Bitmap) :
    (∀ p set, p < diskBlocks → ∃ bitmap', writeUsedBlocksBit bitmap p set = .ok bitmap' ∧
      ∀ q, q < diskBlocks →
        testUsedBlocksBit bitmap' q = if q = p then .ok set else testUsedBlocksBit bitmap q) ∧
    (∃ r, searchUsedBlocksBit bitmap diskBlocks 0 = .ok r ∧
      (r = -1 ↔ ∀ q, q < diskBlocks → testUsedBlocksBit bitmap q = .ok true) ∧
      ∀ p : Nat, r = p ↔ IsLeast {q | q < diskBlocks ∧ testUsedBlocksBit bitmap q = .ok false} p) ∧
    (∀ (p : Nat) (bitmap' : Bitmap), Marks bitmap p bitmap' →
      searchUsedBlocksBit bitmap' diskBlocks 0 ≠ .ok p) ∧
    ∃ clear : List Nat, clear.Pairwise (· < ·) ∧
      (∀ q, q ∈ clear ↔ q < diskBlocks ∧ testUsedBlocksBit bitmap q = .ok false) ∧
      (∀ n, ∃ run, run.length = n ∧ EachStep Marks bitmap run) ∧
      ∀ (run : List (Int × Bitmap)) (i : Nat) (position : Int), EachStep Marks bitmap run →
        (run.map Prod.fst)[i]? = some position →
          position = (clear.map fun p : Nat => (p : Int)).getD i (-1) := by
  have hclear : {q | q < diskBlocks ∧ testUsedBlocksBit bitmap q = .ok false} =
      (clearPositions bitmap : Set Nat) :=
    Set.ext fun q => mem_clearPositions.symm
  refine ⟨fun p set hp => write_spec bitmap hp set, ⟨_, search_eq bitmap, find_eq_none_iff, ?_⟩, ?_, ?_⟩
  · intro p
    rw [hclear]
    exact find_eq_iff
  · intro p bitmap' hmarks hagain
    rw [search_eq] at hagain
    have hleast := find_eq_iff.mp (Except.ok.inj hagain)
    exact ((hmarks.clear.2 p).mp (Finset.mem_coe.mp hleast.1)).2 rfl
  · refine ⟨(clearPositions bitmap).sort, (Finset.sortedLT_sort _).pairwise, fun q => ?_,
      exists_run bitmap, fun run i position hrun hi => ?_⟩
    · rw [Finset.mem_sort]
      exact mem_clearPositions
    · exact result_eq (hrun.mono fun _ _ _ hmarks => hmarks.takes) hi

end OSChallenges.FileSystem
