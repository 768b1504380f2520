import OSChallenges.Storage.Registry
import Mathlib.Order.Bounds.Basic

/-!
# How many pages a storage gets

`tls_create` hands its size to `roundUp` as an `int`, which `roundUp` converts to single precision. From
`2 ^ 24` on a size a few bytes above the end of a page is rounded down to it, and its last page is lost; from
`2 ^ 31` on the size is negative.
-/

namespace OSChallenges.Storage

open Program Words Outcomes

/-- No more pages than the bytes need. -/
def LeastPages (size pageNum : Nat) : Prop := IsLeast {n | size ≤ n * pageSize} pageNum

/-- What the last page would hold is at most half of what single precision tells apart. -/
def LosesPage (size : Nat) : Prop :=
  0 < size % pageSize ∧ 2 * (size % pageSize) ≤ 2 ^ (Nat.log2 size - 23)

instance (size : Nat) : Decidable (LosesPage size) := inferInstanceAs (Decidable (_ ∧ _))

variable {frame : Nat → Nat} {s s' : State} {self size n : Nat}

theorem leastPages_iff : LeastPages size n ↔ n = (size + (pageSize - 1)) / pageSize := by
  unfold LeastPages pageSize
  constructor
  · rintro ⟨henough, hleast⟩
    have hle : n ≤ (size + (4096 - 1)) / 4096 :=
      hleast (show size ≤ (size + (4096 - 1)) / 4096 * 4096 by omega)
    have hmem : size ≤ n * 4096 := henough
    omega
  · rintro rfl
    refine ⟨show size ≤ _ by omega, fun m hm => ?_⟩
    have hmem : size ≤ m * 4096 := hm
    omega

/-- Pages end at even multiples of the unit of every size that is an `int`. -/
theorem unit_dvd_page (hsize : size < 2 ^ 31) (k : Nat) :
    2 * 2 ^ (Nat.log2 size - 23) ∣ pageSize * k := by
  have hlog : Nat.log2 size ≤ 30 := by
    by_cases hzero : size = 0
    · subst size
      decide
    · exact Nat.le_of_lt_succ ((Nat.log2_lt hzero).mpr hsize)
  have hpow : 2 * 2 ^ (Nat.log2 size - 23) ∣ pageSize := by
    rw [Nat.mul_comm, ← Nat.pow_succ, show pageSize = 2 ^ 12 from rfl]
    exact Nat.pow_dvd_pow 2 (by omega)
  exact Nat.dvd_mul_right_of_dvd hpow k

/-- The size in single precision is on the same page, and at its start exactly if the page is lost. -/
theorem roundFloat_page (hsize : size < 2 ^ 31) :
    pageSize * (size / pageSize) ≤ roundFloat size ∧
    roundFloat size ≤ pageSize * ((size + (pageSize - 1)) / pageSize) ∧
    (roundFloat size = pageSize * (size / pageSize) ↔ ¬ 0 < size % pageSize ∨ LosesPage size) := by
  have hdvd := unit_dvd_page hsize
  have hunit : ∀ k, 2 ^ (Nat.log2 size - 23) ∣ pageSize * k := fun k =>
    Nat.dvd_trans (Nat.dvd_mul_left ..) (hdvd k)
  have hsplit := Nat.div_add_mod size pageSize
  refine ⟨le_roundFloat_of_dvd (hunit _) (by omega), roundFloat_le_of_dvd (hunit _) ?_, ?_⟩
  · unfold pageSize
    omega
  · rw [roundFloat_eq_iff (hdvd _) (by omega), show size - pageSize * (size / pageSize) =
      size % pageSize by omega]
    unfold LosesPage
    constructor
    · intro hhalf
      by_cases hpos : 0 < size % pageSize
      · exact .inr ⟨hpos, hhalf⟩
      · exact .inl hpos
    · rintro (hexact | hlost)
      · rw [Nat.eq_zero_of_not_pos hexact]
        exact Nat.zero_le _
      · exact hlost.2

theorem roundUp_of_nonneg (hsize : size < 2 ^ 31) :
    roundUp (toInt32 size) pageSize = ((roundFloat size + (pageSize - 1)) / pageSize : Nat) := by
  have hfloat : toFloat (size : Int) = (roundFloat size : Nat) := by
    unfold toFloat
    rw [if_pos (Int.natCast_nonneg size), Int.natAbs_natCast]
  rw [toInt32_of_lt hsize]
  unfold roundUp
  rw [hfloat]
  unfold pageSize
  simp only
  rw [← Int.ofNat_tdiv]
  split
  · omega
  · omega

theorem roundUp_of_neg (hlow : 2 ^ 31 ≤ size) (hhigh : size < 2 ^ 32) :
    -2 ^ 20 ≤ roundUp (toInt32 size) pageSize ∧ roundUp (toInt32 size) pageSize ≤ 0 := by
  have hint : toInt32 size = (size : Int) - 2 ^ 32 := by
    unfold toInt32
    rw [Int.bmod_def]
    omega
  have hfloat := natAbs_toFloat_le (toInt32 size)
  have hneg : toFloat (toInt32 size) ≤ 0 := by
    unfold toFloat
    rw [if_neg (by omega)]
    omega
  unfold roundUp pageSize
  simp only
  generalize toFloat (toInt32 size) = sz at *
  obtain ⟨k, rfl⟩ : ∃ k : Nat, sz = -(k : Int) := ⟨sz.natAbs, by omega⟩
  rw [Int.neg_tdiv, ← Int.ofNat_tdiv]
  split
  · omega
  · omega

/-- The pages of a storage are as many as needed exactly if its size is an `int` and no page is lost. -/
theorem leastPages_roundUp_iff (hsize : size < 2 ^ 32) :
    LeastPages size (toUInt32 (roundUp (toInt32 size) pageSize)) ↔
      size < 2 ^ 31 ∧ ¬ LosesPage size := by
  rw [leastPages_iff]
  by_cases hint : size < 2 ^ 31
  · obtain ⟨hlow, hhigh, hlost⟩ := roundFloat_page hint
    have hbound := roundFloat_le_pow hint
    rw [roundUp_of_nonneg hint, and_iff_right hint]
    unfold toUInt32
    by_cases hlose : LosesPage size
    · have hround := hlost.mpr (.inr hlose)
      refine iff_of_false (fun hleast => ?_) (not_not_intro hlose)
      have hpos := hlose.1
      unfold pageSize at *
      omega
    · refine iff_of_true ?_ hlose
      have hsame : roundFloat size = pageSize * (size / pageSize) ↔ ¬ 0 < size % pageSize := by
        rw [hlost]
        exact or_iff_left hlose
      unfold pageSize at *
      omega
  · obtain ⟨hlow, hhigh⟩ := roundUp_of_neg (Nat.le_of_not_lt hint) hsize
    refine iff_of_false (fun hleast => ?_) fun h => hint h.1
    unfold toUInt32 pageSize at *
    omega

theorem tls_of_tlsCreate (h : tlsCreate frame s self size = .ok (0, s')) :
    ∃ index s₁ pages, s.findIndex self = .ok (index, s₁) ∧ s'.ttpArray index =
      ⟨self, some ⟨size, toUInt32 (roundUp (toInt32 size) pageSize), false, pages⟩⟩ := by
  obtain ⟨index, s₁, hindex⟩ := findIndex_of_tlsCreate h
  refine ⟨index, s₁, List.range' s₁.heapSize (roundUp (toInt32 size) pageSize).toNat, hindex, ?_⟩
  rw [tlsCreate_of_findIndex hindex] at h
  generalize roundUp (toInt32 size) pageSize = n at h ⊢
  have hr := Except.ok.inj h
  split at hr
  · cases hr
  · have hs' : s₁.newStorage frame index self size n = s' := congrArg Prod.snd hr
    rw [← hs']
    exact State.tls_newStorage

/-- A storage that is created has enough pages and no more exactly if its size is an `int` and its last page
is not lost. -/
theorem create_pages_iff (hsize : size < 2 ^ 32) (h : tlsCreate frame s self size = .ok (0, s')) :
    ∃ index s₁ tls, s.findIndex self = .ok (index, s₁) ∧ s'.ttpArray index = ⟨self, some tls⟩ ∧
      tls.size = size ∧ (LeastPages size tls.pageNum ↔ size < 2 ^ 31 ∧ ¬ LosesPage size) := by
  obtain ⟨index, s₁, pages, hindex, hentry⟩ := tls_of_tlsCreate h
  exact ⟨index, s₁, _, hindex, hentry, rfl, leastPages_roundUp_iff hsize⟩

/-- A page and one byte. -/
theorem create_pages_two : ∃ s' index tls, tlsCreate id (initial fun _ => 0) 1 4097 = .ok (0, s') ∧
    s'.ttpArray index = ⟨1, some tls⟩ ∧ LeastPages 4097 tls.pageNum := by
  have hcreate : passes (fun r => r.1 = 0) (tlsCreate id (initial fun _ => 0) 1 4097) = true := by
    decide +kernel
  obtain ⟨⟨r, s'⟩, hcall, hret⟩ := ok_of_passes hcreate
  obtain rfl : r = 0 := of_decide_eq_true hret
  obtain ⟨index, s₁, tls, -, hentry, -, hleast⟩ := create_pages_iff (by decide) hcall
  exact ⟨s', index, tls, hcall, hentry, hleast.mpr (by decide)⟩

/-- `2 ^ 24 + 1` bytes are rounded to `2 ^ 24`, and get 4096 pages. -/
theorem not_leastPages_lost : ∃ s' index tls,
    tlsCreate id (initial fun _ => 0) 1 16777217 = .ok (0, s') ∧
    s'.ttpArray index = ⟨1, some tls⟩ ∧ tls.pageNum = 4096 ∧ ¬ LeastPages 16777217 tls.pageNum := by
  have hfind : passes (fun r => (r.2.ttpArray r.1).tls = none) ((initial fun _ => 0).findIndex 1) =
      true := by
    decide +kernel
  obtain ⟨⟨index, s₁⟩, hindex, htest⟩ := ok_of_passes hfind
  have hnone : (s₁.ttpArray index).tls = none := of_decide_eq_true htest
  have hcall : tlsCreate id (initial fun _ => 0) 1 16777217 =
      .ok (0, s₁.newStorage id index 1 16777217 (roundUp (toInt32 16777217) pageSize)) := by
    rw [tlsCreate_of_findIndex hindex, hnone]
    rfl
  have hpages : toUInt32 (roundUp (toInt32 16777217) pageSize) = 4096 := by decide +kernel
  refine ⟨_, index, _, hcall, State.tls_newStorage, hpages, ?_⟩
  rw [hpages, leastPages_iff]
  show ¬ 4096 = (16777217 + (pageSize - 1)) / pageSize
  decide

end OSChallenges.Storage
