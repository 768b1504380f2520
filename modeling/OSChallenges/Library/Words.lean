import Mathlib.Algebra.Group.Int.Defs
import Mathlib.Algebra.Group.Nat.Defs
import Mathlib.Data.Nat.Log

/-!
# Conversions between the integer types of C

Values are unbounded; a conversion reduces them to the range of its type. A single-precision number
is an integer rounded to 24 significant bits, which is all a conversion from `int` needs.
-/

namespace Words

/-- `unsigned` converted to `int`. -/
@[irreducible] def toInt32 (n : Nat) : Int := Int.bmod n (2 ^ 32)

/-- `int` converted to `unsigned`. -/
def toUInt32 (i : Int) : Nat := (i % 2 ^ 32).toNat

/-- A natural number rounded to 24 significant bits, ties to even. -/
def roundFloat (n : Nat) : Nat :=
  let unit := 2 ^ (Nat.log2 n - 23)
  let low := n % unit
  let down := n - low
  if 2 * low < unit ∨ 2 * low = unit ∧ n / unit % 2 = 0 then down else down + unit

/-- `int` converted to `float`. -/
def toFloat (i : Int) : Int := if 0 ≤ i then roundFloat i.natAbs else -roundFloat i.natAbs

theorem toInt32_of_lt {n : Nat} (h : n < 2 ^ 31) : toInt32 n = n := by
  unfold toInt32
  rw [Int.bmod_def]
  omega

theorem toUInt32_of_lt {n : Nat} (h : n < 2 ^ 32) : toUInt32 n = n := by
  unfold toUInt32
  omega

theorem toInt32_toUInt32 {i : Int} (h : -2 ^ 31 ≤ i) (h' : i < 2 ^ 31) :
    toInt32 (toUInt32 i) = i := by
  unfold toInt32 toUInt32
  rw [Int.bmod_def]
  omega

theorem le_toInt32 (n : Nat) : -2 ^ 31 ≤ toInt32 n ∧ toInt32 n < 2 ^ 31 := by
  unfold toInt32
  rw [Int.bmod_def]
  omega

theorem toInt32_le (n : Nat) : toInt32 n ≤ n := by
  unfold toInt32
  rw [Int.bmod_def]
  omega

theorem toInt32_of_pos {n : Nat} (h : n < 2 ^ 32) (hpos : 0 < toInt32 n) : toInt32 n = n := by
  unfold toInt32 at *
  rw [Int.bmod_def] at *
  omega

theorem roundFloat_le (n : Nat) : roundFloat n ≤ 2 * n := by
  by_cases hn : n = 0
  · subst n
    decide
  · have hunit : 2 ^ (Nat.log2 n - 23) ≤ n := by
      calc 2 ^ (Nat.log2 n - 23) ≤ 2 ^ Nat.log2 n := Nat.pow_le_pow_right (by decide) (Nat.sub_le ..)
        _ ≤ n := Nat.log2_self_le hn
    unfold roundFloat
    simp only
    split
    · omega
    · omega

theorem natAbs_toFloat_le (i : Int) : (toFloat i).natAbs ≤ 2 * i.natAbs := by
  unfold toFloat
  have h := roundFloat_le i.natAbs
  split
  · omega
  · omega

/-- A multiple of the unit is not rounded past. -/
theorem le_roundFloat_of_dvd {n b : Nat} (hdvd : 2 ^ (Nat.log2 n - 23) ∣ b) (hle : b ≤ n) :
    b ≤ roundFloat n := by
  have hunit : 0 < 2 ^ (Nat.log2 n - 23) := Nat.pow_pos (by decide)
  unfold roundFloat
  simp only
  generalize 2 ^ (Nat.log2 n - 23) = unit at hdvd hunit ⊢
  obtain ⟨k, rfl⟩ := hdvd
  have hsplit := Nat.div_add_mod n unit
  have hquot : k ≤ n / unit := (Nat.le_div_iff_mul_le hunit).mpr (by rwa [Nat.mul_comm])
  have hmul := Nat.mul_le_mul_left unit hquot
  split
  · omega
  · omega

theorem roundFloat_le_of_dvd {n b : Nat} (hdvd : 2 ^ (Nat.log2 n - 23) ∣ b) (hle : n ≤ b) :
    roundFloat n ≤ b := by
  have hunit : 0 < 2 ^ (Nat.log2 n - 23) := Nat.pow_pos (by decide)
  unfold roundFloat
  simp only
  generalize 2 ^ (Nat.log2 n - 23) = unit at hdvd hunit ⊢
  obtain ⟨k, rfl⟩ := hdvd
  have hsplit := Nat.div_add_mod n unit
  have hlow := Nat.mod_lt n hunit
  split
  · omega
  · rename_i hup
    have hpos : 0 < n % unit := by omega
    have hquot : n / unit < k := Nat.lt_of_mul_lt_mul_left (a := unit) (by omega)
    have hmul := Nat.mul_le_mul_left unit hquot
    rw [Nat.mul_succ] at hmul
    omega

/-- A power of two is not rounded past. -/
theorem roundFloat_le_pow {n m : Nat} (h : n < 2 ^ m) : roundFloat n ≤ 2 ^ m := by
  refine roundFloat_le_of_dvd (Nat.pow_dvd_pow 2 ?_) (Nat.le_of_lt h)
  by_cases hn : n = 0
  · subst n
    exact Nat.zero_le m
  · have hlog : Nat.log2 n < m := (Nat.log2_lt hn).mpr h
    omega

theorem toFloat_le {i : Int} (h : i < 2 ^ 31) : toFloat i ≤ 2 ^ 31 := by
  unfold toFloat
  split
  · have hle := roundFloat_le_pow (show i.natAbs < 2 ^ 31 by omega)
    omega
  · omega

theorem roundFloat_of_le {n : Nat} (h : n ≤ 2 ^ 24) : roundFloat n = n := by
  have hdvd : 2 ^ (Nat.log2 n - 23) ∣ n := by
    by_cases hlast : n = 2 ^ 24
    · subst n
      decide
    · have hlog : Nat.log2 n - 23 = 0 := by
        by_cases hn : n = 0
        · subst n
          rfl
        · have := (Nat.log2_lt hn).mpr (show n < 2 ^ 24 by omega)
          omega
      rw [hlog]
      exact Nat.one_dvd n
  exact Nat.le_antisymm (roundFloat_le_of_dvd hdvd (Nat.le_refl n))
    (le_roundFloat_of_dvd hdvd (Nat.le_refl n))

/-- The multiples of twice the unit are even in the last place. A number is rounded down to such a
multiple exactly if it is at most half a unit above it. -/
theorem roundFloat_eq_iff {n b : Nat} (hdvd : 2 * 2 ^ (Nat.log2 n - 23) ∣ b) (hle : b ≤ n) :
    roundFloat n = b ↔ 2 * (n - b) ≤ 2 ^ (Nat.log2 n - 23) := by
  have hunit : 0 < 2 ^ (Nat.log2 n - 23) := Nat.pow_pos (by decide)
  unfold roundFloat
  simp only
  generalize 2 ^ (Nat.log2 n - 23) = unit at hdvd hunit ⊢
  obtain ⟨k, rfl⟩ := hdvd
  have hsplit := Nat.div_add_mod n unit
  have hlow := Nat.mod_lt n hunit
  have hk : 2 * unit * k = unit * (2 * k) := by rw [Nat.mul_comm 2 unit, Nat.mul_assoc]
  rw [hk] at hle ⊢
  have hquot : 2 * k ≤ n / unit := (Nat.le_div_iff_mul_le hunit).mpr (by rwa [Nat.mul_comm])
  have hmul := Nat.mul_le_mul_left unit hquot
  constructor
  · intro hround
    split at hround
    · omega
    · omega
  · intro hhalf
    have hsame : n / unit = 2 * k := by
      apply Nat.div_eq_of_lt_le
      · rw [Nat.mul_comm]
        exact hle
      · rw [Nat.mul_comm, Nat.mul_succ]
        omega
    rw [hsame] at hsplit ⊢
    rw [if_pos (by omega)]
    omega

theorem toFloat_of_le {n : Nat} (h : n ≤ 2 ^ 24) : toFloat n = n := by
  unfold toFloat
  rw [if_pos (by omega), Int.natAbs_natCast, roundFloat_of_le h]

end Words
