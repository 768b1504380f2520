import OSChallenges.FileSystem.Model

/-!
# The bitmap of used blocks

As a set of positions: a search finds the first position that is not in it, and a write puts one
position in or takes it out.
-/

namespace OSChallenges.FileSystem

open Words

variable {bitmap bitmap' : Bitmap} {p q n : Nat} {set : Bool}

/-! ### Searching -/

theorem scanBitmap_cases (bitmap : Bitmap) (n i : Nat) :
    (scanBitmap bitmap n i = -1 ∧ ∀ q, i ≤ q → q < i + n → taken bitmap q = true) ∨
      ∃ p : Nat, scanBitmap bitmap n i = p ∧ i ≤ p ∧ p < i + n ∧ taken bitmap p = false ∧
        ∀ q, i ≤ q → q < p → taken bitmap q = true := by
  induction n generalizing i with
  | zero => exact .inl ⟨rfl, fun q hi hq => by omega⟩
  | succ n ih =>
    rw [scanBitmap]
    cases hi : taken bitmap i with
    | false => exact .inr ⟨i, rfl, Nat.le_refl _, by omega, hi, fun q hq hlt => by omega⟩
    | true =>
      have hfirst : ∀ q, i ≤ q → ¬ i + 1 ≤ q → taken bitmap q = true := by
        intro q hq hnot
        rw [show q = i by omega, hi]
      rw [if_pos rfl]
      obtain ⟨hnone, hall⟩ | ⟨p, hp, hle, hlt, hfree, hbefore⟩ := ih (i + 1)
      · refine .inl ⟨hnone, ?_⟩
        intro q hq hlt
        by_cases hnext : i + 1 ≤ q
        · exact hall q hnext (by omega)
        · exact hfirst q hq hnext
      · refine .inr ⟨p, hp, by omega, by omega, hfree, ?_⟩
        intro q hq hlt
        by_cases hnext : i + 1 ≤ q
        · exact hbefore q hnext hlt
        · exact hfirst q hq hnext

theorem findUsedBlocksBit_cases (bitmap : Bitmap) :
    (findUsedBlocksBit bitmap = -1 ∧ ∀ q, q < diskBlocks → taken bitmap q = true) ∨
      ∃ p : Nat, findUsedBlocksBit bitmap = p ∧ p < diskBlocks ∧ taken bitmap p = false ∧
        ∀ q, q < p → taken bitmap q = true := by
  obtain ⟨hnone, hall⟩ | ⟨p, hp, -, hlt, hfree, hbefore⟩ := scanBitmap_cases bitmap diskBlocks 0
  · exact .inl ⟨hnone, fun q hq => hall q (Nat.zero_le q) (by omega)⟩
  · exact .inr ⟨p, hp, by omega, hfree, fun q hq => hbefore q (Nat.zero_le q) hq⟩

theorem eq_of_taken (h : ∀ q, taken bitmap q = taken bitmap' q) : bitmap = bitmap' := by
  funext i
  apply BitVec.eq_of_getLsbD_eq
  intro k hk
  have hi := i.isLt
  have hword : (i * 32 + k) / 32 = i := by omega
  have hbit : (i * 32 + k) % 32 = k := by omega
  have hq := h (i * 32 + k)
  unfold taken at hq
  simp only [hword, hbit, hi, dif_pos] at hq
  exact hq

/-! ### Writing -/

/-- The bit of a position is set or cleared. -/
def setBit (bitmap : Bitmap) (i : Fin 256) (bit : Nat) (set : Bool) : Bitmap :=
  Function.update bitmap i
    (if set then bitmap i ||| 1#32 <<< bit else bitmap i &&& ~~~(1#32 <<< bit))

theorem getLsbD_flag {b k : Nat} (hb : b < 32) : (1#32 <<< b).getLsbD k = decide (k = b) := by
  rw [BitVec.getLsbD_shiftLeft, BitVec.getLsbD_one]
  by_cases hk : k = b
  · subst hk
    simp [hb]
  · rw [decide_eq_false hk]
    by_cases hlt : k < b
    · simp [hlt]
    · have hne : ¬ k - b = 0 := by omega
      simp [hne]

theorem taken_setBit {i : Fin 256} {bit : Nat} (hbit : bit < 32) :
    taken (setBit bitmap i bit set) q = if q = i * 32 + bit then set else taken bitmap q := by
  have hmod : q % 32 < 32 := Nat.mod_lt _ (by decide)
  unfold taken
  by_cases hword : q / 32 < 256
  · rw [dif_pos hword, dif_pos hword, setBit]
    by_cases hsame : (⟨q / 32, hword⟩ : Fin 256) = i
    · have hdiv : q / 32 = i := congrArg Fin.val hsame
      rw [hsame, Function.update_self]
      have hiff : q = i * 32 + bit ↔ q % 32 = bit := by omega
      simp only [hiff]
      cases set with
      | true =>
        rw [if_pos rfl, BitVec.getLsbD_or, getLsbD_flag hbit]
        by_cases hq : q % 32 = bit
        · simp [hq]
        · simp [hq]
      | false =>
        rw [if_neg Bool.false_ne_true, BitVec.getLsbD_and, BitVec.getLsbD_not, getLsbD_flag hbit]
        by_cases hq : q % 32 = bit
        · simp [hq]
        · simp [hq, hmod]
    · have hdiv : q / 32 ≠ i := fun h => hsame (Fin.ext h)
      rw [Function.update_of_ne hsame, if_neg (by omega)]
  · have hi := i.isLt
    rw [dif_neg hword, dif_neg hword, if_neg (by omega)]

theorem write_eq (bitmap : Bitmap) {i : Fin 256} {position : Int}
    (hi : index 256 (toUInt32 (position.tdiv 32)) = .ok i) (set : Bool) :
    writeUsedBlocksBit bitmap position set =
      .ok (setBit bitmap i (toUInt32 (position.tmod 32) % 32) set) := by
  rw [writeUsedBlocksBit, hi]
  cases set with
  | true => rfl
  | false => rfl

theorem index_of_lt {n k : Nat} (h : k < n) : index n (k : Int) = .ok ⟨k, h⟩ := by
  rw [index, dif_pos ⟨Int.natCast_nonneg k, by omega⟩]
  rfl

theorem exists_write (bitmap : Bitmap) (hp : p < diskBlocks) (set : Bool) :
    ∃ bitmap', writeUsedBlocksBit bitmap p set = .ok bitmap' ∧
      ∀ q, taken bitmap' q = if q = p then set else taken bitmap q := by
  have hword : p / 32 < 256 := by
    unfold diskBlocks at hp
    omega
  have hdiv : toUInt32 ((p : Int).tdiv 32) = p / 32 := by
    rw [show (p : Int).tdiv 32 = (p / 32 : Nat) from rfl, toUInt32_of_lt (by omega)]
  have hmod : toUInt32 ((p : Int).tmod 32) % 32 = p % 32 := by
    rw [show (p : Int).tmod 32 = (p % 32 : Nat) from rfl, toUInt32_of_lt (by omega),
      Nat.mod_mod]
  refine ⟨_, write_eq bitmap (i := ⟨p / 32, hword⟩) ?_ set, ?_⟩
  · rw [hdiv]
    exact index_of_lt hword
  · intro q
    rw [hmod, taken_setBit (Nat.mod_lt _ (by decide))]
    have hplace : p / 32 * 32 + p % 32 = p := by omega
    simp only [hplace]

/-- The position that a search returns when every block is used: its bit is the last one of the first
word. -/
theorem exists_write_none (bitmap : Bitmap) :
    ∃ bitmap', writeUsedBlocksBit bitmap (-1) true = .ok bitmap' ∧
      ∀ q, taken bitmap' q = if q = 31 then true else taken bitmap q := by
  refine ⟨_, write_eq bitmap (i := 0) (by decide) true, ?_⟩
  intro q
  exact taken_setBit (by decide)

/-- Marking what a search has found; if nothing is free, nothing changes. -/
theorem exists_mark (bitmap : Bitmap) :
    ∃ bitmap', writeUsedBlocksBit bitmap (findUsedBlocksBit bitmap) true = .ok bitmap' ∧
      ∀ q : Nat, taken bitmap' q = true ↔ taken bitmap q = true ∨ (q : Int) = findUsedBlocksBit bitmap := by
  obtain ⟨hnone, hall⟩ | ⟨p, hp, hlt, -, -⟩ := findUsedBlocksBit_cases bitmap
  · obtain ⟨bitmap', hwrite, htaken⟩ := exists_write_none bitmap
    rw [hnone]
    refine ⟨bitmap', hwrite, ?_⟩
    intro q
    have hnot : ¬ (q : Int) = -1 := by omega
    rw [htaken]
    by_cases hq : q = 31
    · rw [if_pos hq, hq, hall 31 (by decide)]
      simp
    · rw [if_neg hq]
      simp [hnot]
  · obtain ⟨bitmap', hwrite, htaken⟩ := exists_write bitmap hlt true
    rw [hp]
    refine ⟨bitmap', hwrite, ?_⟩
    intro q
    rw [htaken, Int.ofNat_inj]
    by_cases hq : q = p
    · simp [hq]
    · simp [hq]

/-! ### Two blocks at once -/

/-- Two blocks are free. -/
def TwoFree (bitmap : Bitmap) : Prop :=
  ∃ b, b < diskBlocks ∧ ∃ a, a < b ∧ taken bitmap a = false ∧ taken bitmap b = false

/-- Two searches, each of which marks what it has found. -/
structure Reserves (bitmap : Bitmap) (loc num : Int) (bitmap' : Bitmap) : Prop where
  marked : ∀ q : Nat, taken bitmap' q = true ↔
    taken bitmap q = true ∨ (q : Int) = loc ∨ (q : Int) = num
  search : loc = findUsedBlocksBit bitmap
  writes : ∃ mid, writeUsedBlocksBit bitmap loc true = .ok mid ∧ num = findUsedBlocksBit mid ∧
    writeUsedBlocksBit mid num true = .ok bitmap'
  found : (num = -1 ∧ ¬ TwoFree bitmap) ∨ ∃ a b : Nat, loc = a ∧ num = b ∧ a < b ∧ b < diskBlocks ∧
    taken bitmap a = false ∧ taken bitmap b = false

theorem Reserves.free {loc num : Int} (h : Reserves bitmap loc num bitmap')
    (hfree : taken bitmap' q = false) : taken bitmap q = false := by
  rw [← Bool.not_eq_true]
  intro htaken
  rw [(h.marked q).mpr (.inl htaken)] at hfree
  cases hfree

theorem exists_reserve (bitmap : Bitmap) : ∃ bitmap₁ bitmap₂,
    writeUsedBlocksBit bitmap (findUsedBlocksBit bitmap) true = .ok bitmap₁ ∧
    writeUsedBlocksBit bitmap₁ (findUsedBlocksBit bitmap₁) true = .ok bitmap₂ ∧
    Reserves bitmap (findUsedBlocksBit bitmap) (findUsedBlocksBit bitmap₁) bitmap₂ := by
  obtain ⟨bitmap₁, hwrite₁, htaken₁⟩ := exists_mark bitmap
  obtain ⟨bitmap₂, hwrite₂, htaken₂⟩ := exists_mark bitmap₁
  refine ⟨bitmap₁, bitmap₂, hwrite₁, hwrite₂, ?_, rfl, ⟨bitmap₁, hwrite₁, rfl, hwrite₂⟩, ?_⟩
  · intro q
    rw [htaken₂, htaken₁, or_assoc]
  · have hold : ∀ {q}, taken bitmap₁ q = false → taken bitmap q = false ∧
        ¬ (q : Int) = findUsedBlocksBit bitmap := by
      intro q hfree
      have hnot := mt (htaken₁ q).mpr (by rw [hfree]; exact Bool.false_ne_true)
      obtain ⟨hfree', hother⟩ := not_or.mp hnot
      exact ⟨Bool.eq_false_iff.mpr hfree', hother⟩
    obtain ⟨hnone₁, hall₁⟩ | ⟨b, hb, hltb, hfreeb, -⟩ := findUsedBlocksBit_cases bitmap₁
    · refine .inl ⟨hnone₁, ?_⟩
      rintro ⟨b, hltb, a, hab, hfreea, hfreeb⟩
      -- Both would have to be the one that the first search has found.
      have hfound : ∀ q, q < diskBlocks → taken bitmap q = false →
          (q : Int) = findUsedBlocksBit bitmap := by
        intro q hq hfree
        obtain htaken | hfound := (htaken₁ q).mp (hall₁ q hq)
        · rw [hfree] at htaken
          cases htaken
        · exact hfound
      have ha := hfound a (by omega) hfreea
      have hb := hfound b hltb hfreeb
      omega
    · obtain ⟨hfree, hother⟩ := hold hfreeb
      obtain ⟨-, hall⟩ | ⟨a, ha, -, hfreea, hbefore⟩ := findUsedBlocksBit_cases bitmap
      · rw [hall b hltb] at hfree
        cases hfree
      · refine .inr ⟨a, b, ha, hb, ?_, hltb, hfreea, hfree⟩
        have hle : ¬ b < a := by
          intro hlt
          rw [hbefore b hlt] at hfree
          cases hfree
        omega

end OSChallenges.FileSystem
