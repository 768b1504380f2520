import Mathlib.Algebra.Group.Nat.Defs

/-!
# Records of a fixed number of bytes

A codec lays a value out in bytes, the way a structure stands in memory. Words are little-endian;
arrays and pairs stand one after the other. The law of a codec is that decoding undoes encoding,
whatever comes behind the record.
-/

namespace Records

universe u v

/-- Both functions only matter at the offsets below `size`. -/
structure Codec (α : Type u) where
  size : Nat
  encode : α → Nat → UInt8
  decode : (Nat → UInt8) → α
  decode_of : ∀ a bytes, (∀ k, k < size → bytes k = encode a k) → decode bytes = a

variable {α : Type u} {β : Type v}

/-! ### Words -/

/-- The number that `n` bytes hold, the lowest first. -/
def fromBytes : Nat → (Nat → UInt8) → Nat
  | 0, _ => 0
  | n + 1, bytes => (bytes 0).toNat + 256 * fromBytes n fun k => bytes (k + 1)

def byteOf (x k : Nat) : UInt8 := UInt8.ofNat (x / 256 ^ k)

theorem fromBytes_byteOf (n x : Nat) (bytes : Nat → UInt8)
    (h : ∀ k, k < n → bytes k = byteOf x k) : fromBytes n bytes = x % 256 ^ n := by
  induction n generalizing x bytes with
  | zero =>
    rw [fromBytes, Nat.pow_zero, Nat.mod_one]
  | succ n ih =>
    have hrest : fromBytes n (fun k => bytes (k + 1)) = x / 256 % 256 ^ n := by
      apply ih
      intro k hk
      rw [h (k + 1) (by omega), byteOf, byteOf, Nat.div_div_eq_div_mul, Nat.pow_succ, Nat.mul_comm]
    have hfirst : (bytes 0).toNat = x % 256 := by
      rw [h 0 (by omega), byteOf, Nat.pow_zero, Nat.div_one]
      exact UInt8.toNat_ofNat'
    rw [fromBytes, hfirst, hrest, Nat.pow_succ, Nat.mul_comm (256 ^ n), Nat.mod_mul]

theorem fromBytes_lt (n : Nat) (bytes : Nat → UInt8) : fromBytes n bytes < 256 ^ n := by
  induction n generalizing bytes with
  | zero => exact Nat.one_pos
  | succ n ih =>
    have hrest := ih fun k => bytes (k + 1)
    have hfirst : (bytes 0).toNat < 256 := (bytes 0).toNat_lt
    rw [fromBytes, Nat.pow_succ]
    omega

theorem fromBytes_eq_zero_iff (n : Nat) (bytes : Nat → UInt8) :
    fromBytes n bytes = 0 ↔ ∀ k, k < n → bytes k = 0 := by
  induction n generalizing bytes with
  | zero => exact iff_of_true rfl fun k hk => absurd hk (Nat.not_lt_zero k)
  | succ n ih =>
    have hrest := ih fun k => bytes (k + 1)
    rw [fromBytes]
    constructor
    · intro hsum k hk
      cases k with
      | zero => exact UInt8.toNat_inj.mp (by show (bytes 0).toNat = 0; omega)
      | succ k => exact hrest.mp (by omega) k (by omega)
    · intro h
      have hzero := hrest.mpr fun k hk => h (k + 1) (by omega)
      rw [h 0 (by omega), hzero]
      rfl

/-- A word of `n` bytes. -/
def word (n : Nat) : Codec (BitVec (8 * n)) where
  size := n
  encode x := byteOf x.toNat
  decode bytes := BitVec.ofNat (8 * n) (fromBytes n bytes)
  decode_of x bytes h := by
    have hpow : 256 ^ n = 2 ^ (8 * n) := by rw [Nat.pow_mul]
    rw [fromBytes_byteOf n x.toNat bytes h, hpow, Nat.mod_eq_of_lt x.isLt, BitVec.ofNat_toNat,
      BitVec.setWidth_eq]

theorem word_eq_zero_iff (n : Nat) (bytes : Nat → UInt8) :
    (word n).decode bytes = 0 ↔ ∀ k, k < n → bytes k = 0 := by
  have hpow : 256 ^ n = 2 ^ (8 * n) := by rw [Nat.pow_mul]
  have hlt : fromBytes n bytes < 2 ^ (8 * n) := hpow ▸ fromBytes_lt n bytes
  rw [← fromBytes_eq_zero_iff]
  show BitVec.ofNat (8 * n) (fromBytes n bytes) = 0 ↔ _
  constructor
  · intro h
    have hval := congrArg BitVec.toNat h
    rwa [BitVec.toNat_ofNat, Nat.mod_eq_of_lt hlt] at hval
  · intro h
    rw [h]
    rfl

def u8 : Codec UInt8 where
  size := 1
  encode x _ := x
  decode bytes := bytes 0
  decode_of _ _ h := h 0 (by decide)

/-! ### Pairs and arrays -/

def pair (c : Codec α) (d : Codec β) : Codec (α × β) where
  size := c.size + d.size
  encode p k := if k < c.size then c.encode p.1 k else d.encode p.2 (k - c.size)
  decode bytes := (c.decode bytes, d.decode fun k => bytes (c.size + k))
  decode_of p bytes h := by
    apply Prod.ext
    · apply c.decode_of
      intro k hk
      rw [h k (by omega), if_pos hk]
    · apply d.decode_of
      intro k hk
      rw [h (c.size + k) (by omega), if_neg (by omega), Nat.add_sub_cancel_left]

/-- `n` records one after the other. -/
def array (n : Nat) (c : Codec α) : Codec (Fin n → α) where
  size := n * c.size
  encode a k := if h : k / c.size < n then c.encode (a ⟨k / c.size, h⟩) (k % c.size) else 0
  decode bytes i := c.decode fun k => bytes (i * c.size + k)
  decode_of a bytes h := by
    funext i
    apply c.decode_of
    intro k hk
    have hlast : (i + 1) * c.size ≤ n * c.size := Nat.mul_le_mul_right _ i.isLt
    have hin : i * c.size + k < n * c.size := by
      rw [Nat.succ_mul] at hlast
      omega
    have hdiv : (i * c.size + k) / c.size = i := by
      rw [Nat.mul_comm, Nat.mul_add_div (by omega), Nat.div_eq_of_lt hk, Nat.add_zero]
    have hmod : (i * c.size + k) % c.size = k := by
      rw [Nat.mul_comm, Nat.mul_add_mod, Nat.mod_eq_of_lt hk]
    rw [h _ hin, dif_pos (by rw [hdiv]; exact i.isLt), hmod]
    congr 2
    exact Fin.ext hdiv

/-- A record with the fields of another one. -/
def ofFields (c : Codec α) (fields : β → α) (make : α → β) (hmake : ∀ b, make (fields b) = b) :
    Codec β where
  size := c.size
  encode b := c.encode (fields b)
  decode bytes := make (c.decode bytes)
  decode_of b bytes h := by
    rw [c.decode_of (fields b) bytes h, hmake]

end Records
