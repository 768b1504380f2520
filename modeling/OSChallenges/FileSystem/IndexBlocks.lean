import OSChallenges.FileSystem.Sessions

/-!
# How index blocks are written and read

`fs_create` writes a whole block from an array of 256 entries of 16 bits; the other calls read 256
entries of 32 bits. So what they see in the first half comes from the array and what they see in the
second half from the memory behind it. `fs_delete` reads a whole block into its array of 1024 bytes.
-/

namespace OSChallenges.FileSystem

open Records Words Outcomes Runs

/-- What `fs_read`, `fs_write` and `fs_delete` see: the block that has been allocated, and zeros. -/
def Decoded (b : Block) (blockNum : Nat) : Prop :=
  (inodeBlocks b 0).toNat = blockNum ∧ ∀ k, k ≠ 0 → inodeBlocks b k = 0

instance Decoded.decidable (b : Block) (blockNum : Nat) : Decidable (Decoded b blockNum) :=
  inferInstanceAs (Decidable (_ ∧ ∀ k, k ≠ 0 → inodeBlocks b k = 0))

/-- A copy between the array of a call and a block: the bytes of the array, and those that are
copied. -/
structure Transfer where
  array : Nat
  copied : Nat

def Transfer.Fits (t : Transfer) : Prop := t.copied ≤ t.array

/-- `block_write` from `uint16_t inodeBlocksArray[256]`. -/
def createTransfer : Transfer := ⟨(array 256 u16).size, blockSize⟩

/-- `block_read` into `uint32_t inodeBlocksArray[256]`. -/
def deleteTransfer : Transfer := ⟨(array 256 u32).size, blockSize⟩

/-- `memcpy` of the size of `uint32_t inodeBlocksArray[256]`. -/
def readTransfer : Transfer := ⟨(array 256 u32).size, (array 256 u32).size⟩

/-- The same as in `fs_read`. -/
def writeTransfer : Transfer := ⟨(array 256 u32).size, (array 256 u32).size⟩

def CopiesFit : Prop :=
  createTransfer.Fits ∧ deleteTransfer.Fits ∧ readTransfer.Fits ∧ writeTransfer.Fits

variable {env : Env} {s s' : State} {n name : CString} {i : Fin maxFiles} {b blockNum : Nat}

theorem inodeBlocks_eq_zero_iff (b : Block) (k : Fin 256) :
    inodeBlocks b k = 0 ↔ ∀ j, j < 4 → b.byte (k * 4 + j) = 0 :=
  word_eq_zero_iff 4 fun j => b.byte (k * 4 + j)

theorem indexBlock_behind (env : Env) (blockNum : Int) {k : Nat} (hlow : 512 ≤ k)
    (hk : k < blockSize) : (indexBlock env blockNum).byte k = env.stack k := by
  have hsize : (array 256 u16).size = 512 := rfl
  rw [indexBlock, Block.byte_ofBytes _ hk, hsize, if_neg (by omega)]

/-- The second half of the entries is read from the memory behind the array. -/
theorem decoded_indexBlock_iff (env : Env) (hlt : blockNum < 2 ^ 16) :
    Decoded (indexBlock env blockNum) blockNum ↔ ∀ k, 512 ≤ k → k < 1024 → env.stack k = 0 := by
  have hbehind : ∀ k : Fin 256, 128 ≤ k.val → (inodeBlocks (indexBlock env blockNum) k = 0 ↔
      ∀ j, j < 4 → env.stack (k * 4 + j) = 0) := by
    intro k hk
    rw [inodeBlocks_eq_zero_iff]
    refine forall_congr' fun j => imp_congr_right fun hj => ?_
    have hin : k.val * 4 + j < blockSize := by
      unfold blockSize
      omega
    rw [indexBlock_behind env blockNum (by omega) hin]
  constructor
  · rintro ⟨-, hrest⟩ k hlow hhigh
    have hhalf : 128 ≤ k / 4 := by omega
    have hk : k / 4 < 256 := by omega
    have hne : (⟨k / 4, hk⟩ : Fin 256) ≠ 0 := fun hzero => by
      have hdiv : k / 4 = 0 := congrArg Fin.val hzero
      omega
    have hzero := (hbehind ⟨k / 4, hk⟩ hhalf).mp (hrest _ hne) (k % 4) (Nat.mod_lt _ (by decide))
    rwa [Nat.div_add_mod' k 4] at hzero
  · intro hstack
    constructor
    · rw [inodeBlocks_indexBlock env hlt 0 (by decide), if_pos rfl, BitVec.toNat_ofNat,
        Nat.mod_eq_of_lt (by omega)]
    · intro k hne
      by_cases hhalf : k.val < 128
      · rw [inodeBlocks_indexBlock env hlt k hhalf, if_neg hne]
      · exact (hbehind k (by omega)).mpr fun j hj => hstack _ (by omega) (by omega)

/-! ### Creations -/

theorem handle_of_create (h : fsCreate env s name = .ok (0, s')) : ∃ n, s.handle = some n := by
  obtain ⟨loc, num, bitmap, -, ⟨hr, -⟩ | ⟨i, d, -, -, -, -, hblock⟩⟩ := create_spec h
  · exact absurd hr (by decide)
  obtain ⟨-, hr, -⟩ | ⟨hwrite, -⟩ := hblock
  · exact absurd hr (by decide)
  cases hhandle : s.handle with
  | some n => exact ⟨n, rfl⟩
  | none =>
    have hclosed : (entered s name i d loc bitmap).handle = none := hhandle
    rw [State.blockWrite, hclosed] at hwrite
    cases hwrite

/-- The call has marked the block, and it is not the index block of the inode. -/
def Allocated (s s' : State) (i : Fin maxFiles) (b : Nat) : Prop :=
  taken s.usedBlocksBitmap b = false ∧ taken s'.usedBlocksBitmap b = true ∧ b ≠ s'.indexAt i

/-- The block is decoded as it was encoded, and no copy leaves its array. -/
def IndexIntact (s' : State) (n : CString) (i : Fin maxFiles) (b : Nat) : Prop :=
  Decoded ((s'.files n).block (s'.indexAt i)) b ∧ CopiesFit

/-- The entries are right exactly if the 512 bytes behind the array are zero; the copies of `fs_create`
and `fs_delete` never stay in their arrays, and `fs_create` writes what is behind its own. -/
theorem index_block_decoded_iff (h : fsCreate env s name = .ok (0, s')) :
    ∃ n i b, s.handle = some n ∧ findInode s.inodes = some i ∧ (∀ c, Allocated s s' i c ↔ c = b) ∧
      1 ≤ b ∧ b ≤ 8191 ∧
      (Decoded ((s'.files n).block (s'.indexAt i)) b ↔ ∀ k, 512 ≤ k → k < 1024 → env.stack k = 0) ∧
      (∀ k, createTransfer.array ≤ k → k < createTransfer.copied →
        ((s'.files n).block (s'.indexAt i)).byte k = env.stack k) ∧
      ¬ createTransfer.Fits ∧ ¬ deleteTransfer.Fits ∧ readTransfer.Fits ∧ writeTransfer.Fits ∧
      ¬ IndexIntact s' n i b := by
  obtain ⟨n, hopen⟩ := handle_of_create h
  obtain ⟨loc, num, bitmap, hreserves, ⟨hr, -⟩ | ⟨-, i, d, a, b, hloc, hnum, hab, hfound, hs'⟩⟩ :=
    create_reserves hopen h
  · exact absurd hr (by decide)
  have hltb : b < 8192 := hfound.data
  have hindex : s'.indexAt i = a := hs' ▸ hfound.indexAt
  have hblock : (s'.files n).block a = indexBlock env b := by
    rw [hs', created_file, File.write_self]
  have hbitmap : s'.usedBlocksBitmap = bitmap := by
    rw [hs']
    rfl
  have hcopies : ¬ createTransfer.Fits ∧ ¬ deleteTransfer.Fits ∧ readTransfer.Fits ∧
      writeTransfer.Fits := by
    unfold Transfer.Fits
    decide
  refine ⟨n, i, b, hopen, hfound.inode, ?_, by omega, by omega, ?_, ?_, hcopies.1, hcopies.2.1,
    hcopies.2.2.1, hcopies.2.2.2, fun hintact => hcopies.1 hintact.2.1⟩
  · intro c
    unfold Allocated
    rw [hindex, hbitmap, hreserves.marked, hloc, hnum]
    constructor
    · rintro ⟨hfree, htaken | hfirst | hsecond, hne⟩
      · rw [hfree] at htaken
        cases htaken
      · exact absurd (Int.ofNat_inj.mp hfirst) hne
      · exact Int.ofNat_inj.mp hsecond
    · rintro rfl
      exact ⟨hfound.dataFree, .inr (.inr rfl), hfound.ne.symm⟩
  · rw [hindex, hblock]
    exact decoded_indexBlock_iff env (by omega)
  · intro k hlow hhigh
    rw [hindex, hblock]
    exact indexBlock_behind env b hlow hhigh

/-- A new disk that is mounted. -/
def newDisk : State :=
  (last (.boot fun _ => .empty) (trail Session.step (.boot fun _ => .empty)
    ([.makeFs (some disk0), .mountFs (some disk0)].map fun c => (Env.plain, c)))).state

/-- The memory behind the array is zero. -/
theorem index_block_decoded_newDisk : ∃ s' n i b, fsCreate .plain newDisk nameA = .ok (0, s') ∧
    Decoded ((s'.files n).block (s'.indexAt i)) b ∧ ¬ IndexIntact s' n i b := by
  have hcreate : passes (fun p => p.1 = 0) (fsCreate .plain newDisk nameA) = true := by
    decide +kernel
  obtain ⟨⟨r, s'⟩, hcall, hret⟩ := ok_of_passes hcreate
  obtain rfl : r = 0 := of_decide_eq_true hret
  obtain ⟨n, i, b, -, -, -, -, -, hdecoded, -, -, -, -, -, hnot⟩ := index_block_decoded_iff hcall
  exact ⟨s', n, i, b, hcall, hdecoded.mpr fun _ _ _ => rfl, hnot⟩

/-- Something else is behind the array. -/
theorem not_indexIntact_stack : ∃ s' i b,
    fsCreate { Env.plain with stack := fun _ => 1 } newDisk nameA = .ok (0, s') ∧
    newDisk.handle = some disk0 ∧ findInode newDisk.inodes = some i ∧ Allocated newDisk s' i b ∧
    ¬ Decoded ((s'.files disk0).block (s'.indexAt i)) b ∧ ¬ IndexIntact s' disk0 i b := by
  have hcreate : passes (fun p => p.1 = 0 ∧ p.2.indexAt ⟨0, by decide⟩ = 1 ∧
      ((p.2.files disk0).block 1).byte 512 ≠ 0)
      (fsCreate { Env.plain with stack := fun _ => 1 } newDisk nameA) = true := by
    decide +kernel
  obtain ⟨⟨r, s'⟩, hcall, htest⟩ := ok_of_passes hcreate
  obtain ⟨rfl, hindex, hbyte⟩ := of_decide_eq_true htest
  have hopen : newDisk.handle = some disk0 := by decide +kernel
  have hinode : findInode newDisk.inodes = some ⟨0, by decide⟩ := by decide +kernel
  obtain ⟨loc, num, bitmap, -, ⟨hr, -⟩ | ⟨-, i, d, a, b, -, -, -, hfound, hs'⟩⟩ :=
    create_reserves hopen hcall
  · exact absurd hr (by decide)
  have hi : i = ⟨0, by decide⟩ := Option.some.inj (hfound.inode.symm.trans hinode)
  have ha : s'.indexAt i = a := hs' ▸ hfound.indexAt
  have hnot : ¬ Decoded ((s'.files disk0).block (s'.indexAt i)) b := by
    rw [hi, hindex]
    intro hdecoded
    exact hbyte ((inodeBlocks_eq_zero_iff _ 128).mp (hdecoded.2 128 (by decide)) 0 (by decide))
  refine ⟨s', i, b, hcall, hopen, hfound.inode, ⟨hfound.dataFree, ?_, ?_⟩, hnot, fun h => hnot h.1⟩
  · rw [hs']
    exact hfound.dataMarked
  · rw [ha]
    exact hfound.ne.symm

end OSChallenges.FileSystem
