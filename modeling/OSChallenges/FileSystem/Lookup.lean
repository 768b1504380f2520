import OSChallenges.FileSystem.Bitmap

/-!
# Searching tables and decoding index blocks

What the search functions find, and what the calls that read an index block see in the one that
`fs_create` has written.
-/

namespace OSChallenges.FileSystem

open Records Words

/-! ### The tables -/

def Inode.used (i : Inode) : Prop := i.isUsed ≠ 0

def DirEntry.named (e : DirEntry) : Prop := e.name 0 ≠ 0

section

variable {inodes : Fin maxFiles → Inode} {directory : Fin maxFiles → DirEntry} {filename : CString}
  {fds : Fin maxDescriptors → FileDescriptor} {i d : Fin maxFiles} {l : List (Fin maxFiles)}
  {check : Bool} {found : Option (Fin maxFiles)}

theorem findInode_unused (h : findInode inodes = some i) : ¬ (inodes i).used := by
  have hzero := List.find?_some h
  simpa [Inode.used] using hzero

theorem findFD_unused {fd : Fin maxDescriptors} (h : findFD fds = some fd) :
    (fds fd).isUsed = false := by
  simpa using List.find?_some h

theorem scanDirectory_new (hfound : ∀ d, found = some d → ¬ (directory d).named)
    (h : scanDirectory directory true filename l check found = some d) :
    ¬ (directory d).named := by
  induction l generalizing check found with
  | nil => exact hfound d h
  | cons i rest ih =>
    rw [scanDirectory] at h
    by_cases hmatch : ¬ (directory i).name 0 = 0 ∧ filename.chars = (directory i).cName
    · rw [if_pos hmatch] at h
      cases h
    · simp only [if_neg hmatch] at h
      apply ih _ h
      intro e he
      split at he
      · rename_i hfree
        cases he
        exact fun hnamed => hnamed hfree.2
      · exact hfound e he

theorem scanDirectory_fresh (h : scanDirectory directory true filename l check found = some d)
    (hi : i ∈ l) (hnamed : (directory i).named) : (directory i).cName ≠ filename.chars := by
  induction l generalizing check found with
  | nil => cases hi
  | cons j rest ih =>
    rw [scanDirectory] at h
    by_cases hmatch : ¬ (directory j).name 0 = 0 ∧ filename.chars = (directory j).cName
    · rw [if_pos hmatch] at h
      cases h
    · simp only [if_neg hmatch] at h
      rcases List.mem_cons.mp hi with rfl | hrest
      · exact fun heq => hmatch ⟨hnamed, heq.symm⟩
      · exact ih h hrest

theorem scanDirectory_old
    (hfound : ∀ d, found = some d → (directory d).named ∧ filename.chars = (directory d).cName)
    (h : scanDirectory directory false filename l false found = some d) :
    (directory d).named ∧ filename.chars = (directory d).cName := by
  induction l generalizing found with
  | nil => exact hfound d h
  | cons i rest ih =>
    rw [scanDirectory] at h
    by_cases hmatch : ¬ (directory i).name 0 = 0 ∧ filename.chars = (directory i).cName
    · simp only [if_pos hmatch] at h
      apply ih _ (by simpa using h)
      rintro e ⟨rfl⟩
      exact hmatch
    · simp only [if_neg hmatch] at h
      exact ih hfound (by simpa using h)

theorem scanDirectory_only (hnamed : (directory d).named)
    (hname : filename.chars = (directory d).cName)
    (honly : ∀ e, (directory e).named → filename.chars = (directory e).cName → e = d)
    (hd : d ∈ l ∨ found = some d) :
    scanDirectory directory false filename l false found = some d := by
  induction l generalizing found with
  | nil =>
    obtain hmem | hfound := hd
    · cases hmem
    · exact hfound
  | cons i rest ih =>
    rw [scanDirectory]
    by_cases hmatch : ¬ (directory i).name 0 = 0 ∧ filename.chars = (directory i).cName
    · obtain rfl : i = d := honly i hmatch.1 hmatch.2
      simp only [if_pos hmatch]
      simpa using ih (.inr rfl)
    · have hi : i ≠ d := by
        rintro rfl
        exact hmatch ⟨hnamed, hname⟩
      simp only [if_neg hmatch]
      have hrest : d ∈ rest ∨ found = some d :=
        hd.imp_left fun hmem => (List.mem_cons.mp hmem).resolve_left fun heq => hi heq.symm
      simpa using ih hrest

theorem findDirectory_new (h : findDirectory directory true filename = some d) :
    ¬ (directory d).named :=
  scanDirectory_new (fun _ hnone => by cases hnone) h

theorem findDirectory_fresh (h : findDirectory directory true filename = some d)
    (hnamed : (directory i).named) : (directory i).cName ≠ filename.chars :=
  scanDirectory_fresh h (List.mem_finRange i) hnamed

theorem findDirectory_old (h : findDirectory directory false filename = some d) :
    (directory d).named ∧ filename.chars = (directory d).cName :=
  scanDirectory_old (fun _ hnone => by cases hnone) h

theorem findDirectory_only (hnamed : (directory d).named)
    (hname : filename.chars = (directory d).cName)
    (honly : ∀ e, (directory e).named → filename.chars = (directory e).cName → e = d) :
    findDirectory directory false filename = some d :=
  scanDirectory_only hnamed hname honly (.inl (List.mem_finRange d))

theorem exists_findFD {fd : Fin maxDescriptors} (h : (fds fd).isUsed = false) :
    ∃ fd', findFD fds = some fd' := by
  apply Option.isSome_iff_exists.mp
  unfold findFD
  rw [List.find?_isSome]
  exact ⟨fd, List.mem_finRange fd, decide_eq_true h⟩

end

/-! ### Names -/

/-- `strcpy` of up to 15 characters gives the entry the name. -/
theorem takeWhile_copyName (old : Fin 16 → UInt8) {name : CString} (h : name.chars.length ≤ 15) :
    (List.ofFn (copyName old name)).takeWhile (· ≠ 0) = name.chars := by
  have hsplit : List.ofFn (copyName old name) =
      name.chars ++ 0 :: (List.ofFn (copyName old name)).drop (name.chars.length + 1) := by
    apply List.ext_getElem
    · simp only [List.length_append, List.length_cons, List.length_drop, List.length_ofFn]
      omega
    · intro k hk hk'
      rw [List.getElem_ofFn]
      by_cases hlt : k < name.chars.length
      · rw [List.getElem_append_left hlt, copyName, if_pos hlt]
        exact (List.getElem_eq_getD 0).symm
      · rw [List.getElem_append_right (by omega)]
        by_cases heq : k = name.chars.length
        · have hzero : k - name.chars.length = 0 := by omega
          simp only [hzero, List.getElem_cons_zero]
          rw [copyName, if_neg hlt, if_pos heq]
        · obtain ⟨j, hj⟩ : ∃ j, k = name.chars.length + 1 + j := ⟨k - (name.chars.length + 1), by omega⟩
          subst hj
          have hsucc : name.chars.length + 1 + j - name.chars.length = j + 1 := by omega
          simp only [hsucc, List.getElem_cons_succ, List.getElem_drop, List.getElem_ofFn]
  have hall : ∀ c ∈ name.chars, decide (c ≠ 0) = true := by
    intro c hc
    exact decide_eq_true fun hzero => name.terminated (hzero ▸ hc)
  rw [hsplit, List.takeWhile_append_of_pos hall, List.takeWhile_cons_of_neg (by simp),
    List.append_nil]

theorem copyName_last (old : Fin 16 → UInt8) {name : CString} (h : name.chars.length ≤ 15)
    (hold : old 15 = 0) : copyName old name 15 = 0 := by
  have hlast : ¬ (15 : Fin 16).val < name.chars.length := Nat.not_lt.mpr h
  unfold copyName
  rw [if_neg hlast]
  split
  · rfl
  · exact hold

/-! ### Blocks -/

theorem Block.byte_ofBytes (bytes : Nat → UInt8) {k : Nat} (hk : k < blockSize) :
    (Block.ofBytes bytes).byte k = bytes k := by
  rw [Block.byte, dif_pos hk]
  rfl

theorem metadataCodec_size : metadataCodec.size = 2694 := rfl

/-- What is copied to block 0 is what is copied back. -/
theorem readBuf_writeBuf (env : Env) (m : Metadata) : readBuf (writeBuf env m) = m := by
  apply metadataCodec.decode_of
  intro k hk
  have hlt : k < blockSize := by
    rw [metadataCodec_size] at hk
    unfold blockSize
    omega
  rw [writeBuf, Block.byte_ofBytes _ hlt, if_pos hk]

theorem indexBlock_byte (env : Env) (blockNum : Nat) {k : Nat} (hk : k < 512) :
    (indexBlock env blockNum).byte k = if k < 2 then byteOf (blockNum % 2 ^ 16) k else 0 := by
  have hsize : (array 256 u16).size = 512 := rfl
  have hlt : k < blockSize := by
    unfold blockSize
    omega
  rw [indexBlock, Block.byte_ofBytes _ hlt, hsize, if_pos hk]
  have hentry : k / u16.size < 256 := by
    rw [show u16.size = 2 from rfl]
    omega
  show (if h : k / u16.size < 256 then _ else _) = _
  rw [dif_pos hentry]
  show byteOf (BitVec.toNat (if _ then _ else _)) (k % 2) = _
  by_cases hfirst : k < 2
  · rw [if_pos hfirst, if_pos (Fin.ext (Nat.div_eq_of_lt hfirst)), Nat.mod_eq_of_lt hfirst]
    rw [BitVec.ofInt_natCast, BitVec.toNat_ofNat]
  · rw [if_neg hfirst, if_neg]
    · exact by simp [byteOf]
    · intro hzero
      have hdiv : k / 2 = 0 := congrArg Fin.val hzero
      omega

/-- The first entry is the block that has been allocated; the entries behind it in the first half are
zero. -/
theorem inodeBlocks_indexBlock (env : Env) {blockNum : Nat} (hlt : blockNum < 2 ^ 16) (k : Fin 256)
    (hk : k.val < 128) : inodeBlocks (indexBlock env blockNum) k =
      if k = 0 then BitVec.ofNat 32 blockNum else 0 := by
  apply u32.decode_of
  intro j hj
  have hj' : j < 4 := hj
  show (indexBlock env blockNum).byte (k * 4 + j) = byteOf (BitVec.toNat (if _ then _ else _)) j
  rw [indexBlock_byte env blockNum (by omega), Nat.mod_eq_of_lt hlt]
  by_cases hzero : k = 0
  · subst hzero
    rw [if_pos rfl, BitVec.toNat_ofNat, Nat.mod_eq_of_lt (by omega)]
    show (if 0 * 4 + j < 2 then byteOf blockNum (0 * 4 + j) else 0) = _
    rw [Nat.zero_mul, Nat.zero_add]
    by_cases hlow : j < 2
    · rw [if_pos hlow]
    · rw [if_neg hlow, byteOf]
      have hpow : 256 ^ 2 ≤ 256 ^ j := Nat.pow_le_pow_right (by decide) (by omega)
      rw [Nat.div_eq_of_lt (by omega)]
      rfl
  · have hpos : k.val ≠ 0 := fun h => hzero (Fin.ext h)
    rw [if_neg hzero, if_neg (by omega)]
    simp [byteOf]

end OSChallenges.FileSystem
