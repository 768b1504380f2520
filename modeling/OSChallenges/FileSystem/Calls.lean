import OSChallenges.FileSystem.Consistent
import OSChallenges.Library.Outcomes

/-!
# What the calls do

While a disk is open that is in order, each call does one thing: `fs_create` adds a file, `fs_delete`
takes one away, `fs_write` changes a data block. Here are the states they lead to, one lemma a call.
-/

namespace OSChallenges.FileSystem

open Records Words Outcomes

variable {env : Env} {s s' : State} {n name : CString} {r : Int}

/-! ### Blocks of the open disk -/

theorem File.write_size {f : File} {b : Nat} (hb : b < f.size) (buf : Block) :
    (f.write b buf).size = f.size :=
  Nat.max_eq_left hb

theorem File.write_self (f : File) (b : Nat) (buf : Block) : (f.write b buf).block b = buf :=
  if_pos rfl

theorem File.write_other {f : File} {b c : Nat} (hne : c ≠ b) (hc : c < f.size) (buf : Block) :
    (f.write b buf).block c = f.block c := by
  show (if c = b then buf else if c < f.size then f.block c else _) = _
  rw [if_neg hne, if_pos hc]

theorem blockRead_eq {b : Nat} (hopen : s.handle = some n) (hb : b < diskBlocks)
    (hsize : (s.files n).size = diskBlocks) (buf : Block) :
    s.blockRead b buf = some ((s.files n).block b) := by
  have hin : ¬ ((b : Int) < 0 ∨ (diskBlocks : Int) ≤ b) := by omega
  simp only [State.blockRead, hopen]
  rw [if_neg hin, Int.toNat_natCast, File.read, if_pos (hsize ▸ hb)]

theorem blockWrite_eq {b : Nat} (hopen : s.handle = some n) (hb : b < diskBlocks) (buf : Block) :
    s.blockWrite b buf =
      some { s with files := Function.update s.files n ((s.files n).write b buf) } := by
  have hin : ¬ ((b : Int) < 0 ∨ (diskBlocks : Int) ≤ b) := by omega
  simp only [State.blockWrite, hopen]
  rw [if_neg hin, Int.toNat_natCast]

/-! ### `fs_create` -/

/-- The state after a file has been created. -/
def created (env : Env) (s : State) (n name : CString) (i d : Fin maxFiles) (a b : Nat)
    (bitmap : Bitmap) : State :=
  { s with
    usedBlocksBitmap := bitmap
    inodes := Function.update s.inodes i
      { s.inodes i with isUsed := 1, singleIndirectBlock := BitVec.ofInt 16 a, fileSize := 0 }
    directory := Function.update s.directory d
      { s.directory d with
        isUsed := 1
        inodeNum := BitVec.ofNat 16 i
        name := copyName (s.directory d).name name }
    files := Function.update s.files n ((s.files n).write a (indexBlock env b)) }

/-- What `fs_create` has found: a free inode, a free entry and two free blocks. -/
structure Found (s : State) (name : CString) (i d : Fin maxFiles) (a b : Nat) (bitmap : Bitmap) :
    Prop where
  length : name.chars.length ≤ 15
  inode : findInode s.inodes = some i
  entry : findDirectory s.directory true name = some d
  index : a < diskBlocks
  data : b < diskBlocks
  ne : a ≠ b
  indexFree : taken s.usedBlocksBitmap a = false
  dataFree : taken s.usedBlocksBitmap b = false
  indexMarked : taken bitmap a = true
  dataMarked : taken bitmap b = true

/-- What `fs_create` needs on a disk that is mounted. -/
def Creatable (s : State) (name : CString) : Prop :=
  name.chars.length ≤ 15 ∧ (findInode s.inodes).isSome ∧
    (findDirectory s.directory true name).isSome ∧ TwoFree s.usedBlocksBitmap

/-- The tables after a creation that has found everything. -/
def entered (s : State) (name : CString) (i d : Fin maxFiles) (loc : Int) (bitmap : Bitmap) : State :=
  { s with
    usedBlocksBitmap := bitmap
    inodes := Function.update s.inodes i
      { s.inodes i with isUsed := 1, singleIndirectBlock := BitVec.ofInt 16 loc, fileSize := 0 }
    directory := Function.update s.directory d
      { s.directory d with
        isUsed := 1
        inodeNum := BitVec.ofNat 16 i
        name := copyName (s.directory d).name name } }

/-- The two blocks are marked first, whatever happens then. If nothing is missing, the tables are filled
before the index block is written. -/
theorem create_spec (h : fsCreate env s name = .ok (r, s')) :
    ∃ loc num bitmap, Reserves s.usedBlocksBitmap loc num bitmap ∧
      (r = -1 ∧ s' = { s with usedBlocksBitmap := bitmap } ∧
          ¬ (s.readyForUse = true ∧ Creatable s name) ∨
        ∃ i d, s.readyForUse = true ∧ Creatable s name ∧ findInode s.inodes = some i ∧
          findDirectory s.directory true name = some d ∧
          ((entered s name i d loc bitmap).blockWrite loc (indexBlock env num) = none ∧ r = -1 ∧
              s' = entered s name i d loc bitmap ∨
            (entered s name i d loc bitmap).blockWrite loc (indexBlock env num) = some s' ∧ r = 0)) := by
  obtain ⟨bitmap₁, bitmap₂, hwrite₁, hwrite₂, hreserves⟩ := exists_reserve s.usedBlocksBitmap
  refine ⟨_, _, bitmap₂, hreserves, ?_⟩
  unfold fsCreate at h
  simp only [hwrite₁, hwrite₂, ok_bind] at h
  split at h
  · rename_i hready
    cases ok_of_pure h
    refine .inl ⟨rfl, rfl, fun hneeds => ?_⟩
    rw [hneeds.1] at hready
    cases hready
  rename_i hready
  split at h
  · rename_i hlength
    cases ok_of_pure h
    exact .inl ⟨rfl, rfl, fun hneeds => absurd hneeds.2.1 (by omega)⟩
  rename_i hlength
  split at h
  · rename_i i d hinode hentry
    split at h
    · rename_i hnone
      cases ok_of_pure h
      refine .inl ⟨rfl, rfl, fun hneeds => ?_⟩
      obtain ⟨-, hfull⟩ | ⟨a, b, -, hb, -⟩ := hreserves.found
      · exact hfull hneeds.2.2.2.2
      · omega
    · rename_i hsome
      have hfree : TwoFree s.usedBlocksBitmap := by
        obtain ⟨hnone, -⟩ | ⟨a, b, -, -, hab, hlt, hfreea, hfreeb⟩ := hreserves.found
        · exact absurd hnone hsome
        · exact ⟨b, hlt, a, hab, hfreea, hfreeb⟩
      refine .inr ⟨i, d, by simpa using hready,
        ⟨by omega, by rw [hinode]; rfl, by rw [hentry]; rfl, hfree⟩, hinode, hentry, ?_⟩
      split at h
      · rename_i hwrite
        cases ok_of_pure h
        exact .inl ⟨hwrite, rfl, rfl⟩
      · rename_i t hwrite
        cases ok_of_pure h
        exact .inr ⟨hwrite, rfl⟩
  · rename_i hmissing
    cases ok_of_pure h
    refine .inl ⟨rfl, rfl, fun hneeds => ?_⟩
    obtain ⟨i, hi⟩ := Option.isSome_iff_exists.mp hneeds.2.2.1
    obtain ⟨d, hd⟩ := Option.isSome_iff_exists.mp hneeds.2.2.2.1
    exact hmissing i d hi hd

theorem create_reserves (hopen : s.handle = some n) (h : fsCreate env s name = .ok (r, s')) :
    ∃ loc num bitmap, Reserves s.usedBlocksBitmap loc num bitmap ∧
      (r = -1 ∧ s' = { s with usedBlocksBitmap := bitmap } ∧
          ¬ (s.readyForUse = true ∧ Creatable s name) ∨
        r = 0 ∧ ∃ i d, ∃ a b : Nat, loc = a ∧ num = b ∧ a < b ∧ Found s name i d a b bitmap ∧
          s' = created env s n name i d a b bitmap) := by
  obtain ⟨loc, num, bitmap, hreserves, hfails | ⟨i, d, -, hneeds, hinode, hentry, hblock⟩⟩ :=
    create_spec h
  · exact ⟨loc, num, bitmap, hreserves, .inl hfails⟩
  · obtain ⟨-, hfull⟩ | ⟨a, b, ha, hb, hab, hltb, hfreea, hfreeb⟩ := hreserves.found
    · exact absurd hneeds.2.2.2 hfull
    have hmarked : ∀ q : Nat, (q : Int) = loc ∨ (q : Int) = num → taken bitmap q = true :=
      fun q hq => (hreserves.marked q).mpr (.inr hq)
    have hwrite : (entered s name i d loc bitmap).blockWrite loc (indexBlock env num) =
        some (created env s n name i d a b bitmap) := by
      rw [ha, hb]
      exact blockWrite_eq (s := entered s name i d a bitmap) (n := n) (b := a) hopen (by omega) _
    rw [hwrite] at hblock
    obtain ⟨hnone, -⟩ | ⟨heq, hr⟩ := hblock
    · cases hnone
    · exact ⟨loc, num, bitmap, hreserves, .inr ⟨hr, i, d, a, b, ha, hb, hab, ⟨hneeds.1, hinode, hentry,
        by omega, hltb, by omega, hfreea, hfreeb, hmarked a (.inl ha.symm), hmarked b (.inr hb.symm)⟩,
        (Option.some.inj heq).symm⟩⟩

theorem create_cases (hopen : s.handle = some n) (h : fsCreate env s name = .ok (r, s')) :
    ∃ bitmap, (∀ q, taken s.usedBlocksBitmap q = true → taken bitmap q = true) ∧
      (r = -1 ∧ s' = { s with usedBlocksBitmap := bitmap } ∨
        r = 0 ∧ ∃ i d a b, Found s name i d a b bitmap ∧ s' = created env s n name i d a b bitmap) := by
  obtain ⟨loc, num, bitmap, hreserves, ⟨hr, hs', -⟩ | ⟨hr, i, d, a, b, -, -, -, hfound, hs'⟩⟩ :=
    create_reserves hopen h
  · exact ⟨bitmap, fun q hq => (hreserves.marked q).mpr (.inl hq), .inl ⟨hr, hs'⟩⟩
  · exact ⟨bitmap, fun q hq => (hreserves.marked q).mpr (.inl hq), .inr ⟨hr, i, d, a, b, hfound, hs'⟩⟩

theorem created_file (env : Env) (s : State) (n name : CString) (i d : Fin maxFiles) (a b : Nat)
    (bitmap : Bitmap) :
    (created env s n name i d a b bitmap).files n = (s.files n).write a (indexBlock env b) :=
  Function.update_self ..

section

variable {i d : Fin maxFiles} {a b : Nat} {bitmap : Bitmap}

theorem pos_of_free {m : Metadata} {f : File} (h : Consistent m f)
    (hfree : taken m.usedBlocksBitmap a = false) : 1 ≤ a := by
  have hne : a ≠ 0 := by
    rintro rfl
    rw [h.metadata] at hfree
    cases hfree
  omega

theorem Found.indexAt (hf : Found s name i d a b bitmap) :
    (created env s n name i d a b bitmap).indexAt i = a := by
  have hlt : a < 8192 := hf.index
  unfold Metadata.indexAt created
  simp only [Function.update_self]
  rw [BitVec.ofInt_natCast, BitVec.toNat_ofNat, Nat.mod_eq_of_lt (by omega)]

theorem created_directory_self : (created env s n name i d a b bitmap).directory d =
    { s.directory d with
      isUsed := 1
      inodeNum := BitVec.ofNat 16 i
      name := copyName (s.directory d).name name } := Function.update_self ..

theorem created_leads : (created env s n name i d a b bitmap).leadsTo d i := by
  have hi := i.isLt
  unfold maxFiles at hi
  unfold Metadata.leadsTo
  rw [created_directory_self]
  show (BitVec.ofNat 16 i).toNat = i
  rw [BitVec.toNat_ofNat, Nat.mod_eq_of_lt (by omega)]

theorem created_used : (created env s n name i d a b bitmap).used i := by
  have hself : (created env s n name i d a b bitmap).inodes i =
      { s.inodes i with isUsed := 1, singleIndirectBlock := BitVec.ofInt 16 a, fileSize := 0 } :=
    Function.update_self ..
  have hone : (1 : UInt8) ≠ 0 := by decide
  unfold Metadata.used
  rw [hself]
  exact hone

theorem Found.cName (hf : Found s name i d a b bitmap) :
    ((created env s n name i d a b bitmap).directory d).cName = name.chars := by
  rw [created_directory_self]
  exact takeWhile_copyName _ hf.length

theorem Found.added (hf : Found s name i d a b bitmap) (h : Consistent s.toMetadata (s.files n))
    (hold : ∀ q, taken s.usedBlocksBitmap q = true → taken bitmap q = true) :
    Added s.toMetadata (s.files n) i d a b (created env s n name i d a b bitmap).toMetadata
      ((created env s n name i d a b bitmap).files n) := by
  have hltb : b < 2 ^ 16 := Nat.lt_trans hf.data (by decide)
  have hindex : (created env s n name i d a b bitmap).toMetadata.indexAt i = a := hf.indexAt
  have hentry : ∀ k : Fin 256, k.val < 128 → (created env s n name i d a b bitmap).toMetadata.entryAt
      ((created env s n name i d a b bitmap).files n) i k = if k = 0 then BitVec.ofNat 32 b else 0 := by
    intro k hk
    rw [Metadata.entryAt, hindex, created_file, File.write_self, inodeBlocks_indexBlock env hltb k hk]
  refine
    { fresh := findInode_unused hf.inode
      free := findDirectory_new hf.entry
      index := hindex
      data := ?_
      rest := ?_
      leads := created_leads
      name := fun e he heq => findDirectory_fresh hf.entry he (heq.trans hf.cName)
      terminated := ?_
      inodes := fun j hj => Function.update_of_ne hj ..
      directory := fun e he => Function.update_of_ne he ..
      blocks := ?_
      size := ?_
      ne := hf.ne
      indexFree := hf.indexFree
      dataFree := hf.dataFree
      indexUse := ⟨pos_of_free h hf.indexFree, hf.index, hf.indexMarked⟩
      dataUse := ⟨pos_of_free h hf.dataFree, hf.data, hf.dataMarked⟩
      marked := hold }
  · rw [Metadata.dataAt, hentry 0 (by decide), if_pos rfl, BitVec.toNat_ofNat,
      Nat.mod_eq_of_lt (by omega)]
  · intro k hpos hlt
    have hne : k ≠ 0 := by
      rintro rfl
      exact absurd hpos (by decide)
    rw [hentry k hlt, if_neg hne]
  · rw [created_directory_self]
    exact copyName_last _ hf.length (h.terminated d)
  · intro c hc hne
    rw [created_file, File.write_other hne (h.size ▸ hc)]
  · rw [created_file, File.write_size (h.size ▸ hf.index)]

theorem Found.consistent (hf : Found s name i d a b bitmap)
    (h : Consistent s.toMetadata (s.files n))
    (hold : ∀ q, taken s.usedBlocksBitmap q = true → taken bitmap q = true) :
    Consistent (created env s n name i d a b bitmap).toMetadata
      ((created env s n name i d a b bitmap).files n) :=
  h.add (hf.added h hold) created_used

end

/-! ### `fs_delete` -/

/-- The state after a file has been deleted. -/
def deleted (s : State) (n : CString) (i d : Fin maxFiles) (a b : Nat) (empty : Block)
    (bitmap : Bitmap) : State :=
  { s with
    usedBlocksBitmap := bitmap
    inodes := Function.update s.inodes i
      { s.inodes i with isUsed := 0, singleIndirectBlock := 0, fileSize := 0 }
    directory := Function.update s.directory d
      { s.directory d with
        isUsed := 0
        inodeNum := 0
        name := fun k => if k.val < 15 then 0 else (s.directory d).name k }
    files := Function.update s.files n (((s.files n).write b empty).write a empty) }

theorem clearBlocks_two {b : Nat} {entries rest : List (BitVec 32)} (empty : Block)
    (hopen : s.handle = some n) (hpos : 1 ≤ b) (hb : b < diskBlocks)
    (hentries : entries = BitVec.ofNat 32 b :: 0 :: rest) :
    ∃ bitmap, clearBlocks empty entries s = .ok (true, { s with
        usedBlocksBitmap := bitmap
        files := Function.update s.files n ((s.files n).write b empty) }) ∧
      ∀ q, taken bitmap q = if q = b then false else taken s.usedBlocksBitmap q := by
  have hlt : b < 8192 := hb
  have hnum : (BitVec.ofNat 32 b).toNat = b := by
    rw [BitVec.toNat_ofNat, Nat.mod_eq_of_lt (by omega)]
  have hne : BitVec.ofNat 32 b ≠ 0 := by
    intro hzero
    rw [hzero] at hnum
    have hb0 : 0 = b := hnum
    omega
  obtain ⟨bitmap, hwrite, htaken⟩ := exists_write s.usedBlocksBitmap hb false
  refine ⟨bitmap, ?_, htaken⟩
  rw [hentries, clearBlocks, if_neg hne, hnum, toInt32_of_lt (by omega), blockWrite_eq hopen hb]
  simp only [hwrite, ok_bind]
  rw [clearBlocks, if_pos rfl]
  rfl

theorem entries_eq {m : Metadata} {f : File} {i : Fin maxFiles} (h : Consistent m f)
    (hi : m.used i) : ∃ rest, List.ofFn (inodeBlocks (f.block (m.indexAt i))) =
      BitVec.ofNat 32 (m.dataAt f i) :: 0 :: rest := by
  have hfirst : inodeBlocks (f.block (m.indexAt i)) 0 = BitVec.ofNat 32 (m.dataAt f i) := by
    rw [Metadata.dataAt, BitVec.ofNat_toNat, BitVec.setWidth_eq]
    rfl
  have hsecond : inodeBlocks (f.block (m.indexAt i)) 1 = 0 := h.rest i hi 1 (by decide) (by decide)
  refine ⟨List.ofFn fun k : Fin 254 => inodeBlocks (f.block (m.indexAt i)) k.succ.succ, ?_⟩
  rw [List.ofFn_succ, List.ofFn_succ, hfirst]
  congr 2

/-- What a deletion finds: the entry of a file that is not open. -/
structure Closed (s : State) (name : CString) (i d : Fin maxFiles) : Prop where
  entry : findDirectory s.directory false name = some d
  leads : s.leadsTo d i
  closed : ∀ fd, (s.fds fd).isUsed = true → (s.fds fd).inodeNum ≠ (s.directory d).inodeNum

/-- The index block that is read names one data block. -/
theorem delete_found (env : Env) {i d : Fin maxFiles} {b : Nat} {block : Block} {rest : List (BitVec 32)}
    (hready : s.readyForUse = true) (hopen : s.handle = some n) (hclosed : Closed s name i d)
    (ha : s.indexAt i < diskBlocks)
    (hread : s.blockRead ((s.inodes i).singleIndirectBlock.toNat : Int) env.frame = some block)
    (hpos : 1 ≤ b) (hb : b < diskBlocks)
    (hentries : List.ofFn (inodeBlocks block) = BitVec.ofNat 32 b :: 0 :: rest) :
    ∃ bitmap, (∀ q, taken bitmap q = if q = s.indexAt i ∨ q = b then false
        else taken s.usedBlocksBitmap q) ∧
      fsDelete env s name =
        .ok (0, deleted s n i d (s.indexAt i) b (env.empty block) bitmap) := by
  obtain ⟨bitmap₁, hclear, htaken₁⟩ := clearBlocks_two (env.empty block) hopen hpos hb hentries
  obtain ⟨bitmap, hwrite, htaken⟩ := exists_write bitmap₁ ha false
  have hwrite' : writeUsedBlocksBit bitmap₁ ((s.inodes i).singleIndirectBlock.toNat : Int) false =
    .ok bitmap := hwrite
  refine ⟨bitmap, ?_, ?_⟩
  · intro q
    rw [htaken, htaken₁]
    by_cases hq : q = s.indexAt i
    · rw [if_pos hq, if_pos (.inl hq)]
    · by_cases hq' : q = b
      · rw [if_neg hq, if_pos hq', if_pos (.inr hq')]
      · rw [if_neg hq, if_neg hq', if_neg (by simp [hq, hq'])]
  · have hindex : index maxFiles ((s.directory d).inodeNum.toNat : Int) = .ok i := by
      have hleads := hclosed.leads
      rw [Metadata.leadsTo] at hleads
      rw [hleads]
      exact index_of_lt i.isLt
    have hnot : ¬ ((List.finRange maxDescriptors).any fun fd =>
        decide ((s.fds fd).inodeNum = (s.directory d).inodeNum ∧ (s.fds fd).isUsed = true)) = true := by
      rw [List.any_eq_true]
      rintro ⟨fd, -, hfd⟩
      obtain ⟨heq, hused⟩ := of_decide_eq_true hfd
      exact hclosed.closed fd hused heq
    unfold fsDelete
    simp only [hclosed.entry, hready, Bool.not_true, Bool.false_eq_true, if_false]
    rw [if_neg hnot, hindex, ok_bind, hread]
    simp only [hclear, ok_bind]
    rw [blockWrite_eq (b := (s.inodes i).singleIndirectBlock.toNat) (n := n) (by exact hopen) ha]
    simp only [Bool.not_true, Bool.false_eq_true, if_false, hwrite', ok_bind, Function.update_self,
      Function.update_idem, deleted, hready]
    rfl

theorem delete_closed (env : Env) {i d : Fin maxFiles} (hready : s.readyForUse = true)
    (hopen : s.handle = some n) (hcons : Consistent s.toMetadata (s.files n))
    (hclosed : Closed s name i d) : ∃ bitmap,
    (∀ q, taken bitmap q = if q = s.indexAt i ∨ q = s.dataAt (s.files n) i then false
      else taken s.usedBlocksBitmap q) ∧
    fsDelete env s name = .ok (0, deleted s n i d (s.indexAt i) (s.dataAt (s.files n) i)
      (env.empty ((s.files n).block (s.indexAt i))) bitmap) := by
  obtain ⟨j, hj, hused⟩ := hcons.named d (findDirectory_old hclosed.entry).1
  obtain rfl : i = j := Fin.ext (hclosed.leads.symm.trans hj)
  obtain ⟨-, hlt, -⟩ := hcons.index i hused
  obtain ⟨hposb, hltb, -⟩ := hcons.data i hused
  obtain ⟨rest, hrest⟩ := entries_eq hcons hused
  exact delete_found env hready hopen hclosed hlt (blockRead_eq hopen hlt hcons.size _) hposb hltb hrest

theorem delete_spec (hopen : s.handle = some n) (hcons : Consistent s.toMetadata (s.files n))
    (h : fsDelete env s name = .ok (r, s')) :
    r = -1 ∧ s' = s ∨ r = 0 ∧ ∃ i d bitmap, Closed s name i d ∧
      (∀ q, taken bitmap q = if q = s.indexAt i ∨ q = s.dataAt (s.files n) i then false
        else taken s.usedBlocksBitmap q) ∧
      s' = deleted s n i d (s.indexAt i) (s.dataAt (s.files n) i)
        (env.empty ((s.files n).block (s.indexAt i))) bitmap := by
  have hcall := h
  unfold fsDelete at h
  simp only at h
  split at h
  · cases ok_of_pure h
    exact .inl ⟨rfl, rfl⟩
  rename_i hready
  split at h
  · cases ok_of_pure h
    exact .inl ⟨rfl, rfl⟩
  rename_i d hentry
  split at h
  · cases ok_of_pure h
    exact .inl ⟨rfl, rfl⟩
  rename_i hopened
  obtain ⟨i, hleads, -⟩ := hcons.named d (findDirectory_old hentry).1
  have hclosed : Closed s name i d := by
    refine ⟨hentry, hleads, fun fd hused heq => hopened ?_⟩
    rw [List.any_eq_true]
    exact ⟨fd, List.mem_finRange fd, decide_eq_true ⟨heq, hused⟩⟩
  obtain ⟨bitmap, htaken, heq⟩ := delete_closed env (by simpa using hready) hopen hcons hclosed
  rw [heq] at hcall
  cases hcall
  exact .inr ⟨rfl, i, d, bitmap, hclosed, htaken, rfl⟩

theorem delete_cases (hopen : s.handle = some n) (hcons : Consistent s.toMetadata (s.files n))
    (h : fsDelete env s name = .ok (r, s')) :
    r = -1 ∧ s' = s ∨ r = 0 ∧ ∃ i d bitmap empty, Closed s name i d ∧
      (∀ q, taken bitmap q = if q = s.indexAt i ∨ q = s.dataAt (s.files n) i then false
        else taken s.usedBlocksBitmap q) ∧
      s' = deleted s n i d (s.indexAt i) (s.dataAt (s.files n) i) empty bitmap := by
  obtain hfails | ⟨hr, i, d, bitmap, hclosed, htaken, heq⟩ := delete_spec hopen hcons h
  · exact .inl hfails
  · exact .inr ⟨hr, i, d, bitmap, _, hclosed, htaken, heq⟩

theorem deleted_block {i d : Fin maxFiles} {a b c : Nat} {bitmap : Bitmap} (empty : Block)
    (hc : c < (s.files n).size) (hb : b < (s.files n).size) (hne : c ≠ a) (hne' : c ≠ b) :
    ((deleted s n i d a b empty bitmap).files n).block c = (s.files n).block c := by
  have hsize : ((s.files n).write b empty).size = (s.files n).size := File.write_size hb empty
  unfold deleted
  simp only [Function.update_self]
  rw [File.write_other hne (by omega), File.write_other hne' hc]

theorem Closed.used {i d : Fin maxFiles} (hclosed : Closed s name i d)
    (h : Consistent s.toMetadata (s.files n)) : s.used i := by
  obtain ⟨j, hj, hu⟩ := h.named d (findDirectory_old hclosed.entry).1
  rwa [show i = j from Fin.ext (hclosed.leads.symm.trans hj)]

section

variable {i d j e : Fin maxFiles} {a b : Nat} {empty : Block} {bitmap : Bitmap}

theorem deleted_directory_self : (deleted s n i d a b empty bitmap).directory d =
    { s.directory d with
      isUsed := 0
      inodeNum := 0
      name := fun k => if k.val < 15 then 0 else (s.directory d).name k } := Function.update_self ..

theorem deleted_not_named : ¬ (deleted s n i d a b empty bitmap).named d := by
  unfold Metadata.named
  rw [deleted_directory_self]
  exact fun hne => hne rfl

theorem deleted_not_used : ¬ (deleted s n i d a b empty bitmap).used i := by
  have hself : (deleted s n i d a b empty bitmap).inodes i =
      { s.inodes i with isUsed := 0, singleIndirectBlock := 0, fileSize := 0 } := Function.update_self ..
  unfold Metadata.used
  rw [hself]
  exact fun hne => hne rfl

theorem deleted_inode (hj : j ≠ i) : (deleted s n i d a b empty bitmap).inodes j = s.inodes j :=
  Function.update_of_ne hj ..

theorem deleted_used_iff (hj : j ≠ i) : (deleted s n i d a b empty bitmap).used j ↔ s.used j := by
  unfold Metadata.used
  rw [deleted_inode hj]

theorem deleted_indexAt (hj : j ≠ i) :
    (deleted s n i d a b empty bitmap).indexAt j = s.indexAt j := by
  unfold Metadata.indexAt
  rw [deleted_inode hj]

theorem deleted_entry (he : e ≠ d) :
    (deleted s n i d a b empty bitmap).directory e = s.directory e :=
  Function.update_of_ne he ..

theorem deleted_size (ha : a < (s.files n).size) (hb : b < (s.files n).size) :
    ((deleted s n i d a b empty bitmap).files n).size = (s.files n).size := by
  unfold deleted
  simp only [Function.update_self]
  rw [File.write_size (by rwa [File.write_size hb]), File.write_size hb]

end

theorem Closed.consistent {i d : Fin maxFiles} {bitmap : Bitmap} (hclosed : Closed s name i d)
    (h : Consistent s.toMetadata (s.files n)) (empty : Block)
    (htaken : ∀ q, taken bitmap q = if q = s.indexAt i ∨ q = s.dataAt (s.files n) i then false
      else taken s.usedBlocksBitmap q) :
    Consistent (deleted s n i d (s.indexAt i) (s.dataAt (s.files n) i) empty bitmap).toMetadata
      ((deleted s n i d (s.indexAt i) (s.dataAt (s.files n) i) empty bitmap).files n) := by
  have hnamed := (findDirectory_old hclosed.entry).1
  have hi := hclosed.used h
  obtain ⟨hpos, hlt, -⟩ := h.index i hi
  obtain ⟨hposb, hltb, -⟩ := h.data i hi
  have hsize := h.size
  apply h.keep
  · exact deleted_size (by omega) (by omega)
  · show taken bitmap 0 = true
    rw [htaken, if_neg (by omega)]
    exact h.metadata
  · intro j hj
    have hne : j ≠ i := fun heq => deleted_not_used (heq ▸ hj)
    have hold : s.used j := (deleted_used_iff hne).mp hj
    have hindex : s.indexAt j ≠ s.indexAt i := fun heq => hne (h.index_inj j i hold hi heq)
    have hdata : s.dataAt (s.files n) j ≠ s.dataAt (s.files n) i := fun heq =>
      hne (h.data_inj j i hold hi heq)
    have happ := h.apart j i hold hi
    have happ' := (h.apart i j hi hold).symm
    obtain ⟨-, hltj, hbit⟩ := h.index j hold
    refine ⟨hold, deleted_indexAt hne, ?_, ?_, ?_⟩
    · exact deleted_block empty (by omega) (by omega) hindex happ
    · show taken bitmap (s.indexAt j) = true
      rw [htaken, if_neg (by simp [hindex, happ])]
      exact hbit
    · show taken bitmap (s.dataAt (s.files n) j) = true
      rw [htaken, if_neg (by simp [hdata, happ'])]
      exact (h.data j hold).2.2
  · intro e he
    have hne : e ≠ d := fun heq => deleted_not_named (heq ▸ he)
    have hold : s.named e := by
      unfold Metadata.named at he ⊢
      rwa [deleted_entry hne] at he
    refine ⟨deleted_entry hne, ?_⟩
    intro j hleads hj
    have hji : j ≠ i := by
      rintro rfl
      exact hne (h.unique e d j hold hnamed hleads hclosed.leads)
    exact (deleted_used_iff hji).mpr hj
  · intro e
    by_cases he : e = d
    · rw [he, deleted_directory_self]
      exact h.terminated d
    · rw [deleted_entry he]
      exact h.terminated e

/-! ### `fs_write` and `fs_read` -/

theorem eq_of_index {k : Nat} {x : Int} {j : Fin k} (h : index k x = .ok j) : x = j := by
  unfold index at h
  split at h
  · rename_i hin
    cases h
    exact (Int.toNat_of_nonneg hin.1).symm
  · cases h

theorem blockIndex_natCast (offset : Nat) : blockIndex offset = (offset / blockSize : Nat) := rfl

theorem remOffset_natCast (offset : Nat) : remOffset offset = (offset % blockSize : Nat) := by
  have h := Nat.div_add_mod' offset blockSize
  rw [remOffset, blockIndex_natCast]
  omega

/-- The block that a position of a file is in, as the index block has it. -/
def target (m : Metadata) (f : File) (i : Fin maxFiles) (offset : Nat) : Nat :=
  if offset < blockSize then m.dataAt f i else 0

/-- The state after a write. -/
def written (s : State) (n : CString) (fd : Fin maxDescriptors) (i : Fin maxFiles) (t : Nat)
    (b : Block) (nbyte : Int) : State :=
  { s with
    fds := Function.update s.fds fd { s.fds fd with offset := (s.fds fd).offset + nbyte }
    inodes := Function.update s.inodes i
      { s.inodes i with fileSize := BitVec.ofInt 16 ((s.inodes i).fileSize.toNat + nbyte) }
    files := Function.update s.files n ((s.files n).write t b) }

/-- A descriptor that is used: its inode is `i`, a named file, and its offset is in the range of a file
size. -/
structure Opened (s : State) (fd : Fin maxDescriptors) (i : Fin maxFiles) (offset : Nat) : Prop where
  isUsed : (s.fds fd).isUsed = true
  inodeNum : (s.fds fd).inodeNum.toNat = i
  used : s.used i
  named : ∃ d, s.named d ∧ s.leadsTo d i
  lt : offset < 2 ^ 16
  offset : (s.fds fd).offset = offset

section

variable {fd : Fin maxDescriptors} {i : Fin maxFiles} {offset : Nat}

theorem entry_eq {m : Metadata} {f : File} (h : Consistent m f) (hi : m.used i)
    (hlt : offset < 2 ^ 16) : ∃ k : Fin 256, index 256 (blockIndex offset) = .ok k ∧
      (inodeBlocks (f.block (m.indexAt i)) k).toNat = target m f i offset := by
  have hk : offset / blockSize < 16 := by
    unfold blockSize
    omega
  refine ⟨⟨offset / blockSize, by omega⟩, index_of_lt _, ?_⟩
  unfold target
  by_cases hfirst : offset < blockSize
  · have hzero : (⟨offset / blockSize, by omega⟩ : Fin 256) = 0 := Fin.ext (Nat.div_eq_of_lt hfirst)
    rw [if_pos hfirst, hzero]
    rfl
  · have hpos : 1 ≤ offset / blockSize := by
      rw [Nat.le_div_iff_mul_le (by decide)]
      omega
    have hzero := h.rest i hi ⟨offset / blockSize, by omega⟩ hpos (by show offset / blockSize < 128; omega)
    rw [Metadata.entryAt] at hzero
    rw [if_neg hfirst, hzero]
    rfl

theorem target_lt {m : Metadata} {f : File} (h : Consistent m f) (hi : m.used i) :
    target m f i offset < diskBlocks := by
  unfold target
  split
  · exact (h.data i hi).2.1
  · exact by decide

theorem write_eq_map (env : Env) (hready : s.readyForUse = true) (hopen : s.handle = some n)
    (h : Consistent s.toMetadata (s.files n)) (hfd : Opened s fd i offset) (buf : List UInt8) :
    fsWrite env s fd buf =
      (copyInto ((s.files n).block (target s.toMetadata (s.files n) i offset))
        (offset % blockSize : Nat) buf).map fun b =>
        (toInt32 buf.length, written s n fd i (target s.toMetadata (s.files n) i offset) b
          (toInt32 buf.length)) := by
  obtain ⟨k, hk, hentry⟩ := entry_eq h hfd.used hfd.lt
  have htarget : target s.toMetadata (s.files n) i offset < diskBlocks := target_lt h hfd.used
  have hlt : target s.toMetadata (s.files n) i offset < 8192 := htarget
  have hindex : index maxFiles ((s.fds fd).inodeNum.toNat : Int) = .ok i := by
    rw [hfd.inodeNum]
    exact index_of_lt i.isLt
  have hread : s.blockRead ((s.inodes i).singleIndirectBlock.toNat : Int) env.buffer =
      some ((s.files n).block (s.indexAt i)) :=
    blockRead_eq hopen (h.index i hfd.used).2.1 h.size _
  unfold fsWrite
  rw [index_of_lt fd.isLt]
  simp only [hready, hfd.isUsed, ok_bind, hindex, hread, hfd.offset, hk, hentry, Bool.not_true,
    Bool.false_eq_true, if_false, remOffset_natCast]
  rw [toInt32_of_lt (by omega)]
  simp only [blockRead_eq hopen htarget h.size]
  cases hcopy : copyInto ((s.files n).block (target s.toMetadata (s.files n) i offset))
      (offset % blockSize : Nat) buf with
  | error e => rfl
  | ok b =>
    simp only [ok_bind, blockWrite_eq hopen htarget]
    rw [← hfd.offset]
    rfl

/-- The state with the offset of a descriptor set. -/
def seek (s : State) (fd : Fin maxDescriptors) (offset : Int) : State :=
  { s with fds := Function.update s.fds fd { s.fds fd with offset := offset } }

/-- What a descriptor must be that a call finds used. -/
def Described (s : State) : Prop :=
  ∀ fd, (s.fds fd).isUsed = true → ∃ i offset, Opened s fd i offset

theorem write_cases {fildes : Int} {buf : List UInt8} (hopen : s.handle = some n)
    (h : Consistent s.toMetadata (s.files n)) (hfds : Described s)
    (hwrite : fsWrite env s fildes buf = .ok (r, s')) :
    r = -1 ∧ s' = s ∨ ∃ (fd : Fin maxDescriptors) (i : Fin maxFiles) (offset : Nat) (b : Block),
      fildes = fd ∧ Opened s fd i offset ∧
      copyInto ((s.files n).block (target s.toMetadata (s.files n) i offset))
        (offset % blockSize : Nat) buf = .ok b ∧
      r = toInt32 buf.length ∧
      s' = written s n fd i (target s.toMetadata (s.files n) i offset) b (toInt32 buf.length) := by
  have hcall := hwrite
  unfold fsWrite at hwrite
  split at hwrite
  · cases ok_of_pure hwrite
    exact .inl ⟨rfl, rfl⟩
  rename_i hready
  obtain ⟨fd, hfd, hwrite⟩ := ok_of_bind hwrite
  have hfildes := eq_of_index hfd
  split at hwrite
  · cases ok_of_pure hwrite
    exact .inl ⟨rfl, rfl⟩
  rename_i hused
  obtain ⟨i, offset, hopened⟩ := hfds fd (by simpa using hused)
  rw [hfildes, write_eq_map env (by simpa using hready) hopen h hopened] at hcall
  obtain ⟨b, hb, heq⟩ := ok_of_map hcall
  cases heq
  exact .inr ⟨fd, i, offset, b, hfildes, hopened, hb, rfl, rfl⟩

/-- A read only moves the offset, and only inside the file and its first block. -/
theorem read_cases {fildes : Int} {nbyte : Nat} {result : Result} (hopen : s.handle = some n)
    (h : Consistent s.toMetadata (s.files n)) (hfds : Described s)
    (hread : fsRead env s fildes nbyte = .ok (result, s')) :
    s' = s ∨ ∃ (fd : Fin maxDescriptors) (i : Fin maxFiles) (offset : Nat),
      fildes = fd ∧ Opened s fd i offset ∧ offset < (s.inodes i).fileSize.toNat ∧ offset < blockSize ∧
      s' = seek s fd (offset + toInt32 nbyte) := by
  unfold fsRead at hread
  split at hread
  · cases ok_of_pure hread
    exact .inl rfl
  obtain ⟨fd, hfd, hread⟩ := ok_of_bind hread
  have hfildes := eq_of_index hfd
  split at hread
  · cases ok_of_pure hread
    exact .inl rfl
  rename_i hused
  obtain ⟨i, offset, hopened⟩ := hfds fd (by simpa using hused)
  obtain ⟨k, hk, hentry⟩ := entry_eq h hopened.used hopened.lt
  have hindex : index maxFiles ((s.fds fd).inodeNum.toNat : Int) = .ok i := by
    rw [hopened.inodeNum]
    exact index_of_lt i.isLt
  have hblock : s.blockRead ((s.inodes i).singleIndirectBlock.toNat : Int) env.buffer =
      some ((s.files n).block (s.indexAt i)) :=
    blockRead_eq hopen (h.index i hopened.used).2.1 h.size _
  simp only [hindex, ok_bind, hopened.offset, hblock, hk] at hread
  split at hread
  · cases ok_of_pure hread
    exact .inl rfl
  rename_i hsize
  split at hread
  · cases ok_of_pure hread
    exact .inl rfl
  rename_i hne
  split at hread
  · cases ok_of_pure hread
    exact .inl rfl
  cases ok_of_pure hread
  refine .inr ⟨fd, i, offset, hfildes, hopened, by omega, ?_, rfl⟩
  by_contra hlarge
  rw [target, if_neg hlarge] at hentry
  exact hne (BitVec.eq_of_toNat_eq hentry)

end

/-! ### The other calls on descriptors -/

theorem open_cases (h : fsOpen s name = (r, s')) :
    r = -1 ∧ s' = s ∨ ∃ (d : Fin maxFiles) (fd : Fin maxDescriptors),
      findDirectory s.directory false name = some d ∧ (s.fds fd).isUsed = false ∧ r = fd ∧
      s' = { s with fds := Function.update s.fds fd ⟨true, (s.directory d).inodeNum, 0⟩ } := by
  unfold fsOpen at h
  simp only at h
  split at h
  · cases h
    exact .inl ⟨rfl, rfl⟩
  split at h
  · rename_i d fd hd hfd
    cases h
    exact .inr ⟨d, fd, hd, findFD_unused hfd, rfl, rfl⟩
  · cases h
    exact .inl ⟨rfl, rfl⟩

theorem close_cases {fildes : Int} (h : fsClose s fildes = .ok (r, s')) :
    r = -1 ∧ s' = s ∨ r = 0 ∧ ∃ fd : Fin maxDescriptors, fildes = fd ∧ (s.fds fd).isUsed = true ∧
      s' = { s with fds := Function.update s.fds fd .zero } := by
  unfold fsClose at h
  obtain ⟨fd, hfd, h⟩ := ok_of_bind h
  split at h
  · cases ok_of_pure h
    exact .inl ⟨rfl, rfl⟩
  · rename_i hused
    cases ok_of_pure h
    exact .inr ⟨rfl, fd, eq_of_index hfd, by simpa using hused, rfl⟩

theorem lseek_cases {fildes offset : Int} (h : fsLseek s fildes offset = .ok (r, s')) :
    r = -1 ∧ s' = s ∨ r = 0 ∧ ∃ (fd : Fin maxDescriptors) (i : Fin maxFiles), fildes = fd ∧
      (s.fds fd).isUsed = true ∧ (s.fds fd).inodeNum.toNat = i ∧ 0 ≤ offset ∧
      offset ≤ (s.inodes i).fileSize.toNat ∧ s' = seek s fd offset := by
  unfold fsLseek at h
  split at h
  · cases ok_of_pure h
    exact .inl ⟨rfl, rfl⟩
  obtain ⟨fd, hfd, h⟩ := ok_of_bind h
  split at h
  · cases ok_of_pure h
    exact .inl ⟨rfl, rfl⟩
  rename_i hused
  obtain ⟨i, hi, h⟩ := ok_of_bind h
  split at h
  · cases ok_of_pure h
    exact .inl ⟨rfl, rfl⟩
  split at h
  · cases ok_of_pure h
    exact .inl ⟨rfl, rfl⟩
  · cases ok_of_pure h
    exact .inr ⟨rfl, fd, i, eq_of_index hfd, by simpa using hused, Int.ofNat_inj.mp (eq_of_index hi),
      by omega, by omega, rfl⟩

/-- The state with the size of a file set. -/
def resize (s : State) (i : Fin maxFiles) (fileSize : BitVec 16) : State :=
  { s with inodes := Function.update s.inodes i { s.inodes i with fileSize := fileSize } }

theorem truncate_cases {fildes length : Int} (h : fsTruncate s fildes length = .ok (r, s')) :
    r = -1 ∧ s' = s ∨ r = 0 ∧ ∃ (fd : Fin maxDescriptors) (i : Fin maxFiles), fildes = fd ∧
      (s.fds fd).isUsed = true ∧ (s.fds fd).inodeNum.toNat = i ∧
      length ≤ (s.inodes i).fileSize.toNat ∧ s' = resize s i (BitVec.ofInt 16 length) := by
  unfold fsTruncate at h
  split at h
  · cases ok_of_pure h
    exact .inl ⟨rfl, rfl⟩
  obtain ⟨fd, hfd, h⟩ := ok_of_bind h
  split at h
  · cases ok_of_pure h
    exact .inl ⟨rfl, rfl⟩
  rename_i hused
  obtain ⟨i, hi, h⟩ := ok_of_bind h
  split at h
  · cases ok_of_pure h
    exact .inl ⟨rfl, rfl⟩
  · cases ok_of_pure h
    exact .inr ⟨rfl, fd, i, eq_of_index hfd, by simpa using hused, Int.ofNat_inj.mp (eq_of_index hi),
      by omega, rfl⟩

theorem getFilesize_state {fildes : Int} {result : Result}
    (h : ((fsGetFilesize s fildes).map fun size => ((Result.of size : Result), s)) =
      .ok (result, s')) : s' = s := by
  obtain ⟨size, -, heq⟩ := ok_of_map h
  exact (congrArg Prod.snd heq).symm

end OSChallenges.FileSystem
