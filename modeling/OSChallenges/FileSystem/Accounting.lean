import Mathlib.Data.Finset.Card
import OSChallenges.FileSystem.Effects
import OSChallenges.FileSystem.Ownership

/-!
# Blocks that are marked and blocks that files own

On a new disk the marked blocks are block 0 and nothing else. A file that is created adds its two blocks
and one that is deleted takes them away, so there is always room on a disk for the blocks of all its
inodes. A creation that fails marks two blocks as well, and nothing ever takes them away.
-/

namespace OSChallenges.FileSystem

open Records Words Outcomes

/-- The marked blocks are block 0 and the blocks of the files. -/
def Accounted (m : Metadata) (f : File) : Prop :=
  ∀ q, taken m.usedBlocksBitmap q = true ↔ q = 0 ∨ ∃ i, m.used i ∧ q ∈ m.blocksOf f i

section

variable {m m' : Metadata} {f f' : File} {i j : Fin maxFiles}

theorem blocksOf_congr (hindex : m'.indexAt i = m.indexAt i)
    (hblock : f'.block (m.indexAt i) = f.block (m.indexAt i)) : m'.blocksOf f' i = m.blocksOf f i := by
  unfold Metadata.blocksOf Metadata.dataAt
  rw [entryAt_congr hindex hblock, hindex]

theorem Accounted.of_eq (h : Accounted m f) (hbitmap : m'.usedBlocksBitmap = m.usedBlocksBitmap)
    (hused : ∀ i, m'.used i ↔ m.used i) (hindex : ∀ i, m.used i → m'.indexAt i = m.indexAt i)
    (hblock : ∀ i, m.used i → f'.block (m.indexAt i) = f.block (m.indexAt i)) : Accounted m' f' := by
  intro q
  rw [hbitmap, h q]
  refine or_congr_right (exists_congr fun i => ?_)
  rw [hused]
  exact and_congr_right fun hi => by rw [blocksOf_congr (hindex i hi) (hblock i hi)]

theorem accounted_empty {bitmap : Bitmap} (hfresh : Fresh bitmap) (f : File) :
    Accounted (emptyMetadata bitmap) f := by
  intro q
  have hunused : ¬ ∃ i, (emptyMetadata bitmap).used i ∧ q ∈ (emptyMetadata bitmap).blocksOf f i := by
    rintro ⟨i, hi, -⟩
    exact hi rfl
  have hmarked : taken (emptyMetadata bitmap).usedBlocksBitmap q = decide (q = 0) := hfresh q
  rw [hmarked, decide_eq_true_eq, or_iff_left hunused]

/-- There are 8192 blocks, and 64 files have 128 of them. -/
theorem Accounted.twoFree (h : Accounted m f) : TwoFree m.usedBlocksBitmap := by
  let owned : List Nat := 0 :: ((List.finRange maxFiles).map m.indexAt ++
    (List.finRange maxFiles).map (m.dataAt f))
  have hlength : owned.length = 129 := by
    simp only [owned, List.length_cons, List.length_append, List.length_map, List.length_finRange]
    rfl
  have hfree : ∀ q ∈ Finset.range diskBlocks \ owned.toFinset,
      q < diskBlocks ∧ taken m.usedBlocksBitmap q = false := by
    intro q hq
    obtain ⟨hlt, hnot⟩ := Finset.mem_sdiff.mp hq
    refine ⟨Finset.mem_range.mp hlt, Bool.eq_false_iff.mpr fun htaken => hnot ?_⟩
    rw [List.mem_toFinset]
    obtain rfl | ⟨i, -, hblock⟩ := (h q).mp htaken
    · exact List.mem_cons_self
    · apply List.mem_cons_of_mem
      rw [List.mem_append]
      rcases mem_blocksOf.mp hblock with rfl | rfl
      · exact .inl (List.mem_map_of_mem (List.mem_finRange i))
      · exact .inr (List.mem_map_of_mem (List.mem_finRange i))
  have hmany : 1 < (Finset.range diskBlocks \ owned.toFinset).card := by
    have hle := List.toFinset_card_le owned
    have hcard := Finset.le_card_sdiff owned.toFinset (Finset.range diskBlocks)
    rw [Finset.card_range] at hcard
    unfold diskBlocks at *
    omega
  obtain ⟨p, hp, q, hq, hne⟩ := Finset.one_lt_card.mp hmany
  obtain ⟨hltp, hfreep⟩ := hfree p hp
  obtain ⟨hltq, hfreeq⟩ := hfree q hq
  by_cases hlt : p < q
  · exact ⟨q, hltq, p, hlt, hfreep, hfreeq⟩
  · exact ⟨p, hltp, q, by omega, hfreeq, hfreep⟩

end

variable {env : Env} {s s' : State} {n name : CString} {i d : Fin maxFiles} {a b : Nat}
  {bitmap : Bitmap} {loc num r : Int}

/-! ### Calls -/

theorem Accounted.create (h : InOrder s n) (hacc : Accounted s.toMetadata (s.files n))
    (hfound : Found s name i d a b bitmap)
    (hmarked : ∀ q, taken bitmap q = true ↔ taken s.usedBlocksBitmap q = true ∨ q = a ∨ q = b) :
    Accounted (created env s n name i d a b bitmap).toMetadata
      ((created env s n name i d a b bitmap).files n) := by
  have hadd : Added s.toMetadata (s.files n) i d a b
      (created env s n name i d a b bitmap).toMetadata ((created env s n name i d a b bitmap).files n) :=
    hfound.added h.consistent fun q hq => (hmarked q).mpr (.inl hq)
  have hblocks : (created env s n name i d a b bitmap).blocksOf
      ((created env s n name i d a b bitmap).files n) i = [a, b] := by
    rw [Metadata.blocksOf, hadd.index, hadd.data]
  have hother : ∀ j, j ≠ i → s.used j → (created env s n name i d a b bitmap).blocksOf
      ((created env s n name i d a b bitmap).files n) j = s.blocksOf (s.files n) j := by
    intro j hj hu
    have hin := h.consistent.index j hu
    exact blocksOf_congr (hadd.indexAt_eq hj) (hadd.blocks _ hin.2.1 (hin.ne_of_free hfound.indexFree))
  intro q
  show taken bitmap q = true ↔ _
  rw [hmarked, hacc q]
  constructor
  · rintro ((hzero | ⟨j, hj, hq⟩) | hq)
    · exact .inl hzero
    · have hne : j ≠ i := by
        rintro rfl
        exact hadd.fresh hj
      exact .inr ⟨j, (hadd.used_iff hne).mpr hj, by rwa [hother j hne hj]⟩
    · exact .inr ⟨i, created_used, by rw [hblocks]; simpa using hq⟩
  · rintro (hzero | ⟨j, hj, hq⟩)
    · exact .inl (.inl hzero)
    · by_cases hne : j = i
      · rw [hne, hblocks] at hq
        exact .inr (by simpa using hq)
      · have hold := (hadd.used_iff hne).mp hj
        rw [hother j hne hold] at hq
        exact .inl (.inr ⟨j, hold, hq⟩)

theorem Accounted.delete (h : InOrder s n) (hacc : Accounted s.toMetadata (s.files n))
    (hclosed : Closed s name i d) (empty : Block)
    (htaken : ∀ q, taken bitmap q = if q = s.indexAt i ∨ q = s.dataAt (s.files n) i then false
      else taken s.usedBlocksBitmap q) :
    Accounted (deleted s n i d (s.indexAt i) (s.dataAt (s.files n) i) empty bitmap).toMetadata
      ((deleted s n i d (s.indexAt i) (s.dataAt (s.files n) i) empty bitmap).files n) := by
  have hi := hclosed.used h.consistent
  have hsize := h.consistent.size
  have hltb := (h.consistent.data i hi).2.1
  have howned := h.consistent.owned
  have hother : ∀ j, j ≠ i → s.used j →
      (deleted s n i d (s.indexAt i) (s.dataAt (s.files n) i) empty bitmap).blocksOf
        ((deleted s n i d (s.indexAt i) (s.dataAt (s.files n) i) empty bitmap).files n) j =
          s.blocksOf (s.files n) j := by
    intro j hj hu
    have hlt := (h.consistent.index j hu).2.1
    exact blocksOf_congr (deleted_indexAt hj) (deleted_block empty (by omega) (by omega)
      (fun heq => hj (h.consistent.index_inj j i hu hi heq)) (h.consistent.apart j i hu hi))
  intro q
  show taken bitmap q = true ↔ _
  rw [htaken]
  by_cases hblock : q ∈ s.blocksOf (s.files n) i
  · rw [if_pos (mem_blocksOf.mp hblock)]
    refine iff_of_false Bool.false_ne_true ?_
    rintro (rfl | ⟨j, hj, hq⟩)
    · have hpos := (h.consistent.index i hi).1
      have hpos' := (h.consistent.data i hi).1
      rcases mem_blocksOf.mp hblock with hzero | hzero
      · omega
      · omega
    · have hne : j ≠ i := fun heq => deleted_not_used (heq ▸ hj)
      have hold := (deleted_used_iff hne).mp hj
      rw [hother j hne hold] at hq
      exact howned.disjoint j i hold hi hne q hq hblock
  · rw [if_neg (mt mem_blocksOf.mpr hblock), hacc q]
    refine or_congr_right ⟨?_, ?_⟩
    · rintro ⟨j, hj, hq⟩
      have hne : j ≠ i := fun heq => hblock (heq ▸ hq)
      exact ⟨j, (deleted_used_iff hne).mpr hj, by rwa [hother j hne hj]⟩
    · rintro ⟨j, hj, hq⟩
      have hne : j ≠ i := fun heq => deleted_not_used (heq ▸ hj)
      have hold := (deleted_used_iff hne).mp hj
      exact ⟨j, hold, by rwa [hother j hne hold] at hq⟩

theorem Accounted.write {fd : Fin maxDescriptors} {t : Nat} {block : Block} {nbyte : Int}
    (h : InOrder s n) (hacc : Accounted s.toMetadata (s.files n))
    (ht : ∀ j, s.used j → s.indexAt j ≠ t) :
    Accounted (written s n fd i t block nbyte).toMetadata
      ((written s n fd i t block nbyte).files n) := by
  have hinodes := fun j => inodes_resize s i j (BitVec.ofInt 16 ((s.inodes i).fileSize.toNat + nbyte))
  refine hacc.of_eq rfl (fun j => (hinodes j).1) (fun j _ => (hinodes j).2) ?_
  intro j hj
  have hfile : (written s n fd i t block nbyte).files n = (s.files n).write t block :=
    Function.update_self ..
  rw [hfile]
  exact File.write_other (ht j hj) (h.consistent.size ▸ (h.consistent.index j hj).2.1) block

/-! ### Creations that fail -/

/-- The tables and the disks are as before. -/
structure Unchanged (s s' : State) : Prop where
  inodes : s'.inodes = s.inodes
  directory : s'.directory = s.directory
  bitmap : s'.usedBlocksBitmap = s.usedBlocksBitmap
  files : s'.files = s.files

/-- If the call fails, it has changed nothing. -/
def FailsCleanly (env : Env) (s : State) (name : CString) : Prop :=
  ∀ s', fsCreate env s name = .ok (-1, s') → Unchanged s s'

/-- No block is free. -/
def Full (bitmap : Bitmap) : Prop := ∀ q, q < diskBlocks → taken bitmap q = true

theorem create_total (env : Env) (s : State) (name : CString) :
    ∃ r s', fsCreate env s name = .ok (r, s') := by
  obtain ⟨bitmap₁, bitmap₂, hwrite₁, hwrite₂, hreserves⟩ := exists_reserve s.usedBlocksBitmap
  unfold fsCreate
  simp only [hwrite₁, hwrite₂, ok_bind]
  split
  · exact ⟨_, _, rfl⟩
  split
  · exact ⟨_, _, rfl⟩
  split
  · split
    · exact ⟨_, _, rfl⟩
    · split
      · exact ⟨_, _, rfl⟩
      · exact ⟨_, _, rfl⟩
  · exact ⟨_, _, rfl⟩

theorem Found.creatable (hfound : Found s name i d a b bitmap) (hab : a < b) : Creatable s name :=
  ⟨hfound.length, by rw [hfound.inode]; rfl, by rw [hfound.entry]; rfl,
    ⟨b, hfound.data, a, hab, hfound.indexFree, hfound.dataFree⟩⟩

/-- What is free when a search starts is marked when it ends. -/
theorem Reserves.full (h : Reserves s.usedBlocksBitmap loc num bitmap)
    (hsame : bitmap = s.usedBlocksBitmap) : Full s.usedBlocksBitmap := by
  obtain ⟨-, hall⟩ | ⟨p, hp, -, hfree, -⟩ := findUsedBlocksBit_cases s.usedBlocksBitmap
  · exact hall
  · have hmarked := (h.marked p).mpr (.inr (.inl (by rw [h.search, hp])))
    rw [hsame, hfree] at hmarked
    cases hmarked

theorem Reserves.eq_of_full (h : Reserves s.usedBlocksBitmap loc num bitmap)
    (hfull : Full s.usedBlocksBitmap) : bitmap = s.usedBlocksBitmap := by
  have hnum : num = -1 := by
    obtain ⟨hnone, -⟩ | ⟨a, b, -, -, -, hlt, -, hfree⟩ := h.found
    · exact hnone
    · rw [hfull b hlt] at hfree
      cases hfree
  have hloc : loc = -1 := by
    obtain ⟨hnone, -⟩ | ⟨p, -, hlt, hfree, -⟩ := findUsedBlocksBit_cases s.usedBlocksBitmap
    · exact h.search.trans hnone
    · rw [hfull p hlt] at hfree
      cases hfree
  apply eq_of_taken
  intro q
  rw [Bool.eq_iff_iff, h.marked, hnum, hloc]
  exact or_iff_left (by omega)

/-- A creation that can fail only does so without a trace on a disk that is full. -/
theorem failsCleanly_iff (hopen : s.handle = some n) (hready : s.readyForUse = true) :
    FailsCleanly env s name ↔ Creatable s name ∨ Full s.usedBlocksBitmap := by
  obtain ⟨r, s', hcall⟩ := create_total env s name
  obtain ⟨loc, num, bitmap, hreserves, ⟨rfl, rfl, hmissing⟩ | ⟨rfl, i, d, a, b, -, -, hab, hfound, -⟩⟩ :=
    create_reserves hopen hcall
  · constructor
    · intro hclean
      exact .inr (hreserves.full (hclean _ hcall).bitmap)
    · rintro (hcreatable | hfull) t ht
      · exact absurd ⟨hready, hcreatable⟩ hmissing
      · rw [hcall] at ht
        cases ht
        exact ⟨rfl, rfl, hreserves.eq_of_full hfull, rfl⟩
  · refine iff_of_true ?_ (.inl (hfound.creatable hab))
    intro t ht
    rw [hcall] at ht
    have hret : (0 : Int) = -1 := congrArg Prod.fst (Except.ok.inj ht)
    exact absurd hret (by decide)

theorem Accounted.not_of_failed (hopen : s.handle = some n)
    (hacc : Accounted s.toMetadata (s.files n)) (hmissing : ¬ Creatable s name)
    (hcall : fsCreate env s name = .ok (r, s')) : ¬ Accounted s'.toMetadata (s'.files n) := by
  obtain ⟨loc, num, bitmap, hreserves, ⟨-, rfl, -⟩ | ⟨-, i, d, a, b, -, -, hab, hfound, -⟩⟩ :=
    create_reserves hopen hcall
  · intro hafter
    have hsame : bitmap = s.usedBlocksBitmap := by
      apply eq_of_taken
      intro q
      rw [Bool.eq_iff_iff]
      exact (hafter q).trans (hacc q).symm
    obtain ⟨b, hlt, a, -, -, hfree⟩ := hacc.twoFree
    rw [hreserves.full hsame b hlt] at hfree
    cases hfree
  · exact absurd (hfound.creatable hab) hmissing

theorem Accounted.creates (hopen : s.handle = some n) (hready : s.readyForUse = true)
    (hacc : Accounted s.toMetadata (s.files n)) (hlength : name.chars.length ≤ 15)
    (hinode : (findInode s.inodes).isSome) (hentry : (findDirectory s.directory true name).isSome)
    (env : Env) : ∃ s', fsCreate env s name = .ok (0, s') := by
  obtain ⟨r, s', hcall⟩ := create_total env s name
  obtain ⟨-, -, -, -, ⟨-, -, hmissing⟩ | ⟨rfl, -⟩⟩ := create_reserves hopen hcall
  · exact absurd ⟨hready, hlength, hinode, hentry, hacc.twoFree⟩ hmissing
  · exact ⟨s', hcall⟩

/-- Every other call on the open disk keeps the accounts, and so does a creation that succeeds. -/
theorem Accounted.effect {c : Call} (h : InOrder s n) (hacc : Accounted s.toMetadata (s.files n))
    (hcreate : ∀ name, c = .create name → s.readyForUse = true ∧ Creatable s name)
    (heffect : Effect env s n c s') : Accounted s'.toMetadata (s'.files n) := by
  cases heffect with
  | tables _ _ bitmap directory files inodes =>
    exact hacc.of_eq bitmap (fun j => (inodes j).1) (fun j _ => (inodes j).2) fun j _ => by rw [files]
  | mark name loc num bitmap reserves fails => exact absurd (hcreate name rfl) fails
  | create name i d a b bitmap reserves lt found =>
    refine hacc.create h found fun q => ?_
    rw [reserves.marked, Int.ofNat_inj, Int.ofNat_inj]
  | delete name i d bitmap closed cleared => exact hacc.delete h closed _ cleared
  | write fildes buf fd i offset b opened =>
    exact hacc.write h fun j hj => h.index_ne_target offset opened.used hj

end OSChallenges.FileSystem
