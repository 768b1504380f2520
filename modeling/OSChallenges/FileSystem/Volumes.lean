import OSChallenges.FileSystem.Accounting
import OSChallenges.FileSystem.BitSet
import OSChallenges.FileSystem.FreeBlocks
import OSChallenges.FileSystem.FileStore
import OSChallenges.FileSystem.Undoing

/-!
# The volume of a disk

The tables and the blocks of a disk that is in order make a volume: an entry with a name has the contents of
the inode it leads to, and the inodes and blocks that are free are counted. The searches in the tables find
what is found in the volume, and each change of the tables changes the volume in one place.
-/

namespace OSChallenges.FileSystem

open Records Words Outcomes

attribute [ext] Contents Volume

/-- The inode that an entry leads to. -/
def Metadata.inodeOf (m : Metadata) (d : Fin maxFiles) : Fin maxFiles :=
  ⟨(m.directory d).inodeNum.toNat % maxFiles, Nat.mod_lt _ (by decide)⟩

def Metadata.contents (m : Metadata) (f : File) (i : Fin maxFiles) : Contents :=
  ⟨(m.inodes i).fileSize, f.block (m.dataAt f i)⟩

def unusedInodes (inodes : Fin maxFiles → Inode) : Finset (Fin maxFiles) :=
  Finset.univ.filter fun i => (inodes i).isUsed = 0

/-- How many blocks are not marked. It is never computed. -/
@[irreducible] def freeBlocks (bitmap : Bitmap) : Nat := (clearPositions bitmap).card

theorem freeBlocks_eq (bitmap : Bitmap) : freeBlocks bitmap = (clearPositions bitmap).card := by
  unfold freeBlocks
  rfl

/-- The volume of the tables and the blocks of a disk. -/
def Volume.of (m : Metadata) (f : File) : Volume where
  entries d :=
    if (m.directory d).name 0 = 0 then none
    else some ((m.directory d).cName, m.contents f (m.inodeOf d))
  inodesFree := (unusedInodes m.inodes).card
  blocksFree := freeBlocks m.usedBlocksBitmap

variable {m m' : Metadata} {f f' : File} {i d e : Fin maxFiles} {name : CString}
  {bitmap bitmap' : Bitmap}

@[simp] theorem Volume.inodesFree_of (m : Metadata) (f : File) :
    (Volume.of m f).inodesFree = (unusedInodes m.inodes).card := rfl

@[simp] theorem Volume.blocksFree_of (m : Metadata) (f : File) :
    (Volume.of m f).blocksFree = freeBlocks m.usedBlocksBitmap := rfl

@[simp] theorem Volume.inodesFree_put (v : Volume) (d : Fin maxFiles)
    (file : Option (List UInt8 × Contents)) : (v.put d file).inodesFree = v.inodesFree := rfl

@[simp] theorem Volume.blocksFree_put (v : Volume) (d : Fin maxFiles)
    (file : Option (List UInt8 × Contents)) : (v.put d file).blocksFree = v.blocksFree := rfl

/-! ### Entries -/

theorem inodeOf_of_leads (h : m.leadsTo d i) : m.inodeOf d = i := by
  apply Fin.ext
  rw [Metadata.leadsTo] at h
  show (m.directory d).inodeNum.toNat % maxFiles = i
  rw [h, Nat.mod_eq_of_lt i.isLt]

theorem entries_of_named (hnamed : m.named d) (hleads : m.leadsTo d i) :
    (Volume.of m f).entries d = some ((m.directory d).cName, m.contents f i) := by
  show (if (m.directory d).name 0 = 0 then none else _) = _
  rw [if_neg hnamed, inodeOf_of_leads hleads]

theorem entries_of_not_named (h : ¬ m.named d) : (Volume.of m f).entries d = none :=
  if_pos (not_not.mp h)

theorem entries_eq_none_iff : (Volume.of m f).entries d = none ↔ ¬ m.named d := by
  constructor
  · intro hnone hnamed
    have hsome : (Volume.of m f).entries d = some _ := if_neg hnamed
    rw [hnone] at hsome
    cases hsome
  · exact entries_of_not_named

theorem entry_name_iff : ((Volume.of m f).entries d).map Prod.fst = some name.chars ↔
    m.named d ∧ (m.directory d).cName = name.chars := by
  by_cases hnamed : m.named d
  · have hsome : (Volume.of m f).entries d = some _ := if_neg hnamed
    rw [hsome]
    exact ⟨fun heq => ⟨hnamed, Option.some.inj heq⟩, fun heq => congrArg some heq.2⟩
  · rw [entries_of_not_named hnamed]
    exact iff_of_false (fun heq => by cases heq) fun heq => hnamed heq.1

theorem entries_congr (h : Consistent m f) (hentry : m'.directory e = m.directory e)
    (hcontents : ∀ j, m.named e → m.leadsTo e j → m.used j → m'.contents f' j = m.contents f j) :
    (Volume.of m' f').entries e = (Volume.of m f).entries e := by
  have hsame : m'.named e ↔ m.named e := by
    rw [Metadata.named, hentry]
    exact Iff.rfl
  by_cases hnamed : m.named e
  · obtain ⟨j, hleads, hused⟩ := h.named e hnamed
    have hleads' : m'.leadsTo e j := by
      rw [Metadata.leadsTo, hentry]
      exact hleads
    rw [entries_of_named hnamed hleads, entries_of_named (hsame.mpr hnamed) hleads', hentry,
      hcontents j hnamed hleads hused]
  · rw [entries_of_not_named hnamed, entries_of_not_named (mt hsame.mp hnamed)]

theorem contents_congr (hinode : m'.inodes i = m.inodes i)
    (hindex : f'.block (m.indexAt i) = f.block (m.indexAt i))
    (hdata : f'.block (m.dataAt f i) = f.block (m.dataAt f i)) : m'.contents f' i = m.contents f i := by
  have hplace : m'.indexAt i = m.indexAt i := by
    rw [Metadata.indexAt, hinode]
    rfl
  have hblock : m'.dataAt f' i = m.dataAt f i := by
    rw [Metadata.dataAt, entryAt_congr hplace hindex, Metadata.dataAt]
  rw [Metadata.contents, Metadata.contents, hinode, hblock, hdata]

theorem volume_put (h : Consistent m f) (hnamed : m.named d) (hleads : m.leadsTo d i)
    (hdirectory : m'.directory = m.directory) (hbitmap : m'.usedBlocksBitmap = m.usedBlocksBitmap)
    (hused : ∀ j, (m'.inodes j).isUsed = (m.inodes j).isUsed)
    (hother : ∀ j, j ≠ i → m.used j → m'.contents f' j = m.contents f j) :
    Volume.of m' f' =
      (Volume.of m f).put d (some ((m.directory d).cName, m'.contents f' i)) := by
  refine Volume.ext ?_ ?_ ?_
  · funext e
    show (Volume.of m' f').entries e = Function.update (Volume.of m f).entries d _ e
    by_cases he : e = d
    · subst he
      have hnamed' : m'.named e := by
        rw [Metadata.named, hdirectory]
        exact hnamed
      have hleads' : m'.leadsTo e i := by
        rw [Metadata.leadsTo, hdirectory]
        exact hleads
      rw [Function.update_self, entries_of_named hnamed' hleads', hdirectory]
    · rw [Function.update_of_ne he]
      refine entries_congr h (by rw [hdirectory]) fun j hnamed' hleads' hj => hother j ?_ hj
      rintro rfl
      exact he (h.unique e d j hnamed' hnamed hleads' hleads)
  · rw [Volume.inodesFree_of, Volume.inodesFree_put, Volume.inodesFree_of, unusedInodes, unusedInodes]
    simp only [hused]
  · rw [Volume.blocksFree_of, Volume.blocksFree_put, Volume.blocksFree_of, hbitmap]

/-! ### Searches -/

theorem find?_eq_of_only {α : Type} {p : α → Prop} [DecidablePred p] {l : List α} {a : α} (ha : a ∈ l)
    (hp : p a) (honly : ∀ b, p b → b = a) : l.find? p = some a := by
  cases hfind : l.find? p with
  | none => exact absurd (decide_eq_true hp) (List.find?_eq_none.mp hfind a ha)
  | some b =>
    have hb : decide (p b) = true := List.find?_some (p := fun b => decide (p b)) hfind
    rw [honly b (of_decide_eq_true hb)]

theorem find_eq (h : Consistent m f) (name : CString) :
    (Volume.of m f).find name.chars = findDirectory m.directory false name := by
  unfold Volume.find
  cases hfound : findDirectory m.directory false name with
  | some d =>
    obtain ⟨hnamed, hname⟩ := findDirectory_old hfound
    apply find?_eq_of_only (List.mem_finRange d)
    · exact entry_name_iff.mpr ⟨hnamed, hname.symm⟩
    · intro e he
      obtain ⟨hnamed', hname'⟩ := entry_name_iff.mp he
      exact h.names e d hnamed' hnamed (hname'.trans hname)
  | none =>
    rw [List.find?_eq_none]
    intro d _ hd
    obtain ⟨hnamed, hname⟩ := entry_name_iff.mp (of_decide_eq_true hd)
    rw [findDirectory_only hnamed hname.symm
      fun e he heq => h.names e d he hnamed (heq.symm.trans hname.symm)] at hfound
    cases hfound

/-- Without an entry of the name the search for a new one finds the first that is free. -/
theorem scanDirectory_first {directory : Fin maxFiles → DirEntry} {l : List (Fin maxFiles)}
    {check : Bool} {found : Option (Fin maxFiles)}
    (hfresh : ∀ i ∈ l, (directory i).named → (directory i).cName ≠ name.chars) :
    scanDirectory directory true name l check found =
      if check then (l.find? fun i => (directory i).name 0 = 0).or found else found := by
  induction l generalizing check found with
  | nil =>
    cases check with
    | true => rfl
    | false => rfl
  | cons i rest ih =>
    obtain ⟨hi, hrest⟩ := List.forall_mem_cons.mp hfresh
    have hno : ¬ (¬ (directory i).name 0 = 0 ∧ name.chars = (directory i).cName) :=
      fun hmatch => hi hmatch.1 hmatch.2.symm
    rw [scanDirectory]
    simp only [if_neg hno, ih hrest, List.find?_cons]
    by_cases hfree : (directory i).name 0 = 0
    · cases check with
      | true => simp [hfree]
      | false => simp
    · cases check with
      | true => simp [hfree]
      | false => simp

theorem freeEntry_eq (h : Consistent m f) (name : CString) :
    findDirectory m.directory true name =
      if (Volume.of m f).find name.chars = none then (Volume.of m f).freeEntry else none := by
  rw [find_eq h]
  cases hfound : findDirectory m.directory false name with
  | some d =>
    obtain ⟨hnamed, hname⟩ := findDirectory_old hfound
    rw [if_neg (Option.some_ne_none d)]
    cases hnew : findDirectory m.directory true name with
    | none => rfl
    | some e => exact absurd hname.symm (findDirectory_fresh hnew hnamed)
  | none =>
    rw [if_pos rfl, findDirectory, scanDirectory_first, if_pos rfl, Option.or_none]
    · unfold Volume.freeEntry
      congr 1
      funext d
      rw [Bool.eq_iff_iff, decide_eq_true_eq, Option.isNone_iff_eq_none, entries_eq_none_iff]
      exact not_not.symm
    · intro d _ hnamed hname
      rw [findDirectory_only hnamed hname.symm
        fun e he heq => h.names e d he hnamed (heq.symm.trans hname.symm)] at hfound
      cases hfound

theorem findInode_isSome_iff (inodes : Fin maxFiles → Inode) :
    (findInode inodes).isSome ↔ 0 < (unusedInodes inodes).card := by
  rw [findInode, List.find?_isSome, Finset.card_pos]
  constructor
  · rintro ⟨i, -, hi⟩
    exact ⟨i, Finset.mem_filter.mpr ⟨Finset.mem_univ i, of_decide_eq_true hi⟩⟩
  · rintro ⟨i, hi⟩
    exact ⟨i, List.mem_finRange i, decide_eq_true (Finset.mem_filter.mp hi).2⟩

theorem mem_clear {q : Nat} : q ∈ clearPositions bitmap ↔ q < diskBlocks ∧ taken bitmap q = false := by
  rw [clearPositions, Finset.mem_filter, Finset.mem_range]

theorem two_le_card_iff {s : Finset Nat} : 2 ≤ s.card ↔ ∃ a ∈ s, ∃ b ∈ s, a ≠ b := Finset.one_lt_card

theorem twoFree_iff : TwoFree bitmap ↔ 2 ≤ freeBlocks bitmap := by
  rw [freeBlocks_eq, two_le_card_iff]
  constructor
  · rintro ⟨b, hb, a, hab, hfreea, hfreeb⟩
    exact ⟨a, mem_clear.mpr ⟨by omega, hfreea⟩, b, mem_clear.mpr ⟨hb, hfreeb⟩, by omega⟩
  · rintro ⟨a, ha, b, hb, hne⟩
    obtain ⟨hlta, hfreea⟩ := mem_clear.mp ha
    obtain ⟨hltb, hfreeb⟩ := mem_clear.mp hb
    by_cases hab : a < b
    · exact ⟨b, hltb, a, hab, hfreea, hfreeb⟩
    · exact ⟨a, hlta, b, by omega, hfreeb, hfreea⟩

/-! ### What is free -/

theorem Reserves.freeBlocks_eq {loc num : Int} (h : Reserves bitmap loc num bitmap') :
    freeBlocks bitmap' = freeBlocks bitmap - 2 := by
  have hclear : ∀ q : Nat, q ∈ clearPositions bitmap' ↔
      q ∈ clearPositions bitmap ∧ (q : Int) ≠ loc ∧ (q : Int) ≠ num := by
    intro q
    rw [mem_clear, mem_clear, and_assoc, ← Bool.not_eq_true, h.marked, ← Bool.not_eq_true]
    simp only [not_or, ne_eq]
  rw [FileSystem.freeBlocks_eq, FileSystem.freeBlocks_eq]
  obtain ⟨-, hfull⟩ | ⟨a, b, ha, hb, hab, hlt, hfreea, hfreeb⟩ := h.found
  · -- The first search has found what is left, if there is anything.
    have hfew : ¬ 2 ≤ (clearPositions bitmap).card := by
      rw [← FileSystem.freeBlocks_eq]
      exact mt twoFree_iff.mpr hfull
    have hnone : clearPositions bitmap' = ∅ := by
      rw [Finset.eq_empty_iff_forall_notMem]
      intro q hq
      obtain ⟨hold, hother, -⟩ := (hclear q).mp hq
      obtain ⟨hltq, hfreeq⟩ := mem_clear.mp hold
      obtain ⟨-, hall⟩ | ⟨p, hp, hltp, hfreep, -⟩ := findUsedBlocksBit_cases bitmap
      · rw [hall q hltq] at hfreeq
        cases hfreeq
      · refine hfew (two_le_card_iff.mpr ⟨p, mem_clear.mpr ⟨hltp, hfreep⟩, q, hold, ?_⟩)
        rintro rfl
        exact hother (h.search.trans hp).symm
    rw [hnone, Finset.card_empty]
    omega
  · have hpair : ({a, b} : Finset Nat) ⊆ clearPositions bitmap := by
      intro q hq
      rcases Finset.mem_insert.mp hq with rfl | hq
      · exact mem_clear.mpr ⟨by omega, hfreea⟩
      · rw [Finset.mem_singleton.mp hq]
        exact mem_clear.mpr ⟨hlt, hfreeb⟩
    have hleft : clearPositions bitmap' = clearPositions bitmap \ {a, b} := by
      ext q
      rw [hclear, Finset.mem_sdiff, ha, hb, Finset.mem_insert, Finset.mem_singleton, not_or]
      simp only [ne_eq, Int.ofNat_inj]
    rw [hleft, Finset.card_sdiff_of_subset hpair, Finset.card_pair (Nat.ne_of_lt hab)]

theorem freeBlocks_cleared {a b : Nat} (hab : a ≠ b) (ha : a < diskBlocks) (hb : b < diskBlocks)
    (htakena : taken bitmap a = true) (htakenb : taken bitmap b = true)
    (hcleared : ∀ q, taken bitmap' q = if q = a ∨ q = b then false else taken bitmap q) :
    freeBlocks bitmap' = freeBlocks bitmap + 2 := by
  have hmore : clearPositions bitmap' = insert a (insert b (clearPositions bitmap)) := by
    ext q
    rw [Finset.mem_insert, Finset.mem_insert, mem_clear, mem_clear, hcleared]
    by_cases hq : q = a ∨ q = b
    · rw [if_pos hq]
      rcases hq with rfl | rfl
      · simp [ha]
      · simp [hb]
    · rw [if_neg hq]
      obtain ⟨hqa, hqb⟩ := not_or.mp hq
      simp [hqa, hqb]
  have hb' : b ∉ clearPositions bitmap := by
    intro hmem
    rw [(mem_clear.mp hmem).2] at htakenb
    cases htakenb
  have ha' : a ∉ insert b (clearPositions bitmap) := by
    intro hmem
    rcases Finset.mem_insert.mp hmem with heq | hmem
    · exact hab heq
    · rw [(mem_clear.mp hmem).2] at htakena
      cases htakena
  rw [FileSystem.freeBlocks_eq, FileSystem.freeBlocks_eq, hmore, Finset.card_insert_of_notMem ha',
    Finset.card_insert_of_notMem hb']

theorem freeBlocks_fresh (hfresh : Fresh bitmap) : freeBlocks bitmap = diskBlocks - 1 := by
  have hall : clearPositions bitmap = (Finset.range diskBlocks).erase 0 := by
    ext q
    rw [mem_clear, hfresh, decide_eq_false_iff_not, Finset.mem_erase, Finset.mem_range]
    exact and_comm
  rw [FileSystem.freeBlocks_eq, hall, Finset.card_erase_of_mem (Finset.mem_range.mpr (by decide)),
    Finset.card_range]

section

variable {inodes : Fin maxFiles → Inode} {inode : Inode}

theorem unusedInodes_take (hi : (inodes i).isUsed = 0) (hinode : inode.isUsed ≠ 0) :
    (unusedInodes (Function.update inodes i inode)).card = (unusedInodes inodes).card - 1 := by
  have hless : unusedInodes (Function.update inodes i inode) = (unusedInodes inodes).erase i := by
    ext j
    rw [Finset.mem_erase, unusedInodes, unusedInodes, Finset.mem_filter, Finset.mem_filter]
    by_cases hj : j = i
    · subst hj
      simp [hinode]
    · simp [hj]
  rw [hless, Finset.card_erase_of_mem]
  exact Finset.mem_filter.mpr ⟨Finset.mem_univ i, hi⟩

theorem unusedInodes_free (hi : (inodes i).isUsed ≠ 0) (hinode : inode.isUsed = 0) :
    (unusedInodes (Function.update inodes i inode)).card = (unusedInodes inodes).card + 1 := by
  have hmore : unusedInodes (Function.update inodes i inode) = insert i (unusedInodes inodes) := by
    ext j
    rw [Finset.mem_insert, unusedInodes, unusedInodes, Finset.mem_filter, Finset.mem_filter]
    by_cases hj : j = i
    · subst hj
      simp [hinode]
    · simp [hj]
  rw [hmore, Finset.card_insert_of_notMem]
  exact fun hmem => hi (Finset.mem_filter.mp hmem).2

end

/-! ### What the calls change -/

theorem volume_empty (hfresh : Fresh bitmap) (f : File) : Volume.of (emptyMetadata bitmap) f = .empty := by
  have hall : unusedInodes (emptyMetadata bitmap).inodes = Finset.univ :=
    Finset.filter_true_of_mem fun _ _ => rfl
  refine Volume.ext ?_ ?_ ?_
  · funext d
    exact entries_of_not_named fun hd => hd rfl
  · rw [Volume.inodesFree_of, hall, Finset.card_univ, Fintype.card_fin]
    rfl
  · rw [Volume.blocksFree_of]
    exact freeBlocks_fresh hfresh

/-- Block 0 belongs to no file. -/
theorem volume_store (h : Consistent m f) (env : Env) :
    Volume.of m (f.write 0 (writeBuf env m)) = Volume.of m f := by
  refine Volume.ext ?_ rfl rfl
  funext d
  refine entries_congr h rfl fun j _ _ hj => ?_
  obtain ⟨hpos, hlt, -⟩ := h.index j hj
  obtain ⟨hposb, hltb, -⟩ := h.data j hj
  exact contents_congr rfl (File.write_other (by omega) (h.size ▸ hlt) _)
    (File.write_other (by omega) (h.size ▸ hltb) _)

section

variable {env : Env} {s : State} {n : CString} {a b : Nat} {loc num : Int} {fd : Fin maxDescriptors}
  {offset : Nat}

theorem volume_mark (hreserves : Reserves s.usedBlocksBitmap loc num bitmap) :
    Volume.of { s.toMetadata with usedBlocksBitmap := bitmap } (s.files n) =
      { Volume.of s.toMetadata (s.files n) with
        blocksFree := (Volume.of s.toMetadata (s.files n)).blocksFree - 2 } := by
  refine Volume.ext rfl rfl ?_
  rw [Volume.blocksFree_of, Volume.blocksFree_of]
  exact hreserves.freeBlocks_eq

/-- A new file starts from zeros. -/
theorem volume_created (h : Consistent s.toMetadata (s.files n))
    (hclean : Clean s.toMetadata (s.files n)) (hreserves : Reserves s.usedBlocksBitmap a b bitmap)
    (hfound : Found s name i d a b bitmap) :
    Volume.of (created env s n name i d a b bitmap).toMetadata
        ((created env s n name i d a b bitmap).files n) =
      let v := Volume.of s.toMetadata (s.files n)
      let rest : Volume := ⟨v.entries, v.inodesFree - 1, v.blocksFree - 2⟩
      if name.chars = [] then rest else rest.put d (some (name.chars, .new)) := by
  have hadded : Added s.toMetadata (s.files n) i d a b (created env s n name i d a b bitmap).toMetadata
      ((created env s n name i d a b bitmap).files n) :=
    hfound.added h fun q hq => (hreserves.marked q).mpr (.inl hq)
  have hinodes : (unusedInodes (created env s n name i d a b bitmap).inodes).card =
      (unusedInodes s.inodes).card - 1 := by
    have hone : (1 : UInt8) ≠ 0 := by decide
    exact unusedInodes_take (not_not.mp (findInode_unused hfound.inode)) hone
  have hblocks : freeBlocks (created env s n name i d a b bitmap).usedBlocksBitmap =
      freeBlocks s.usedBlocksBitmap - 2 := hreserves.freeBlocks_eq
  have hother : ∀ e, e ≠ d → (Volume.of (created env s n name i d a b bitmap).toMetadata
      ((created env s n name i d a b bitmap).files n)).entries e =
        (Volume.of s.toMetadata (s.files n)).entries e := by
    intro e he
    refine entries_congr h (hadded.directory e he) fun j hnamed hleads hj => ?_
    have hne : j ≠ i := by
      rintro rfl
      exact hadded.fresh hj
    exact contents_congr (hadded.inodes j hne)
      (hadded.blocks _ (h.index j hj).2.1 ((h.index j hj).ne_of_free hfound.indexFree))
      (hadded.blocks _ (h.data j hj).2.1 ((h.data j hj).ne_of_free hfound.indexFree))
  have hfree : (Volume.of s.toMetadata (s.files n)).entries d = none :=
    entries_of_not_named hadded.free
  by_cases hname : name.chars = []
  · have hunnamed : ¬ (created env s n name i d a b bitmap).named d := by
      unfold Metadata.named DirEntry.named
      rw [created_directory_self]
      exact fun hnamed => hnamed (by simp [copyName, hname])
    simp only [if_pos hname]
    refine Volume.ext ?_ hinodes hblocks
    funext e
    by_cases he : e = d
    · rw [he, entries_of_not_named hunnamed, hfree]
    · exact hother e he
  · have hnamed : (created env s n name i d a b bitmap).named d := created_named hname
    have hcontents : (created env s n name i d a b bitmap).contents
        ((created env s n name i d a b bitmap).files n) i = .new := by
      have hself : (created env s n name i d a b bitmap).inodes i = { s.inodes i with
          isUsed := 1, singleIndirectBlock := BitVec.ofInt 16 a, fileSize := 0 } :=
        Function.update_self ..
      refine Contents.ext ?_ ?_
      · show ((created env s n name i d a b bitmap).inodes i).fileSize = 0
        rw [hself]
      · show ((created env s n name i d a b bitmap).files n).block
          ((created env s n name i d a b bitmap).dataAt _ i) = .zero
        rw [hadded.data, hadded.blocks b hfound.data hfound.ne.symm]
        exact hclean b hfound.data hfound.dataFree
    simp only [if_neg hname]
    refine Volume.ext ?_ hinodes hblocks
    funext e
    show _ = Function.update (Volume.of s.toMetadata (s.files n)).entries d _ e
    by_cases he : e = d
    · rw [he, Function.update_self, entries_of_named hnamed hadded.leads, hfound.cName, hcontents]
    · rw [Function.update_of_ne he]
      exact hother e he

theorem volume_deleted {empty : Block} (h : Consistent s.toMetadata (s.files n))
    (hclosed : Closed s name i d)
    (hcleared : ∀ q, taken bitmap q = if q = s.indexAt i ∨ q = s.dataAt (s.files n) i then false
      else taken s.usedBlocksBitmap q) :
    Volume.of (deleted s n i d (s.indexAt i) (s.dataAt (s.files n) i) empty bitmap).toMetadata
        ((deleted s n i d (s.indexAt i) (s.dataAt (s.files n) i) empty bitmap).files n) =
      (Volume.of s.toMetadata (s.files n)).remove d := by
  have hi := hclosed.used h
  have hsize := h.size
  have hnamed := (findDirectory_old hclosed.entry).1
  obtain ⟨-, hlt, hmarked⟩ := h.index i hi
  obtain ⟨-, hltb, hmarkedb⟩ := h.data i hi
  refine Volume.ext ?_ (unusedInodes_free hi rfl)
    (freeBlocks_cleared (h.apart i i hi hi) hlt hltb hmarked hmarkedb hcleared)
  funext e
  show _ = Function.update (Volume.of s.toMetadata (s.files n)).entries d none e
  by_cases he : e = d
  · rw [he, Function.update_self, entries_of_not_named deleted_not_named]
  · rw [Function.update_of_ne he]
    refine entries_congr h (deleted_entry he) fun j hnamed' hleads hj => ?_
    have hne : j ≠ i := by
      rintro rfl
      exact he (h.unique e d j hnamed' hnamed hleads hclosed.leads)
    have hltj := (h.index j hj).2.1
    have hltbj := (h.data j hj).2.1
    exact contents_congr (deleted_inode hne)
      (deleted_block empty (by omega) (by omega)
        (fun heq => hne (h.index_inj j i hj hi heq)) (h.apart j i hj hi))
      (deleted_block empty (by omega) (by omega) (h.apart i j hi hj).symm
        fun heq => hne (h.data_inj j i hj hi heq))

theorem volume_resize (h : Consistent s.toMetadata (s.files n)) (hnamed : s.named d)
    (hleads : s.leadsTo d i) (size : BitVec 16) :
    Volume.of (resize s i size).toMetadata (s.files n) = (Volume.of s.toMetadata (s.files n)).put d
      (some ((s.directory d).cName, { s.contents (s.files n) i with size := size })) := by
  have hself : (resize s i size).inodes i = { s.inodes i with fileSize := size } :=
    Function.update_self ..
  have hcontents : (resize s i size).contents (s.files n) i =
      { s.contents (s.files n) i with size := size } := by
    refine Contents.ext ?_ ?_
    · show ((resize s i size).inodes i).fileSize = size
      rw [hself]
    · show (s.files n).block ((resize s i size).dataAt (s.files n) i) = _
      rw [Metadata.dataAt, entryAt_congr (inodes_resize s i i size).2 rfl]
      rfl
  rw [← hcontents]
  refine volume_put h hnamed hleads rfl rfl (fun j => ?_) fun j hj _ => ?_
  · by_cases hj : j = i
    · rw [hj, hself]
    · exact congrArg Inode.isUsed (Function.update_of_ne hj ..)
  · exact contents_congr (Function.update_of_ne hj ..) rfl rfl

/-- The bytes that `fs_write` copies are those that are overwritten. -/
theorem volume_written {buf : List UInt8} (h : InOrder s n) (hnamed : s.named d) (hleads : s.leadsTo d i)
    (hopened : Opened s fd i offset) (hin : buf = [] ∨ offset + buf.length ≤ blockSize) :
    ∃ block, copyInto ((s.files n).block (target s.toMetadata (s.files n) i offset))
        (offset % blockSize : Nat) buf = .ok block ∧
      Volume.of (written s n fd i (target s.toMetadata (s.files n) i offset) block
          buf.length).toMetadata ((written s n fd i (target s.toMetadata (s.files n) i offset) block
          buf.length).files n) =
        (Volume.of s.toMetadata (s.files n)).put d
          (some ((s.directory d).cName, (s.contents (s.files n) i).overwrite offset buf)) := by
  have hsize := h.consistent.size
  have hrem : offset % blockSize + buf.length ≤ blockSize := by
    have hlt : offset % blockSize < blockSize := Nat.mod_lt _ (by decide)
    have hle : offset % blockSize ≤ offset := Nat.mod_le ..
    rcases hin with rfl | hin
    · exact Nat.le_of_lt hlt
    · omega
  generalize ht : target s.toMetadata (s.files n) i offset = t
  have hindex : ∀ j, s.used j → s.indexAt j ≠ t := fun j hj =>
    ht ▸ h.index_ne_target offset hopened.used hj
  obtain ⟨block, hcopy, hbytes⟩ := copyInto_of_le (b := (s.files n).block t) hrem
  refine ⟨block, hcopy, ?_⟩
  have hfile : (written s n fd i t block buf.length).files n = (s.files n).write t block :=
    Function.update_self ..
  have hself : (written s n fd i t block buf.length).inodes i = { s.inodes i with
      fileSize := BitVec.ofInt 16 ((s.inodes i).fileSize.toNat + buf.length) } := Function.update_self ..
  have hcontents : (written s n fd i t block buf.length).contents
      ((written s n fd i t block buf.length).files n) i =
        (s.contents (s.files n) i).overwrite offset buf := by
    refine Contents.ext ?_ ?_
    · show ((written s n fd i t block buf.length).inodes i).fileSize = _
      rw [hself, ← Int.natCast_add, BitVec.ofInt_natCast]
      rfl
    · show ((written s n fd i t block buf.length).files n).block
        ((written s n fd i t block buf.length).dataAt _ i) = _
      rw [dataAt_written h hopened.used hindex, hfile]
      funext p
      by_cases hfirst : offset < blockSize
      · rw [target, if_pos hfirst] at ht
        rw [Nat.mod_eq_of_lt hfirst] at hbytes
        have hbyte := hbytes p p.isLt
        rw [Block.byte, dif_pos p.isLt] at hbyte
        rw [ht, File.write_self]
        exact hbyte.trans (by rw [← ht]; rfl)
      · rw [target, if_neg hfirst] at ht
        obtain ⟨hpos, hlt, -⟩ := h.consistent.data i hopened.used
        rw [File.write_other (by omega) (by omega)]
        obtain rfl : buf = [] := by
          rcases hin with hnil | hin
          · exact hnil
          · exact List.length_eq_zero_iff.mp (by omega)
        have hbyte : (if offset ≤ p.val ∧ p.val < offset + 0 then (0 : UInt8)
            else ((s.files n).block (s.dataAt (s.files n) i)).byte p) =
              (s.files n).block (s.dataAt (s.files n) i) p := by
          rw [if_neg (by omega), Block.byte, dif_pos p.isLt]
        exact hbyte.symm
  rw [← hcontents]
  refine volume_put h.consistent hnamed hleads rfl rfl (fun j => ?_) fun j hj hu => ?_
  · by_cases hj : j = i
    · rw [hj, hself]
    · exact congrArg Inode.isUsed (Function.update_of_ne hj ..)
  · obtain ⟨hpos, hlt, -⟩ := h.consistent.data j hu
    have hdata : s.dataAt (s.files n) j ≠ t := by
      rw [← ht, target]
      split
      · exact fun heq => hj (h.consistent.data_inj j i hu hopened.used heq)
      · omega
    rw [hfile]
    have hlti := (h.consistent.index j hu).2.1
    exact contents_congr (Function.update_of_ne hj ..) (File.write_other (hindex j hu) (by omega) block)
      (File.write_other hdata (by omega) block)

end

end OSChallenges.FileSystem
