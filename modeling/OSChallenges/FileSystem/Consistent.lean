import OSChallenges.FileSystem.Lookup

/-!
# Who owns which block

On a disk that is in order, every used inode owns an index block and a data block that the bitmap
marks and that nobody else owns, and every name leads to a used inode of its own. What takes blocks
away or changes what no file owns keeps a disk in order; so does a new file with two blocks that were
free.
-/

namespace OSChallenges.FileSystem

open Records Words

namespace Metadata

def used (m : Metadata) (i : Fin maxFiles) : Prop := (m.inodes i).used

def named (m : Metadata) (d : Fin maxFiles) : Prop := (m.directory d).named

/-- The block where the block numbers of a file are. -/
def indexAt (m : Metadata) (i : Fin maxFiles) : Nat := (m.inodes i).singleIndirectBlock.toNat

/-- An entry of the index block of a file. -/
def entryAt (m : Metadata) (f : File) (i : Fin maxFiles) (k : Fin 256) : BitVec 32 :=
  inodeBlocks (f.block (m.indexAt i)) k

/-- The first block of the contents of a file. -/
def dataAt (m : Metadata) (f : File) (i : Fin maxFiles) : Nat := (m.entryAt f i 0).toNat

/-- A block of the disk, not block 0, that is marked. -/
def InUse (m : Metadata) (b : Nat) : Prop :=
  1 ≤ b ∧ b < diskBlocks ∧ taken m.usedBlocksBitmap b = true

/-- The entry leads to the inode. -/
def leadsTo (m : Metadata) (d i : Fin maxFiles) : Prop := (m.directory d).inodeNum.toNat = i.val

end Metadata

/-- The tables and the blocks of a disk agree. -/
structure Consistent (m : Metadata) (f : File) : Prop where
  size : f.size = diskBlocks
  metadata : taken m.usedBlocksBitmap 0 = true
  index : ∀ i, m.used i → m.InUse (m.indexAt i)
  data : ∀ i, m.used i → m.InUse (m.dataAt f i)
  rest : ∀ i, m.used i → ∀ k : Fin 256, 1 ≤ k.val → k.val < 128 → m.entryAt f i k = 0
  apart : ∀ i j, m.used i → m.used j → m.indexAt i ≠ m.dataAt f j
  index_inj : ∀ i j, m.used i → m.used j → m.indexAt i = m.indexAt j → i = j
  data_inj : ∀ i j, m.used i → m.used j → m.dataAt f i = m.dataAt f j → i = j
  named : ∀ d, m.named d → ∃ i, m.leadsTo d i ∧ m.used i
  unique : ∀ d e i, m.named d → m.named e → m.leadsTo d i → m.leadsTo e i → d = e
  names : ∀ d e, m.named d → m.named e → (m.directory d).cName = (m.directory e).cName → d = e
  terminated : ∀ d, (m.directory d).name 15 = 0

section

variable {m m' : Metadata} {f f' : File} {i : Fin maxFiles} {k : Fin 256}

theorem entryAt_congr (hindex : m'.indexAt i = m.indexAt i)
    (hblock : f'.block (m.indexAt i) = f.block (m.indexAt i)) : m'.entryAt f' i k = m.entryAt f i k := by
  rw [Metadata.entryAt, Metadata.entryAt, hindex, hblock]

theorem Consistent.keep (h : Consistent m f) (hsize : f'.size = f.size)
    (hzero : taken m'.usedBlocksBitmap 0 = true)
    (hused : ∀ i, m'.used i → m.used i ∧ m'.indexAt i = m.indexAt i ∧
      f'.block (m.indexAt i) = f.block (m.indexAt i) ∧
      taken m'.usedBlocksBitmap (m.indexAt i) = true ∧
      taken m'.usedBlocksBitmap (m.dataAt f i) = true)
    (hnamed : ∀ d, m'.named d → m'.directory d = m.directory d ∧
      ∀ i, m.leadsTo d i → m.used i → m'.used i)
    (hterminated : ∀ d, (m'.directory d).name 15 = 0) : Consistent m' f' := by
  have hentry : ∀ i k, m'.used i → m'.entryAt f' i k = m.entryAt f i k := fun i k hi =>
    entryAt_congr (hused i hi).2.1 (hused i hi).2.2.1
  have hdata : ∀ i, m'.used i → m'.dataAt f' i = m.dataAt f i := fun i hi => by
    rw [Metadata.dataAt, hentry i 0 hi, Metadata.dataAt]
  have hold : ∀ d, m'.named d → m.named d := by
    intro d hd
    have hsame := (hnamed d hd).1
    rw [Metadata.named, hsame] at hd
    exact hd
  refine ⟨hsize.trans h.size, hzero, ?_, ?_, ?_, ?_, ?_, ?_, ?_, ?_, ?_, hterminated⟩
  · intro i hi
    obtain ⟨hold, hindex, -, htaken, -⟩ := hused i hi
    obtain ⟨hpos, hlt, -⟩ := h.index i hold
    rw [hindex]
    exact ⟨hpos, hlt, htaken⟩
  · intro i hi
    obtain ⟨hold, -, -, -, htaken⟩ := hused i hi
    obtain ⟨hpos, hlt, -⟩ := h.data i hold
    rw [hdata i hi]
    exact ⟨hpos, hlt, htaken⟩
  · intro i hi k hpos hlt
    rw [hentry i k hi]
    exact h.rest i (hused i hi).1 k hpos hlt
  · intro i j hi hj
    rw [(hused i hi).2.1, hdata j hj]
    exact h.apart i j (hused i hi).1 (hused j hj).1
  · intro i j hi hj heq
    rw [(hused i hi).2.1, (hused j hj).2.1] at heq
    exact h.index_inj i j (hused i hi).1 (hused j hj).1 heq
  · intro i j hi hj heq
    rw [hdata i hi, hdata j hj] at heq
    exact h.data_inj i j (hused i hi).1 (hused j hj).1 heq
  · intro d hd
    obtain ⟨hsame, hstays⟩ := hnamed d hd
    obtain ⟨i, hleads, hi⟩ := h.named d (hold d hd)
    refine ⟨i, ?_, hstays i hleads hi⟩
    rw [Metadata.leadsTo, hsame]
    exact hleads
  · intro d e i hd he hdi hei
    rw [Metadata.leadsTo, (hnamed d hd).1] at hdi
    rw [Metadata.leadsTo, (hnamed e he).1] at hei
    exact h.unique d e i (hold d hd) (hold e he) hdi hei
  · intro d e hd he heq
    rw [(hnamed d hd).1, (hnamed e he).1] at heq
    exact h.names d e (hold d hd) (hold e he) heq

theorem Consistent.of_index (h : Consistent m f) (hsize : f'.size = f.size)
    (hblock : ∀ i, m.used i → f'.block (m.indexAt i) = f.block (m.indexAt i)) : Consistent m f' :=
  h.keep hsize h.metadata
    (fun i hi => ⟨hi, rfl, hblock i hi, (h.index i hi).2.2, (h.data i hi).2.2⟩)
    (fun _ _ => ⟨rfl, fun _ _ hi => hi⟩) h.terminated

theorem Consistent.mark (h : Consistent m f) {bitmap : Bitmap}
    (hmark : ∀ q, taken m.usedBlocksBitmap q = true → taken bitmap q = true) :
    Consistent { m with usedBlocksBitmap := bitmap } f :=
  h.keep rfl (hmark 0 h.metadata)
    (fun i hi => ⟨hi, rfl, rfl, hmark _ (h.index i hi).2.2, hmark _ (h.data i hi).2.2⟩)
    (fun _ _ => ⟨rfl, fun _ _ hi => hi⟩) h.terminated

/-- What a new file is: an unused inode, a free directory entry and two blocks that were free. -/
structure Added (m : Metadata) (f : File) (i d : Fin maxFiles) (s b : Nat) (m' : Metadata)
    (f' : File) : Prop where
  fresh : ¬ m.used i
  free : ¬ m.named d
  index : m'.indexAt i = s
  data : m'.dataAt f' i = b
  rest : ∀ k : Fin 256, 1 ≤ k.val → k.val < 128 → m'.entryAt f' i k = 0
  leads : m'.leadsTo d i
  name : ∀ e, m.named e → (m.directory e).cName ≠ (m'.directory d).cName
  terminated : (m'.directory d).name 15 = 0
  inodes : ∀ j, j ≠ i → m'.inodes j = m.inodes j
  directory : ∀ e, e ≠ d → m'.directory e = m.directory e
  blocks : ∀ c, c < diskBlocks → c ≠ s → f'.block c = f.block c
  size : f'.size = f.size
  ne : s ≠ b
  indexFree : taken m.usedBlocksBitmap s = false
  dataFree : taken m.usedBlocksBitmap b = false
  indexUse : m'.InUse s
  dataUse : m'.InUse b
  marked : ∀ q, taken m.usedBlocksBitmap q = true → taken m'.usedBlocksBitmap q = true

theorem apart_insert {α : Type} {β : Type} {P Q : α → Prop} {f g : α → β} {a x y : α}
    (hapart : ∀ x y, P x → P y → f x = f y → x = y) (hold : ∀ x, x ≠ a → Q x → P x ∧ g x = f x)
    (hnew : ∀ x, P x → f x ≠ g a) (hx : Q x) (hy : Q y) (heq : g x = g y) : x = y := by
  by_cases hxa : x = a
  · by_cases hya : y = a
    · rw [hxa, hya]
    · obtain ⟨hPy, hsame⟩ := hold y hya hy
      exact absurd (hsame.symm.trans (heq.symm.trans (congrArg g hxa))) (hnew y hPy)
  · obtain ⟨hPx, hsame⟩ := hold x hxa hx
    by_cases hya : y = a
    · exact absurd (hsame.symm.trans (heq.trans (congrArg g hya))) (hnew x hPx)
    · obtain ⟨hPy, hsame'⟩ := hold y hya hy
      exact hapart x y hPx hPy (hsame.symm.trans (heq.trans hsame'))

theorem Metadata.InUse.of_marked {q : Nat} (h : m.InUse q)
    (hmarked : ∀ q, taken m.usedBlocksBitmap q = true → taken m'.usedBlocksBitmap q = true) :
    m'.InUse q :=
  ⟨h.1, h.2.1, hmarked q h.2.2⟩

theorem Metadata.InUse.ne_of_free {q b : Nat} (h : m.InUse q) (hfree : taken m.usedBlocksBitmap b = false) :
    q ≠ b := by
  rintro rfl
  rw [h.2.2] at hfree
  cases hfree

section

variable {d e j : Fin maxFiles} {s b : Nat}

theorem Added.used_iff (hadd : Added m f i d s b m' f') (hj : j ≠ i) : m'.used j ↔ m.used j := by
  rw [Metadata.used, hadd.inodes j hj]
  exact Iff.rfl

theorem Added.named_iff (hadd : Added m f i d s b m' f') (he : e ≠ d) : m'.named e ↔ m.named e := by
  rw [Metadata.named, hadd.directory e he]
  exact Iff.rfl

theorem Added.indexAt_eq (hadd : Added m f i d s b m' f') (hj : j ≠ i) :
    m'.indexAt j = m.indexAt j := by
  rw [Metadata.indexAt, hadd.inodes j hj, Metadata.indexAt]

theorem Added.entryAt_eq (hadd : Added m f i d s b m' f') (h : Consistent m f) (hj : j ≠ i)
    (hu : m.used j) (k : Fin 256) : m'.entryAt f' j k = m.entryAt f j k :=
  entryAt_congr (hadd.indexAt_eq hj)
    (hadd.blocks _ (h.index j hu).2.1 ((h.index j hu).ne_of_free hadd.indexFree))

theorem Added.dataAt_eq (hadd : Added m f i d s b m' f') (h : Consistent m f) (hj : j ≠ i)
    (hu : m.used j) : m'.dataAt f' j = m.dataAt f j := by
  rw [Metadata.dataAt, hadd.entryAt_eq h hj hu, Metadata.dataAt]

theorem Added.not_leadsTo (hadd : Added m f i d s b m' f') (h : Consistent m f) (he : m.named e) :
    ¬ m.leadsTo e i := by
  intro hleads
  obtain ⟨j, hj, hu⟩ := h.named e he
  have heq : j = i := Fin.ext (hj.symm.trans hleads)
  exact hadd.fresh (heq ▸ hu)

theorem Consistent.add (h : Consistent m f) (hadd : Added m f i d s b m' f') (hused : m'.used i) :
    Consistent m' f' := by
  have hold : ∀ j, j ≠ i → m'.used j → m.used j := fun j hj => (hadd.used_iff hj).mp
  have hentries : ∀ e, e ≠ d → m'.named e → m.named e := fun e he => (hadd.named_iff he).mp
  refine ⟨hadd.size.trans h.size, hadd.marked 0 h.metadata, ?_, ?_, ?_, ?_, ?_, ?_, ?_, ?_, ?_, ?_⟩
  · intro j hu
    by_cases hj : j = i
    · rw [hj, hadd.index]
      exact hadd.indexUse
    · rw [hadd.indexAt_eq hj]
      exact (h.index j (hold j hj hu)).of_marked hadd.marked
  · intro j hu
    by_cases hj : j = i
    · rw [hj, hadd.data]
      exact hadd.dataUse
    · rw [hadd.dataAt_eq h hj (hold j hj hu)]
      exact (h.data j (hold j hj hu)).of_marked hadd.marked
  · intro j hu k hpos hlt
    by_cases hj : j = i
    · rw [hj]
      exact hadd.rest k hpos hlt
    · rw [hadd.entryAt_eq h hj (hold j hj hu)]
      exact h.rest j (hold j hj hu) k hpos hlt
  · intro j k hu hv
    by_cases hj : j = i
    · rw [hj, hadd.index]
      by_cases hk : k = i
      · rw [hk, hadd.data]
        exact hadd.ne
      · rw [hadd.dataAt_eq h hk (hold k hk hv)]
        exact ((h.data k (hold k hk hv)).ne_of_free hadd.indexFree).symm
    · rw [hadd.indexAt_eq hj]
      by_cases hk : k = i
      · rw [hk, hadd.data]
        exact (h.index j (hold j hj hu)).ne_of_free hadd.dataFree
      · rw [hadd.dataAt_eq h hk (hold k hk hv)]
        exact h.apart j k (hold j hj hu) (hold k hk hv)
  · intro j k hu hv heq
    refine apart_insert h.index_inj (fun j hj hu => ⟨hold j hj hu, hadd.indexAt_eq hj⟩) ?_ hu hv heq
    intro j hu
    rw [hadd.index]
    exact (h.index j hu).ne_of_free hadd.indexFree
  · intro j k hu hv heq
    refine apart_insert h.data_inj
      (fun j hj hu => ⟨hold j hj hu, hadd.dataAt_eq h hj (hold j hj hu)⟩) ?_ hu hv heq
    intro j hu
    rw [hadd.data]
    exact (h.data j hu).ne_of_free hadd.dataFree
  · intro e he
    by_cases hed : e = d
    · exact ⟨i, hed ▸ hadd.leads, hused⟩
    · obtain ⟨j, hleads, hj⟩ := h.named e (hentries e hed he)
      have hne : j ≠ i := fun heq => hadd.fresh (heq ▸ hj)
      refine ⟨j, ?_, (hadd.used_iff hne).mpr hj⟩
      rw [Metadata.leadsTo, hadd.directory e hed]
      exact hleads
  · intro e e' j he he' hej hej'
    refine apart_insert (P := m.named) (f := fun e => (m.directory e).inodeNum.toNat)
      (g := fun e => (m'.directory e).inodeNum.toNat) ?_
      (fun e hed he => ⟨hentries e hed he, by rw [hadd.directory e hed]⟩) ?_ he he' (hej.trans hej'.symm)
    · intro x y hx hy heq
      obtain ⟨k, hk, -⟩ := h.named x hx
      exact h.unique x y k hx hy hk (heq.symm.trans hk)
    · exact fun x hx heq => hadd.not_leadsTo h hx (heq.trans hadd.leads)
  · intro e e' he he' heq
    exact apart_insert (g := fun e => (m'.directory e).cName) h.names
      (fun e hed he => ⟨hentries e hed he, by rw [hadd.directory e hed]⟩) hadd.name he he' heq
  · intro e
    by_cases hed : e = d
    · rw [hed]
      exact hadd.terminated
    · rw [hadd.directory e hed]
      exact h.terminated e

end

end

end OSChallenges.FileSystem
