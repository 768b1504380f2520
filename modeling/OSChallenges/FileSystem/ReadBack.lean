import OSChallenges.FileSystem.Writes

/-!
# Reading back what has been written

`fs_write`, `fs_lseek` and `fs_read` compute the block of an offset each for itself. In the first block of
a file they agree, so that a read gives the bytes that have been written at the same offset.
-/

namespace OSChallenges.FileSystem

open Records Words Outcomes Runs

variable {env : Env} {s s' : State} {n : CString} {fd : Fin maxDescriptors} {i : Fin maxFiles}
  {offset nbyte : Nat} {buf : List UInt8}

/-! ### The outcome of each call -/

/-- What `memcpy` finds from an offset on: the bytes of the block, and the memory behind it. -/
def copied (env : Env) (b : Block) (offset nbyte : Nat) : List UInt8 :=
  (List.range nbyte).map fun k =>
    if offset + k < blockSize then b.byte (offset + k) else env.heap (offset + k : Nat)

theorem read_eq (env : Env) (hready : s.readyForUse = true) (hopen : s.handle = some n)
    (h : Consistent s.toMetadata (s.files n)) (hfd : Opened s fd i offset) (nbyte : Nat) :
    fsRead env s fd nbyte =
      .ok (if (s.inodes i).fileSize.toNat ≤ offset ∨ blockSize ≤ offset then (.of 0, s)
        else (⟨toInt32 nbyte, copied env ((s.files n).block (s.dataAt (s.files n) i)) offset nbyte, []⟩,
          seek s fd (offset + toInt32 nbyte))) := by
  obtain ⟨k, hk, hentry⟩ := entry_eq h hfd.used hfd.lt
  have hindex : index maxFiles ((s.fds fd).inodeNum.toNat : Int) = .ok i := by
    rw [hfd.inodeNum]
    exact index_of_lt i.isLt
  have hread : s.blockRead ((s.inodes i).singleIndirectBlock.toNat : Int) env.buffer =
      some ((s.files n).block (s.indexAt i)) :=
    blockRead_eq hopen (h.index i hfd.used).2.1 h.size _
  unfold fsRead
  rw [index_of_lt fd.isLt]
  simp only [hready, hfd.isUsed, ok_bind, hindex, hread, hfd.offset, hk, Bool.not_true,
    Bool.false_eq_true, if_false]
  by_cases hend : (s.inodes i).fileSize.toNat ≤ offset
  · rw [if_pos (by omega), if_pos (.inl hend)]
    rfl
  rw [if_neg (by omega)]
  by_cases hlarge : blockSize ≤ offset
  · rw [target, if_neg (by omega)] at hentry
    rw [if_pos (BitVec.eq_of_toNat_eq hentry), if_pos (.inr hlarge)]
    rfl
  · have hfirst : offset < blockSize := Nat.lt_of_not_le hlarge
    obtain ⟨hpos, hlt, -⟩ := h.data i hfd.used
    have hlt' : s.dataAt (s.files n) i < 8192 := hlt
    rw [target, if_pos hfirst] at hentry
    have hne : inodeBlocks ((s.files n).block (s.indexAt i)) k ≠ 0 := by
      intro hzero
      rw [hzero] at hentry
      have hblock : 0 = s.dataAt (s.files n) i := hentry
      omega
    have hrem : remOffset offset = offset := by
      rw [remOffset_natCast, Nat.mod_eq_of_lt hfirst]
    rw [if_neg hne, if_neg (not_or.mpr ⟨hend, hlarge⟩), hentry, toInt32_of_lt (by omega),
      blockRead_eq hopen hlt h.size, hrem]
    have hbytes : ∀ j : Nat, (if 0 ≤ (offset : Int) + j ∧ (offset : Int) + j < blockSize then
          ((s.files n).block (s.dataAt (s.files n) i)).byte ((offset : Int) + j).toNat
        else env.heap ((offset : Int) + j)) = if offset + j < blockSize then
          ((s.files n).block (s.dataAt (s.files n) i)).byte (offset + j)
        else env.heap (offset + j : Nat) := by
      intro j
      rw [← Int.natCast_add, Int.toNat_natCast]
      by_cases hj : offset + j < blockSize
      · rw [if_pos (by omega), if_pos hj]
      · rw [if_neg (by omega), if_neg hj]
    simp only [hbytes, seek, hready, hfd.isUsed]
    rfl

theorem lseek_eq (hready : s.readyForUse = true) (hused : (s.fds fd).isUsed = true)
    (hinode : (s.fds fd).inodeNum.toNat = i) (hle : offset ≤ (s.inodes i).fileSize.toNat) :
    fsLseek s fd offset = .ok (0, seek s fd offset) := by
  have hindex : index maxFiles ((s.fds fd).inodeNum.toNat : Int) = .ok i := by
    rw [hinode]
    exact index_of_lt i.isLt
  unfold fsLseek
  rw [index_of_lt fd.isLt]
  simp only [hready, hused, ok_bind, hindex, Bool.not_true, Bool.false_eq_true, if_false]
  rw [if_neg (by omega), if_neg (by omega)]
  simp only [seek, hready, hused]
  rfl

/-! ### Writing, seeking and reading -/

theorem Opened.written {t k : Nat} {b : Block} (h : Opened s fd i offset) (hlt : offset + k < 2 ^ 16) :
    Opened (written s n fd i t b k) fd i (offset + k) := by
  have hfd : (FileSystem.written s n fd i t b k).fds fd =
      { s.fds fd with offset := (s.fds fd).offset + k } := Function.update_self ..
  refine ⟨by rw [hfd]; exact h.isUsed, by rw [hfd]; exact h.inodeNum, ?_, h.named, hlt, ?_⟩
  · have hinode : (FileSystem.written s n fd i t b k).inodes i = { s.inodes i with
        fileSize := BitVec.ofInt 16 ((s.inodes i).fileSize.toNat + k) } := Function.update_self ..
    rw [Metadata.used, hinode]
    exact h.used
  · rw [hfd, h.offset]
    exact (Int.natCast_add ..).symm

theorem fileSize_written {t k : Nat} {b : Block} (hlt : (s.inodes i).fileSize.toNat + k < 2 ^ 16) :
    ((written s n fd i t b k).inodes i).fileSize.toNat = (s.inodes i).fileSize.toNat + k := by
  have hinode : (written s n fd i t b k).inodes i = { s.inodes i with
      fileSize := BitVec.ofInt 16 ((s.inodes i).fileSize.toNat + k) } := Function.update_self ..
  rw [hinode, ← Int.natCast_add, BitVec.ofInt_natCast, BitVec.toNat_ofNat, Nat.mod_eq_of_lt hlt]

theorem dataAt_written {t : Nat} {b : Block} {nbyte : Int} {j : Fin maxFiles} (h : InOrder s n)
    (hj : s.used j) (ht : ∀ k, s.used k → s.indexAt k ≠ t) :
    (written s n fd i t b nbyte).dataAt ((written s n fd i t b nbyte).files n) j =
      s.dataAt (s.files n) j := by
  have hfile : (written s n fd i t b nbyte).files n = (s.files n).write t b := Function.update_self ..
  have hindex := (inodes_resize s i j (BitVec.ofInt 16 ((s.inodes i).fileSize.toNat + nbyte))).2
  have hentry : (written s n fd i t b nbyte).entryAt ((written s n fd i t b nbyte).files n) j 0 =
      s.entryAt (s.files n) j 0 := by
    apply entryAt_congr hindex
    rw [hfile]
    exact File.write_other (ht j hj) (h.consistent.size ▸ (h.consistent.index j hj).2.1) b
  rw [Metadata.dataAt, hentry, Metadata.dataAt]

theorem map_range_eq {l : List UInt8} {f : Nat → UInt8} (h : ∀ k < l.length, f k = l.getD k 0) :
    (List.range l.length).map f = l := by
  apply List.ext_getElem
  · rw [List.length_map, List.length_range]
  · intro k hk hk'
    rw [List.getElem_map, List.getElem_range, h k hk']
    exact (List.getElem_eq_getD 0).symm

theorem copied_of_le {b : Block} (h : offset + nbyte ≤ blockSize) :
    copied env b offset nbyte = (List.range nbyte).map fun k => b.byte (offset + k) := by
  apply List.map_congr_left
  intro k hk
  have hlt := List.mem_range.mp hk
  rw [if_pos (by omega)]

/-- A write of the bytes, a seek back and a read give the bytes, and the other bytes of the data block
stay as they are. -/
def ReadsBack (s : State) (n : CString) (fd : Fin maxDescriptors) (i : Fin maxFiles)
    (buf : List UInt8) : Prop :=
  ∀ env env', ∃ s₁ s₂ s₃, fsWrite env s fd buf = .ok ((buf.length : Int), s₁) ∧
    fsLseek s₁ fd (s.fds fd).offset = .ok (0, s₂) ∧
    fsRead env' s₂ fd buf.length = .ok (⟨buf.length, buf, []⟩, s₃) ∧
    s₂.files = s₁.files ∧ s₃.files = s₁.files ∧
    ∀ p < blockSize, ¬ ((s.fds fd).offset ≤ p ∧ p < (s.fds fd).offset + buf.length) →
      ((s₁.files n).block (s.dataAt (s.files n) i)).byte p =
        ((s.files n).block (s.dataAt (s.files n) i)).byte p

theorem readsBack (hready : s.readyForUse = true) (hopen : s.handle = some n) (h : InOrder s n)
    (hopened : Opened s fd i offset) (hne : buf ≠ [])
    (hoffset : offset ≤ (s.inodes i).fileSize.toNat) (hin : offset + buf.length ≤ blockSize)
    (hsize : (s.inodes i).fileSize.toNat + buf.length < 2 ^ 16) : ReadsBack s n fd i buf := by
  intro env env'
  have hpos := List.length_pos_iff.mpr hne
  have hfirst : offset < blockSize := by omega
  have hlen : toInt32 buf.length = buf.length := toInt32_le (.inr hin)
  have htarget : target s.toMetadata (s.files n) i offset = s.dataAt (s.files n) i := if_pos hfirst
  obtain ⟨b, hcopy, hbytes⟩ := copyInto_of_le (b := (s.files n).block (s.dataAt (s.files n) i)) hin
  have hwrite := write_eq_map env hready hopen h.consistent hopened buf
  rw [htarget, Nat.mod_eq_of_lt hfirst, hcopy, hlen] at hwrite
  let s₁ := written s n fd i (s.dataAt (s.files n) i) b buf.length
  have hopen₁ : s₁.handle = some n := hopen
  have hready₁ : s₁.readyForUse = true := hready
  have hfile : s₁.files n = (s.files n).write (s.dataAt (s.files n) i) b := Function.update_self ..
  have horder₁ : InOrder s₁ n := by
    refine h.write hopen ?_ hwrite
    intro fd' j offset' hfd hopened'
    have hsame : fd' = fd := Fin.ext (by omega)
    subst hsame
    have heq := hopened'.offset
    rw [hopened.offset] at heq
    omega
  have hopened₁ : Opened s₁ fd i (offset + buf.length) := hopened.written (by omega)
  have hgrown : (s₁.inodes i).fileSize.toNat = (s.inodes i).fileSize.toNat + buf.length :=
    fileSize_written hsize
  have hseek : fsLseek s₁ fd offset = .ok (0, seek s₁ fd offset) :=
    lseek_eq hready₁ hopened₁.isUsed hopened₁.inodeNum (by omega)
  let s₂ := seek s₁ fd offset
  have hopened₂ : Opened s₂ fd i offset := hopened₁.seek (by omega)
  have hread := read_eq (s := s₂) env' hready₁ hopen₁ horder₁.consistent hopened₂ buf.length
  have hsize₂ : (s₂.inodes i).fileSize.toNat = (s.inodes i).fileSize.toNat + buf.length := hgrown
  rw [hsize₂, if_neg (by omega), copied_of_le hin, hlen] at hread
  have hdata₁ : s₁.dataAt (s₁.files n) i = s.dataAt (s.files n) i :=
    dataAt_written h hopened.used fun j hj => h.consistent.apart j i hj hopened.used
  have hdata : s₂.dataAt (s₂.files n) i = s.dataAt (s.files n) i := hdata₁
  have hblock : (s₂.files n).block (s.dataAt (s.files n) i) = b := by
    show (s₁.files n).block _ = b
    rw [hfile, File.write_self]
  have hback : (List.range buf.length).map (fun k => b.byte (offset + k)) = buf := by
    apply map_range_eq
    intro k hk
    rw [hbytes _ (by omega), if_pos (by omega), Nat.add_sub_cancel_left]
  rw [hdata, hblock, hback] at hread
  rw [hopened.offset]
  refine ⟨s₁, s₂, _, hwrite, hseek, hread, rfl, rfl, fun p hp hout => ?_⟩
  rw [hfile, File.write_self, hbytes p hp, if_neg (by omega)]

/-- In a session every write of a file from an offset inside it that stays in the first block can be read
back. -/
theorem write_then_read {files : CString → File} {run : List ((Env × Call) × Session)}
    (h : EachStep Session.Step (.boot files) run) :
    Always (fun w : Session => ∀ n fd (i : Fin maxFiles) (buf : List UInt8),
      w.state.handle = some n → (w.state.fds fd).isUsed = true →
      (w.state.fds fd).inodeNum.toNat = i →
      (w.state.fds fd).offset ≤ (w.state.inodes i).fileSize.toNat → 1 ≤ buf.length →
      (w.state.fds fd).offset + buf.length ≤ 4096 →
      (w.state.inodes i).fileSize.toNat + buf.length ≤ 65535 →
      ReadsBack w.state n fd i buf) (.boot files) run := by
  refine (always_orderly h).mono ?_
  intro w hw n fd i buf hopen hused hinode hoffset hpos hin hsize
  have horder := hw.mounted n hopen
  have hready := hw.ready_of_open hopen
  obtain ⟨j, offset, hopened⟩ := horder.described fd hused
  have hsame : j = i := Fin.ext (hopened.inodeNum.symm.trans hinode)
  subst hsame
  rw [hopened.offset] at hoffset hin
  refine readsBack hready hopen horder hopened (List.length_pos_iff.mp hpos) (by omega) ?_ (by omega)
  unfold blockSize
  omega

/-- Three bytes are written, and the offset is set to the second one. -/
def threeBytes : List ((Env × Call) × Session) :=
  trail Session.step (.boot fun _ => .empty) ([.makeFs (some disk0), .mountFs (some disk0),
    .create nameA, .open nameA, .write 0 [1, 2, 3], .lseek 0 1].map fun c => (Env.plain, c))

theorem write_then_read_threeBytes : threeBytes.length = 6 ∧
    ReadsBack (last (.boot fun _ => .empty) threeBytes).state disk0 descriptor0 ⟨0, by decide⟩ [7, 8] := by
  have hallows : EachStep (fun w a _ => Session.Allows w a.1 a.2) (.boot fun _ => .empty)
      threeBytes := by
    decide +kernel
  refine ⟨by decide +kernel, ?_⟩
  exact (write_then_read (hallows.and (eachStep_trail ..))).last disk0 descriptor0 ⟨0, by decide⟩
    [7, 8] (by decide +kernel) (by decide +kernel) (by decide +kernel) (by decide +kernel)
    (by decide) (by decide +kernel) (by decide +kernel)

end OSChallenges.FileSystem
