import OSChallenges.FileSystem.Order

/-!
# What a call leaves alone

A call on one file changes neither the blocks of another file nor what the other descriptors refer
to. No call on the open disk touches another disk.
-/

namespace OSChallenges.FileSystem

open Records Words Outcomes

/-- The blocks of a file: its index block and its data block. -/
def Metadata.blocksOf (m : Metadata) (f : File) (i : Fin maxFiles) : List Nat :=
  [m.indexAt i, m.dataAt f i]

theorem mem_blocksOf {m : Metadata} {f : File} {i : Fin maxFiles} {b : Nat} :
    b ∈ m.blocksOf f i ↔ b = m.indexAt i ∨ b = m.dataAt f i := by
  simp [Metadata.blocksOf]

/-- The call writes the file of the inode or deletes it. -/
def Subject (s : State) (c : Call) (i : Fin maxFiles) : Prop :=
  match c with
  | .write fildes _ => ∃ fd : Fin maxDescriptors, fildes = fd ∧ (s.fds fd).isUsed = true ∧
      (s.fds fd).inodeNum.toNat = i
  | .delete name => ∃ d, findDirectory s.directory false name = some d ∧ s.leadsTo d i
  | _ => False

variable {env : Env} {s s' : State} {n name : CString} {r : Int} {c : Call} {fd : Fin maxDescriptors}
  {i j : Fin maxFiles} {offset b : Nat}

/-- The descriptor is used after the call as before, its inode has the same index block, and the
entries of the inode are the same. -/
structure StillOpen (s s' : State) (fd : Fin maxDescriptors) (i : Fin maxFiles) : Prop where
  isUsed : (s'.fds fd).isUsed = true
  inodeNum : (s'.fds fd).inodeNum = (s.fds fd).inodeNum
  used : s'.used i
  index : s'.indexAt i = s.indexAt i
  entry : ∀ d, s.named d → s.leadsTo d i → s'.directory d = s.directory d

structure Framed (s : State) (c : Call) (s' : State) (n : CString) : Prop where
  handle : s'.handle = s.handle
  ready : s'.readyForUse = s.readyForUse
  files : ∀ x, x ≠ n → s'.files x = s.files x
  blocks : ∀ j, s.used j → ¬ Subject s c j → ∀ b ∈ s.blocksOf (s.files n) j,
    (s'.files n).block b = (s.files n).block b
  stillOpen : ∀ fd i offset, Opened s fd i offset → c ≠ .close fd → StillOpen s s' fd i

theorem Framed.of_tables (hhandle : s'.handle = s.handle) (hready : s'.readyForUse = s.readyForUse)
    (hfiles : s'.files = s.files) (hdirectory : s'.directory = s.directory)
    (hinodes : ∀ i, s.used i → s'.used i ∧ s'.indexAt i = s.indexAt i)
    (hfds : ∀ fd : Fin maxDescriptors, (s.fds fd).isUsed = true → c ≠ .close fd →
      (s'.fds fd).isUsed = true ∧ (s'.fds fd).inodeNum = (s.fds fd).inodeNum) : Framed s c s' n where
  handle := hhandle
  ready := hready
  files := fun x _ => by rw [hfiles]
  blocks := fun j _ _ b _ => by rw [hfiles]
  stillOpen := fun fd i offset hopened hclose =>
    { isUsed := (hfds fd hopened.isUsed hclose).1
      inodeNum := (hfds fd hopened.isUsed hclose).2
      used := (hinodes i hopened.used).1
      index := (hinodes i hopened.used).2
      entry := fun d _ _ => by rw [hdirectory] }

theorem Framed.refl : Framed s c s n :=
  .of_tables rfl rfl rfl rfl (fun _ hu => ⟨hu, rfl⟩) fun _ hu _ => ⟨hu, rfl⟩

theorem Framed.mark (bitmap : Bitmap) : Framed s c { s with usedBlocksBitmap := bitmap } n :=
  .of_tables rfl rfl rfl rfl (fun _ hu => ⟨hu, rfl⟩) fun _ hu _ => ⟨hu, rfl⟩

/-- A seek keeps what the descriptors refer to. -/
theorem fds_seek (s : State) (fd fd' : Fin maxDescriptors) (position : Int) :
    ((seek s fd position).fds fd').isUsed = (s.fds fd').isUsed ∧
      ((seek s fd position).fds fd').inodeNum = (s.fds fd').inodeNum := by
  unfold seek
  by_cases heq : fd' = fd
  · subst heq
    simp only [Function.update_self, and_self]
  · simp only [Function.update_of_ne heq, and_self]

theorem inodes_resize (s : State) (i j : Fin maxFiles) (fileSize : BitVec 16) :
    ((resize s i fileSize).used j ↔ s.used j) ∧
      (resize s i fileSize).indexAt j = s.indexAt j := by
  unfold resize Metadata.used Metadata.indexAt Inode.used
  by_cases heq : j = i
  · subst heq
    simp only [Function.update_self, and_self]
  · simp only [Function.update_of_ne heq, and_self]

theorem Framed.seek (position : Int) : Framed s c (seek s fd position) n := by
  refine .of_tables rfl rfl rfl rfl (fun _ hu => ⟨hu, rfl⟩) ?_
  intro fd' hused _
  obtain ⟨hsame, hnum⟩ := fds_seek s fd fd' position
  exact ⟨hsame.trans hused, hnum⟩

theorem Framed.resize (fileSize : BitVec 16) : Framed s c (resize s i fileSize) n := by
  refine .of_tables rfl rfl rfl rfl ?_ fun _ hu _ => ⟨hu, rfl⟩
  intro j hj
  obtain ⟨hused, hindex⟩ := inodes_resize s i j fileSize
  exact ⟨hused.mpr hj, hindex⟩

theorem Framed.open {description : FileDescriptor} (hfree : (s.fds fd).isUsed = false) :
    Framed s c { s with fds := Function.update s.fds fd description } n := by
  refine .of_tables rfl rfl rfl rfl (fun _ hu => ⟨hu, rfl⟩) ?_
  intro fd' hused _
  have hne : fd' ≠ fd := by
    rintro rfl
    rw [hfree] at hused
    cases hused
  simp only [Function.update_of_ne hne]
  exact ⟨hused, trivial⟩

theorem Framed.close {fildes : Int} (hfildes : fildes = fd) :
    Framed s (.close fildes) { s with fds := Function.update s.fds fd .zero } n := by
  refine .of_tables rfl rfl rfl rfl (fun _ hu => ⟨hu, rfl⟩) ?_
  intro fd' hused hother
  have hne : fd' ≠ fd := by
    rintro rfl
    exact hother (by rw [hfildes])
  simp only [Function.update_of_ne hne]
  exact ⟨hused, trivial⟩

/-! ### Calls that write blocks -/

theorem Framed.create {i d : Fin maxFiles} {a b : Nat} {bitmap : Bitmap} (h : InOrder s n)
    (hfound : Found s name i d a b bitmap) :
    Framed s c (created env s n name i d a b bitmap) n where
  handle := rfl
  ready := rfl
  files := fun x hx => Function.update_of_ne hx ..
  blocks := by
    intro j hj _ k hk
    have hinUse : s.InUse k := by
      rcases mem_blocksOf.mp hk with rfl | rfl
      · exact h.consistent.index j hj
      · exact h.consistent.data j hj
    have hne : k ≠ a := by
      rintro rfl
      have hmarked := hinUse.2.2
      rw [hfound.indexFree] at hmarked
      cases hmarked
    rw [created_file]
    exact File.write_other hne (h.consistent.size ▸ hinUse.2.1) _
  stillOpen := by
    intro fd j offset hopened _
    have hne : j ≠ i := by
      rintro rfl
      exact findInode_unused hfound.inode hopened.used
    have hinode : (created env s n name i d a b bitmap).inodes j = s.inodes j :=
      Function.update_of_ne hne ..
    refine ⟨hopened.isUsed, rfl, ?_, ?_, ?_⟩
    · rw [Metadata.used, hinode]
      exact hopened.used
    · rw [Metadata.indexAt, hinode]
      rfl
    · intro e he _
      have hed : e ≠ d := by
        rintro rfl
        exact findDirectory_new hfound.entry he
      exact Function.update_of_ne hed ..

theorem Framed.delete {i d : Fin maxFiles} {bitmap : Bitmap} {empty : Block} (h : InOrder s n)
    (hclosed : Closed s name i d) :
    Framed s (.delete name)
      (deleted s n i d (s.indexAt i) (s.dataAt (s.files n) i) empty bitmap) n where
  handle := rfl
  ready := rfl
  files := fun x hx => Function.update_of_ne hx ..
  blocks := by
    intro j hj hother k hk
    have hi := hclosed.used h.consistent
    have hne : j ≠ i := by
      rintro rfl
      exact hother ⟨d, hclosed.entry, hclosed.leads⟩
    have hsize := h.consistent.size
    have hltb := (h.consistent.data i hi).2.1
    rcases mem_blocksOf.mp hk with rfl | rfl
    · have hlt := (h.consistent.index j hj).2.1
      exact deleted_block empty (by omega) (by omega)
        (fun heq => hne (h.consistent.index_inj j i hj hi heq)) (h.consistent.apart j i hj hi)
    · have hlt := (h.consistent.data j hj).2.1
      exact deleted_block empty (by omega) (by omega) (h.consistent.apart i j hi hj).symm
        fun heq => hne (h.consistent.data_inj j i hj hi heq)
  stillOpen := by
    intro fd j offset hopened _
    have hne : j ≠ i := by
      rintro rfl
      apply hclosed.closed fd hopened.isUsed
      exact BitVec.eq_of_toNat_eq (hopened.inodeNum.trans hclosed.leads.symm)
    have hinode : (deleted s n i d (s.indexAt i) (s.dataAt (s.files n) i) empty bitmap).inodes j =
      s.inodes j := Function.update_of_ne hne ..
    refine ⟨hopened.isUsed, rfl, ?_, ?_, ?_⟩
    · rw [Metadata.used, hinode]
      exact hopened.used
    · rw [Metadata.indexAt, hinode]
      rfl
    · intro e _ hleads
      have hed : e ≠ d := by
        rintro rfl
        exact hne (Fin.ext (hleads.symm.trans hclosed.leads))
      exact Function.update_of_ne hed ..

theorem Framed.write {fildes nbyte : Int} {buf : List UInt8} {block : Block} (h : InOrder s n)
    (hfildes : fildes = fd) (hopened : Opened s fd i offset) :
    Framed s (.write fildes buf)
      (written s n fd i (target s.toMetadata (s.files n) i offset) block nbyte) n where
  handle := rfl
  ready := rfl
  files := fun x hx => Function.update_of_ne hx ..
  blocks := by
    intro j hj hother k hk
    have hne : j ≠ i := by
      rintro rfl
      exact hother ⟨fd, hfildes, hopened.isUsed, hopened.inodeNum⟩
    have hdata : s.dataAt (s.files n) j ≠ target s.toMetadata (s.files n) i offset := by
      unfold target
      split
      · exact fun heq => hne (h.consistent.data_inj j i hj hopened.used heq)
      · have hpos := (h.consistent.data j hj).1
        omega
    have hsize := h.consistent.size
    unfold written
    simp only [Function.update_self]
    rcases mem_blocksOf.mp hk with rfl | rfl
    · have hlt := (h.consistent.index j hj).2.1
      exact File.write_other (h.index_ne_target offset hopened.used hj) (by omega) _
    · have hlt := (h.consistent.data j hj).2.1
      exact File.write_other hdata (by omega) _
  stillOpen := by
    intro fd' j offset' hopened' _
    obtain ⟨hused, hindex⟩ := inodes_resize s i j
      (BitVec.ofInt 16 ((s.inodes i).fileSize.toNat + nbyte))
    obtain ⟨hsame, hnum⟩ := fds_seek s fd fd' ((s.fds fd).offset + nbyte)
    exact ⟨hsame.trans hopened'.isUsed, hnum, hused.mpr hopened'.used, hindex, fun _ _ _ => rfl⟩

end OSChallenges.FileSystem
