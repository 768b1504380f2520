import OSChallenges.FileSystem.Disks

/-!
# An open disk in order

The tables agree with the disk, and each used descriptor refers to a named file. Every call keeps it
so, if reads and writes stay in the first block of a file.
-/

namespace OSChallenges.FileSystem

open Records Words Outcomes

variable {env : Env} {s s' : State} {n name : CString} {r : Int} {fd : Fin maxDescriptors}
  {i : Fin maxFiles} {offset : Nat}

/-- The open disk and the descriptors are in order. -/
structure InOrder (s : State) (n : CString) : Prop where
  consistent : Consistent s.toMetadata (s.files n)
  described : Described s

/-! ### Descriptors -/

theorem Opened.of_eq (h : Opened s fd i offset) (hfd : s'.fds fd = s.fds fd)
    (hused : s.used i → s'.used i)
    (hentry : ∀ d, s.named d → s.leadsTo d i → s'.directory d = s.directory d) :
    Opened s' fd i offset := by
  obtain ⟨d, hnamed, hleads⟩ := h.named
  have hsame := hentry d hnamed hleads
  refine ⟨by rw [hfd]; exact h.isUsed, by rw [hfd]; exact h.inodeNum, hused h.used, ⟨d, ?_, ?_⟩, h.lt,
    by rw [hfd]; exact h.offset⟩
  · rw [Metadata.named, hsame]
    exact hnamed
  · rw [Metadata.leadsTo, hsame]
    exact hleads

theorem Opened.seek (h : Opened s fd i offset) {offset' : Nat} (hlt : offset' < 2 ^ 16) :
    Opened (seek s fd offset') fd i offset' := by
  have hfd : (FileSystem.seek s fd offset').fds fd = { s.fds fd with offset := (offset' : Int) } :=
    Function.update_self ..
  exact ⟨by rw [hfd]; exact h.isUsed, by rw [hfd]; exact h.inodeNum, h.used, h.named, hlt, by rw [hfd]⟩

theorem Described.seek (h : Described s) {offset' : Nat} (hlt : offset' < 2 ^ 16) :
    Described (seek s fd offset') := by
  intro fd' hused
  by_cases heq : fd' = fd
  · subst heq
    have hfd : (FileSystem.seek s fd' offset').fds fd' = { s.fds fd' with offset := (offset' : Int) } :=
      Function.update_self ..
    rw [hfd] at hused
    obtain ⟨i, offset, hopened⟩ := h fd' hused
    exact ⟨i, offset', hopened.seek hlt⟩
  · have hfd : (FileSystem.seek s fd offset').fds fd' = s.fds fd' := Function.update_of_ne heq ..
    rw [hfd] at hused
    obtain ⟨i, offset, hopened⟩ := h fd' hused
    exact ⟨i, offset, hopened.of_eq hfd (fun hu => hu) fun _ _ _ => rfl⟩

theorem Described.of_eq (h : Described s) (hfds : s'.fds = s.fds)
    (hused : ∀ i, s.used i → s'.used i) (hdir : s'.directory = s.directory) : Described s' := by
  intro fd hfd
  rw [hfds] at hfd
  obtain ⟨i, offset, hopened⟩ := h fd hfd
  exact ⟨i, offset, hopened.of_eq (by rw [hfds]) (hused i) fun d _ _ => by rw [hdir]⟩

/-! ### Calls -/

theorem InOrder.create (h : InOrder s n) (hopen : s.handle = some n)
    (hcall : fsCreate env s name = .ok (r, s')) : InOrder s' n := by
  obtain ⟨bitmap, hold, ⟨-, rfl⟩ | ⟨-, i, d, a, b, hfound, rfl⟩⟩ := create_cases hopen hcall
  · exact ⟨h.consistent.mark hold, h.described.of_eq rfl (fun _ hu => hu) rfl⟩
  · refine ⟨hfound.consistent h.consistent hold, ?_⟩
    intro fd hfd
    obtain ⟨j, offset, hopened⟩ := h.described fd hfd
    have hne : j ≠ i := by
      rintro rfl
      exact findInode_unused hfound.inode hopened.used
    refine ⟨j, offset, hopened.of_eq rfl ?_ ?_⟩
    · intro hu
      have hsame : (created env s n name i d a b bitmap).inodes j = s.inodes j :=
        Function.update_of_ne hne ..
      rw [Metadata.used, hsame]
      exact hu
    · intro e he _
      have hed : e ≠ d := by
        rintro rfl
        exact findDirectory_new hfound.entry he
      exact Function.update_of_ne hed ..

theorem InOrder.delete (h : InOrder s n) (hopen : s.handle = some n)
    (hcall : fsDelete env s name = .ok (r, s')) : InOrder s' n := by
  obtain ⟨-, rfl⟩ | ⟨-, i, d, bitmap, empty, hclosed, htaken, rfl⟩ :=
    delete_cases hopen h.consistent hcall
  · exact h
  · refine ⟨hclosed.consistent h.consistent empty htaken, ?_⟩
    intro fd hfd
    obtain ⟨j, offset, hopened⟩ := h.described fd hfd
    have hne : j ≠ i := by
      rintro rfl
      apply hclosed.closed fd hfd
      exact BitVec.eq_of_toNat_eq (hopened.inodeNum.trans hclosed.leads.symm)
    refine ⟨j, offset, hopened.of_eq rfl ?_ ?_⟩
    · intro hu
      have hsame : (deleted s n i d (s.indexAt i) (s.dataAt (s.files n) i) empty bitmap).inodes j =
        s.inodes j := Function.update_of_ne hne ..
      rw [Metadata.used, hsame]
      exact hu
    · intro e _ hleads
      have hed : e ≠ d := by
        rintro rfl
        exact hne (Fin.ext (hleads.symm.trans hclosed.leads))
      exact Function.update_of_ne hed ..

theorem InOrder.open (h : InOrder s n) (hcall : fsOpen s name = (r, s')) : InOrder s' n := by
  obtain ⟨-, rfl⟩ | ⟨d, fd, hd, -, -, rfl⟩ := open_cases hcall
  · exact h
  · refine ⟨h.consistent, ?_⟩
    intro fd' hfd'
    by_cases heq : fd' = fd
    · subst heq
      obtain ⟨hnamed, -⟩ := findDirectory_old hd
      obtain ⟨i, hleads, hi⟩ := h.consistent.named d hnamed
      simp only [Function.update_self] at hfd'
      refine ⟨i, 0, ?_, ?_, hi, ⟨d, hnamed, hleads⟩, by decide, ?_⟩
      · simp only [Function.update_self]
      · simp only [Function.update_self]
        exact hleads
      · simp only [Function.update_self]
        rfl
    · simp only [Function.update_of_ne heq] at hfd'
      obtain ⟨i, offset, hopened⟩ := h.described fd' hfd'
      exact ⟨i, offset, hopened.of_eq (Function.update_of_ne heq ..) (fun hu => hu) fun _ _ _ => rfl⟩

theorem InOrder.close {fildes : Int} (h : InOrder s n) (hcall : fsClose s fildes = .ok (r, s')) :
    InOrder s' n := by
  obtain ⟨-, rfl⟩ | ⟨-, fd, -, -, rfl⟩ := close_cases hcall
  · exact h
  · refine ⟨h.consistent, ?_⟩
    intro fd' hfd'
    by_cases heq : fd' = fd
    · subst heq
      simp only [Function.update_self] at hfd'
      cases hfd'
    · simp only [Function.update_of_ne heq] at hfd'
      obtain ⟨i, offset, hopened⟩ := h.described fd' hfd'
      exact ⟨i, offset, hopened.of_eq (Function.update_of_ne heq ..) (fun hu => hu) fun _ _ _ => rfl⟩

theorem InOrder.seek (h : InOrder s n) (hlt : offset < 2 ^ 16) : InOrder (seek s fd offset) n :=
  ⟨h.consistent, h.described.seek hlt⟩

theorem InOrder.resize (h : InOrder s n) (fileSize : BitVec 16) :
    InOrder (resize s i fileSize) n := by
  have hinode : ∀ j, (FileSystem.resize s i fileSize).inodes j =
      { s.inodes j with fileSize := if j = i then fileSize else (s.inodes j).fileSize } := by
    intro j
    by_cases hj : j = i
    · subst hj
      rw [if_pos rfl]
      exact Function.update_self ..
    · rw [if_neg hj]
      exact Function.update_of_ne hj ..
  have hused : ∀ j, (FileSystem.resize s i fileSize).used j ↔ s.used j := by
    intro j
    rw [Metadata.used, hinode]
    exact Iff.rfl
  constructor
  · apply h.consistent.keep
    · rfl
    · exact h.consistent.metadata
    · intro j hj
      have hold := (hused j).mp hj
      refine ⟨hold, ?_, rfl, (h.consistent.index j hold).2.2, (h.consistent.data j hold).2.2⟩
      rw [Metadata.indexAt, hinode]
      rfl
    · exact fun d _ => ⟨rfl, fun j _ hj => (hused j).mpr hj⟩
    · exact h.consistent.terminated
  · exact h.described.of_eq rfl (fun j hj => (hused j).mpr hj) rfl

theorem InOrder.put (h : InOrder s n) {t : Nat} (ht : t < diskBlocks)
    (hindex : ∀ i, s.used i → s.indexAt i ≠ t) (b : Block) :
    InOrder { s with files := Function.update s.files n ((s.files n).write t b) } n := by
  have hsize := h.consistent.size
  refine ⟨?_, h.described.of_eq rfl (fun _ hu => hu) rfl⟩
  simp only [Function.update_self]
  apply h.consistent.of_index
  · exact File.write_size (by omega) b
  · intro i hi
    have hlt := (h.consistent.index i hi).2.1
    exact File.write_other (hindex i hi) (by omega) b

theorem InOrder.index_ne_target (h : InOrder s n) (offset : Nat) (hi : s.used i) {j : Fin maxFiles}
    (hj : s.used j) : s.indexAt j ≠ target s.toMetadata (s.files n) i offset := by
  unfold target
  split
  · exact h.consistent.apart j i hj hi
  · have hpos := (h.consistent.index j hj).1
    omega

theorem toInt32_le {k l : Nat} (h : k = 0 ∨ l + k ≤ blockSize) : toInt32 k = k := by
  unfold blockSize at h
  exact toInt32_of_lt (by omega)

/-- The call moves no offset out of the range of a file size. -/
def InRange (s : State) : Call → Prop
  | .read fildes nbyte => ∀ (fd : Fin maxDescriptors) i offset, fildes = fd → Opened s fd i offset →
      offset < (s.inodes i).fileSize.toNat → offset < blockSize → offset + nbyte < 2 ^ 16
  | .write fildes buf => ∀ (fd : Fin maxDescriptors) i offset, fildes = fd → Opened s fd i offset →
      offset + buf.length < 2 ^ 16
  | _ => True

theorem InOrder.write {fildes : Int} {buf : List UInt8} (h : InOrder s n) (hopen : s.handle = some n)
    (hrange : InRange s (.write fildes buf)) (hcall : fsWrite env s fildes buf = .ok (r, s')) :
    InOrder s' n := by
  obtain ⟨-, rfl⟩ | ⟨fd, i, offset, b, hfildes, hopened, -, -, rfl⟩ :=
    write_cases hopen h.consistent h.described hcall
  · exact h
  · have hnext := hrange fd i offset hfildes hopened
    have hput := h.put (target_lt h.consistent hopened.used)
      (fun j hj => h.index_ne_target offset hopened.used hj) b
    rw [written, toInt32_of_lt (by omega), hopened.offset]
    exact (hput.resize _).seek hnext

theorem InOrder.read {fildes : Int} {nbyte : Nat} {result : Result} (h : InOrder s n)
    (hopen : s.handle = some n) (hrange : InRange s (.read fildes nbyte))
    (hcall : fsRead env s fildes nbyte = .ok (result, s')) : InOrder s' n := by
  obtain rfl | ⟨fd, i, offset, hfildes, hopened, hsize, hfirst, rfl⟩ :=
    read_cases hopen h.consistent h.described hcall
  · exact h
  · have hnext := hrange fd i offset hfildes hopened hsize hfirst
    rw [toInt32_of_lt (by omega)]
    exact h.seek hnext

theorem InOrder.lseek {fildes position : Int} (h : InOrder s n)
    (hcall : fsLseek s fildes position = .ok (r, s')) : InOrder s' n := by
  obtain ⟨-, rfl⟩ | ⟨-, fd, i, -, -, -, hpos, hle, rfl⟩ := lseek_cases hcall
  · exact h
  · obtain ⟨offset, rfl⟩ := Int.eq_ofNat_of_zero_le hpos
    have hlt := (s.inodes i).fileSize.isLt
    exact h.seek (by omega)

theorem InOrder.truncate {fildes length : Int} (h : InOrder s n)
    (hcall : fsTruncate s fildes length = .ok (r, s')) : InOrder s' n := by
  obtain ⟨-, rfl⟩ | ⟨-, fd, i, -, -, -, -, rfl⟩ := truncate_cases hcall
  · exact h
  · exact h.resize _

end OSChallenges.FileSystem
