import OSChallenges.FileSystem.Sizes

/-!
# Reads and the end of a file

`fs_read` compares the offset with the size and not the end of the read: it hands out what stands behind
the end of the file, and moves the offset there. The other ways past the end are a size that wraps around
and a truncation, which looks at no descriptor.
-/

namespace OSChallenges.FileSystem

open Records Words Outcomes Runs

/-- The byte at a position of a file, if the index block has a block for it. -/
def fileByte (m : Metadata) (f : File) (i : Fin maxFiles) (k : Nat) : Option UInt8 :=
  if h : k / blockSize < 256 then
    if m.entryAt f i ⟨k / blockSize, h⟩ = 0 then none
    else some ((f.block (m.entryAt f i ⟨k / blockSize, h⟩).toNat).byte (k % blockSize))
  else none

/-- How many of the bytes asked for the file has from an offset on. -/
def available (size : Nat) (offset : Int) (nbyte : Nat) : Nat :=
  if offset < size then min nbyte (size - offset).toNat else 0

/-- The read gives the bytes that the file has, and moves the offset behind them. -/
def ReadsExactly (env : Env) (s : State) (n : CString) (fd : Fin maxDescriptors) (i : Fin maxFiles)
    (nbyte : Nat) : Prop :=
  ∃ bytes s', fsRead env s fd nbyte =
      .ok (⟨available (s.sizeAt i) (s.fds fd).offset nbyte, bytes, []⟩, s') ∧
    bytes.map some = (List.range (available (s.sizeAt i) (s.fds fd).offset nbyte)).map (fun k =>
      fileByte s.toMetadata (s.files n) i ((s.fds fd).offset.toNat + k)) ∧
    (s'.fds fd).offset = (s.fds fd).offset + available (s.sizeAt i) (s.fds fd).offset nbyte

/-- The offset is at the end, or nothing is asked for, or all that is asked for is in the file and its
first block. -/
def ReadFits (size : Nat) (offset : Int) (nbyte : Nat) : Prop :=
  size ≤ offset ∨ nbyte = 0 ∨ offset + nbyte ≤ size ∧ offset + nbyte ≤ blockSize

instance ReadFits.decidable (size : Nat) (offset : Int) (nbyte : Nat) :
    Decidable (ReadFits size offset nbyte) :=
  inferInstanceAs (Decidable (size ≤ offset ∨ nbyte = 0 ∨ offset + nbyte ≤ size ∧
    offset + nbyte ≤ blockSize))

variable {env : Env} {s s' : State} {n : CString} {fd : Fin maxDescriptors} {i : Fin maxFiles}
  {c : Call} {r : Result} {w w' : Session} {offset nbyte k : Nat}

/-! ### One read -/

theorem fileByte_first {m : Metadata} {f : File} (h : Consistent m f) (hi : m.used i)
    (hk : k < blockSize) : fileByte m f i k = some ((f.block (m.dataAt f i)).byte k) := by
  have hdiv : k / blockSize = 0 := Nat.div_eq_of_lt hk
  have hentry : (⟨k / blockSize, by omega⟩ : Fin 256) = 0 := Fin.ext hdiv
  have hne : m.entryAt f i 0 ≠ 0 := by
    intro hzero
    have hpos := (h.data i hi).1
    rw [Metadata.dataAt, hzero] at hpos
    exact absurd hpos (by decide)
  rw [fileByte, dif_pos (by omega), hentry, if_neg hne, Nat.mod_eq_of_lt hk]
  rfl

/-- Behind the first block there is no block. -/
theorem fileByte_behind {m : Metadata} {f : File} (h : Consistent m f) (hi : m.used i)
    (hk : blockSize ≤ k) (hlt : k < 2 ^ 16) : fileByte m f i k = none := by
  have hdiv : k / blockSize < 256 := by
    unfold blockSize
    omega
  rw [fileByte, dif_pos hdiv, if_pos]
  exact entry_eq_zero h hi hk hlt rfl

/-- What a read copies from the data block is what the file has there as long as it stays in the
block. -/
theorem copied_eq_fileBytes_iff (h : Consistent s.toMetadata (s.files n)) (hi : s.used i)
    (hfirst : offset < blockSize) :
    (copied env ((s.files n).block (s.dataAt (s.files n) i)) offset nbyte).map some =
      (List.range nbyte).map (fun k => fileByte s.toMetadata (s.files n) i (offset + k)) ↔
    offset + nbyte ≤ blockSize := by
  constructor
  · intro hbytes
    -- Else the byte behind the block is asked for, and the file has none.
    by_contra hover
    have hk : blockSize - offset < nbyte := by omega
    have hbyte := congrArg (fun l => l[blockSize - offset]?) hbytes
    simp only [copied, List.getElem?_map] at hbyte
    rw [List.getElem?_range hk] at hbyte
    simp only [Option.map_some, Option.some.injEq] at hbyte
    rw [Nat.add_sub_cancel' (Nat.le_of_lt hfirst),
      fileByte_behind h hi (Nat.le_refl _) (by decide)] at hbyte
    cases hbyte
  · intro hin
    rw [copied_of_le hin, List.map_map]
    apply List.map_congr_left
    intro k hk
    have hk' := List.mem_range.mp hk
    exact (fileByte_first h hi (by omega)).symm

theorem readsExactly_iff (hready : s.readyForUse = true) (hopen : s.handle = some n)
    (h : InOrder s n) (hopened : Opened s fd i offset) :
    ReadsExactly env s n fd i nbyte ↔ ReadFits (s.sizeAt i) (s.fds fd).offset nbyte := by
  have hread := read_eq env hready hopen h.consistent hopened nbyte
  have hlt := hopened.lt
  have hsizeLt : s.sizeAt i < 2 ^ 16 := (s.inodes i).fileSize.isLt
  unfold ReadsExactly ReadFits
  rw [hread, hopened.offset, Int.toNat_natCast]
  generalize hsize : s.sizeAt i = size at hsizeLt
  have hsame : (s.inodes i).fileSize.toNat = size := hsize
  rw [hsame]
  by_cases hend : size ≤ offset
  · have hnone : available size offset nbyte = 0 := if_neg (by omega)
    rw [if_pos (.inl hend), hnone]
    exact iff_of_true ⟨[], s, rfl, rfl, by rw [hopened.offset]; rfl⟩ (.inl (by omega))
  have hsome : available size offset nbyte = min nbyte (size - offset) := by
    rw [available, if_pos (by omega)]
    omega
  rw [hsome]
  by_cases hlarge : blockSize ≤ offset
  · rw [if_pos (.inr hlarge)]
    constructor
    · rintro ⟨bytes, s', heq, -, -⟩
      have hret := congrArg Result.ret (Prod.mk.inj (Except.ok.inj heq)).1
      have hzero : (0 : Int) = (min nbyte (size - offset) : Nat) := hret
      exact .inr (.inl (by omega))
    · intro hfits
      have hzero : nbyte = 0 := by omega
      subst hzero
      rw [Nat.zero_min]
      exact ⟨[], s, rfl, rfl, by rw [hopened.offset]; rfl⟩
  · rw [if_neg (not_or.mpr ⟨hend, hlarge⟩)]
    constructor
    · rintro ⟨bytes, s', heq, hbytes, -⟩
      have hbuffer := congrArg Result.buffer (Prod.mk.inj (Except.ok.inj heq)).1
      have hcopied : copied env ((s.files n).block (s.dataAt (s.files n) i)) offset nbyte = bytes :=
        hbuffer
      rw [← hcopied] at hbytes
      have hlength := congrArg List.length hbytes
      simp only [copied, List.length_map, List.length_range] at hlength
      rw [← hlength, copied_eq_fileBytes_iff h.consistent hopened.used (by omega)] at hbytes
      exact .inr (.inr ⟨by omega, by omega⟩)
    · intro hfits
      have hall : min nbyte (size - offset) = nbyte := by omega
      have hin : offset + nbyte ≤ blockSize := by omega
      rw [hall, toInt32_le (.inr hin)]
      refine ⟨_, _, rfl,
        (copied_eq_fileBytes_iff h.consistent hopened.used (by omega)).mpr hin, ?_⟩
      unfold seek
      simp only [Function.update_self]

/-! ### The offsets -/

/-- No used descriptor is past the end of its file. -/
def Inside (s : State) : Prop :=
  ∀ fd (i : Fin maxFiles), (s.fds fd).isUsed = true → (s.fds fd).inodeNum.toNat = i →
    (s.fds fd).offset ≤ s.sizeAt i

theorem Inside.of_closed (h : ∀ fd, (s.fds fd).isUsed = false) : Inside s := by
  intro fd i hused
  rw [h fd] at hused
  cases hused

theorem Inside.of_eq (h : Inside s) (hfds : s'.fds = s.fds)
    (hsize : ∀ fd (i : Fin maxFiles), (s.fds fd).isUsed = true → (s.fds fd).inodeNum.toNat = i →
      s.sizeAt i ≤ s'.sizeAt i) : Inside s' := by
  intro fd i hused hinode
  rw [hfds] at hused hinode ⊢
  exact Int.le_trans (h fd i hused hinode) (Int.ofNat_le.mpr (hsize fd i hused hinode))

theorem Inside.update (h : Inside s) {entry : FileDescriptor}
    (hle : ∀ i : Fin maxFiles, entry.inodeNum.toNat = i → entry.offset ≤ s.sizeAt i) :
    Inside { s with fds := Function.update s.fds fd entry } := by
  intro fd' i hused hinode
  change (Function.update s.fds fd entry fd').isUsed = true at hused
  change (Function.update s.fds fd entry fd').inodeNum.toNat = i at hinode
  show (Function.update s.fds fd entry fd').offset ≤ s.sizeAt i
  by_cases heq : fd' = fd
  · rw [heq, Function.update_self] at hinode ⊢
    exact hle i hinode
  · rw [Function.update_of_ne heq] at hused hinode ⊢
    exact h fd' i hused hinode

theorem Inside.update_zero (h : Inside s) {entry : FileDescriptor} (hzero : entry.offset = 0) :
    Inside { s with fds := Function.update s.fds fd entry } := by
  refine h.update fun i _ => ?_
  rw [hzero]
  exact Int.natCast_nonneg _

theorem Inside.seek (h : Inside s) {position : Int} (hinode : (s.fds fd).inodeNum.toNat = i)
    (hle : position ≤ s.sizeAt i) : Inside (seek s fd position) := by
  refine h.update fun j hj => ?_
  rw [Fin.ext (hj.symm.trans hinode)]
  exact hle

theorem sizeAt_resize (s : State) (i j : Fin maxFiles) (fileSize : BitVec 16) :
    (resize s i fileSize).sizeAt j = if j = i then fileSize.toNat else s.sizeAt j := by
  unfold resize Metadata.sizeAt
  by_cases hj : j = i
  · subst hj
    rw [if_pos rfl]
    simp only [Function.update_self]
  · rw [if_neg hj]
    simp only [Function.update_of_ne hj]

theorem Inside.resize (h : Inside s) {fileSize : BitVec 16}
    (hle : ∀ fd, (s.fds fd).isUsed = true → (s.fds fd).inodeNum.toNat = i →
      (s.fds fd).offset ≤ fileSize.toNat) : Inside (resize s i fileSize) := by
  intro fd j hused hinode
  rw [sizeAt_resize]
  split
  · rename_i hj
    subst hj
    exact hle fd hused hinode
  · exact h fd j hused hinode

/-- A write moves its descriptor as far as the file grows, if the size does not wrap around. -/
theorem Inside.written {t nbyte : Nat} {b : Block} (h : Inside s) (hopened : Opened s fd i offset)
    (hsum : s.sizeAt i + nbyte ≤ 65535) : Inside (written s n fd i t b nbyte) := by
  have hgrown : (BitVec.ofInt 16 ((s.inodes i).fileSize.toNat + (nbyte : Int))).toNat =
      s.sizeAt i + nbyte := by
    rw [← Int.natCast_add, BitVec.ofInt_natCast, BitVec.toNat_ofNat]
    exact Nat.mod_eq_of_lt (by unfold Metadata.sizeAt at hsum; omega)
  have hresized : Inside (FileSystem.resize s i
      (BitVec.ofInt 16 ((s.inodes i).fileSize.toNat + (nbyte : Int)))) := by
    refine h.resize fun fd' hused hinode => ?_
    have hle := h fd' i hused hinode
    rw [hgrown]
    omega
  have hle := h fd i hopened.isUsed hopened.inodeNum
  refine hresized.seek hopened.inodeNum ?_
  rw [sizeAt_resize, if_pos rfl, hgrown]
  omega

/-- Disks are made and mounted as in a session; reads fit, sizes do not wrap around, and a truncation
leaves the descriptors of the file inside it. -/
def Session.StaysInside (w : Session) (env : Env) : Call → Prop
  | .makeFs _ => w.state.readyForUse = false
  | .mountFs diskName => w.state.readyForUse = false ∧
      ∀ x ∈ diskName, env.opens = true → w.made x = true
  | .read fildes nbyte => ∀ (fd : Fin maxDescriptors) (i : Fin maxFiles), fildes = fd →
      (w.state.fds fd).isUsed = true → (w.state.fds fd).inodeNum.toNat = i →
        ReadFits (w.state.sizeAt i) (w.state.fds fd).offset nbyte
  | .write fildes buf => ∀ (fd : Fin maxDescriptors) (i : Fin maxFiles), fildes = fd →
      (w.state.fds fd).isUsed = true → (w.state.fds fd).inodeNum.toNat = i →
        w.state.sizeAt i + buf.length ≤ 65535
  | .truncate fildes length => ∀ (fd : Fin maxDescriptors) (i : Fin maxFiles), fildes = fd →
      (w.state.fds fd).isUsed = true → (w.state.fds fd).inodeNum.toNat = i →
        length ≤ w.state.sizeAt i → ∀ fd', (w.state.fds fd').isUsed = true →
          (w.state.fds fd').inodeNum.toNat = i → (w.state.fds fd').offset ≤ length % 2 ^ 16
  | _ => True

instance Session.StaysInside.decidable (w : Session) (env : Env) :
    (c : Call) → Decidable (w.StaysInside env c)
  | .makeFs _ => inferInstanceAs (Decidable (w.state.readyForUse = false))
  | .mountFs diskName => inferInstanceAs (Decidable (w.state.readyForUse = false ∧
      ∀ x ∈ diskName, env.opens = true → w.made x = true))
  | .read fildes nbyte => inferInstanceAs (Decidable (∀ (fd : Fin maxDescriptors)
      (i : Fin maxFiles), fildes = fd → (w.state.fds fd).isUsed = true →
      (w.state.fds fd).inodeNum.toNat = i →
      ReadFits (w.state.sizeAt i) (w.state.fds fd).offset nbyte))
  | .write fildes buf => inferInstanceAs (Decidable (∀ (fd : Fin maxDescriptors)
      (i : Fin maxFiles), fildes = fd → (w.state.fds fd).isUsed = true →
      (w.state.fds fd).inodeNum.toNat = i → w.state.sizeAt i + buf.length ≤ 65535))
  | .truncate fildes length => inferInstanceAs (Decidable (∀ (fd : Fin maxDescriptors)
      (i : Fin maxFiles), fildes = fd → (w.state.fds fd).isUsed = true →
      (w.state.fds fd).inodeNum.toNat = i → length ≤ w.state.sizeAt i →
      ∀ fd', (w.state.fds fd').isUsed = true → (w.state.fds fd').inodeNum.toNat = i →
        (w.state.fds fd').offset ≤ length % 2 ^ 16))
  | .umountFs | .create _ | .open _ | .close _ | .delete _ | .getFilesize _ | .listfiles
  | .lseek _ _ => isTrue trivial

theorem Session.StaysInside.mounts (h : w.StaysInside env c) : w.Mounts env c := by
  cases c with
  | makeFs diskName => exact h
  | mountFs diskName => exact h
  | _ => trivial

theorem Session.StaysInside.inRange (h : w.StaysInside env c) (hin : Inside w.state) :
    InRange w.state c := by
  cases c with
  | read fildes nbyte =>
    intro fd i offset hfildes hopened hsize _
    have hfits := h fd i hfildes hopened.isUsed hopened.inodeNum
    have hlt : w.state.sizeAt i < 2 ^ 16 := (w.state.inodes i).fileSize.isLt
    have hless : offset < w.state.sizeAt i := hsize
    rw [ReadFits, hopened.offset] at hfits
    omega
  | write fildes buf =>
    intro fd i offset hfildes hopened
    have hsum := h fd i hfildes hopened.isUsed hopened.inodeNum
    have hle := hin fd i hopened.isUsed hopened.inodeNum
    rw [hopened.offset] at hle
    omega
  | _ => trivial

theorem Inside.mounted (hopen : w.state.handle = some n) (h : InOrder w.state n)
    (hin : Inside w.state) (hstays : w.StaysInside env c) (hmake : ∀ diskName, c ≠ .makeFs diskName)
    (hmount : ∀ diskName, c ≠ .mountFs diskName) (humount : c ≠ .umountFs)
    (hcall : call env w.state c = .ok (r, s')) : Inside s' := by
  cases c with
  | makeFs diskName => exact absurd rfl (hmake diskName)
  | mountFs diskName => exact absurd rfl (hmount diskName)
  | umountFs => exact absurd rfl humount
  | create name =>
    rw [call] at hcall
    obtain ⟨bitmap, -, ⟨-, rfl⟩ | ⟨-, i, d, a, b, hfound, rfl⟩⟩ :=
      create_cases hopen (ok_of_number hcall)
    · exact hin
    · refine hin.of_eq rfl fun fd j hused hinode => Nat.le_of_eq ?_
      obtain ⟨j', offset, hopened⟩ := h.described fd hused
      have hne : j ≠ i := by
        rintro rfl
        have hsame : j' = j := Fin.ext (hopened.inodeNum.symm.trans hinode)
        exact findInode_unused hfound.inode (hsame ▸ hopened.used)
      unfold Metadata.sizeAt created
      simp only [Function.update_of_ne hne]
  | «open» name =>
    obtain ⟨-, rfl⟩ | ⟨d, fd, -, -, -, rfl⟩ := open_cases (eq_of_number hcall)
    · exact hin
    · exact hin.update_zero rfl
  | close fildes =>
    obtain ⟨-, rfl⟩ | ⟨-, fd, -, -, rfl⟩ := close_cases (ok_of_number hcall)
    · exact hin
    · exact hin.update_zero rfl
  | delete name =>
    obtain ⟨-, rfl⟩ | ⟨-, i, d, bitmap, empty, hclosed, -, rfl⟩ :=
      delete_cases hopen h.consistent (ok_of_number hcall)
    · exact hin
    · refine hin.of_eq rfl fun fd j hused hinode => Nat.le_of_eq ?_
      have hne : j ≠ i := by
        rintro rfl
        exact hclosed.closed fd hused (BitVec.eq_of_toNat_eq (hinode.trans hclosed.leads.symm))
      unfold Metadata.sizeAt deleted
      simp only [Function.update_of_ne hne]
  | read fildes nbyte =>
    obtain rfl | ⟨fd, i, offset, hfildes, hopened, hsize, -, rfl⟩ :=
      read_cases hopen h.consistent h.described hcall
    · exact hin
    · have hfits := hstays fd i hfildes hopened.isUsed hopened.inodeNum
      have hless : offset < w.state.sizeAt i := hsize
      rw [ReadFits, hopened.offset] at hfits
      refine hin.seek hopened.inodeNum ?_
      rw [toInt32_of_lt (by unfold blockSize at hfits; omega)]
      omega
  | write fildes buf =>
    obtain ⟨-, rfl⟩ | ⟨fd, i, offset, b, hfildes, hopened, -, -, rfl⟩ :=
      write_cases hopen h.consistent h.described (ok_of_number hcall)
    · exact hin
    · have hsum := hstays fd i hfildes hopened.isUsed hopened.inodeNum
      rw [toInt32_of_lt (by omega)]
      exact hin.written hopened hsum
  | getFilesize fildes =>
    rw [getFilesize_state hcall]
    exact hin
  | listfiles =>
    cases hcall
    exact hin
  | lseek fildes position =>
    obtain ⟨-, rfl⟩ | ⟨-, fd, i, -, -, hinode, -, hle, rfl⟩ := lseek_cases (ok_of_number hcall)
    · exact hin
    · exact hin.seek hinode hle
  | truncate fildes length =>
    obtain ⟨-, rfl⟩ | ⟨-, fd, i, hfildes, hused, hinode, hle, rfl⟩ :=
      truncate_cases (ok_of_number hcall)
    · exact hin
    · refine hin.resize fun fd' hused' hinode' => ?_
      have hroom := hstays fd i hfildes hused hinode hle fd' hused' hinode'
      rw [BitVec.toNat_ofInt, Int.toNat_of_nonneg (Int.emod_nonneg _ (by decide))]
      exact hroom

theorem Orderly.closed_after (h : Orderly w) (hopen : w.state.handle = none)
    (hmounts : w.Mounts env c) (hcall : call env w.state c = .ok (r, s')) :
    ∀ fd, (s'.fds fd).isUsed = false := by
  have hready := h.not_ready_of_closed hopen
  have hclosed := h.closed hopen
  by_cases hmake : ∃ diskName, c = .makeFs diskName
  · obtain ⟨diskName, rfl⟩ := hmake
    obtain ⟨hkept, -⟩ := make_cases hopen (ok_of_number hcall)
    rw [hkept.fds]
    exact hclosed
  by_cases hmount : ∃ diskName, c = .mountFs diskName
  · obtain ⟨diskName, rfl⟩ := hmount
    obtain ⟨hkept, -⟩ | ⟨x, -, heq⟩ := h.mount_found hready hmounts.2 (eq_of_number hcall)
    · rw [hkept.fds]
      exact hclosed
    · rw [heq]
      exact hclosed
  obtain ⟨bitmap, heq⟩ := idle_call hready hclosed (fun x hx => hmake ⟨x, hx⟩)
    (fun x hx => hmount ⟨x, hx⟩) hcall
  rw [heq]
  exact hclosed

theorem Inside.step {a : Env × Call} (h : Orderly w) (hin : Inside w.state)
    (hstays : w.StaysInside a.1 a.2) (hstep : w.step a = .ok w') : Inside w'.state := by
  obtain ⟨env, c⟩ := a
  obtain ⟨r, hcall, -⟩ := Session.step_cases hstep
  cases hopen : w.state.handle with
  | none => exact .of_closed (h.closed_after hopen hstays.mounts hcall)
  | some n =>
    by_cases humount : c = .umountFs
    · subst humount
      obtain ⟨-, heq⟩ | ⟨-, heq⟩ := umount_cases hopen (eq_of_number hcall)
      · rw [heq]
        exact hin
      · rw [heq]
        exact .of_closed fun _ => rfl
    · obtain ⟨hmake, hmount⟩ := h.mounts_nothing hopen hstays.mounts
      exact hin.mounted hopen (h.mounted n hopen) hstays hmake hmount humount hcall

/-- In every run whose calls stay inside the files no descriptor is past the end of its file, and a read
gives what the file has from the offset on exactly if it fits. -/
theorem reads_inside_iff {files : CString → File} {run : List ((Env × Call) × Session)}
    (h : EachStep (fun w a w' => w.StaysInside a.1 a.2 ∧ w.step a = .ok w') (.boot files) run) :
    Always (fun w : Session => Inside w.state ∧ ∀ env n fd (i : Fin maxFiles) nbyte,
      w.state.handle = some n → (w.state.fds fd).isUsed = true →
      (w.state.fds fd).inodeNum.toNat = i →
        (ReadsExactly env w.state n fd i nbyte ↔
          ReadFits (w.state.sizeAt i) (w.state.fds fd).offset nbyte)) (.boot files) run := by
  have hinv : Always (fun w => Orderly w ∧ Inside w.state) (.boot files) run := by
    refine EachStep.always ?_ ⟨Orderly.boot files, .of_closed fun _ => rfl⟩ h
    rintro w a w' ⟨horder, hin⟩ ⟨hstays, hstep⟩
    exact ⟨horder.move ⟨hstays.mounts, hstays.inRange hin, hstep⟩, hin.step horder hstays hstep⟩
  refine hinv.mono ?_
  rintro w ⟨horder, hin⟩
  refine ⟨hin, fun env n fd i nbyte hopen hused hinode => ?_⟩
  have hready := horder.ready_of_open hopen
  obtain ⟨j, offset, hopened⟩ := (horder.mounted n hopen).described fd hused
  have hsame : j = i := Fin.ext (hopened.inodeNum.symm.trans hinode)
  subst hsame
  exact readsExactly_iff hready hopen (horder.mounted n hopen) hopened

/-- Two of the three bytes are read, and the file is truncated there. -/
def truncated : List ((Env × Call) × Session) :=
  trail Session.step (.boot fun _ => .empty) ([.makeFs (some disk0), .mountFs (some disk0),
    .create nameA, .open nameA, .write 0 [1, 2, 3], .lseek 0 0, .read 0 2, .truncate 0 2].map
      fun c => (Env.plain, c))

theorem reads_inside_truncated : truncated.length = 8 ∧
    Inside (last (.boot fun _ => .empty) truncated).state ∧
    ReadsExactly .plain (last (.boot fun _ => .empty) truncated).state disk0 descriptor0 inode0 9 := by
  have hstays : EachStep (fun w a _ => Session.StaysInside w a.1 a.2) (.boot fun _ => .empty)
      truncated := by
    decide +kernel
  obtain ⟨hin, hreads⟩ := (reads_inside_iff (hstays.and (eachStep_trail ..))).last
  refine ⟨by decide +kernel, hin, ?_⟩
  exact (hreads .plain disk0 descriptor0 inode0 9 (by decide +kernel) (by decide +kernel)
    (by decide +kernel)).mpr (by decide +kernel)

/-- Five bytes from the second one of three. -/
theorem not_readsExactly_pastEnd : EachStep Session.Step (.boot fun _ => .empty) threeBytes ∧
    ¬ ReadsExactly .plain (last (.boot fun _ => .empty) threeBytes).state disk0 descriptor0 inode0 5 ∧
    ∃ r s', fsRead .plain (last (.boot fun _ => .empty) threeBytes).state descriptor0 5 =
      .ok (r, s') ∧ r.ret = 5 ∧ ¬ Inside s' := by
  have hallows : EachStep (fun w a _ => Session.Allows w a.1 a.2) (.boot fun _ => .empty)
      threeBytes := by
    decide +kernel
  have hsteps : EachStep Session.Step (.boot fun _ => .empty) threeBytes :=
    hallows.and (eachStep_trail ..)
  have horder := (always_orderly hsteps).last
  have hopen : (last (.boot fun _ => .empty) threeBytes).state.handle = some disk0 := by
    decide +kernel
  have hready : (last (.boot fun _ => .empty) threeBytes).state.readyForUse = true := by
    decide +kernel
  have hused : ((last (.boot fun _ => .empty) threeBytes).state.fds descriptor0).isUsed = true := by
    decide +kernel
  have hinode : ((last (.boot fun _ => .empty) threeBytes).state.fds descriptor0).inodeNum.toNat =
      inode0.val := by
    decide +kernel
  have hread : passes (fun p => p.1.ret = 5 ∧ (p.2.fds descriptor0).isUsed = true ∧
      (p.2.fds descriptor0).inodeNum.toNat = inode0.val ∧
      (p.2.sizeAt inode0 : Int) < (p.2.fds descriptor0).offset)
      (fsRead .plain (last (.boot fun _ => .empty) threeBytes).state descriptor0 5) = true := by
    decide +kernel
  refine ⟨hsteps, ?_, ?_⟩
  · obtain ⟨i, offset, hopened⟩ := (horder.mounted disk0 hopen).described descriptor0 hused
    have hsame : i = inode0 := Fin.ext (hopened.inodeNum.symm.trans hinode)
    subst hsame
    rw [readsExactly_iff hready hopen (horder.mounted disk0 hopen) hopened]
    decide +kernel
  · obtain ⟨⟨r, s'⟩, hcall, htest⟩ := ok_of_passes hread
    obtain ⟨hret, hused', hinode', hpast⟩ := of_decide_eq_true htest
    refine ⟨r, s', hcall, hret, fun hin => ?_⟩
    exact absurd (hin descriptor0 inode0 hused' hinode') (Int.not_le.mpr hpast)

end OSChallenges.FileSystem
