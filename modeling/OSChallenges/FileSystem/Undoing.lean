import OSChallenges.FileSystem.Listing
import OSChallenges.FileSystem.Sizes

/-!
# Creating a file and deleting it again

`fs_create` takes an inode that is not used and an entry whose name is empty, and keeps what it does not
set. `fs_delete` leaves zeros. So a deletion undoes the creation where there were zeros before, and where
the file can be found at all: an entry with an empty name is free for every search.
-/

namespace OSChallenges.FileSystem

open Records Words Outcomes Runs

/-- What can follow a creation that leads from `s` to `s₁`: the file is opened, is empty and listed, and is
closed and deleted again, with the tables as they were before. -/
def CreationUndone (s s₁ : State) (name : CString) : Prop :=
  ∃ fd s₂ s₃, fsOpen s₁ name = (fd, s₂) ∧ fd ≠ -1 ∧ fsGetFilesize s₂ fd = .ok 0 ∧
    name.chars ∈ (fsListfiles s₁).names ∧ fsClose s₂ fd = .ok (0, s₃) ∧
    ∀ env, ∃ s₄, fsDelete env s₃ name = .ok (0, s₄) ∧ s₄.inodes = s.inodes ∧
      s₄.directory = s.directory ∧ s₄.usedBlocksBitmap = s.usedBlocksBitmap

/-- The name is not empty, the free inode and the free entry hold zeros, and no open descriptor refers to
the inode. -/
structure Pristine (s : State) (name : CString) (i d : Fin maxFiles) : Prop where
  nonempty : name.chars ≠ []
  index : (s.inodes i).singleIndirectBlock = 0
  size : (s.inodes i).fileSize = 0
  entry : (s.directory d).isUsed = 0
  inodeNum : (s.directory d).inodeNum = 0
  bytes : ∀ k : Fin 16, k.val < 15 ∨ name.chars.length = 15 → (s.directory d).name k = 0
  closed : ∀ fd, (s.fds fd).isUsed = true → (s.fds fd).inodeNum.toNat ≠ i

variable {env env' : Env} {s s₁ : State} {n name : CString} {i d : Fin maxFiles} {a b : Nat}
  {bitmap : Bitmap} {fd : Fin maxDescriptors}

/-! ### Names -/

theorem cName_ne_nil {e : DirEntry} (h : e.named) : e.cName ≠ [] := by
  have hfirst : e.name 0 ≠ 0 := h
  unfold DirEntry.cName
  rw [List.ofFn_succ, List.takeWhile_cons, if_pos (decide_eq_true hfirst)]
  exact List.cons_ne_nil _ _

theorem findDirectory_empty (directory : Fin maxFiles → DirEntry) (hname : name.chars = []) :
    findDirectory directory false name = none := by
  cases hfound : findDirectory directory false name with
  | none => rfl
  | some e =>
    obtain ⟨hnamed, heq⟩ := findDirectory_old hfound
    exact absurd (heq.symm.trans hname) (cName_ne_nil hnamed)

theorem named_copyName (old : Fin 16 → UInt8) (hname : name.chars ≠ []) : copyName old name 0 ≠ 0 := by
  obtain ⟨c, rest, hchars⟩ := List.exists_cons_of_ne_nil hname
  have hlt : (0 : Fin 16).val < (c :: rest).length := Nat.succ_pos _
  intro hzero
  unfold copyName at hzero
  rw [hchars, if_pos hlt] at hzero
  have hc : c = 0 := hzero
  exact name.terminated (by rw [hchars, hc]; exact List.mem_cons_self)

/-! ### The calls after the creation -/

theorem created_named (hname : name.chars ≠ []) : (created env s n name i d a b bitmap).named d := by
  unfold Metadata.named DirEntry.named
  rw [created_directory_self]
  exact named_copyName _ hname

theorem Found.lookUp (hf : Found s name i d a b bitmap) (hname : name.chars ≠ []) :
    findDirectory (created env s n name i d a b bitmap).directory false name = some d := by
  refine findDirectory_only (created_named hname) hf.cName.symm ?_
  intro e hnamed heq
  by_contra hne
  have hold : (created env s n name i d a b bitmap).directory e = s.directory e :=
    Function.update_of_ne hne ..
  rw [hold] at hnamed heq
  exact findDirectory_fresh hf.entry hnamed heq.symm

/-- The state with a descriptor set. -/
def describe (s : State) (fd : Fin maxDescriptors) (description : FileDescriptor) : State :=
  { s with fds := Function.update s.fds fd description }

theorem open_eq {s : State} (hready : s.readyForUse = true)
    (hentry : findDirectory s.directory false name = some d) (hfd : findFD s.fds = some fd) :
    fsOpen s name = ((fd : Int), describe s fd ⟨true, (s.directory d).inodeNum, 0⟩) := by
  unfold fsOpen
  simp only [hready, hentry, hfd, Bool.not_true, Bool.false_eq_true, if_false]
  rw [describe, hready]

theorem close_eq (hused : (s.fds fd).isUsed = true) :
    fsClose s fd = .ok (0, describe s fd .zero) := by
  unfold fsClose
  rw [index_of_lt fd.isLt]
  simp only [ok_bind, hused, Bool.not_true, Bool.false_eq_true, if_false]
  rfl

theorem entries_indexBlock (env : Env) (hb : b < 2 ^ 16) : ∃ rest,
    List.ofFn (inodeBlocks (indexBlock env b)) = BitVec.ofNat 32 b :: 0 :: rest := by
  have hfirst := inodeBlocks_indexBlock env hb 0 (by decide)
  have hsecond := inodeBlocks_indexBlock env hb 1 (by decide)
  refine ⟨List.ofFn fun k : Fin 254 => inodeBlocks (indexBlock env b) k.succ.succ, ?_⟩
  rw [List.ofFn_succ, List.ofFn_succ, hfirst, if_pos rfl]
  congr 2

/-- The state after a file has been created, opened and closed. -/
def reclosed (env : Env) (s : State) (n name : CString) (i d : Fin maxFiles) (a b : Nat)
    (bitmap : Bitmap) (fd : Fin maxDescriptors) : State :=
  describe (created env s n name i d a b bitmap) fd .zero

theorem Found.closed (hf : Found s name i d a b bitmap) (hname : name.chars ≠ [])
    (hclosed : ∀ fd', (s.fds fd').isUsed = true → (s.fds fd').inodeNum.toNat ≠ i) :
    Closed (reclosed env s n name i d a b bitmap fd) name i d := by
  have hleads : (created env s n name i d a b bitmap).leadsTo d i := created_leads
  have hentry : findDirectory (created env s n name i d a b bitmap).directory false name = some d :=
    hf.lookUp hname
  refine ⟨hentry, hleads, ?_⟩
  intro fd' hused heq
  by_cases hsame : fd' = fd
  · subst hsame
    have hzero : (reclosed env s n name i d a b bitmap fd').fds fd' = .zero := Function.update_self ..
    rw [hzero] at hused
    cases hused
  · have hold : (reclosed env s n name i d a b bitmap fd).fds fd' = s.fds fd' :=
      Function.update_of_ne hsame ..
    rw [hold] at hused heq
    apply hclosed fd' hused
    rw [heq]
    exact hleads

/-- The index block is read as it has been written, also from a file that was too short. -/
theorem blockRead_write {t : State} {buf : Block} (hopen : t.handle = some n) (ha : a < diskBlocks)
    (hfile : t.files n = (s.files n).write a buf) (old : Block) : t.blockRead a old = some buf := by
  have hin : ¬ ((a : Int) < 0 ∨ (diskBlocks : Int) ≤ a) := by omega
  have hsize : a < ((s.files n).write a buf).size := by
    show a < max (s.files n).size (a + 1)
    omega
  simp only [State.blockRead, hopen]
  rw [if_neg hin, Int.toNat_natCast, hfile, File.read, if_pos hsize, File.write_self]

theorem Found.delete (hf : Found s name i d a b bitmap) (hready : s.readyForUse = true)
    (hopen : s.handle = some n) (hname : name.chars ≠ []) (hab : a < b)
    (hmarked : ∀ q : Nat, taken bitmap q = true ↔ taken s.usedBlocksBitmap q = true ∨ q = a ∨ q = b)
    (hclosed : ∀ fd', (s.fds fd').isUsed = true → (s.fds fd').inodeNum.toNat ≠ i) (env' : Env) :
    fsDelete env' (reclosed env s n name i d a b bitmap fd) name =
      .ok (0, deleted (reclosed env s n name i d a b bitmap fd) n i d a b
        (env'.empty (indexBlock env b)) s.usedBlocksBitmap) := by
  have hltb : b < 8192 := hf.data
  have hready' : (reclosed env s n name i d a b bitmap fd).readyForUse = true := hready
  have hopen' : (reclosed env s n name i d a b bitmap fd).handle = some n := hopen
  have hindex : (reclosed env s n name i d a b bitmap fd).indexAt i = a := by
    show (created env s n name i d a b bitmap).indexAt i = a
    exact hf.indexAt
  have hfile : (reclosed env s n name i d a b bitmap fd).files n =
    (s.files n).write a (indexBlock env b) := Function.update_self ..
  have hread : (reclosed env s n name i d a b bitmap fd).blockRead
      (((reclosed env s n name i d a b bitmap fd).inodes i).singleIndirectBlock.toNat : Int)
      env'.frame = some (indexBlock env b) := by
    rw [← Metadata.indexAt, hindex]
    exact blockRead_write hopen' hf.index hfile _
  obtain ⟨rest, hrest⟩ := entries_indexBlock env (b := b) (by omega)
  obtain ⟨bitmap', htaken, hcall⟩ := delete_found env' hready' hopen' (hf.closed hname hclosed)
    (by rw [hindex]; exact hf.index) hread (by omega) hf.data hrest
  have hsame : bitmap' = s.usedBlocksBitmap := by
    apply eq_of_taken
    intro q
    rw [htaken, hindex]
    by_cases hq : q = a ∨ q = b
    · rw [if_pos hq]
      obtain rfl | rfl := hq
      · exact hf.indexFree.symm
      · exact hf.dataFree.symm
    · rw [if_neg hq, Bool.eq_iff_iff]
      exact (hmarked q).trans (or_iff_left hq)
  rw [hcall, hindex, hsame]

/-! ### The tables after the deletion -/

attribute [ext] Inode DirEntry

theorem deleted_inodes (hempty : Block) : (deleted (reclosed env s n name i d a b bitmap fd) n i d a b
    hempty s.usedBlocksBitmap).inodes = Function.update s.inodes i
      { s.inodes i with isUsed := 0, singleIndirectBlock := 0, fileSize := 0 } := by
  unfold deleted reclosed describe created
  simp only [Function.update_self, Function.update_idem]

theorem deleted_directory (hempty : Block) : (deleted (reclosed env s n name i d a b bitmap fd) n i d
    a b hempty s.usedBlocksBitmap).directory = Function.update s.directory d
      { s.directory d with
        isUsed := 0
        inodeNum := 0
        name := fun k => if k.val < 15 then 0 else copyName (s.directory d).name name k } := by
  unfold deleted reclosed describe created
  simp only [Function.update_self, Function.update_idem]

theorem inodes_restored_iff (hfree : findInode s.inodes = some i) :
    Function.update s.inodes i
        { s.inodes i with isUsed := 0, singleIndirectBlock := 0, fileSize := 0 } = s.inodes ↔
      (s.inodes i).singleIndirectBlock = 0 ∧ (s.inodes i).fileSize = 0 := by
  have hunused : (s.inodes i).isUsed = 0 := Decidable.not_not.mp (findInode_unused hfree)
  rw [Function.update_eq_self_iff, Inode.ext_iff]
  constructor
  · rintro ⟨-, -, hindex, hsize⟩
    exact ⟨hindex.symm, hsize.symm⟩
  · rintro ⟨hindex, hsize⟩
    exact ⟨hunused.symm, rfl, hindex.symm, hsize.symm⟩

/-- The last byte of a name is only written by a name of 15 characters. -/
theorem copyName_fifteen (old : Fin 16 → UInt8) (hlength : name.chars.length ≤ 15) {k : Fin 16}
    (hk : ¬ k.val < 15) : copyName old name k = if name.chars.length = 15 then 0 else old k := by
  have hlast : k.val = 15 := by omega
  unfold copyName
  rw [if_neg (by omega), hlast]
  by_cases hfull : name.chars.length = 15
  · rw [if_pos hfull, if_pos hfull.symm]
  · rw [if_neg hfull, if_neg fun heq => hfull heq.symm]

theorem directory_restored_iff (hlength : name.chars.length ≤ 15) :
    Function.update s.directory d
        { s.directory d with
          isUsed := 0
          inodeNum := 0
          name := fun k => if k.val < 15 then 0 else copyName (s.directory d).name name k } =
        s.directory ↔
      (s.directory d).isUsed = 0 ∧ (s.directory d).inodeNum = 0 ∧
        ∀ k : Fin 16, k.val < 15 ∨ name.chars.length = 15 → (s.directory d).name k = 0 := by
  rw [Function.update_eq_self_iff, DirEntry.ext_iff]
  constructor
  · rintro ⟨hused, -, hnum, hname⟩
    refine ⟨hused.symm, hnum.symm, fun k hk => ?_⟩
    have hbyte := congrFun hname k
    simp only at hbyte
    by_cases hfirst : k.val < 15
    · rw [if_pos hfirst] at hbyte
      exact hbyte.symm
    · rw [if_neg hfirst, copyName_fifteen _ hlength hfirst, if_pos (hk.resolve_left hfirst)] at hbyte
      exact hbyte.symm
  · rintro ⟨hused, hnum, hname⟩
    refine ⟨hused.symm, rfl, hnum.symm, ?_⟩
    funext k
    show (if k.val < 15 then 0 else copyName (s.directory d).name name k) = (s.directory d).name k
    by_cases hfirst : k.val < 15
    · rw [if_pos hfirst, hname k (.inl hfirst)]
    · rw [if_neg hfirst, copyName_fifteen _ hlength hfirst]
      by_cases hfull : name.chars.length = 15
      · rw [if_pos hfull, hname k (.inr hfull)]
      · rw [if_neg hfull]

/-! ### The whole sequence -/

theorem describe_describe (s : State) (fd : Fin maxDescriptors) (x y : FileDescriptor) :
    describe (describe s fd x) fd y = describe s fd y := by
  unfold describe
  simp only [Function.update_idem]

theorem Found.reopen (hf : Found s name i d a b bitmap) (hready : s.readyForUse = true)
    (hname : name.chars ≠ []) (hfd : findFD s.fds = some fd) :
    ∃ s₂, fsOpen (created env s n name i d a b bitmap) name = ((fd : Int), s₂) ∧
      fsGetFilesize s₂ fd = .ok 0 ∧
      name.chars ∈ (fsListfiles (created env s n name i d a b bitmap)).names ∧
      fsClose s₂ fd = .ok (0, reclosed env s n name i d a b bitmap fd) := by
  have hready' : (created env s n name i d a b bitmap).readyForUse = true := hready
  refine ⟨_, open_eq hready' (hf.lookUp hname) hfd, ?_⟩
  generalize hs₂ : describe (created env s n name i d a b bitmap) fd ⟨true,
    ((created env s n name i d a b bitmap).directory d).inodeNum, 0⟩ = s₂
  have hself : s₂.fds fd = ⟨true, ((created env s n name i d a b bitmap).directory d).inodeNum, 0⟩ := by
    rw [← hs₂]
    exact Function.update_self ..
  have hused : (s₂.fds fd).isUsed = true := by rw [hself]
  have hinode : (s₂.fds fd).inodeNum.toNat = i := by
    rw [hself]
    exact created_leads
  have hsize : s₂.sizeAt i = 0 := by
    rw [← hs₂, Metadata.sizeAt]
    unfold describe created
    simp only [Function.update_self]
    rfl
  refine ⟨?_, ?_, ?_⟩
  · rw [getFilesize_eq hused hinode, hsize]
    rfl
  · rw [names_listfiles hready', List.mem_map]
    exact ⟨d, (mem_usedEntries _ d).mpr (created_named hname), hf.cName⟩
  · rw [close_eq hused, ← hs₂, describe_describe]
    rfl

theorem delete_refused {fd' : Fin maxDescriptors}
    (hentry : findDirectory s.directory false name = some d) (hready : s.readyForUse = true) (hused : (s.fds fd').isUsed = true)
    (hinode : (s.fds fd').inodeNum = (s.directory d).inodeNum) :
    fsDelete env s name = .ok (-1, s) := by
  have hany : ((List.finRange maxDescriptors).any fun fd =>
      decide ((s.fds fd).inodeNum = (s.directory d).inodeNum ∧ (s.fds fd).isUsed = true)) = true := by
    rw [List.any_eq_true]
    exact ⟨fd', List.mem_finRange fd', decide_eq_true ⟨hinode, hused⟩⟩
  unfold fsDelete
  simp only [hentry, hready, Bool.not_true, Bool.false_eq_true, if_false]
  rw [if_pos hany]
  rfl

/-- The sequence comes to its end unless another descriptor is open on the inode, and restores the tables
where they held zeros. -/
theorem Found.undone_iff (hf : Found s name i d a b bitmap) (hready : s.readyForUse = true)
    (hopen : s.handle = some n) (hab : a < b)
    (hmarked : ∀ q : Nat, taken bitmap q = true ↔ taken s.usedBlocksBitmap q = true ∨ q = a ∨ q = b)
    (hfd : findFD s.fds = some fd) :
    CreationUndone s (created env s n name i d a b bitmap) name ↔ Pristine s name i d := by
  constructor
  · rintro ⟨r, s₂, s₃, hopened, hr, -, -, hclosed, hdelete⟩
    have hname : name.chars ≠ [] := by
      intro hname
      have hready' : (created env s n name i d a b bitmap).readyForUse = true := hready
      simp only [fsOpen, findDirectory_empty _ hname, hready', Bool.not_true, Bool.false_eq_true,
        if_false] at hopened
      exact hr (congrArg Prod.fst hopened).symm
    obtain ⟨t₂, hopened', -, -, hclosed'⟩ := hf.reopen hready hname hfd
    rw [hopened'] at hopened
    cases hopened
    rw [hclosed'] at hclosed
    cases hclosed
    obtain ⟨s₄, hcall, hinodes, hdirectory, -⟩ := hdelete env
    have hothers : ∀ fd', (s.fds fd').isUsed = true → (s.fds fd').inodeNum.toNat ≠ i := by
      intro fd' hused hinode
      have hne : fd' ≠ fd := by
        rintro rfl
        rw [findFD_unused hfd] at hused
        cases hused
      have hold : (reclosed env s n name i d a b bitmap fd).fds fd' = s.fds fd' :=
        Function.update_of_ne hne ..
      have hleads : (created env s n name i d a b bitmap).leadsTo d i := created_leads
      have hlookup : findDirectory (created env s n name i d a b bitmap).directory false name =
        some d := hf.lookUp hname
      have hentry : findDirectory (reclosed env s n name i d a b bitmap fd).directory false name =
        some d := hlookup
      rw [delete_refused hentry hready (by rw [hold]; exact hused)
        (by rw [hold]; exact BitVec.eq_of_toNat_eq (hinode.trans hleads.symm))] at hcall
      cases hcall
    rw [hf.delete hready hopen hname hab hmarked hothers] at hcall
    cases hcall
    rw [deleted_inodes, inodes_restored_iff hf.inode] at hinodes
    rw [deleted_directory, directory_restored_iff hf.length] at hdirectory
    exact ⟨hname, hinodes.1, hinodes.2, hdirectory.1, hdirectory.2.1, hdirectory.2.2, hothers⟩
  · intro h
    obtain ⟨s₂, hopened, hsize, hlisted, hclosed⟩ := hf.reopen hready h.nonempty hfd
    refine ⟨fd, s₂, _, hopened, by omega, hsize, hlisted, hclosed, fun env' => ?_⟩
    refine ⟨_, hf.delete hready hopen h.nonempty hab hmarked h.closed env', ?_, ?_, rfl⟩
    · rw [deleted_inodes, inodes_restored_iff hf.inode]
      exact ⟨h.index, h.size⟩
    · rw [deleted_directory, directory_restored_iff hf.length]
      exact ⟨h.entry, h.inodeNum, h.bytes⟩

theorem undone_iff_of_create (hcreate : fsCreate env s name = .ok (0, s₁))
    (hfree : ∃ fd, (s.fds fd).isUsed = false) : ∃ i d, findInode s.inodes = some i ∧
      findDirectory s.directory true name = some d ∧
      (CreationUndone s s₁ name ↔ Pristine s name i d) := by
  obtain ⟨n, hopen⟩ := handle_of_create hcreate
  have hready : s.readyForUse = true := by
    obtain ⟨-, -, -, -, ⟨hr, -⟩ | ⟨-, -, hready, -⟩⟩ := create_spec hcreate
    · exact absurd hr (by decide)
    · exact hready
  obtain ⟨loc, num, bitmap, hreserves, ⟨hr, -⟩ | ⟨-, i, d, a, b, hloc, hnum, hab, hf, rfl⟩⟩ :=
    create_reserves hopen hcreate
  · exact absurd hr (by decide)
  obtain ⟨fd, hunused⟩ := hfree
  obtain ⟨fd', hfd⟩ := exists_findFD hunused
  refine ⟨i, d, hf.inode, hf.entry, hf.undone_iff hready hopen hab ?_ hfd⟩
  intro q
  rw [hreserves.marked, hloc, hnum, Int.ofNat_inj, Int.ofNat_inj]

/-- A creation with a descriptor left can be undone exactly if the name is not empty and what `fs_create`
has taken held zeros. -/
theorem create_undone_iff (hcreate : fsCreate env s name = .ok (0, s₁))
    (hfree : ∃ fd, (s.fds fd).isUsed = false) : CreationUndone s s₁ name ↔
      ∃ i d, findInode s.inodes = some i ∧ findDirectory s.directory true name = some d ∧
        Pristine s name i d := by
  obtain ⟨i, d, hinode, hentry, hiff⟩ := undone_iff_of_create hcreate hfree
  rw [hiff]
  constructor
  · exact fun h => ⟨i, d, hinode, hentry, h⟩
  · rintro ⟨j, e, hinode', hentry', h⟩
    obtain rfl : i = j := Option.some.inj (hinode.symm.trans hinode')
    obtain rfl : d = e := Option.some.inj (hentry.symm.trans hentry')
    exact h

/-- A new disk holds zeros. -/
theorem create_undone_newDisk : ∃ s₁, fsCreate .plain newDisk nameA = .ok (0, s₁) ∧
    CreationUndone newDisk s₁ nameA := by
  have hcreate : passes (fun p => p.1 = 0) (fsCreate .plain newDisk nameA) = true := by
    decide +kernel
  obtain ⟨⟨r, s₁⟩, hcall, hret⟩ := ok_of_passes hcreate
  obtain rfl : r = 0 := of_decide_eq_true hret
  have hclosed : ∀ fd, (newDisk.fds fd).isUsed = false := by decide +kernel
  refine ⟨s₁, hcall, (create_undone_iff hcall ⟨descriptor0, hclosed _⟩).mpr
    ⟨inode0, inode0, by decide +kernel, by decide +kernel, ?_⟩⟩
  refine ⟨by decide, by decide +kernel, by decide +kernel, by decide +kernel, by decide +kernel,
    by decide +kernel, fun fd hused => ?_⟩
  rw [hclosed fd] at hused
  cases hused

def emptyName : CString := ⟨[], by decide⟩

/-- A file with an empty name is created and never found again. -/
theorem not_creationUndone_emptyName : ∃ s₁, fsCreate .plain newDisk emptyName = .ok (0, s₁) ∧
    (∃ fd, (newDisk.fds fd).isUsed = false) ∧ fsOpen s₁ emptyName = (-1, s₁) ∧
    ¬ CreationUndone newDisk s₁ emptyName := by
  have hcreate : passes (fun p => p.1 = 0) (fsCreate .plain newDisk emptyName) = true := by
    decide +kernel
  obtain ⟨⟨r, s₁⟩, hcall, hret⟩ := ok_of_passes hcreate
  obtain rfl : r = 0 := of_decide_eq_true hret
  have hfree : ∃ fd, (newDisk.fds fd).isUsed = false := ⟨descriptor0, by decide +kernel⟩
  obtain ⟨i, d, -, -, hiff⟩ := undone_iff_of_create hcall hfree
  refine ⟨s₁, hcall, hfree, ?_, fun h => (hiff.mp h).nonempty rfl⟩
  have hmissing : findDirectory s₁.directory false emptyName = none := findDirectory_empty _ rfl
  unfold fsOpen
  simp only [hmissing]
  split
  · rfl
  · rfl

end OSChallenges.FileSystem
