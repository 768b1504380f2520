import OSChallenges.FileSystem.Accounting
import OSChallenges.FileSystem.Mounting
import OSChallenges.FileSystem.Sizes

/-!
# Blocks that leak

`fs_create` marks two blocks before it checks anything. So the marked blocks are block 0 and those of
the files exactly as long as no creation on a mounted disk fails, and then the positions that the calls
write to the bitmap are positions on the disk.
-/

namespace OSChallenges.FileSystem

open Records Words Outcomes Runs

variable {env : Env} {s s' t : State} {n name : CString} {r : Int} {c : Call}

/-! ### The positions that are written -/

/-- What `fs_create` hands to `writeUsedBlocksBit`. -/
def createPositions (s : State) : List Int :=
  let inodeBlocksArrayLoc := findUsedBlocksBit s.usedBlocksBitmap
  match writeUsedBlocksBit s.usedBlocksBitmap inodeBlocksArrayLoc true with
  | .error _ => [inodeBlocksArrayLoc]
  | .ok bitmap => [inodeBlocksArrayLoc, findUsedBlocksBit bitmap]

/-- The loop of `fs_delete`. -/
def clearedPositions (empty : Block) : List (BitVec 32) → State → List Int
  | [], _ => []
  | currentBlockNum :: rest, s =>
    if currentBlockNum = 0 then []
    else
      match s.blockWrite (toInt32 currentBlockNum.toNat) empty with
      | none => []
      | some s => toInt32 currentBlockNum.toNat :: clearedPositions empty rest s

/-- What `fs_delete` hands to `writeUsedBlocksBit`. -/
def deletePositions (env : Env) (s : State) (name : CString) : List Int :=
  if !s.readyForUse then []
  else
    match findDirectory s.directory false name with
    | none => []
    | some d =>
      let inodeIndex := (s.directory d).inodeNum
      if (List.finRange maxDescriptors).any fun fd =>
          (s.fds fd).inodeNum = inodeIndex ∧ (s.fds fd).isUsed then []
      else
        match index maxFiles inodeIndex.toNat with
        | .error _ => []
        | .ok i =>
          match s.blockRead (s.inodes i).singleIndirectBlock.toNat env.frame with
          | none => []
          | some b =>
            let empty := env.empty b
            let entries := List.ofFn (inodeBlocks b)
            clearedPositions empty entries s ++
              match clearBlocks empty entries s with
              | .ok (true, s) =>
                let location : Int := (s.inodes i).singleIndirectBlock.toNat
                match s.blockWrite location empty with
                | none => []
                | some _ => [location]
              | _ => []

/-- The positions that a call hands to `writeUsedBlocksBit`. -/
def positions (env : Env) (s : State) : Call → List Int
  | .makeFs _ => [0]
  | .create _ => createPositions s
  | .delete name => deletePositions env s name
  | _ => []

/-- A position of the bitmap. -/
def OnDisk (position : Int) : Prop := 0 ≤ position ∧ position < diskBlocks

/-- The bitmap with all the positions written. -/
def writeAll (bitmap : Bitmap) (positions : List Int) (clearSet : Bool) : Except Fault Bitmap :=
  positions.foldlM (fun bitmap position => writeUsedBlocksBit bitmap position clearSet) bitmap

theorem createPositions_eq {bitmap₁ : Bitmap}
    (h : writeUsedBlocksBit s.usedBlocksBitmap (findUsedBlocksBit s.usedBlocksBitmap) true =
      .ok bitmap₁) :
    createPositions s = [findUsedBlocksBit s.usedBlocksBitmap, findUsedBlocksBit bitmap₁] := by
  unfold createPositions
  simp only [h]

/-- These are all the writes of `fs_create`. -/
theorem writeAll_create (h : fsCreate env s name = .ok (r, s')) :
    writeAll s.usedBlocksBitmap (createPositions s) true = .ok s'.usedBlocksBitmap := by
  obtain ⟨loc, num, bitmap, hreserves, hcreated⟩ := create_spec h
  obtain ⟨mid, hfirst, hnum, hsecond⟩ := hreserves.writes
  have hbitmap : s'.usedBlocksBitmap = bitmap := by
    obtain ⟨-, hkept, -⟩ | ⟨i, d, -, -, -, -, ⟨-, -, hkept⟩ | ⟨hwrite, -⟩⟩ := hcreated
    · rw [hkept]
    · rw [hkept]
      rfl
    · rw [(blockWrite_tables hwrite).1]
      rfl
  rw [hreserves.search] at hfirst
  rw [hnum] at hsecond
  rw [createPositions_eq hfirst, hbitmap, writeAll]
  simp only [List.foldlM_cons, List.foldlM_nil, hfirst, hsecond, ok_bind]
  rfl

theorem blockWrite_congr (h : t.handle = s.handle) (block : Int) (b : Block) :
    (s.blockWrite block b = none ∧ t.blockWrite block b = none) ∨
      ∃ s' t', s.blockWrite block b = some s' ∧ t.blockWrite block b = some t' ∧
        t'.handle = s'.handle := by
  unfold State.blockWrite
  rw [h]
  cases hopen : s.handle with
  | none => exact .inl ⟨rfl, rfl⟩
  | some n =>
    by_cases hout : block < 0 ∨ (diskBlocks : Int) ≤ block
    · exact .inl ⟨if_pos hout, if_pos hout⟩
    · exact .inr ⟨_, _, if_neg hout, if_neg hout, rfl⟩

theorem clearedPositions_congr {empty : Block} {entries : List (BitVec 32)}
    (h : t.handle = s.handle) :
    clearedPositions empty entries t = clearedPositions empty entries s := by
  induction entries generalizing s t with
  | nil => rfl
  | cons entry rest ih =>
    rw [clearedPositions, clearedPositions]
    obtain ⟨hs, ht⟩ | ⟨s', t', hs, ht, hhandle⟩ := blockWrite_congr h (toInt32 entry.toNat) empty
    · simp only [hs, ht]
    · simp only [hs, ht, ih hhandle]

theorem writeAll_append {bitmap bitmap' : Bitmap} {l l' : List Int} {clearSet : Bool}
    (h : writeAll bitmap l clearSet = .ok bitmap') :
    writeAll bitmap (l ++ l') clearSet = writeAll bitmap' l' clearSet := by
  unfold writeAll at *
  rw [List.foldlM_append, h, ok_bind]

theorem writeAll_cleared {empty : Block} {entries : List (BitVec 32)} {cleared : Bool}
    (h : clearBlocks empty entries s = .ok (cleared, s')) :
    writeAll s.usedBlocksBitmap (clearedPositions empty entries s) false =
      .ok s'.usedBlocksBitmap := by
  induction entries generalizing s with
  | nil =>
    cases ok_of_pure h
    rfl
  | cons entry rest ih =>
    rw [clearBlocks] at h
    rw [clearedPositions]
    by_cases hzero : entry = 0
    · rw [if_pos hzero] at h ⊢
      cases ok_of_pure h
      rfl
    · rw [if_neg hzero] at h ⊢
      cases hwrite : s.blockWrite (toInt32 entry.toNat) empty with
      | none =>
        simp only [hwrite] at h ⊢
        cases ok_of_pure h
        rfl
      | some s₁ =>
        simp only [hwrite] at h ⊢
        obtain ⟨bitmap, hbit, h⟩ := ok_of_bind h
        have hrest := ih h
        have hsame : clearedPositions empty rest { s₁ with usedBlocksBitmap := bitmap } =
          clearedPositions empty rest s₁ := clearedPositions_congr rfl
        rw [hsame] at hrest
        rw [(blockWrite_tables hwrite).1] at hbit
        have hhead : writeAll s.usedBlocksBitmap [toInt32 entry.toNat] false = .ok bitmap := by
          unfold writeAll
          simp only [List.foldlM_cons, List.foldlM_nil, hbit, ok_bind]
          rfl
        exact (writeAll_append hhead).trans hrest

/-- These are all the writes of `fs_delete`. -/
theorem writeAll_delete (h : fsDelete env s name = .ok (r, s')) :
    writeAll s.usedBlocksBitmap (deletePositions env s name) false = .ok s'.usedBlocksBitmap := by
  unfold fsDelete at h
  unfold deletePositions
  by_cases hready : (!s.readyForUse) = true
  · simp only [if_pos hready] at h ⊢
    cases ok_of_pure h
    rfl
  simp only [if_neg hready] at h ⊢
  cases hentry : findDirectory s.directory false name with
  | none =>
    simp only [hentry] at h ⊢
    cases ok_of_pure h
    rfl
  | some d =>
    simp only [hentry] at h ⊢
    by_cases hopened : ((List.finRange maxDescriptors).any fun fd =>
        (s.fds fd).inodeNum = (s.directory d).inodeNum ∧ (s.fds fd).isUsed) = true
    · rw [if_pos hopened] at h ⊢
      cases ok_of_pure h
      rfl
    rw [if_neg hopened] at h ⊢
    obtain ⟨i, hi, h⟩ := ok_of_bind h
    simp only [hi]
    cases hread : s.blockRead (s.inodes i).singleIndirectBlock.toNat env.frame with
    | none =>
      simp only [hread] at h ⊢
      cases ok_of_pure h
      rfl
    | some b =>
      simp only [hread] at h ⊢
      obtain ⟨⟨cleared, t⟩, hclear, h⟩ := ok_of_bind h
      rw [writeAll_append (writeAll_cleared hclear), hclear]
      cases cleared with
      | false =>
        cases ok_of_pure h
        rfl
      | true =>
        simp only [Bool.not_true, Bool.false_eq_true, if_false] at h ⊢
        cases hwrite : t.blockWrite (t.inodes i).singleIndirectBlock.toNat (env.empty b) with
        | none =>
          simp only [hwrite] at h ⊢
          cases ok_of_pure h
          rfl
        | some u =>
          simp only [hwrite] at h ⊢
          obtain ⟨bitmap, hbit, h⟩ := ok_of_bind h
          cases ok_of_pure h
          rw [(blockWrite_tables hwrite).1] at hbit
          unfold writeAll
          simp only [List.foldlM_cons, List.foldlM_nil, hbit, ok_bind]
          rfl

/-! ### Positions on the disk -/

theorem Reserves.onDisk_iff {bitmap bitmap' : Bitmap} {loc num : Int}
    (h : Reserves bitmap loc num bitmap') : (∀ p ∈ [loc, num], OnDisk p) ↔ TwoFree bitmap := by
  unfold OnDisk
  rw [List.forall_mem_cons, List.forall_mem_singleton]
  obtain ⟨hnum, hfull⟩ | ⟨a, b, ha, hb, hab, hlt, hfreea, hfreeb⟩ := h.found
  · exact iff_of_false (fun hin => by omega) hfull
  · exact iff_of_true (by omega) ⟨b, hlt, a, hab, hfreea, hfreeb⟩

theorem createPositions_onDisk_iff (s : State) :
    (∀ p ∈ createPositions s, OnDisk p) ↔ TwoFree s.usedBlocksBitmap := by
  obtain ⟨bitmap₁, bitmap₂, hwrite₁, -, hreserves⟩ := exists_reserve s.usedBlocksBitmap
  rw [createPositions_eq hwrite₁]
  exact hreserves.onDisk_iff

theorem deletePositions_onDisk (hopen : s.handle = some n)
    (h : Consistent s.toMetadata (s.files n)) : ∀ p ∈ deletePositions env s name, OnDisk p := by
  have hnone : ∀ p ∈ ([] : List Int), OnDisk p := fun p hp => by cases hp
  unfold deletePositions
  split
  · exact hnone
  split
  · exact hnone
  rename_i d hentry
  simp only
  split
  · exact hnone
  obtain ⟨i, hleads, hi⟩ := h.named d (findDirectory_old hentry).1
  have hindex : index maxFiles ((s.directory d).inodeNum.toNat : Int) = .ok i := by
    rw [Metadata.leadsTo] at hleads
    rw [hleads]
    exact index_of_lt i.isLt
  obtain ⟨-, hlt, -⟩ := h.index i hi
  obtain ⟨hposb, hltb, -⟩ := h.data i hi
  have hltb' : s.dataAt (s.files n) i < 8192 := hltb
  have hread : s.blockRead ((s.inodes i).singleIndirectBlock.toNat : Int) env.frame =
      some ((s.files n).block (s.indexAt i)) := blockRead_eq hopen hlt h.size _
  obtain ⟨rest, hrest⟩ := entries_eq h hi
  have hnum : (BitVec.ofNat 32 (s.dataAt (s.files n) i)).toNat = s.dataAt (s.files n) i := by
    rw [BitVec.toNat_ofNat, Nat.mod_eq_of_lt (by omega)]
  have hne : BitVec.ofNat 32 (s.dataAt (s.files n) i) ≠ 0 := by
    intro hzero
    rw [hzero] at hnum
    have hb0 : 0 = s.dataAt (s.files n) i := hnum
    omega
  simp only [hindex, hread, hrest]
  intro p hp
  rw [List.mem_append, clearedPositions, if_neg hne, hnum, toInt32_of_lt (by omega),
    blockWrite_eq hopen hltb] at hp
  simp only [clearedPositions, if_true, List.mem_singleton] at hp
  have hlt' : (s.inodes i).singleIndirectBlock.toNat < diskBlocks := hlt
  unfold OnDisk
  rcases hp with rfl | hp
  · omega
  · split at hp
    · rename_i t hclear
      rw [clearBlocks_inodes hclear] at hp
      split at hp
      · cases hp
      · cases List.mem_singleton.mp hp
        omega
    · cases hp

/-! ### Runs -/

/-- On a mounted disk the name fits and there are an entry and an inode for it; without one there are
two positions to mark in the bitmap in memory. -/
def Session.CreatesFit (w : Session) : Call → Prop
  | .create name =>
    if w.state.readyForUse then name.chars.length ≤ 15 ∧ (findInode w.state.inodes).isSome ∧
      (findDirectory w.state.directory true name).isSome
    else TwoFree w.state.usedBlocksBitmap
  | _ => True

instance TwoFree.decidable (bitmap : Bitmap) : Decidable (TwoFree bitmap) :=
  inferInstanceAs (Decidable (∃ b, b < diskBlocks ∧ ∃ a, a < b ∧ taken bitmap a = false ∧
    taken bitmap b = false))

instance Session.CreatesFit.decidable (w : Session) : (c : Call) → Decidable (w.CreatesFit c)
  | .create name => inferInstanceAs (Decidable (if w.state.readyForUse then
      name.chars.length ≤ 15 ∧ (findInode w.state.inodes).isSome ∧
        (findDirectory w.state.directory true name).isSome
      else TwoFree w.state.usedBlocksBitmap))
  | .makeFs _ | .mountFs _ | .umountFs | .open _ | .close _ | .delete _ | .read _ _ | .write _ _
  | .getFilesize _ | .listfiles | .lseek _ _ | .truncate _ _ => isTrue trivial

/-- After the call the accounts of the mounted disk are right and there is room for the blocks of every
file that has an inode, and the call has written positions on the disk only. -/
structure Session.Accounts (w : Session) (a : Env × Call) (w' : Session) : Prop where
  tallied : ∀ n, w'.state.handle = some n → Accounted w'.state.toMetadata (w'.state.files n)
  room : ∀ n, w'.state.handle = some n → TwoFree w'.state.usedBlocksBitmap ∧
    ∀ env (name : CString), name.chars.length ≤ 15 → (∃ i, ¬ w'.state.used i) →
      (findDirectory w'.state.directory true name).isSome →
        ∃ s', fsCreate env w'.state name = .ok (0, s')
  positions : ∀ p ∈ positions a.1 w.state a.2, OnDisk p

/-- Everything is in order, and so are the accounts of the disks. -/
structure Tallied (w : Session) : Prop where
  orderly : Orderly w
  mounted : ∀ n, w.state.handle = some n → Accounted w.state.toMetadata (w.state.files n)
  disks : w.Stored Accounted

variable {w w' : Session}

theorem Tallied.boot (files : CString → File) : Tallied (.boot files) :=
  ⟨.boot files, (fun _ hopen => by cases hopen), fun _ hmade => by cases hmade⟩

theorem Accounted.store {m : Metadata} {f : File} (hacc : Accounted m f) (h : Consistent m f)
    (env : Env) : Accounted m (f.write 0 (writeBuf env m)) := by
  refine hacc.of_eq rfl (fun _ => Iff.rfl) (fun _ _ => rfl) fun i hi => ?_
  obtain ⟨hpos, hlt, -⟩ := h.index i hi
  exact File.write_other (by omega) (h.size ▸ hlt) _

theorem Tallied.step {a : Env × Call} (h : Tallied w) (hfits : w.CreatesFit a.2)
    (hstep : w.Step a w') : Tallied w' := by
  obtain ⟨env, c⟩ := a
  have hall : w.Throughout Accounted := ⟨h.orderly, h.mounted, h.disks⟩
  have hnext : w'.Throughout Accounted := by
    cases hopen : w.state.handle with
    | none => exact hall.idle (fun _ _ hfresh => accounted_empty hfresh _) hopen hstep
    | some n =>
      refine hall.working (fun env m f hcons hacc => hacc.store hcons env) hopen ?_ hstep
      refine (h.mounted n hopen).effect (h.orderly.mounted n hopen) ?_
      rintro name rfl
      have hready := h.orderly.ready_of_open hopen
      rw [Session.CreatesFit, if_pos hready] at hfits
      exact ⟨hready, hfits.1, hfits.2.1, hfits.2.2, (h.mounted n hopen).twoFree⟩
  exact ⟨hnext.orderly, hnext.mounted, hnext.disks⟩

theorem findInode_of_unused {inodes : Fin maxFiles → Inode} {i : Fin maxFiles}
    (h : ¬ (inodes i).used) : (findInode inodes).isSome := by
  rw [findInode, List.find?_isSome]
  exact ⟨i, List.mem_finRange i, decide_eq_true (not_not.mp h)⟩

theorem Tallied.positions (h : Tallied w) (hfits : w.CreatesFit c) :
    ∀ p ∈ FileSystem.positions env w.state c, OnDisk p := by
  cases c with
  | makeFs diskName =>
    intro p hp
    cases List.mem_singleton.mp hp
    exact ⟨by decide, by decide⟩
  | create name =>
    refine (createPositions_onDisk_iff w.state).mpr ?_
    cases hopen : w.state.handle with
    | none =>
      have hready := Bool.eq_false_iff.mp (h.orderly.not_ready_of_closed hopen)
      rwa [Session.CreatesFit, if_neg hready] at hfits
    | some n => exact (h.mounted n hopen).twoFree
  | delete name =>
    cases hopen : w.state.handle with
    | none =>
      intro p hp
      rw [FileSystem.positions, deletePositions, h.orderly.not_ready_of_closed hopen] at hp
      cases hp
    | some n => exact deletePositions_onDisk hopen (h.orderly.mounted n hopen).consistent
  | _ => exact fun p hp => by cases hp

theorem Tallied.accounts {a : Env × Call} (h : Tallied w) (hfits : w.CreatesFit a.2)
    (hstep : w.Step a w') : w.Accounts a w' := by
  have hnext := h.step hfits hstep
  refine ⟨hnext.mounted, ?_, h.positions hfits⟩
  intro n hopen
  have hacc := hnext.mounted n hopen
  have hready := hnext.orderly.ready_of_open hopen
  refine ⟨hacc.twoFree, fun env name hlength hfree hentry => ?_⟩
  obtain ⟨i, hi⟩ := hfree
  exact hacc.creates hopen hready hlength (findInode_of_unused hi) hentry env

/-- A creation that does not fit leaves blocks marked that no file owns, or marks position -1. -/
theorem Tallied.not_accounts {a : Env × Call} (h : Tallied w) (hfits : ¬ w.CreatesFit a.2)
    (hstep : w.Step a w') : ¬ w.Accounts a w' := by
  obtain ⟨env, c⟩ := a
  intro haccounts
  cases c with
  | create name =>
    obtain ⟨r, hcall, -⟩ := Session.step_cases hstep.2
    rw [call] at hcall
    have hcreate := ok_of_number hcall
    cases hopen : w.state.handle with
    | none =>
      have hready := Bool.eq_false_iff.mp (h.orderly.not_ready_of_closed hopen)
      rw [Session.CreatesFit, if_neg hready] at hfits
      exact hfits ((createPositions_onDisk_iff w.state).mp haccounts.positions)
    | some n =>
      have hready := h.orderly.ready_of_open hopen
      rw [Session.CreatesFit, if_pos hready] at hfits
      have hmissing : ¬ Creatable w.state name := fun hneeds =>
        hfits ⟨hneeds.1, hneeds.2.1, hneeds.2.2.1⟩
      have hframe := (h.orderly.mounted_step hopen hstep.move fun heq => by cases heq).2.1
      exact (h.mounted n hopen).not_of_failed hopen hmissing hcreate
        (haccounts.tallied n (hframe.handle.trans hopen))
  | _ => exact hfits trivial

theorem always_tallied {files : CString → File} {run : List ((Env × Call) × Session)}
    (h : EachStep Session.Step (.boot files) run)
    (hfits : EachStep (fun w a _ => w.CreatesFit a.2) (.boot files) run) :
    Always Tallied (.boot files) run :=
  EachStep.always (fun _ _ _ htallied hstep => htallied.step hstep.2 hstep.1) (.boot files)
    (h.and hfits)

/-- A creation on a mounted disk leaves no trace of a failure exactly if it succeeds or no block is
free. In a run every step keeps the accounts exactly if every creation fits. -/
theorem failed_creates_iff (env : Env) (s : State) (name : CString) (files : CString → File)
    (run : List ((Env × Call) × Session)) :
    (∀ n, s.handle = some n → s.readyForUse = true →
      (FailsCleanly env s name ↔ Creatable s name ∨ Full s.usedBlocksBitmap)) ∧
    (EachStep Session.Step (.boot files) run →
      (EachStep Session.Accounts (.boot files) run ↔
        EachStep (fun w a _ => w.CreatesFit a.2) (.boot files) run)) := by
  constructor
  · intro n hopen hready
    exact failsCleanly_iff hopen hready
  · intro h
    refine eachStep_iff_eachStep ?_ ?_ (Tallied.boot files) h
    · intro w a w' htallied hfits hstep
      exact ⟨htallied.step hfits hstep, htallied.accounts hfits hstep⟩
    · intro w a w' htallied hfits hstep
      exact htallied.not_accounts hfits hstep

theorem accounted_oneFile : oneFileState.handle = some disk0 ∧
    Accounted oneFileState.toMetadata (oneFileState.files disk0) := by
  have hallows : EachStep (fun w a _ => Session.Allows w a.1 a.2) (.boot fun _ => .empty) oneFile := by
    decide +kernel
  have hfits : EachStep (fun w a _ => Session.CreatesFit w a.2) (.boot fun _ => .empty) oneFile := by
    decide +kernel
  have htallied := (always_tallied (hallows.and (eachStep_trail ..)) hfits).last
  have hopen : (last (.boot fun _ => .empty) oneFile).state.handle = some disk0 := by decide +kernel
  unfold oneFileState
  exact ⟨hopen, htallied.mounted disk0 hopen⟩

def nameB : CString := ⟨[98], by decide⟩

/-- A second file, and a run in which a file is created and deleted. -/
theorem failed_creates_deleted : FailsCleanly .plain oneFileState nameB ∧
    writtenAndDeleted.length = 11 ∧
    EachStep Session.Accounts (.boot fun _ => .empty) writtenAndDeleted := by
  obtain ⟨hopen, hacc⟩ := accounted_oneFile
  have hallows : EachStep (fun w a _ => Session.Allows w a.1 a.2) (.boot fun _ => .empty)
      writtenAndDeleted := by
    decide +kernel
  have hfits : EachStep (fun w a _ => Session.CreatesFit w a.2) (.boot fun _ => .empty)
      writtenAndDeleted := by
    decide +kernel
  obtain ⟨hcreate, hrun⟩ :=
    failed_creates_iff .plain oneFileState nameB (fun _ => .empty) writtenAndDeleted
  refine ⟨?_, by decide +kernel, ?_⟩
  · exact (hcreate disk0 hopen (by decide +kernel)).mpr
      (.inl ⟨by decide, by decide +kernel, by decide +kernel, hacc.twoFree⟩)
  · exact (hrun (hallows.and (eachStep_trail ..))).mpr hfits

/-- The name is taken, and the two blocks that were free stay marked. -/
theorem not_failsCleanly_duplicate : ∃ s', fsCreate .plain oneFileState nameA = .ok (-1, s') ∧
    ¬ FailsCleanly .plain oneFileState nameA ∧
    Accounted oneFileState.toMetadata (oneFileState.files disk0) ∧
    ¬ Accounted s'.toMetadata (s'.files disk0) := by
  obtain ⟨hopen, hacc⟩ := accounted_oneFile
  have hentry : ¬ (findDirectory oneFileState.directory true nameA).isSome := by decide +kernel
  have hmissing : ¬ Creatable oneFileState nameA := fun hneeds => hentry hneeds.2.2.1
  obtain ⟨r, s', hcall⟩ := create_total .plain oneFileState nameA
  obtain ⟨loc, num, bitmap, -, ⟨rfl, -, -⟩ | ⟨-, i, d, a, b, -, -, hab, hfound, -⟩⟩ :=
    create_reserves hopen hcall
  · refine ⟨s', hcall, ?_, hacc, hacc.not_of_failed hopen hmissing hcall⟩
    rw [failsCleanly_iff hopen (by decide +kernel)]
    rintro (hneeds | hfull)
    · exact hmissing hneeds
    · obtain ⟨b, hlt, a, -, -, hfree⟩ := hacc.twoFree
      rw [hfull b hlt] at hfree
      cases hfree
  · exact absurd (hfound.creatable hab) hmissing

end OSChallenges.FileSystem
