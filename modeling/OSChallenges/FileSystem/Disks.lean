import OSChallenges.FileSystem.Calls

/-!
# Making, mounting and unmounting

What `make_fs` leaves on a disk is what `mount_fs` reads, and what `umount_fs` writes back is read
again by the next `mount_fs`.
-/

namespace OSChallenges.FileSystem

open Records Words Outcomes

variable {env : Env} {s s' : State} {n name : CString} {r : Int} {diskName : Option CString}

/-! ### Fresh disks -/

/-- Only block 0 is used. -/
def Fresh (bitmap : Bitmap) : Prop := ∀ q, taken bitmap q = decide (q = 0)

theorem exists_fresh : ∃ bitmap, writeUsedBlocksBit (fun _ => 0) 0 true = .ok bitmap ∧
    Fresh bitmap := by
  obtain ⟨bitmap, hwrite, htaken⟩ := exists_write (fun _ => 0) (p := 0) (by decide) true
  refine ⟨bitmap, hwrite, ?_⟩
  intro q
  have hzero : taken (fun _ => 0) q = false := by
    unfold taken
    split
    · exact BitVec.getLsbD_zero
    · rfl
  rw [htaken, hzero]
  by_cases hq : q = 0
  · simp [hq]
  · simp [hq]

/-- The disk that `make_fs` makes. -/
def madeFile (env : Env) (bitmap : Bitmap) : File :=
  (File.zeros diskBlocks).write 0 (writeBuf env (emptyMetadata bitmap))

theorem consistent_empty {bitmap : Bitmap} {f : File} (hfresh : Fresh bitmap)
    (hsize : f.size = diskBlocks) : Consistent (emptyMetadata bitmap) f := by
  have hused : ∀ i, ¬ (emptyMetadata bitmap).used i := fun i h => h rfl
  have hnamed : ∀ d, ¬ (emptyMetadata bitmap).named d := fun d h => h rfl
  exact
    { size := hsize
      metadata := (hfresh 0).trans (by decide)
      index := fun i hi => absurd hi (hused i)
      data := fun i hi => absurd hi (hused i)
      rest := fun i hi => absurd hi (hused i)
      apart := fun i _ hi => absurd hi (hused i)
      index_inj := fun i _ hi => absurd hi (hused i)
      data_inj := fun i _ hi => absurd hi (hused i)
      named := fun d hd => absurd hd (hnamed d)
      unique := fun d _ _ hd => absurd hd (hnamed d)
      names := fun d _ hd => absurd hd (hnamed d)
      terminated := fun _ => rfl }

/-! ### The tables and block 0 -/

/-- The tables of a disk as they stand in its block 0. -/
def stored (f : File) : Metadata := readBuf (f.block 0)

theorem stored_write (env : Env) (f : File) (m : Metadata) :
    stored (f.write 0 (writeBuf env m)) = m := by
  rw [stored, File.write_self, readBuf_writeBuf]

theorem Consistent.store {m : Metadata} {f : File} (h : Consistent m f) (env : Env) :
    Consistent m (f.write 0 (writeBuf env m)) := by
  apply h.of_index
  · exact File.write_size (by rw [h.size]; decide) _
  · intro i hi
    obtain ⟨hpos, hlt, -⟩ := h.index i hi
    exact File.write_other (by omega) (h.size ▸ hlt) _

/-! ### The calls -/

/-- No disk is opened; the directory is cleared. -/
structure Kept (s s' : State) : Prop where
  handle : s'.handle = s.handle
  ready : s'.readyForUse = s.readyForUse
  fds : s'.fds = s.fds
  directory : s'.directory = fun _ => .zero

theorem make_cases (hclosed : s.handle = none) (h : makeFs env s diskName = .ok (r, s')) :
    Kept s s' ∧
      (∀ x, diskName ≠ some x ∨ env.creates = false → s'.files x = s.files x) ∧
      (r = -1 ∨ r = 0 ∧ ∃ x bitmap, diskName = some x ∧ env.creates = true ∧ Fresh bitmap ∧
        s'.files x = madeFile env bitmap) := by
  obtain ⟨bitmap, hwrite, hfresh⟩ := exists_fresh
  have hsize : (File.zeros diskBlocks).size = diskBlocks := rfl
  unfold makeFs at h
  rw [hwrite, ok_bind] at h
  cases diskName with
  | none =>
    cases ok_of_pure h
    exact ⟨⟨rfl, rfl, rfl, rfl⟩, fun _ _ => rfl, .inl rfl⟩
  | some x =>
    by_cases hcreates : env.creates
    · have hother : ∀ (f : File) (y : CString), some x ≠ some y ∨ env.creates = false →
          Function.update s.files x f y = s.files y := by
        rintro f y (hne | hfails)
        · exact Function.update_of_ne (fun heq => hne (by rw [heq])) ..
        · rw [hcreates] at hfails
          cases hfails
      by_cases hwritten : diskBlocks ≤ env.written
      · simp only [State.makeDisk, hcreates, if_true, decide_eq_true hwritten, Bool.not_true,
          Bool.false_eq_true, if_false, State.openDisk, hclosed, Nat.min_eq_right hwritten] at h
        by_cases hopens : env.opens
        · simp only [if_pos hopens, State.blockWrite, State.closeDisk] at h
          rw [if_neg (by decide)] at h
          cases ok_of_pure h
          refine ⟨⟨hclosed.symm, rfl, rfl, rfl⟩, ?_, .inr ⟨rfl, x, bitmap, rfl, hcreates, hfresh, ?_⟩⟩
          · intro y hy
            simp only [Function.update_idem]
            exact hother _ y hy
          · simp only [Function.update_self]
            rfl
        · simp only [if_neg hopens] at h
          cases ok_of_pure h
          exact ⟨⟨hclosed.symm, rfl, rfl, rfl⟩, hother _, .inl rfl⟩
      · simp only [State.makeDisk, hcreates, if_true, decide_eq_false hwritten, Bool.not_false] at h
        cases ok_of_pure h
        exact ⟨⟨rfl, rfl, rfl, rfl⟩, hother _, .inl rfl⟩
    · simp only [State.makeDisk, if_neg hcreates, Bool.not_false, if_true] at h
      cases ok_of_pure h
      exact ⟨⟨rfl, rfl, rfl, rfl⟩, fun _ _ => rfl, .inl rfl⟩

theorem mount_cases (hclosed : s.handle = none) (h : mountFs env s diskName = (r, s')) :
    r = -1 ∧ Kept s s' ∧ s'.files = s.files ∨
      r = 0 ∧ ∃ x, diskName = some x ∧ env.opens = true ∧
        (0 < (s.files x).size → s' = { s with
          toMetadata := stored (s.files x)
          readyForUse := true
          handle := some x }) := by
  unfold mountFs at h
  cases diskName with
  | none =>
    cases h
    exact .inl ⟨rfl, ⟨rfl, rfl, rfl, rfl⟩, rfl⟩
  | some x =>
    by_cases hopens : env.opens
    · simp only [State.openDisk, hclosed, if_pos hopens, State.blockRead] at h
      rw [if_neg (by decide)] at h
      cases h
      refine .inr ⟨rfl, x, rfl, hopens, ?_⟩
      intro hsize
      have hread : (s.files x).read 0 env.buffer = (s.files x).block 0 := if_pos hsize
      simp only [Int.toNat_zero, hread]
      rfl
    · simp only [State.openDisk, hclosed, if_neg hopens] at h
      cases h
      exact .inl ⟨rfl, ⟨hclosed.symm, rfl, rfl, rfl⟩, rfl⟩

/-- The state after the open disk has been unmounted. -/
def unmounted (env : Env) (s : State) (n : CString) : State :=
  { s with
    inodes := fun _ => .zero
    directory := fun _ => .zero
    usedBlocksBitmap := fun _ => 0
    fds := fun _ => .zero
    readyForUse := false
    handle := none
    files := Function.update s.files n ((s.files n).write 0 (writeBuf env s.toMetadata)) }

theorem umount_cases (hopen : s.handle = some n) (h : umountFs env s = (r, s')) :
    r = -1 ∧ s' = s ∨ r = 0 ∧ s' = unmounted env s n := by
  unfold umountFs at h
  split at h
  · cases h
    exact .inl ⟨rfl, rfl⟩
  · have hwrite : s.blockWrite 0 (writeBuf env s.toMetadata) = some { s with
        files := Function.update s.files n ((s.files n).write 0 (writeBuf env s.toMetadata)) } :=
      blockWrite_eq (b := 0) hopen (by decide) _
    simp only [hwrite, State.closeDisk, hopen] at h
    cases h
    exact .inr ⟨rfl, rfl⟩

end OSChallenges.FileSystem
