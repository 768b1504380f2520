import OSChallenges.FileSystem.Sessions

/-!
# Mounting and unmounting

`umount_fs` followed by `mount_fs` brings every table back. A `mount_fs` or `make_fs` while a disk is
mounted fails, but only after it has cleared the tables in memory, and `make_fs` after it has made the
disk of its name anew.
-/

namespace OSChallenges.FileSystem

open Records Words Outcomes Runs

/-- A read of any block gives the same on both disks. -/
def SameBlock (f g : File) (b : Nat) : Prop := ∀ buf, g.read b buf = f.read b buf

theorem SameBlock.refl (f : File) (b : Nat) : SameBlock f f b := fun _ => rfl

theorem sameBlock_write {f : File} {b : Nat} (hb : 1 ≤ b) (buf : Block) :
    SameBlock f (f.write 0 buf) b := by
  intro old
  have hlt : b < max f.size (0 + 1) ↔ b < f.size := by omega
  show (if b < max f.size (0 + 1) then (if b = 0 then buf else if b < f.size then f.block b else _)
    else old) = if b < f.size then f.block b else old
  by_cases hin : b < f.size
  · rw [if_pos (hlt.mpr hin), if_neg (by omega), if_pos hin, if_pos hin]
  · rw [if_neg (fun h => hin (hlt.mp h)), if_neg hin]

variable {env env' : Env} {s s' s'' : State} {n : CString} {diskName : Option CString}

/-! ### Coming back -/

/-- What is as before after a disk has been unmounted and mounted again. -/
structure Remounted (s s'' : State) (n : CString) : Prop where
  metadata : s''.toMetadata = s.toMetadata
  blocks : ∀ b, 1 ≤ b → b < diskBlocks → SameBlock (s.files n) (s''.files n) b
  closed : ∀ fd, (s''.fds fd).isUsed = false
  ready : s''.readyForUse = true

theorem remounted (hopen : s.handle = some n) (humount : umountFs env s = (0, s'))
    (hmount : mountFs env' s' (some n) = (0, s'')) : Remounted s s'' n := by
  obtain ⟨hfails, -⟩ | ⟨-, rfl⟩ := umount_cases hopen humount
  · exact absurd hfails (by decide)
  obtain ⟨hfails, -⟩ | ⟨-, x, hx, -, hstate⟩ := mount_cases rfl hmount
  · exact absurd hfails (by decide)
  cases hx
  have hfile : (unmounted env s n).files n = (s.files n).write 0 (writeBuf env s.toMetadata) :=
    Function.update_self ..
  have hsize : 0 < ((unmounted env s n).files n).size := by
    rw [hfile]
    exact Nat.lt_of_lt_of_le Nat.zero_lt_one (Nat.le_max_right ..)
  rw [hstate hsize]
  refine ⟨?_, ?_, fun _ => rfl, rfl⟩
  · show stored ((unmounted env s n).files n) = s.toMetadata
    rw [hfile, stored_write]
  · intro b hb _
    show SameBlock (s.files n) ((unmounted env s n).files n) b
    rw [hfile]
    exact sameBlock_write hb _

/-! ### Failing while a disk is open -/

/-- The tables as `mount_fs` leaves them when the disk cannot be opened. -/
def cleared (s : State) : State :=
  { s with
    inodes := fun _ => .zero
    directory := fun _ => .zero
    usedBlocksBitmap := fun _ => 0 }

theorem mount_open (hopen : s.handle = some n) : mountFs env s diskName = (-1, cleared s) := by
  unfold mountFs
  cases diskName with
  | none => rfl
  | some x =>
    simp only [State.openDisk, hopen]
    exact congrArg (Prod.mk _) (by unfold cleared; rw [hopen])

/-- The state as `make_fs` leaves it when the disk cannot be opened. -/
def remade (env : Env) (s : State) (diskName : Option CString) (bitmap : Bitmap) : State :=
  (State.makeDisk env { s with toMetadata := emptyMetadata bitmap } diskName).2

theorem make_open (env : Env) (diskName : Option CString) (hopen : s.handle = some n) :
    ∃ bitmap, Fresh bitmap ∧ makeFs env s diskName = .ok (-1, remade env s diskName bitmap) := by
  obtain ⟨bitmap, hwrite, hfresh⟩ := exists_fresh
  refine ⟨bitmap, hfresh, ?_⟩
  unfold makeFs remade
  rw [hwrite, ok_bind]
  cases diskName with
  | none => rfl
  | some x =>
    unfold State.makeDisk
    by_cases hcreates : env.creates
    · simp only [if_pos hcreates, State.openDisk, hopen]
      split
      · rfl
      · rfl
    · simp only [if_neg hcreates, Bool.not_false, if_true]
      rfl

theorem handle_of_make (h : makeFs env s diskName = .ok (0, s')) : s.handle = none := by
  cases hopen : s.handle with
  | none => rfl
  | some n =>
    obtain ⟨bitmap, -, hfails⟩ := make_open env diskName hopen
    rw [hfails] at h
    cases h

/-! ### Unmounting and mounting again -/

theorem mounted_fresh (hmake : makeFs env s (some n) = .ok (0, s'))
    (hmount : mountFs env' s' (some n) = (0, s'')) : s''.inodes = (fun _ => .zero) ∧
      s''.directory = (fun _ => .zero) ∧ Fresh s''.usedBlocksBitmap := by
  have hclosed := handle_of_make hmake
  obtain ⟨hkept, -, hfails | ⟨-, x, bitmap, hx, -, hfresh, hfile⟩⟩ := make_cases hclosed hmake
  · exact absurd hfails (by decide)
  cases hx
  obtain ⟨hfails, -⟩ | ⟨-, x, hx, -, hstate⟩ := mount_cases (hkept.handle.trans hclosed) hmount
  · exact absurd hfails (by decide)
  cases hx
  have hsize : 0 < (s'.files n).size := by
    rw [hfile]
    exact Nat.lt_of_lt_of_le Nat.zero_lt_one (Nat.le_max_right ..)
  rw [hstate hsize, hfile, madeFile, stored_write]
  exact ⟨rfl, rfl, hfresh⟩

/-- Unmounting and mounting a disk again changes nothing but the descriptors, and a new disk is
mounted with empty tables. -/
theorem umount_then_mount :
    (∀ env env' s s' s'' n, s.handle = some n → umountFs env s = (0, s') →
      mountFs env' s' (some n) = (0, s'') → Remounted s s'' n) ∧
    ∀ env env' s s' s'' n, makeFs env s (some n) = .ok (0, s') →
      mountFs env' s' (some n) = (0, s'') → s''.inodes = (fun _ => .zero) ∧
        s''.directory = (fun _ => .zero) ∧ Fresh s''.usedBlocksBitmap :=
  ⟨fun _ _ _ _ _ _ => remounted, fun _ _ _ _ _ _ => mounted_fresh⟩

/-- The disk with one file. -/
def oneFileState : State := (last (.boot fun _ => .empty) oneFile).state

theorem umount_then_mount_oneFile : ∃ s' s'', umountFs .plain oneFileState = (0, s') ∧
    mountFs .plain s' (some disk0) = (0, s'') ∧ Remounted oneFileState s'' disk0 := by
  have humount : (umountFs .plain oneFileState).1 = 0 := by decide +kernel
  have hmount : (mountFs .plain (umountFs .plain oneFileState).2 (some disk0)).1 = 0 := by
    decide +kernel
  have hopen : oneFileState.handle = some disk0 := by decide +kernel
  exact ⟨_, _, eq_of_fst humount, eq_of_fst hmount, umount_then_mount.1 .plain .plain oneFileState _ _
    disk0 hopen (eq_of_fst humount) (eq_of_fst hmount)⟩

/-! ### Failing -/

/-- What a call has left as it was. -/
structure Intact (s s' : State) (n : CString) : Prop where
  metadata : s'.toMetadata = s.toMetadata
  fds : s'.fds = s.fds
  ready : s'.readyForUse = s.readyForUse
  blocks : ∀ b < diskBlocks, SameBlock (s.files n) (s'.files n) b

theorem intact_cleared : Intact s (cleared s) n ↔ s.inodes = (fun _ => .zero) ∧
    s.directory = (fun _ => .zero) ∧ s.usedBlocksBitmap = fun _ => 0 := by
  constructor
  · intro h
    have hm := h.metadata
    exact ⟨(congrArg Metadata.inodes hm).symm, (congrArg Metadata.directory hm).symm,
      (congrArg Metadata.usedBlocksBitmap hm).symm⟩
  · rintro ⟨hinodes, hdirectory, hbitmap⟩
    refine ⟨?_, rfl, rfl, fun b _ => .refl _ b⟩
    unfold cleared
    simp only [← hinodes, ← hdirectory, ← hbitmap]

theorem remade_file (env : Env) (s : State) (n : CString) (diskName : Option CString)
    (bitmap : Bitmap) : (remade env s diskName bitmap).files n =
    if diskName = some n ∧ env.creates = true then .zeros (min env.written diskBlocks)
    else s.files n := by
  unfold remade State.makeDisk
  cases diskName with
  | none => rfl
  | some x =>
    by_cases hcreates : env.creates
    · simp only [if_pos hcreates]
      by_cases hx : x = n
      · subst hx
        rw [Function.update_self, if_pos ⟨rfl, hcreates⟩]
      · rw [Function.update_of_ne (fun h => hx h.symm), if_neg (fun h => hx (Option.some.inj h.1))]
    · simp only [if_neg hcreates]
      rw [if_neg (fun h => hcreates h.2)]

theorem remade_tables (env : Env) (s : State) (diskName : Option CString) (bitmap : Bitmap) :
    (remade env s diskName bitmap).toMetadata = emptyMetadata bitmap ∧
      (remade env s diskName bitmap).fds = s.fds ∧
      (remade env s diskName bitmap).readyForUse = s.readyForUse := by
  unfold remade State.makeDisk
  cases diskName with
  | none => exact ⟨rfl, rfl, rfl⟩
  | some x =>
    by_cases hcreates : env.creates
    · simp only [if_pos hcreates, and_self]
    · simp only [if_neg hcreates, and_self]

/-- The tables are those of a new disk. -/
def NewTables (m : Metadata) : Prop :=
  m = emptyMetadata m.usedBlocksBitmap ∧ Fresh m.usedBlocksBitmap

theorem intact_remade {bitmap : Bitmap} (hfresh : Fresh bitmap) :
    Intact s (remade env s diskName bitmap) n ↔ NewTables s.toMetadata ∧
      (diskName = some n → env.creates = true → ∀ b < diskBlocks,
        SameBlock (s.files n) (.zeros (min env.written diskBlocks)) b) := by
  obtain ⟨htables, hfds, hready⟩ := remade_tables env s diskName bitmap
  have hfile := remade_file env s n diskName bitmap
  constructor
  · intro h
    have hmeta : emptyMetadata bitmap = s.toMetadata := htables.symm.trans h.metadata
    have hbitmap : bitmap = s.usedBlocksBitmap := congrArg Metadata.usedBlocksBitmap hmeta
    refine ⟨⟨?_, ?_⟩, ?_⟩
    · rw [← hbitmap, hmeta]
    · rw [← hbitmap]
      exact hfresh
    · intro hname hcreates
      rw [if_pos ⟨hname, hcreates⟩] at hfile
      rw [← hfile]
      exact h.blocks
  · rintro ⟨⟨hmeta, hbits⟩, hblocks⟩
    have hbitmap : bitmap = s.usedBlocksBitmap :=
      eq_of_taken fun q => (hfresh q).trans (hbits q).symm
    refine ⟨?_, hfds, hready, ?_⟩
    · rw [htables, hbitmap]
      exact hmeta.symm
    · intro b hb
      rw [hfile]
      split
      · rename_i hboth
        exact hblocks hboth.1 hboth.2 b hb
      · exact .refl _ b

/-- While a disk is open, both calls return -1. The mounted file system is intact after `mount_fs`
exactly if its tables were all zero, and after `make_fs` exactly if its tables were those of a new
disk and the call did not change the blocks of its file. -/
theorem failed_call_intact_iff (env : Env) (diskName : Option CString) (hopen : s.handle = some n) :
    ((mountFs env s diskName).1 = -1 ∧ (Intact s (mountFs env s diskName).2 n ↔
      s.inodes = (fun _ => .zero) ∧ s.directory = (fun _ => .zero) ∧
        s.usedBlocksBitmap = fun _ => 0)) ∧
    ∃ s', makeFs env s diskName = .ok (-1, s') ∧ (Intact s s' n ↔ NewTables s.toMetadata ∧
      (diskName = some n → env.creates = true → ∀ b < diskBlocks,
        SameBlock (s.files n) (.zeros (min env.written diskBlocks)) b)) := by
  constructor
  · rw [mount_open hopen]
    exact ⟨rfl, intact_cleared⟩
  · obtain ⟨bitmap, hfresh, hmake⟩ := make_open env diskName hopen
    exact ⟨_, hmake, intact_remade hfresh⟩

theorem failed_call_intact_iff_oneFile :
    ((mountFs .plain oneFileState (some nameA)).1 = -1 ∧
      (Intact oneFileState (mountFs .plain oneFileState (some nameA)).2 disk0 ↔
        oneFileState.inodes = (fun _ => .zero) ∧ oneFileState.directory = (fun _ => .zero) ∧
          oneFileState.usedBlocksBitmap = fun _ => 0)) ∧
    ∃ s', makeFs .plain oneFileState (some nameA) = .ok (-1, s') ∧
      (Intact oneFileState s' disk0 ↔ NewTables oneFileState.toMetadata ∧
        (some nameA = some disk0 → Env.plain.creates = true → ∀ b < diskBlocks,
          SameBlock (oneFileState.files disk0) (.zeros (min Env.plain.written diskBlocks)) b)) :=
  failed_call_intact_iff .plain (some nameA) (by decide +kernel)

/-- A `mount_fs` of another disk fails and loses the file. -/
theorem mount_clears_tables : EachStep Session.Step (.boot fun _ => .empty) oneFile ∧
    oneFileState.readyForUse = true ∧ (mountFs .plain oneFileState (some nameA)).1 = -1 ∧
    ¬ Intact oneFileState (mountFs .plain oneFileState (some nameA)).2 disk0 := by
  have hallows : EachStep (fun w a _ => Session.Allows w a.1 a.2) (.boot fun _ => .empty) oneFile := by
    decide +kernel
  refine ⟨hallows.and (eachStep_trail ..), by decide +kernel, by decide +kernel, ?_⟩
  intro h
  have hbefore : (oneFileState.inodes ⟨0, by decide⟩).isUsed = 1 := by decide +kernel
  have hafter : ((mountFs .plain oneFileState (some nameA)).2.inodes ⟨0, by decide⟩).isUsed = 0 := by
    decide +kernel
  rw [h.metadata, hbefore] at hafter
  exact absurd hafter (by decide)

end OSChallenges.FileSystem
