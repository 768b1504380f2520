import OSChallenges.FileSystem.Sessions

/-!
# Every file has its own blocks

In every session the used inodes own pairwise different blocks of the disk, all of them marked in the
bitmap, and no call on one file writes the blocks of another.
-/

namespace OSChallenges.FileSystem

open Records Words Outcomes Runs

/-- Block 0 is marked, and so are the two blocks of each used inode, which no other one has. -/
structure BlocksOwned (m : Metadata) (f : File) : Prop where
  metadata : taken m.usedBlocksBitmap 0 = true
  blocks : ∀ i, m.used i → m.InUse (m.indexAt i) ∧ m.InUse (m.dataAt f i) ∧
    m.indexAt i ≠ m.dataAt f i ∧ m.entryAt f i 1 = 0
  disjoint : ∀ i j, m.used i → m.used j → i ≠ j → ∀ b ∈ m.blocksOf f i, b ∉ m.blocksOf f j

theorem Consistent.owned {m : Metadata} {f : File} (h : Consistent m f) : BlocksOwned m f where
  metadata := h.metadata
  blocks := fun i hi =>
    ⟨h.index i hi, h.data i hi, h.apart i i hi hi, h.rest i hi 1 (by decide) (by decide)⟩
  disjoint := by
    intro i j hi hj hne b hb hb'
    rcases mem_blocksOf.mp hb with rfl | rfl
    · rcases mem_blocksOf.mp hb' with heq | heq
      · exact hne (h.index_inj i j hi hj heq)
      · exact h.apart i j hi hj heq
    · rcases mem_blocksOf.mp hb' with heq | heq
      · exact h.apart j i hj hi heq.symm
      · exact hne (h.data_inj i j hi hj heq)

variable {env : Env} {w w' : Session} {n : CString} {c : Call} {i : Fin maxFiles}

theorem Orderly.blocks_kept (h : Orderly w) (hstep : w.Step (env, c) w')
    (hopen : w.state.handle = some n) (hi : w.state.used i) (hother : ¬ Subject w.state c i) :
    ∀ b ∈ w.state.blocksOf (w.state.files n) i,
      (w'.state.files n).block b = (w.state.files n).block b := by
  have horder := h.mounted n hopen
  by_cases humount : c = .umountFs
  · subst humount
    obtain ⟨r, hcall, -⟩ := Session.step_cases hstep.2
    obtain ⟨-, heq⟩ | ⟨-, heq⟩ := umount_cases hopen (eq_of_number hcall)
    · intro b _
      rw [heq]
    · intro b hb
      have hinUse : w.state.InUse b := by
        rcases mem_blocksOf.mp hb with rfl | rfl
        · exact horder.consistent.index i hi
        · exact horder.consistent.data i hi
      obtain ⟨hpos, hlt, -⟩ := hinUse
      have hfile : (unmounted env w.state n).files n =
          (w.state.files n).write 0 (writeBuf env w.state.toMetadata) := Function.update_self ..
      rw [heq, hfile]
      exact File.write_other (by omega) (horder.consistent.size ▸ hlt) _
  · exact (h.mounted_step hopen hstep.move humount).2.1.blocks i hi hother

/-- While a disk is mounted, its files own their blocks. -/
def Session.Owned (w : Session) : Prop :=
  w.state.readyForUse = true → ∃ n, w.state.handle = some n ∧
    BlocksOwned w.state.toMetadata (w.state.files n)

/-- The blocks of every file that a call does not write or delete stay as they are. -/
def Session.Spares (w : Session) (a : Env × Call) (w' : Session) : Prop :=
  ∀ n, w.state.handle = some n → ∀ i, w.state.used i → ¬ Subject w.state a.2 i →
    ∀ b ∈ w.state.blocksOf (w.state.files n) i,
      (w'.state.files n).block b = (w.state.files n).block b

theorem block_ownership {files : CString → File} {run : List ((Env × Call) × Session)}
    (h : EachStep Session.Step (.boot files) run) :
    Always Session.Owned (.boot files) run ∧ EachStep Session.Spares (.boot files) run := by
  have horderly := always_orderly h
  constructor
  · refine horderly.mono ?_
    intro w hw hready
    rw [hw.ready] at hready
    obtain ⟨n, hopen⟩ := Option.isSome_iff_exists.mp hready
    exact ⟨n, hopen, (hw.mounted n hopen).consistent.owned⟩
  · refine (h.and horderly.eachStep).mono ?_
    intro w a w' hw n hopen i hi hother
    exact hw.2.1.blocks_kept hw.1 hopen hi hother

/-- A file is written, the disk is mounted again, and the file is deleted. -/
def writtenAndDeleted : List ((Env × Call) × Session) :=
  trail Session.step (.boot fun _ => .empty) ([.makeFs (some disk0), .mountFs (some disk0),
    .create nameA, .open nameA, .write 0 [1, 2], .umountFs, .mountFs (some disk0), .open nameA,
    .read 0 2, .close 0, .delete nameA].map fun c => (Env.plain, c))

theorem block_ownership_deleted : writtenAndDeleted.length = 11 ∧
    Always Session.Owned (.boot fun _ => .empty) writtenAndDeleted ∧
    EachStep Session.Spares (.boot fun _ => .empty) writtenAndDeleted := by
  have hallows : EachStep (fun w a _ => Session.Allows w a.1 a.2) (.boot fun _ => .empty)
      writtenAndDeleted := by
    decide +kernel
  refine ⟨by decide +kernel, block_ownership ?_⟩
  exact hallows.and (eachStep_trail ..)

end OSChallenges.FileSystem
