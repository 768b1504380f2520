import OSChallenges.FileSystem.IndexBlocks
import OSChallenges.FileSystem.Ownership
import OSChallenges.FileSystem.Effects

/-!
# What free blocks hold

`fs_delete` writes `empty`, which it has set to zeros, over the blocks of the file. But before that it has
read a whole block into an array of 1024 bytes, and what is behind the array may be `empty`. As long as it
is not, blocks that are not marked hold zeros, and a new file starts from zeros.
-/

namespace OSChallenges.FileSystem

open Records Words Outcomes Runs

def Block.zero : Block := fun _ => 0

/-- Every block that is not marked holds zeros. -/
def Clean (m : Metadata) (f : File) : Prop :=
  ∀ b, b < diskBlocks → taken m.usedBlocksBitmap b = false → f.block b = .zero

/-- The data block of whatever file is created next holds zeros. -/
def NewFilesEmpty (s : State) (n : CString) : Prop :=
  ∀ env name s', fsCreate env s name = .ok (0, s') → ∀ i, ¬ s.used i → s'.used i →
    (s'.files n).block (s'.dataAt (s'.files n) i) = .zero

/-- In a deletion that comes to the blocks, the bytes of the index block that reach `empty` are zeros. -/
def Erases (env : Env) (s : State) (n : CString) : Call → Prop
  | .delete name => ∀ i d, Closed s name i d → ∀ k, env.Overwrites k →
      ((s.files n).block (s.indexAt i)).byte k = 0
  | _ => True

variable {env : Env} {s s' : State} {n name : CString} {c : Call} {i d : Fin maxFiles}
  {bitmap : Bitmap} {w w' : Session}

/-! ### The blocks of one disk -/

/-- What is written over the blocks of a file is zero exactly if the read has put nothing else there. -/
theorem empty_eq_zero_iff (env : Env) (b : Block) :
    env.empty b = .zero ↔ ∀ k, env.Overwrites k → b.byte k = 0 := by
  have hbyte : ∀ j : Fin blockSize, env.empty b j =
      if ((array 256 u32).size : Int) ≤ env.emptyAt + j ∧ env.emptyAt + j < blockSize then
        b.byte (env.emptyAt + j).toNat
      else 0 := fun _ => rfl
  constructor
  · rintro hzero k ⟨hbehind, hin, hlow, hhigh⟩
    obtain ⟨j, hj⟩ : ∃ j : Fin blockSize, env.emptyAt + j = k :=
      ⟨⟨(k - env.emptyAt).toNat, by omega⟩, by simp only; omega⟩
    have hat := congrFun hzero j
    rwa [hbyte, hj, if_pos (by omega), Int.toNat_natCast] at hat
  · intro hall
    funext j
    rw [hbyte]
    split
    · rename_i hin
      refine hall _ ⟨by omega, by omega, by omega, ?_⟩
      have hj := j.isLt
      omega
    · rfl

theorem clean_new (hfresh : Fresh bitmap) (env : Env) :
    Clean (emptyMetadata bitmap) (madeFile env bitmap) := by
  intro b hb hfree
  have hne : b ≠ 0 := by
    rintro rfl
    have htaken : taken bitmap 0 = true := (hfresh 0).trans (by decide)
    have hclear : taken bitmap 0 = false := hfree
    rw [htaken] at hclear
    cases hclear
  exact File.write_other hne hb _

theorem Clean.store {m : Metadata} {f : File} (hclean : Clean m f) (h : Consistent m f) (env : Env) :
    Clean m (f.write 0 (writeBuf env m)) := by
  intro b hb hfree
  have hpos := pos_of_free h hfree
  rw [File.write_other (by omega) (h.size ▸ hb)]
  exact hclean b hb hfree

/-- The block that a write goes to is marked. -/
theorem taken_target {m : Metadata} {f : File} {offset : Nat} (h : Consistent m f) (hi : m.used i) :
    taken m.usedBlocksBitmap (target m f i offset) = true := by
  unfold target
  split
  · exact (h.data i hi).2.2
  · exact h.metadata

section

variable {a b : Nat} {empty : Block}

theorem deleted_index : ((deleted s n i d a b empty bitmap).files n).block a = empty := by
  unfold deleted
  simp only [Function.update_self]
  exact File.write_self ..

theorem deleted_data (hne : b ≠ a) (hb : b < (s.files n).size) :
    ((deleted s n i d a b empty bitmap).files n).block b = empty := by
  unfold deleted
  simp only [Function.update_self]
  rw [File.write_other hne (by rw [File.write_size hb]; exact hb), File.write_self]

end

theorem Clean.effect (hclean : Clean s.toMetadata (s.files n))
    (h : Consistent s.toMetadata (s.files n)) (herases : Erases env s n c)
    (heffect : Effect env s n c s') : Clean s'.toMetadata (s'.files n) := by
  cases heffect with
  | tables _ _ bitmap directory files inodes =>
    intro b hb hfree
    rw [bitmap] at hfree
    rw [files]
    exact hclean b hb hfree
  | mark name loc num bitmap reserves fails =>
    intro b hb hfree
    exact hclean b hb (reserves.free hfree)
  | create name i d a b bitmap reserves lt found =>
    intro k hk hfree
    have hne : k ≠ a := by
      rintro rfl
      rw [show (created env s n name i d k b bitmap).usedBlocksBitmap = bitmap from rfl,
        found.indexMarked] at hfree
      cases hfree
    rw [created_file, File.write_other hne (h.size ▸ hk)]
    exact hclean k hk (reserves.free hfree)
  | delete name i d bitmap closed cleared =>
    intro k hk hfree
    have hi := closed.used h
    have hempty : env.empty ((s.files n).block (s.indexAt i)) = .zero :=
      (empty_eq_zero_iff env _).mpr (herases i d closed)
    have hlta : s.indexAt i < (s.files n).size := h.size ▸ (h.index i hi).2.1
    have hltb : s.dataAt (s.files n) i < (s.files n).size := h.size ▸ (h.data i hi).2.1
    rw [hempty]
    by_cases ha : k = s.indexAt i
    · rw [ha]
      exact deleted_index
    by_cases hb : k = s.dataAt (s.files n) i
    · rw [hb]
      exact deleted_data (h.apart i i hi hi).symm hltb
    · rw [deleted_block _ (h.size ▸ hk) hltb ha hb]
      refine hclean k hk ?_
      have hfree' : taken bitmap k = false := hfree
      rwa [cleared, if_neg (not_or.mpr ⟨ha, hb⟩)] at hfree'
  | write fildes buf fd i offset b opened =>
    intro k hk hfree
    have hne : k ≠ target s.toMetadata (s.files n) i offset := by
      rintro rfl
      have hclear : taken s.usedBlocksBitmap (target s.toMetadata (s.files n) i offset) = false := hfree
      rw [taken_target h opened.used] at hclear
      cases hclear
    have hfile : (written s n fd i (target s.toMetadata (s.files n) i offset) b
      (toInt32 buf.length)).files n =
        (s.files n).write (target s.toMetadata (s.files n) i offset) b := Function.update_self ..
    rw [hfile, File.write_other hne (h.size ▸ hk)]
    exact hclean k hk hfree

/-- A deletion that writes something else over the index block leaves it on a free block. -/
theorem not_clean_of_delete (hready : s.readyForUse = true) (hopen : s.handle = some n)
    (h : Consistent s.toMetadata (s.files n)) (hclosed : Closed s name i d)
    (hempty : env.empty ((s.files n).block (s.indexAt i)) ≠ .zero) {r : Int}
    (hcall : fsDelete env s name = .ok (r, s')) : ¬ Clean s'.toMetadata (s'.files n) := by
  obtain ⟨bitmap, hcleared, heq⟩ := delete_closed env hready hopen h hclosed
  rw [heq] at hcall
  cases hcall
  intro hclean
  have hfree : taken bitmap (s.indexAt i) = false := by rw [hcleared, if_pos (.inl rfl)]
  have hzero := hclean (s.indexAt i) (h.index i (hclosed.used h)).2.1 hfree
  rw [deleted_index] at hzero
  exact hempty hzero

/-- Whatever `fs_create` takes has been free. -/
theorem Clean.newFilesEmpty (hopen : s.handle = some n) (h : Consistent s.toMetadata (s.files n))
    (hclean : Clean s.toMetadata (s.files n)) : NewFilesEmpty s n := by
  intro env name s' hcall i hunused hused
  obtain ⟨loc, num, bitmap, hreserves, ⟨hr, -⟩ | ⟨-, j, d, a, b, -, -, -, hfound, rfl⟩⟩ :=
    create_reserves hopen hcall
  · exact absurd hr (by decide)
  have hadded : Added s.toMetadata (s.files n) j d a b (created env s n name j d a b bitmap).toMetadata
      ((created env s n name j d a b bitmap).files n) :=
    hfound.added h fun q hq => (hreserves.marked q).mpr (.inl hq)
  obtain rfl : i = j := by
    by_contra hne
    have hkept : (created env s n name j d a b bitmap).inodes i = s.inodes i := hadded.inodes i hne
    rw [Metadata.used, hkept] at hused
    exact hunused hused
  have hdata : (created env s n name i d a b bitmap).toMetadata.dataAt
      ((created env s n name i d a b bitmap).files n) i = b := hadded.data
  rw [hdata, hadded.blocks b hfound.data hfound.ne.symm]
  exact hclean b hfound.data hfound.dataFree

/-! ### Sessions -/

def Session.FreeBlocksClean (w : Session) : Prop :=
  ∀ n, w.state.handle = some n →
    Clean w.state.toMetadata (w.state.files n) ∧ NewFilesEmpty w.state n

def Session.Erases (w : Session) (a : Env × Call) : Prop :=
  ∀ n, w.state.handle = some n → FileSystem.Erases a.1 w.state n a.2

theorem Session.Throughout.clean (h : w.Throughout Clean) : w.FreeBlocksClean :=
  fun n hopen => ⟨h.mounted n hopen,
    (h.mounted n hopen).newFilesEmpty hopen (h.orderly.mounted n hopen).consistent⟩

theorem Session.Throughout.clean_step {a : Env × Call} (h : w.Throughout Clean) (herases : w.Erases a)
    (hstep : w.Step a w') : w'.Throughout Clean := by
  cases hopen : w.state.handle with
  | none => exact h.idle (fun env bitmap hfresh => clean_new hfresh env) hopen hstep
  | some n =>
    refine h.working (fun env m f hcons hclean => hclean.store hcons env) hopen ?_ hstep
    exact (h.mounted n hopen).effect (h.orderly.mounted n hopen).consistent (herases n hopen)

theorem Session.Throughout.not_clean_step {a : Env × Call} (h : w.Throughout Clean)
    (herases : ¬ w.Erases a) (hstep : w.Step a w') : ¬ w'.FreeBlocksClean := by
  obtain ⟨env, c⟩ := a
  intro hclean
  obtain ⟨n, hopen, hnot⟩ : ∃ n, w.state.handle = some n ∧ ¬ FileSystem.Erases env w.state n c := by
    simpa [Session.Erases] using herases
  cases c with
  | delete name =>
    obtain ⟨i, d, hclosed, hempty⟩ : ∃ i d, Closed w.state name i d ∧
        env.empty ((w.state.files n).block (w.state.indexAt i)) ≠ .zero := by
      simpa only [FileSystem.Erases, ← empty_eq_zero_iff, not_forall, exists_prop] using hnot
    obtain ⟨r, hcall, -⟩ := Session.step_cases hstep.2
    have hframe := (h.orderly.mounted_step hopen hstep.move fun heq => by cases heq).2.1
    exact not_clean_of_delete (h.orderly.ready_of_open hopen) hopen
      (h.orderly.mounted n hopen).consistent hclosed hempty (ok_of_number hcall)
      (hclean n (hframe.handle.trans hopen)).1
  | _ => exact hnot trivial

/-- Free blocks hold zeros, and new files start from them, exactly as long as `fs_delete` writes
zeros. -/
theorem free_blocks_clean_iff {files : CString → File} {run : List ((Env × Call) × Session)}
    (h : EachStep Session.Step (.boot files) run) :
    Always Session.FreeBlocksClean (.boot files) run ↔
      EachStep (fun w a _ => w.Erases a) (.boot files) run := by
  refine always_iff_eachStep (fun _ => Session.Throughout.clean) ?_ ?_ (.boot files) h
  · intro w a w' hw herases hstep
    exact hw.clean_step herases hstep
  · intro w a w' hw herases hstep
    exact hw.not_clean_step herases hstep

theorem erases_of_ne (h : ∀ name, c ≠ .delete name) : Erases env s n c := by
  cases c with
  | delete name => exact absurd rfl (h name)
  | _ => trivial

theorem not_overwrites_plain (k : Nat) : ¬ Env.plain.Overwrites k := by
  rintro ⟨-, -, -, hhigh⟩
  have hend : Env.plain.emptyAt + blockSize = 0 := by decide
  omega

theorem erases_plain {a : Env × Call} (hplain : a.1 = .plain) (w : Session) : w.Erases a := by
  obtain ⟨env, c⟩ := a
  obtain rfl : env = .plain := hplain
  intro n _
  cases c with
  | delete name => exact fun i d _ k hk => absurd hk (not_overwrites_plain k)
  | _ => trivial

theorem free_blocks_clean_deleted : writtenAndDeleted.length = 11 ∧
    Always Session.FreeBlocksClean (.boot fun _ => .empty) writtenAndDeleted := by
  have hallows : EachStep (fun w a _ => Session.Allows w a.1 a.2) (.boot fun _ => .empty)
      writtenAndDeleted := by
    decide +kernel
  have hplain : EachStep (fun w a w' => a.1 = .plain ∧ Session.step w a = .ok w')
      (.boot fun _ => .empty) writtenAndDeleted :=
    eachStep_trail_forall fun a ha => by
      obtain ⟨c, -, rfl⟩ := List.mem_map.mp ha
      rfl
  refine ⟨by decide +kernel, ?_⟩
  rw [free_blocks_clean_iff (hallows.and (eachStep_trail ..))]
  exact hplain.mono fun w a w' hstep => erases_plain hstep.1 w

/-- `empty` lies right behind the array that the block is read into. -/
def Env.adjacent : Env :=
  { Env.plain with
    stack := fun _ => 1
    emptyAt := (array 256 u32).size }

def createdAdjacent : List ((Env × Call) × Session) :=
  trail Session.step (.boot fun _ => .empty)
    ([.makeFs (some disk0), .mountFs (some disk0), .create nameA].map fun c => (Env.adjacent, c))

/-- What was behind the array of `fs_create` comes to a free block. -/
theorem not_freeBlocksClean_adjacent : ∃ run, EachStep Session.Step (.boot fun _ => .empty) run ∧
    ¬ Always Session.FreeBlocksClean (.boot fun _ => .empty) run := by
  have hallows : EachStep (fun w a _ => Session.Allows w a.1 a.2) (.boot fun _ => .empty)
      createdAdjacent := by
    decide +kernel
  have hsteps := hallows.and (eachStep_trail ..)
  have herases : EachStep (fun w a _ => w.Erases a) (.boot fun _ => .empty) createdAdjacent := by
    have hcalls : EachStep (fun w a w' => (∀ name, a.2 ≠ .delete name) ∧ Session.step w a = .ok w')
        (.boot fun _ => .empty) createdAdjacent :=
      eachStep_trail_forall (by simp)
    exact hcalls.mono fun w a w' hstep n _ => erases_of_ne hstep.1
  have hclean : Session.Throughout Clean (last (.boot fun _ => .empty) createdAdjacent) :=
    (EachStep.always (fun w a w' hw h => hw.clean_step h.2 h.1) (.boot _) (hsteps.and herases)).last
  have hdelete : passes (fun _ => true) (Session.step (last (.boot fun _ => .empty) createdAdjacent)
      (Env.adjacent, .delete nameA)) = true := by
    decide +kernel
  obtain ⟨w', hw', -⟩ := ok_of_passes hdelete
  have hstep : Session.Step (last (.boot fun _ => .empty) createdAdjacent)
      (Env.adjacent, .delete nameA) w' := ⟨trivial, hw'⟩
  refine ⟨_, hsteps.concat hstep, fun halways => ?_⟩
  have hlast := halways.last
  rw [last_concat] at hlast
  refine hclean.not_clean_step (fun herases => ?_) hstep hlast
  have hleads : (((last (.boot fun _ => .empty) createdAdjacent).state.directory
      ⟨0, by decide⟩).inodeNum).toNat = 0 := by
    decide +kernel
  have hempty := herases disk0 (by decide +kernel) ⟨0, by decide⟩ ⟨0, by decide⟩
    ⟨by decide +kernel, hleads, by decide +kernel⟩
  have hbyte : (((last (.boot fun _ => .empty) createdAdjacent).state.files disk0).block
      ((last (.boot fun _ => .empty) createdAdjacent).state.indexAt ⟨0, by decide⟩)).byte 1024 ≠ 0 := by
    decide +kernel
  exact hbyte (hempty 1024 (by decide))

end OSChallenges.FileSystem
