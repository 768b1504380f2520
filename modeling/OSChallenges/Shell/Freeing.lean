import Mathlib.Data.Finset.Erase
import Mathlib.Data.Finset.Range
import OSChallenges.Shell.Endings
import OSChallenges.Shell.Parsing
import OSChallenges.Shell.Steps

/-!
# What `pipeline_free` gives back

`pipeline_free` goes over the list that `pipeline_build` has returned and frees what its pointers point
to. The model keeps the set of the blocks that are allocated: to free a block that is not in it, or to
read a pointer from one, is a fault, and so is a pointer that nobody has assigned.

The blocks of a command lie side by side, so no block is freed twice. A buffer that has stayed empty has
been replaced by a null pointer in the list, and is lost.
-/

namespace OSChallenges.Shell

open Outcomes Words

/-- Why `pipeline_free` does not come to its end. -/
inductive FreeFault
  /-- A pointer is freed that nobody has assigned. -/
  | wildPointer
  /-- A block is freed or read that is not allocated. -/
  | notAllocated
  /-- `command_args` is read at `MAX_ARGV_LENGTH`. -/
  | outOfBounds
  /-- A character has been stored behind the end of its buffer, where `free` may look for its own data. -/
  | corrupted
  deriving DecidableEq, Repr

/-- What `malloc` has returned to `newCommand` along a line, one block for each bar. -/
def commandBlocks (inSize : Int) : List UInt8 → Parser → List Nat
  | [], _ => []
  | c :: rest, s =>
    if c = newline then []
    else
      match s.turn inSize c with
      | .ok (true, s') =>
        if c = bar then s.allocateRedirects.malloc.1 :: commandBlocks inSize rest s'
        else commandBlocks inSize rest s'
      | _ => []

/-- The block of `pipe`. -/
def pipelineBlock : Nat := 0

/-- The block of `headCommand`. -/
def headBlock : Nat := 1

/-- The blocks of the commands that the parser makes of a line. -/
def blocksOf (heap : Heap) (commandLine : List UInt8) : List Nat :=
  headBlock :: commandBlocks (toInt32 commandLine.length) commandLine (Parser.start heap)

/-- A member of the struct in a block is read or written. -/
def access (live : Finset Nat) (b : Nat) : Except FreeFault Unit :=
  if b ∈ live then .ok () else .error .notAllocated

/-- `free`, which does nothing to a null pointer. -/
def free (live : Finset Nat) : Pointer → Except FreeFault (Finset Nat)
  | .garbage => .error .wildPointer
  | .null => .ok live
  | .block b => if b ∈ live then .ok (live.erase b) else .error .notAllocated

/-- The inner loop from the argument `i` on, with so many places left in `command_args`. -/
def freeArgs (block : Nat) (command : PipelineCommand) (i : Nat) :
    Nat → Finset Nat → Except FreeFault (Finset Nat)
  | 0, _ => .error .outOfBounds
  | room + 1, live => do
    access live block
    match command.commandArgs i with
    | .null => return live
    | p =>
      let live ← free live p
      freeArgs block command (i + 1) room live

/-- One turn of the outer loop. -/
def freeCommand (live : Finset Nat) (block : Nat) (command : PipelineCommand) :
    Except FreeFault (Finset Nat) := do
  let live ← freeArgs block command 0 maxArgvLength live
  access live block
  let live ← free live command.redirectInPath
  access live block
  let live ← free live command.redirectOutPath
  access live pipelineBlock
  access live block
  free live (.block block)

/-- The outer loop over the commands, each with its block. -/
def freeCommands : List (Nat × PipelineCommand) → Finset Nat → Except FreeFault (Finset Nat)
  | [], live => do
    access live pipelineBlock
    return live
  | (block, command) :: rest, live => do
    access live pipelineBlock
    let live ← freeCommand live block command
    freeCommands rest live

def pipelineFree (overflow : Bool) (commands : List (Nat × PipelineCommand)) (live : Finset Nat) :
    Except FreeFault (Finset Nat) := do
  if overflow then .error .corrupted
  let live ← freeCommands commands live
  free live (.block pipelineBlock)

/-- What `pipeline_free` leaves of the pipeline that `pipeline_build` has returned. -/
def Parser.freed (s : Parser) (blocks : List Nat) : Except FreeFault (Finset Nat) :=
  pipelineFree s.overflow (blocks.zip s.pipeline.commands) (Finset.range s.allocated)

variable {s s' : Parser} {b block pos k room first behind : Nat} {p : Pointer} {live : Finset Nat}
  {command : PipelineCommand} {commands : List (Nat × PipelineCommand)} {c : UInt8}

/-! ### Freeing -/

theorem access_of_mem (h : b ∈ live) : access live b = .ok () := if_pos h

theorem free_block (h : b ∈ live) : free live (.block b) = .ok (live.erase b) := if_pos h

/-- The pointer to a buffer at the end of its command, where it is null if nothing is in the buffer. -/
def Closed (s : Parser) (b : Nat) (p : Pointer) : Prop :=
  p = if s.heap b 0 = ampersand then .null else .block b

theorem Closed.free (h : Closed s b p) (hb : b ∈ live) : ∃ live', free live p = .ok live' ∧
    ∀ x, x ∈ live' ↔ x ∈ live ∧ (x = b → s.heap b 0 = ampersand) := by
  rw [Closed] at h
  split at h
  · rename_i hempty
    subst h
    exact ⟨live, rfl, fun x => ⟨fun hx => ⟨hx, fun _ => hempty⟩, And.left⟩⟩
  · rename_i hfilled
    subst h
    refine ⟨live.erase b, free_block hb, fun x => ?_⟩
    rw [Finset.mem_erase]
    constructor
    · rintro ⟨hne, hx⟩
      exact ⟨hx, fun heq => absurd heq hne⟩
    · rintro ⟨hx, hempty⟩
      exact ⟨mt hempty hfilled, hx⟩

/-- A command that has been finished: `pos` is the place of the last buffer that it has got, and `k` that
of the null pointer. -/
structure Finished (s : Parser) (block pos k : Nat) (command : PipelineCommand) : Prop where
  filled : ∀ i, i < pos → s.heap (argBlock block i) 0 ≠ ampersand
  count : (if s.heap (argBlock block pos) 0 = ampersand then pos else pos + 1) = k
  lt : k < maxArgvLength
  args : ∀ i, i < k → command.commandArgs i = .block (argBlock block i)
  null : command.commandArgs k = .null
  redirectIn : Closed s (block + 2) command.redirectInPath
  redirectOut : Closed s (block + 3) command.redirectOutPath

/-- Only the last buffer of the arguments can be empty. -/
theorem Finished.empty_iff (h : Finished s block pos k command) {i : Nat} (hi : i ≤ pos) :
    s.heap (argBlock block i) 0 = ampersand ↔ k ≤ i := by
  have hcount := h.count
  obtain hlt | rfl := Nat.lt_or_eq_of_le hi
  · refine iff_of_false (h.filled i hlt) ?_
    split at hcount
    · omega
    · omega
  · split at hcount
    · rename_i hempty
      exact iff_of_true hempty (Nat.le_of_eq hcount.symm)
    · rename_i hfilled
      refine iff_of_false hfilled ?_
      omega

theorem freeArgs_of_null (hargs : ∀ j, j < k → command.commandArgs j = .block (argBlock block j))
    (hnull : command.commandArgs k = .null) {i : Nat} (hi : i ≤ k) (hroom : k < i + room)
    (hblock : block ∈ live) (hlive : ∀ j, i ≤ j → j < k → argBlock block j ∈ live) :
    ∃ live', freeArgs block command i room live = .ok live' ∧
      ∀ x, x ∈ live' ↔ x ∈ live ∧ ∀ j, i ≤ j → j < k → x ≠ argBlock block j := by
  induction room generalizing i live with
  | zero => exact absurd hroom (Nat.not_lt.mpr hi)
  | succ room ih =>
    rw [freeArgs, access_of_mem hblock, ok_bind]
    obtain hlt | rfl := Nat.lt_or_eq_of_le hi
    · have hmem := hlive i (Nat.le_refl i) hlt
      have hother : ∀ j, i + 1 ≤ j → j < k → argBlock block j ∈ live.erase (argBlock block i) :=
        fun j hij hj => Finset.mem_erase.mpr
          ⟨argBlock_ne (Nat.ne_of_gt hij), hlive j (Nat.le_of_succ_le hij) hj⟩
      have hstruct : block ∈ live.erase (argBlock block i) :=
        Finset.mem_erase.mpr ⟨Nat.ne_of_lt (argBlock_path block i).1, hblock⟩
      obtain ⟨live', hfree, hmem'⟩ := ih hlt (by omega) hstruct hother
      refine ⟨live', ?_, fun x => ?_⟩
      · rw [hargs i hlt]
        show (free live (.block (argBlock block i)) >>= _) = _
        rw [free_block hmem, ok_bind, hfree]
      · rw [hmem', Finset.mem_erase]
        constructor
        · rintro ⟨⟨hne, hx⟩, hrest⟩
          refine ⟨hx, fun j hij hj => ?_⟩
          obtain hbehind | rfl := Nat.lt_or_eq_of_le hij
          · exact hrest j hbehind hj
          · exact hne
        · rintro ⟨hx, hall⟩
          exact ⟨⟨hall i (Nat.le_refl i) hlt, hx⟩, fun j hij => hall j (Nat.le_of_succ_le hij)⟩
    · rw [hnull]
      refine ⟨live, rfl, fun x => ⟨fun hx => ⟨hx, fun j hij hj => ?_⟩, And.left⟩⟩
      exact absurd hij (Nat.not_le.mpr hj)

theorem block_cases {x : Nat} (hle : block ≤ x) (hlt : x < block + 4 + pos) :
    x = block ∨ (∃ i, i ≤ pos ∧ x = argBlock block i) ∨ x = block + 2 ∨ x = block + 3 := by
  by_cases hlow : x < block + 4
  · obtain rfl | hfirst := Nat.eq_or_lt_of_le hle
    · exact .inl rfl
    · by_cases harg : x = block + 1
      · exact .inr (.inl ⟨0, Nat.zero_le pos, harg⟩)
      · right
        right
        omega
  · refine .inr (.inl ⟨x - (block + 4) + 1, by omega, ?_⟩)
    show x = block + 4 + (x - (block + 4))
    omega

/-- Of the blocks of a command the struct is freed, and every buffer in which there is something. -/
theorem Finished.free (h : Finished s block pos k command) (hpipeline : pipelineBlock ∈ live)
    (hfirst : pipelineBlock < block) (hlive : ∀ x, block ≤ x → x < block + 4 + pos → x ∈ live) :
    ∃ live', freeCommand live block command = .ok live' ∧ ∀ x, x ∈ live' ↔ x ∈ live ∧
      (block ≤ x → x < block + 4 + pos → x ≠ block ∧ s.heap x 0 = ampersand) := by
  have hk : k ≤ pos + 1 := by
    have hcount := h.count
    split at hcount
    · omega
    · omega
  have harg : ∀ i, i ≤ pos → block < argBlock block i ∧ argBlock block i < block + 4 + pos :=
    fun i hi => ⟨(argBlock_path block i).1, argBlock_lt hi⟩
  have hpath := argBlock_path block
  obtain ⟨live₁, hargs, hmem₁⟩ := freeArgs_of_null h.args h.null (Nat.zero_le k)
    (by rw [Nat.zero_add]; exact h.lt) (hlive block (Nat.le_refl block) (by omega))
    fun j _ hj => hlive _ (Nat.le_of_lt (harg j (by omega)).1) (harg j (by omega)).2
  have hstruct : block ∈ live₁ :=
    (hmem₁ block).mpr ⟨hlive block (Nat.le_refl block) (by omega), fun j _ _ => Nat.ne_of_lt (hpath j).1⟩
  have hin : block + 2 ∈ live₁ :=
    (hmem₁ _).mpr ⟨hlive _ (by omega) (by omega), fun j _ _ => (hpath j).2.1.symm⟩
  have hout : block + 3 ∈ live₁ :=
    (hmem₁ _).mpr ⟨hlive _ (by omega) (by omega), fun j _ _ => (hpath j).2.2.symm⟩
  have hpipe : pipelineBlock ∈ live₁ :=
    (hmem₁ _).mpr ⟨hpipeline, fun j _ _ => Nat.ne_of_lt (hfirst.trans (hpath j).1)⟩
  obtain ⟨live₂, hredirectIn, hmem₂⟩ := h.redirectIn.free hin
  obtain ⟨live₃, hredirectOut, hmem₃⟩ := h.redirectOut.free
    ((hmem₂ _).mpr ⟨hout, fun heq => absurd heq (by omega)⟩)
  have hstruct₂ : block ∈ live₂ := (hmem₂ _).mpr ⟨hstruct, fun heq => absurd heq (by omega)⟩
  have hstruct₃ : block ∈ live₃ := (hmem₃ _).mpr ⟨hstruct₂, fun heq => absurd heq (by omega)⟩
  have hpipe₃ : pipelineBlock ∈ live₃ :=
    (hmem₃ _).mpr ⟨(hmem₂ _).mpr ⟨hpipe, fun heq => absurd heq (by omega)⟩,
      fun heq => absurd heq (by omega)⟩
  refine ⟨live₃.erase block, ?_, fun x => ?_⟩
  · rw [freeCommand, hargs, ok_bind, access_of_mem hstruct, ok_bind, hredirectIn, ok_bind,
      access_of_mem hstruct₂, ok_bind, hredirectOut, ok_bind, access_of_mem hpipe₃, ok_bind,
      access_of_mem hstruct₃, ok_bind, free_block hstruct₃]
  rw [Finset.mem_erase, hmem₃, hmem₂, hmem₁]
  constructor
  · rintro ⟨hne, ⟨⟨hx, hnot⟩, hin⟩, hout⟩
    refine ⟨hx, fun hle hlt => ⟨hne, ?_⟩⟩
    obtain rfl | ⟨i, hi, rfl⟩ | rfl | rfl := block_cases hle hlt
    · exact absurd rfl hne
    · exact (h.empty_iff hi).mpr (Nat.not_lt.mp fun hki => hnot i (Nat.zero_le i) hki rfl)
    · exact hin rfl
    · exact hout rfl
  · rintro ⟨hx, hrest⟩
    refine ⟨?_, ⟨⟨hx, fun j _ hj heq => ?_⟩, fun heq => ?_⟩, fun heq => ?_⟩
    · rintro rfl
      exact (hrest (Nat.le_refl _) (by omega)).1 rfl
    · subst heq
      have hj' : j ≤ pos := by omega
      obtain ⟨-, hempty⟩ := hrest (Nat.le_of_lt (harg j hj').1) (harg j hj').2
      exact absurd ((h.empty_iff hj').mp hempty) (Nat.not_le.mpr hj)
    · subst heq
      exact (hrest (by omega) (by omega)).2
    · subst heq
      exact (hrest (by omega) (by omega)).2

/-! ### The list of the commands -/

/-- Finished commands side by side, from one block on and up to another. -/
inductive Laid (s : Parser) : Nat → List (Nat × PipelineCommand) → Nat → Prop
  | nil (first : Nat) : Laid s first [] first
  | cons {block pos k behind : Nat} {command : PipelineCommand} {rest : List (Nat × PipelineCommand)}
      (head : Finished s block pos k command) (tail : Laid s (block + 4 + pos) rest behind) :
      Laid s block ((block, command) :: rest) behind

theorem Laid.le (h : Laid s first commands behind) : first ≤ behind := by
  induction h with
  | nil first => exact Nat.le_refl first
  | cons head tail ih => omega

theorem Laid.concat (h : Laid s first commands block) (hlast : Finished s block pos k command) :
    Laid s first (commands ++ [(block, command)]) (block + 4 + pos) := by
  induction h with
  | nil first => exact .cons hlast (.nil _)
  | cons head tail ih => exact .cons head (ih hlast)

theorem Laid.le_of_mem (h : Laid s first commands behind) :
    ∀ b ∈ commands.map Prod.fst, first ≤ b := by
  induction h with
  | nil first => exact fun b hb => absurd hb List.not_mem_nil
  | cons head tail ih =>
    rw [List.map_cons, List.forall_mem_cons]
    refine ⟨Nat.le_refl _, fun b hb => ?_⟩
    have hle := ih b hb
    omega

theorem Finished.keep (h : Finished s block pos k command)
    (hfirst : ∀ b, b < block + 4 + pos → s'.heap b 0 = s.heap b 0) : Finished s' block pos k command where
  filled := fun i hi => by
    rw [hfirst _ (argBlock_lt (Nat.le_of_lt hi))]
    exact h.filled i hi
  count := by
    rw [hfirst _ (argBlock_lt (Nat.le_refl pos))]
    exact h.count
  lt := h.lt
  args := h.args
  null := h.null
  redirectIn := by
    rw [Closed, hfirst _ (by omega)]
    exact h.redirectIn
  redirectOut := by
    rw [Closed, hfirst _ (by omega)]
    exact h.redirectOut

theorem Laid.keep (h : Laid s first commands behind)
    (hfirst : ∀ b, b < behind → s'.heap b 0 = s.heap b 0) : Laid s' first commands behind := by
  induction h with
  | nil first => exact .nil first
  | cons head tail ih =>
    exact .cons (head.keep fun b hb => hfirst b (Nat.lt_of_lt_of_le hb tail.le)) (ih hfirst)

/-- The outer loop frees the structs of the commands, and of their buffers those with something in
them. -/
theorem Laid.free (h : Laid s first commands behind) (hpipeline : pipelineBlock ∈ live)
    (hfirst : pipelineBlock < first) (hlive : ∀ x, first ≤ x → x < behind → x ∈ live) :
    ∃ live', freeCommands commands live = .ok live' ∧ ∀ x, x ∈ live' ↔ x ∈ live ∧
      (first ≤ x → x < behind → x ∉ commands.map Prod.fst ∧ s.heap x 0 = ampersand) := by
  induction h generalizing live with
  | nil first =>
    refine ⟨live, ?_, fun x => ⟨fun hx => ⟨hx, fun hle hlt => ?_⟩, And.left⟩⟩
    · rw [freeCommands, access_of_mem hpipeline]
      rfl
    · exact absurd hle (Nat.not_le.mpr hlt)
  | @cons block pos k behind command rest head tail ih =>
    have hle := tail.le
    obtain ⟨live₁, hfree, hmem₁⟩ := head.free hpipeline hfirst
      fun x hx hlt => hlive x hx (Nat.lt_of_lt_of_le hlt hle)
    have hpipeline₁ : pipelineBlock ∈ live₁ :=
      (hmem₁ _).mpr ⟨hpipeline, fun hbehind => absurd hfirst (Nat.not_lt.mpr hbehind)⟩
    have hlive₁ : ∀ x, block + 4 + pos ≤ x → x < behind → x ∈ live₁ := fun x hx hlt =>
      (hmem₁ x).mpr ⟨hlive x (by omega) hlt, fun _ hbefore => absurd hx (Nat.not_le.mpr hbefore)⟩
    obtain ⟨live₂, hrest, hmem₂⟩ := ih hpipeline₁ (by omega) hlive₁
    refine ⟨live₂, ?_, fun x => ?_⟩
    · rw [freeCommands, access_of_mem hpipeline, ok_bind, hfree, ok_bind, hrest]
    have hbounds : ∀ y ∈ rest.map Prod.fst, block + 4 + pos ≤ y := tail.le_of_mem
    rw [hmem₂, hmem₁, List.map_cons, List.mem_cons, not_or]
    constructor
    · rintro ⟨⟨hx, hhead⟩, htail⟩
      refine ⟨hx, fun hlow hhigh => ?_⟩
      obtain hown | hother := Nat.lt_or_ge x (block + 4 + pos)
      · obtain ⟨hne, hempty⟩ := hhead hlow hown
        exact ⟨⟨hne, fun hmem => absurd (hbounds x hmem) (Nat.not_le.mpr hown)⟩, hempty⟩
      · obtain ⟨hnot, hempty⟩ := htail hother hhigh
        exact ⟨⟨by omega, hnot⟩, hempty⟩
    · rintro ⟨hx, hall⟩
      refine ⟨⟨hx, fun hlow hown => ?_⟩, fun hother hhigh => ?_⟩
      · obtain ⟨⟨hne, -⟩, hempty⟩ := hall hlow (Nat.lt_of_lt_of_le hown hle)
        exact ⟨hne, hempty⟩
      · obtain ⟨⟨-, hnot⟩, hempty⟩ := hall (by omega) hhigh
        exact ⟨hnot, hempty⟩

/-! ### The parser lays its blocks -/

/-- The commands before the current one lie side by side up to its block, and it has got the blocks
behind. -/
structure Placed (s : Parser) (blocks : List Nat) (block : Nat) : Prop where
  length : blocks.length = s.before.length
  before : Laid s headBlock (blocks.zip s.before) block
  filled : ∀ i, i < s.commandArgPos → s.heap (argBlock block i) 0 ≠ ampersand
  args : ∀ i, i ≤ s.commandArgPos → s.currentCommand.commandArgs i = .block (argBlock block i)
  unassigned : s.mallocCheck = true → s.currentCommand.redirectInPath = .garbage ∧
    s.commandArgPos = 0 ∧ s.allocated = block + 2
  assigned : s.mallocCheck = false → s.currentCommand.redirectInPath = .block (block + 2) ∧
    s.currentCommand.redirectOutPath = .block (block + 3) ∧ s.allocated = block + 4 + s.commandArgPos

variable {blocks : List Nat} {rest : List UInt8} {inSize : Int} {more : Bool}

theorem placed_start (heap : Heap) : Placed (Parser.start heap) [] headBlock where
  length := rfl
  before := .nil headBlock
  filled := fun i hi => absurd hi (Nat.not_lt_zero i)
  args := fun i hi => by
    cases Nat.le_zero.mp hi
    rfl
  unassigned := fun _ => ⟨rfl, rfl, rfl⟩
  assigned := fun h => by cases h

theorem Placed.keep (h : Placed s blocks block) (hbefore : s'.before = s.before)
    (hcommand : s'.currentCommand = s.currentCommand) (hpos : s'.commandArgPos = s.commandArgPos)
    (hmalloc : s'.mallocCheck = s.mallocCheck) (hallocated : s'.allocated = s.allocated)
    (hheap : ∀ b, s'.heap b 0 = s.heap b 0 ∨ block ≤ b ∧ s'.heap b 0 ≠ ampersand) :
    Placed s' blocks block where
  length := by
    rw [hbefore]
    exact h.length
  before := by
    rw [hbefore]
    refine h.before.keep fun b hb => ?_
    obtain hsame | ⟨hle, -⟩ := hheap b
    · exact hsame
    · exact absurd hle (Nat.not_le.mpr hb)
  filled := by
    rw [hpos]
    intro i hi
    obtain hsame | ⟨-, hletter⟩ := hheap (argBlock block i)
    · rw [hsame]
      exact h.filled i hi
    · exact hletter
  args := by
    rw [hpos, hcommand]
    exact h.args
  unassigned := by
    rw [hmalloc, hcommand, hpos, hallocated]
    exact h.unassigned
  assigned := by
    rw [hmalloc, hcommand, hpos, hallocated]
    exact h.assigned

theorem newBuffer_heap (s : Parser) {b : Nat} (h : b < s.allocated) : s.newBuffer.2.heap b = s.heap b :=
  Function.update_of_ne (Nat.ne_of_lt h) ..

theorem Placed.allocateRedirects (h : Placed s blocks block) :
    Placed s.allocateRedirects blocks block ∧ s.allocateRedirects.mallocCheck = false := by
  unfold Parser.allocateRedirects
  split
  · rename_i hmalloc
    obtain ⟨-, hpos, hallocated⟩ := h.unassigned hmalloc
    have hheap : ∀ b, b < block → s.newBuffer.2.newBuffer.2.heap b = s.heap b := by
      intro b hb
      have hlt : b < s.allocated := by omega
      rw [newBuffer_heap s.newBuffer.2 (Nat.lt_succ_of_lt hlt), newBuffer_heap s hlt]
    refine ⟨{
      length := h.length
      before := h.before.keep fun b hb => congrFun (hheap b hb) 0
      filled := fun i (hi : i < s.commandArgPos) => absurd hi (by omega)
      args := h.args
      unassigned := fun hold => by cases hold
      assigned := fun _ => ⟨?_, ?_, ?_⟩ }, rfl⟩
    · show Pointer.block s.allocated = _
      rw [hallocated]
    · show Pointer.block (s.allocated + 1) = _
      rw [hallocated]
    · show s.allocated + 2 = block + 4 + s.commandArgPos
      omega
  · rename_i hmalloc
    exact ⟨h, Bool.eq_false_iff.mpr hmalloc⟩

theorem closeRedirects_block {s : Parser} {b b' : Nat}
    (hin : s.currentCommand.redirectInPath = .block b)
    (hout : s.currentCommand.redirectOutPath = .block b') :
    s.closeRedirects = .ok { s with currentCommand := { s.currentCommand with
      redirectInPath := if s.heap b 0 = ampersand then .null else .block b
      redirectOutPath := if s.heap b' 0 = ampersand then .null else .block b' } } := by
  rw [Parser.closeRedirects, hin, hout]
  rfl

theorem Placed.finished (h : Placed s blocks block)
    (hcommand : command = { s.currentCommand with
      commandArgs := Function.update s.currentCommand.commandArgs k .null
      redirectInPath := if s.heap (block + 2) 0 = ampersand then .null else .block (block + 2)
      redirectOutPath := if s.heap (block + 3) 0 = ampersand then .null else .block (block + 3) })
    (hcount : (if s.heap (argBlock block s.commandArgPos) 0 = ampersand then s.commandArgPos
      else s.commandArgPos + 1) = k) (hlt : k < maxArgvLength) :
    Finished s block s.commandArgPos k command where
  filled := h.filled
  count := hcount
  lt := hlt
  args := fun i hi => by
    have hle : i ≤ s.commandArgPos := by
      split at hcount
      · omega
      · omega
    rw [hcommand]
    show Function.update s.currentCommand.commandArgs k .null i = _
    rw [Function.update_of_ne (Nat.ne_of_lt hi)]
    exact h.args i hle
  null := by
    rw [hcommand]
    exact Function.update_self ..
  redirectIn := by
    rw [hcommand]
    rfl
  redirectOut := by
    rw [hcommand]
    rfl

theorem Placed.nextCommand (h : Placed s blocks block) (hmalloc : s.mallocCheck = false)
    (hnext : s.nextCommand = .ok s') : Placed s' (blocks ++ [block]) s.malloc.1 := by
  obtain ⟨s₁, s₂, hargs, hredirects, rfl⟩ := Parser.of_nextCommand hnext
  obtain ⟨hin, hout, hallocated⟩ := h.assigned hmalloc
  obtain ⟨b, k, hb, hcount, hlt, rfl⟩ := Parser.of_closeArgs hargs
  cases Pointer.block.inj ((h.args _ (Nat.le_refl _)).symm.trans hb)
  cases hredirects.symm.trans (closeRedirects_block hin hout)
  have hlast := h.finished rfl hcount hlt
  have hlaid := h.before.concat hlast
  rw [← hallocated] at hlaid
  refine {
    length := ?_
    before := ?_
    filled := fun i hi => absurd hi (Nat.not_lt_zero i)
    args := fun i hi => ?_
    unassigned := fun _ => ⟨rfl, rfl, rfl⟩
    assigned := fun hold => by cases hold }
  · show _ = (s.before ++ [_]).length
    rw [List.length_append, List.length_append, h.length]
    rfl
  · show Laid _ headBlock ((blocks ++ [block]).zip (s.before ++ [_])) s.allocated
    rw [List.zip_append h.length]
    refine hlaid.keep fun b hb => ?_
    show Function.update s.heap (s.allocated + 1) _ b 0 = s.heap b 0
    rw [Function.update_of_ne (Nat.ne_of_lt (Nat.lt_succ_of_lt hb))]
  · cases Nat.le_zero.mp hi
    rfl

theorem Placed.nextArg (h : Placed s blocks block) (hmalloc : s.mallocCheck = false)
    (hnext : s.nextArg = .ok s') : Placed s' blocks block := by
  obtain ⟨b, hb, ⟨rfl, -⟩ | ⟨hletter, -, -, rfl⟩⟩ := Parser.of_nextArg hnext
  · exact h
  obtain ⟨hin, hout, hallocated⟩ := h.assigned hmalloc
  cases Pointer.block.inj ((h.args _ (Nat.le_refl _)).symm.trans hb)
  have hold : ∀ i, i ≤ s.commandArgPos →
      s.newBuffer.2.heap (argBlock block i) = s.heap (argBlock block i) :=
    fun i hi => newBuffer_heap s (hallocated ▸ argBlock_lt hi)
  refine {
    length := h.length
    before := h.before.keep fun b hb => congrFun (newBuffer_heap s (by omega)) 0
    filled := fun i hi => ?_
    args := fun i hi => ?_
    unassigned := fun hnew => by cases hmalloc.symm.trans hnew
    assigned := fun _ => ⟨hin, hout, ?_⟩ }
  · have hle : i ≤ s.commandArgPos := Nat.le_of_lt_succ hi
    show s.newBuffer.2.heap _ 0 ≠ ampersand
    rw [hold i hle]
    obtain hlt | rfl := Nat.lt_or_eq_of_le hle
    · exact h.filled i hlt
    · exact hletter
  · show Function.update s.currentCommand.commandArgs (s.commandArgPos + 1) _ i = _
    obtain hlt | rfl := Nat.lt_or_eq_of_le hi
    · rw [Function.update_of_ne (Nat.ne_of_lt hlt)]
      exact h.args i (Nat.le_of_lt_succ hlt)
    · rw [Function.update_self]
      show Pointer.block s.allocated = .block (block + 4 + s.commandArgPos)
      rw [hallocated]
  · show s.allocated + 1 = block + 4 + (s.commandArgPos + 1)
    omega

theorem Placed.insert (h : Placed s blocks block) (hmalloc : s.mallocCheck = false)
    (hamp : c ≠ ampersand) (hinsert : s.insert c = .ok s') : Placed s' blocks block := by
  obtain ⟨b, pos, _, _, _, hpoints, rfl⟩ := Parser.of_insert hinsert
  obtain ⟨hin, hout, -⟩ := h.assigned hmalloc
  have hown : block ≤ b := by
    obtain hb | hb | hb := hpoints
    · cases (h.args _ (Nat.le_refl _)).symm.trans hb
      exact Nat.le_of_lt (argBlock_path block _).1
    · cases hin.symm.trans hb
      omega
    · cases hout.symm.trans hb
      omega
  refine h.keep rfl rfl rfl rfl rfl fun x => ?_
  show Function.update s.heap b (Function.update (s.heap b) pos c) x 0 = s.heap x 0 ∨ block ≤ x ∧
    Function.update s.heap b (Function.update (s.heap b) pos c) x 0 ≠ ampersand
  by_cases hx : x = b
  · subst hx
    rw [Function.update_self]
    by_cases hpos : 0 = pos
    · subst hpos
      rw [Function.update_self]
      exact .inr ⟨hown, hamp⟩
    · exact .inl (Function.update_of_ne hpos ..)
  · rw [Function.update_of_ne hx]
    exact .inl rfl

theorem of_turn_bar (h : s.turn inSize bar = .ok (more, s')) : ∃ s₁, more = true ∧
    s.allocateRedirects.nextCommand = .ok s₁ ∧ s' = { s₁ with inputPos := s₁.inputPos + 1 } := by
  rw [Parser.turn, if_neg (by decide), if_neg (by decide), if_neg (by decide), if_pos rfl] at h
  obtain ⟨s₁, hnext, h⟩ := ok_of_bind h
  cases ok_of_pure h
  exact ⟨s₁, rfl, hnext, rfl⟩

/-- A turn keeps the layout, and a bar has put the command that it ends behind the others. -/
theorem Placed.turn (h : Placed s blocks block) (hturn : s.turn inSize c = .ok (more, s')) :
    if c = bar then more = true ∧ Placed s' (blocks ++ [block]) s.allocateRedirects.malloc.1
    else Placed s' blocks block := by
  obtain ⟨h, hmalloc⟩ := h.allocateRedirects
  by_cases hbar : c = bar
  · subst hbar
    obtain ⟨s₁, hmore, hnext, rfl⟩ := of_turn_bar hturn
    rw [if_pos rfl]
    exact ⟨hmore, (h.nextCommand hmalloc hnext).keep rfl rfl rfl rfl rfl fun b => .inl rfl⟩
  · rw [if_neg hbar]
    cases Parser.turned hturn with
    | background last => exact h.keep rfl rfl rfl rfl rfl fun b => .inl rfl
    | misplaced => exact h.keep rfl rfl rfl rfl rfl fun b => .inl rfl
    | input => exact h.keep rfl rfl rfl rfl rfl fun b => .inl rfl
    | secondInput => exact h.keep rfl rfl rfl rfl rfl fun b => .inl rfl
    | output => exact h.keep rfl rfl rfl rfl rfl fun b => .inl rfl
    | secondOutput => exact h.keep rfl rfl rfl rfl rfl fun b => .inl rfl
    | bar next => exact absurd rfl hbar
    | space next => exact (h.nextArg hmalloc next).keep rfl rfl rfl rfl rfl fun b => .inl rfl
    | letter other plain next => exact (h.insert hmalloc other next).keep rfl rfl rfl rfl rfl fun b => .inl rfl

/-- The loop appends the blocks of the commands that it begins. -/
theorem Placed.loop (h : Placed s blocks block) (hloop : Parser.loop inSize rest s = .ok s') :
    ∃ blocks' block', Placed s' blocks' block' ∧
      blocks ++ block :: commandBlocks inSize rest s = blocks' ++ [block'] := by
  induction rest generalizing s blocks block with
  | nil =>
    obtain ⟨p, -, hover⟩ := ok_of_bind hloop
    cases hover
  | cons c rest ih =>
    rw [Parser.loop] at hloop
    rw [commandBlocks]
    split at hloop
    · rename_i hnewline
      cases hloop
      rw [if_pos hnewline]
      exact ⟨blocks, block, h, rfl⟩
    rename_i hnewline
    rw [if_neg hnewline]
    obtain ⟨⟨more, s₁⟩, hturn, hloop⟩ := ok_of_bind hloop
    have hnext := h.turn hturn
    rw [hturn]
    cases more with
    | false =>
      cases hloop
      split at hnext
      · cases hnext.1
      · exact ⟨blocks, block, hnext, rfl⟩
    | true =>
      split at hnext
      · rename_i hbar
        obtain ⟨blocks', block', hplaced, heq⟩ := ih hnext.2 hloop
        refine ⟨blocks', block', hplaced, ?_⟩
        rw [← heq, List.append_assoc]
        show blocks ++ block :: (if c = bar then _ else _) = _
        rw [if_pos hbar]
        rfl
      · rename_i hbar
        obtain ⟨blocks', block', hplaced, heq⟩ := ih hnext hloop
        refine ⟨blocks', block', hplaced, ?_⟩
        rw [← heq]
        show blocks ++ block :: (if c = bar then _ else _) = _
        rw [if_neg hbar]

theorem Placed.finish (h : Placed s blocks block) (hfinish : s.finish = .ok s') :
    (blocks ++ [block]).length = s'.pipeline.commands.length ∧
      Laid s' headBlock ((blocks ++ [block]).zip s'.pipeline.commands) s'.allocated := by
  have hmalloc : s.mallocCheck = false := by
    by_contra hunassigned
    rw [Bool.not_eq_false] at hunassigned
    cases (finish_of_garbage (h.unassigned hunassigned).1).symm.trans hfinish
  obtain ⟨hin, hout, hallocated⟩ := h.assigned hmalloc
  obtain ⟨s₁, hredirects, hargs⟩ := ok_of_bind hfinish
  cases hredirects.symm.trans (closeRedirects_block hin hout)
  obtain ⟨b, k, hb, hcount, hlt, rfl⟩ := Parser.of_closeArgs hargs
  cases Pointer.block.inj ((h.args _ (Nat.le_refl _)).symm.trans hb)
  have hlaid := h.before.concat (h.finished rfl hcount hlt)
  rw [← hallocated] at hlaid
  constructor
  · show _ = (s.before ++ [_]).length
    rw [List.length_append, List.length_append, h.length]
    rfl
  · show Laid _ headBlock ((blocks ++ [block]).zip (s.before ++ [_])) s.allocated
    rw [List.zip_append h.length]
    exact hlaid.keep fun b hb => rfl

/-- `pipeline_free` comes to its end for whatever `pipeline_build` has returned, with every character
inside of its buffer. It frees the pipeline, each command and each buffer once, but for the buffers that
have stayed empty: those stay allocated, and nothing else. -/
theorem free_leaves_empty {heap : Heap} {line : List UInt8} (hs : pipelineBuild heap line = .ok s)
    (hfits : s.overflow = false) : ∃ live, s.freed (blocksOf heap line) = .ok live ∧
      ∀ b, b ∈ live ↔ b < s.allocated ∧ b ≠ pipelineBlock ∧ b ∉ blocksOf heap line ∧
        s.heap b 0 = ampersand := by
  obtain ⟨s₁, hloop, hfinish⟩ := ok_of_bind hs
  obtain ⟨blocks, block, hplaced, hblocks⟩ := (placed_start heap).loop hloop
  obtain ⟨hlength, hlaid⟩ := hplaced.finish hfinish
  have hof : blocksOf heap line = blocks ++ [block] := hblocks
  have hzero : pipelineBlock ∈ Finset.range s.allocated :=
    Finset.mem_range.mpr (Nat.lt_of_lt_of_le Nat.zero_lt_one hlaid.le)
  obtain ⟨live, hfree, hmem⟩ := hlaid.free hzero Nat.zero_lt_one
    fun x _ hx => Finset.mem_range.mpr hx
  have hpipe : pipelineBlock ∈ live :=
    (hmem _).mpr ⟨hzero, fun hle => absurd hle (Nat.not_le.mpr Nat.zero_lt_one)⟩
  rw [hof]
  refine ⟨live.erase pipelineBlock, ?_, fun b => ?_⟩
  · rw [Parser.freed, hfits]
    show (freeCommands _ _ >>= _) = _
    rw [hfree, ok_bind, free_block hpipe]
  rw [Finset.mem_erase, hmem, Finset.mem_range, List.map_fst_zip (Nat.le_of_eq hlength)]
  constructor
  · rintro ⟨hne, hlt, hrest⟩
    obtain ⟨hnot, hempty⟩ := hrest (Nat.pos_of_ne_zero hne) hlt
    exact ⟨hlt, hne, hnot, hempty⟩
  · rintro ⟨hlt, hne, hnot, hempty⟩
    exact ⟨hne, hlt, fun _ _ => ⟨hnot, hempty⟩⟩

/-- A bar with nothing before it. -/
def barLine : List UInt8 := [bar, 97, newline]

theorem barLine_builds : ∃ s, pipelineBuild (fun _ _ => 0) barLine = .ok s ∧
    decide (s.overflow = false ∧ s.freed (blocksOf (fun _ _ => 0) barLine) = .ok {2, 3, 4, 7, 8}) = true :=
  ok_of_passes (by decide)

/-- The command before the bar loses all its three buffers, the other one its paths. -/
theorem free_leaves_empty_barLine : ∃ s live, pipelineBuild (fun _ _ => 0) barLine = .ok s ∧
    s.freed (blocksOf (fun _ _ => 0) barLine) = .ok live ∧ live = {2, 3, 4, 7, 8} ∧
      ∀ b, b ∈ live ↔ b < s.allocated ∧ b ≠ pipelineBlock ∧
        b ∉ blocksOf (fun _ _ => 0) barLine ∧ s.heap b 0 = ampersand := by
  obtain ⟨s, hs, hfreed⟩ := barLine_builds
  obtain ⟨hfits, hfreed⟩ := of_decide_eq_true hfreed
  obtain ⟨live, hlive, hmem⟩ := free_leaves_empty hs hfits
  exact ⟨s, live, hs, hlive, Except.ok.inj (hlive.symm.trans hfreed), hmem⟩

end OSChallenges.Shell
