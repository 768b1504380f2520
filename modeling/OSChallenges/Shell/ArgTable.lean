import OSChallenges.Shell.Endings
import OSChallenges.Shell.Steps

/-!
# The argument table

Each argument before the one that is being typed has taken a letter and a space of the line. So a line of
512 characters has no more than 256 arguments, and there is a place in `command_args` for the null
pointer behind the last one.
-/

namespace OSChallenges.Shell

open Outcomes Words

/-- `MAX_LINE_LENGTH`. -/
def maxLineLength : Nat := 512

/-- A line that ends in its only newline, with something before that and not right after a bar. -/
structure CommandLine where
  /-- The characters before the newline. -/
  chars : List UInt8
  noZero : 0 ∉ chars
  noNewline : newline ∉ chars
  fits : (chars ++ [newline]).length ≤ maxLineLength
  started : ¬ AtStart chars

def CommandLine.text (line : CommandLine) : List UInt8 := line.chars ++ [newline]

/-- A string that has been allocated and in which there is a letter. -/
def Parser.Filled (s : Parser) (p : Pointer) : Prop :=
  ∃ b, p = .block b ∧ b < s.allocated ∧ s.heap b 0 ≠ ampersand ∧ s.heap b 0 ≠ 0

/-- The arguments of a command: strings, behind them the only null pointer, and nothing has been written
behind that. -/
structure PipelineCommand.EndsAt (s : Parser) (c : PipelineCommand) (k : Nat) : Prop where
  lt : k < maxArgvLength
  filled : ∀ i, i < k → s.Filled (c.commandArgs i)
  null : ∀ i, c.commandArgs i = .null ↔ i = k
  untouched : ∀ i, k < i → c.commandArgs i = .garbage

/-- The parser inside of a line: all arguments are strings but the last one, which may be empty. -/
structure Tabled (s : Parser) : Prop where
  last : ∃ b, s.currentCommand.commandArgs s.commandArgPos = .block b ∧ b < s.allocated ∧ s.heap b 0 ≠ 0
  filled : ∀ i, i < s.commandArgPos → s.Filled (s.currentCommand.commandArgs i)
  untouched : ∀ i, s.commandArgPos < i → s.currentCommand.commandArgs i = .garbage
  before : ∀ c ∈ s.before, ∃ k, c.EndsAt s k

/-- What has been allocated stays, and the first character of a string stays or becomes a letter. -/
structure Keeps (s s' : Parser) : Prop where
  allocated : s.allocated ≤ s'.allocated
  first : ∀ b, b < s.allocated →
    s'.heap b 0 = s.heap b 0 ∨ s'.heap b 0 ≠ ampersand ∧ s'.heap b 0 ≠ 0

variable {s s' : Parser} {p : Pointer} {command command' : PipelineCommand} {c : UInt8} {rest : List UInt8}
  {inSize : Int} {more : Bool} {k : Nat}

/-! ### What stays -/

theorem keeps_newBuffer (s : Parser) : Keeps s s.newBuffer.2 where
  allocated := Nat.le_succ _
  first := fun _ hb => .inl (congrFun (Function.update_of_ne (Nat.ne_of_lt hb) ..) 0)

theorem Keeps.trans {s₁ s₂ s₃ : Parser} (h : Keeps s₁ s₂) (h' : Keeps s₂ s₃) : Keeps s₁ s₃ where
  allocated := h.allocated.trans h'.allocated
  first := fun b hb => by
    obtain hsame | hletter := h'.first b (Nat.lt_of_lt_of_le hb h.allocated)
    · rw [hsame]
      exact h.first b hb
    · exact .inr hletter

theorem Parser.Filled.keep (h : s.Filled p) (hkeeps : Keeps s s') : s'.Filled p := by
  obtain ⟨b, hb, hlt, hamp, hzero⟩ := h
  refine ⟨b, hb, Nat.lt_of_lt_of_le hlt hkeeps.allocated, ?_⟩
  obtain hsame | hletter := hkeeps.first b hlt
  · rw [hsame]
    exact ⟨hamp, hzero⟩
  · exact hletter

theorem PipelineCommand.EndsAt.keep (h : command.EndsAt s k) (hkeeps : Keeps s s')
    (hargs : command'.commandArgs = command.commandArgs) : command'.EndsAt s' k where
  lt := h.lt
  filled := by
    rw [hargs]
    exact fun i hi => (h.filled i hi).keep hkeeps
  null := by
    rw [hargs]
    exact h.null
  untouched := by
    rw [hargs]
    exact h.untouched

theorem Tabled.keep (h : Tabled s) (hkeeps : Keeps s s')
    (hargs : s'.currentCommand.commandArgs = s.currentCommand.commandArgs)
    (hpos : s'.commandArgPos = s.commandArgPos) (hbefore : s'.before = s.before) : Tabled s' where
  last := by
    obtain ⟨b, hb, hlt, hzero⟩ := h.last
    rw [hargs, hpos]
    refine ⟨b, hb, Nat.lt_of_lt_of_le hlt hkeeps.allocated, ?_⟩
    obtain hsame | hletter := hkeeps.first b hlt
    · rw [hsame]
      exact hzero
    · exact hletter.2
  filled := by
    rw [hargs, hpos]
    exact fun i hi => (h.filled i hi).keep hkeeps
  untouched := by
    rw [hargs, hpos]
    exact h.untouched
  before := by
    rw [hbefore]
    intro c hc
    obtain ⟨k, hk⟩ := h.before c hc
    exact ⟨k, hk.keep hkeeps rfl⟩

theorem newBuffer_ne_zero (heap : Heap) (b : Nat) :
    Function.update heap b (Function.update (heap b) 0 ampersand) b 0 ≠ 0 := by
  rw [first_of_newBuffer]
  decide

theorem Keeps.of_eq (hheap : s'.heap = s.heap) (hallocated : s'.allocated = s.allocated) :
    Keeps s s' :=
  ⟨Nat.le_of_eq hallocated.symm, fun b _ => .inl (by rw [hheap])⟩

/-! ### The operations -/

theorem endsAt_update (hlt : k < maxArgvLength)
    (hfilled : ∀ i, i < k → s.Filled (command.commandArgs i))
    (huntouched : ∀ i, k < i → command.commandArgs i = .garbage) :
    PipelineCommand.EndsAt s
      { command with commandArgs := Function.update command.commandArgs k .null } k where
  lt := hlt
  filled := fun i hi => by
    show s.Filled (Function.update command.commandArgs k .null i)
    rw [Function.update_of_ne (Nat.ne_of_lt hi)]
    exact hfilled i hi
  null := fun i => by
    show Function.update command.commandArgs k .null i = .null ↔ i = k
    obtain hlt | rfl | hgt := Nat.lt_trichotomy i k
    · rw [Function.update_of_ne (Nat.ne_of_lt hlt)]
      obtain ⟨b, hb, -⟩ := hfilled i hlt
      rw [hb]
      exact iff_of_false nofun (Nat.ne_of_lt hlt)
    · exact iff_of_true (Function.update_self ..) rfl
    · rw [Function.update_of_ne (Nat.ne_of_gt hgt), huntouched i hgt]
      exact iff_of_false nofun (Nat.ne_of_gt hgt)
  untouched := fun i hi => by
    show Function.update command.commandArgs k .null i = .garbage
    rw [Function.update_of_ne (Nat.ne_of_gt hi)]
    exact huntouched i hi

theorem Tabled.filled_last (h : Tabled s) {b : Nat}
    (hb : s.currentCommand.commandArgs s.commandArgPos = .block b) (hamp : s.heap b 0 ≠ ampersand) :
    ∀ i, i < s.commandArgPos + 1 → s.Filled (s.currentCommand.commandArgs i) := by
  intro i hi
  obtain hbefore | rfl := Nat.lt_succ_iff_lt_or_eq.mp hi
  · exact h.filled i hbefore
  · obtain ⟨b', hb', hlt, hzero⟩ := h.last
    have hsame : b' = b := Pointer.block.inj (hb'.symm.trans hb)
    exact ⟨b, hb, hsame ▸ hlt, hamp, hsame ▸ hzero⟩

theorem Tabled.closeArgs (h : Tabled s) (hclose : s.closeArgs = .ok s') :
    ∃ command k, s' = { s with currentCommand := command } ∧ command.EndsAt s k := by
  obtain ⟨b, k, hb, hk, hlt, rfl⟩ := Parser.of_closeArgs hclose
  refine ⟨_, k, rfl, ?_⟩
  split at hk
  · subst hk
    exact endsAt_update hlt h.filled h.untouched
  · rename_i hamp
    subst hk
    exact endsAt_update hlt (h.filled_last hb hamp) fun i hi => h.untouched i (Nat.lt_of_succ_lt hi)

theorem keeps_newCommand (s : Parser) : Keeps s s.newCommand where
  allocated := Nat.le_add_right s.allocated 2
  first := fun b hb => .inl (by
    show Function.update s.heap (s.allocated + 1) _ b 0 = s.heap b 0
    rw [Function.update_of_ne (Nat.ne_of_lt (Nat.lt_succ_of_lt hb))])

theorem tabled_newCommand (hbefore : ∀ c ∈ s.before, ∃ k, c.EndsAt s k)
    (hends : s.currentCommand.EndsAt s k) : Tabled { s.newCommand with commandArgPos := 0 } where
  last := ⟨s.allocated + 1, rfl, Nat.lt_succ_self _, newBuffer_ne_zero s.heap (s.allocated + 1)⟩
  filled := fun i hi => absurd hi (Nat.not_lt_zero i)
  untouched := fun i hi => by
    show Function.update (fun _ => Pointer.garbage) 0 (.block (s.allocated + 1)) i = .garbage
    exact Function.update_of_ne (Nat.ne_of_gt hi) ..
  before := by
    have hkeeps : Keeps s { s.newCommand with commandArgPos := 0 } :=
      (keeps_newCommand s).trans (.of_eq rfl rfl)
    show ∀ c ∈ s.before ++ [s.currentCommand], _
    rw [List.forall_mem_append, List.forall_mem_singleton]
    constructor
    · intro c hc
      obtain ⟨k, hk⟩ := hbefore c hc
      exact ⟨k, hk.keep hkeeps rfl⟩
    · exact ⟨k, hends.keep hkeeps rfl⟩

theorem Tabled.nextCommand (h : Tabled s) (hnext : s.nextCommand = .ok s') : Tabled s' := by
  obtain ⟨s₁, s₂, hargs, hredirects, rfl⟩ := Parser.of_nextCommand hnext
  obtain ⟨command, k, rfl, hends⟩ := h.closeArgs hargs
  obtain ⟨redirectIn, redirectOut, rfl⟩ := Parser.of_closeRedirects hredirects
  generalize hs₂ : { s with currentCommand := { command with
    redirectInPath := redirectIn
    redirectOutPath := redirectOut } } = s₂
  have hkeeps : Keeps s s₂ := by
    subst hs₂
    exact .of_eq rfl rfl
  have hbefore : ∀ c ∈ s₂.before, ∃ k, c.EndsAt s₂ k := by
    subst hs₂
    intro c hc
    obtain ⟨k, hk⟩ := h.before c hc
    exact ⟨k, hk.keep hkeeps rfl⟩
  have hcurrent : s₂.currentCommand.EndsAt s₂ k := by
    subst hs₂
    exact hends.keep hkeeps rfl
  exact (tabled_newCommand hbefore hcurrent).keep (.of_eq rfl rfl) rfl rfl rfl

theorem Tabled.nextArg (h : Tabled s) (hnext : s.nextArg = .ok s') : Tabled s' := by
  obtain ⟨b, hb, ⟨rfl, -⟩ | ⟨hamp, -, -, rfl⟩⟩ := Parser.of_nextArg hnext
  · exact h
  have hkeeps := keeps_newBuffer s
  refine ⟨⟨s.allocated, Function.update_self .., Nat.lt_succ_self _,
    newBuffer_ne_zero s.heap s.allocated⟩, fun i hi => ?_, fun i hi => ?_, fun c hc => ?_⟩
  · show s.newBuffer.2.Filled (Function.update s.currentCommand.commandArgs (s.commandArgPos + 1) _ i)
    rw [Function.update_of_ne (Nat.ne_of_lt hi)]
    exact (h.filled_last hb hamp i hi).keep hkeeps
  · show Function.update s.currentCommand.commandArgs (s.commandArgPos + 1) _ i = .garbage
    rw [Function.update_of_ne (Nat.ne_of_gt hi)]
    exact h.untouched i (Nat.lt_of_succ_lt hi)
  · obtain ⟨k, hk⟩ := h.before c hc
    exact ⟨k, hk.keep (hkeeps.trans (.of_eq rfl rfl)) rfl⟩

/-- Wherever a letter is stored, the first character of a string stays or becomes this letter. -/
theorem Tabled.insert (h : Tabled s) (hamp : c ≠ ampersand) (hzero : c ≠ 0)
    (hinsert : s.insert c = .ok s') : Tabled s' := by
  obtain ⟨b, pos, argStorePos, redirectInPos, redirectOutPos, -, rfl⟩ := Parser.of_insert hinsert
  refine h.keep ⟨Nat.le_refl _, fun b' _ => ?_⟩ rfl rfl rfl
  show Function.update s.heap b (Function.update (s.heap b) pos c) b' 0 = s.heap b' 0 ∨ _
  by_cases hb : b' = b
  · subst hb
    by_cases hpos : 0 = pos
    · subst hpos
      refine .inr ?_
      show Function.update s.heap b' _ b' 0 ≠ _ ∧ Function.update s.heap b' _ b' 0 ≠ _
      rw [Function.update_self, Function.update_self]
      exact ⟨hamp, hzero⟩
    · left
      rw [Function.update_self, Function.update_of_ne hpos]
  · left
    rw [Function.update_of_ne hb]

theorem Tabled.allocateRedirects (h : Tabled s) : Tabled s.allocateRedirects := by
  unfold Parser.allocateRedirects
  split
  · have hkeeps := (keeps_newBuffer s).trans (keeps_newBuffer s.newBuffer.2)
    exact h.keep ⟨hkeeps.allocated, hkeeps.first⟩ rfl rfl rfl
  · exact h

/-! ### The loop -/

theorem Tabled.turned (h : Tabled s) (hzero : c ≠ 0) (hturned : Parser.Turned s inSize c more s') :
    Tabled s' := by
  cases hturned with
  | background last => exact h.keep (.of_eq rfl rfl) rfl rfl rfl
  | misplaced => exact h.keep (.of_eq rfl rfl) rfl rfl rfl
  | input => exact h.keep (.of_eq rfl rfl) rfl rfl rfl
  | secondInput => exact h.keep (.of_eq rfl rfl) rfl rfl rfl
  | output => exact h.keep (.of_eq rfl rfl) rfl rfl rfl
  | secondOutput => exact h.keep (.of_eq rfl rfl) rfl rfl rfl
  | bar next => exact (h.nextCommand next).keep (.of_eq rfl rfl) rfl rfl rfl
  | space next => exact (h.nextArg next).keep (.of_eq rfl rfl) rfl rfl rfl
  | letter other plain next => exact (h.insert other hzero next).keep (.of_eq rfl rfl) rfl rfl rfl

theorem Tabled.loop (h : Tabled s) (hzero : 0 ∉ rest) (hloop : Parser.loop inSize rest s = .ok s') :
    Tabled s' := by
  induction rest generalizing s with
  | nil =>
    obtain ⟨p, -, hover⟩ := ok_of_bind hloop
    cases hover
  | cons c rest ih =>
    rw [List.mem_cons, not_or] at hzero
    obtain ⟨hc, hrest⟩ := hzero
    rw [Parser.loop] at hloop
    split at hloop
    · cases hloop
      exact h
    · obtain ⟨⟨more, s₁⟩, hturn, hloop⟩ := ok_of_bind hloop
      have hnext : Tabled s₁ := h.allocateRedirects.turned (Ne.symm hc) (Parser.turned hturn)
      cases more with
      | true => exact ih hnext hrest hloop
      | false =>
        cases hloop
        exact hnext

theorem Tabled.finish (h : Tabled s) (hfinish : s.finish = .ok s') :
    ∀ c ∈ s'.pipeline.commands, ∃ k, c.EndsAt s' k := by
  obtain ⟨s₁, hredirects, hargs⟩ := ok_of_bind hfinish
  obtain ⟨redirectIn, redirectOut, rfl⟩ := Parser.of_closeRedirects hredirects
  have hclosed : Tabled { s with currentCommand := { s.currentCommand with
      redirectInPath := redirectIn
      redirectOutPath := redirectOut } } := h.keep (.of_eq rfl rfl) rfl rfl rfl
  obtain ⟨command, k, rfl, hends⟩ := hclosed.closeArgs hargs
  show ∀ c ∈ s.before ++ [command], _
  rw [List.forall_mem_append, List.forall_mem_singleton]
  constructor
  · intro c hc
    obtain ⟨k, hk⟩ := h.before c hc
    exact ⟨k, hk.keep (.of_eq rfl rfl) rfl⟩
  · exact ⟨k, hends.keep (.of_eq rfl rfl) rfl⟩

theorem tabled_start (heap : Heap) : Tabled (Parser.start heap) where
  last := ⟨2, rfl, Nat.lt_succ_self 2, newBuffer_ne_zero heap 2⟩
  filled := fun i hi => absurd hi (Nat.not_lt_zero i)
  untouched := fun i hi => by
    show Function.update (fun _ => Pointer.garbage) 0 (.block 2) i = .garbage
    exact Function.update_of_ne (Nat.ne_of_gt hi) ..
  before := fun c hc => by cases hc

/-- No access is outside of `command_args`: the parser comes to its end. -/
theorem exists_build (heap : Heap) (line : CommandLine) : ∃ s, pipelineBuild heap line.text = .ok s := by
  have hsize : toInt32 line.text.length = (line.text.length : Int) := by
    refine toInt32_of_lt (Nat.lt_of_le_of_lt line.fits ?_)
    decide
  have hloop := (midway_start heap).loop_iff (iff_of_true rfl (.inl rfl)) List.not_mem_nil line.fits
  have hends : EndsFrom line.text 0 := by
    have hcommand : EndsCommand (line.chars ++ [newline]) line.chars.length :=
      endsCommand_iff.mpr ⟨rfl, line.started⟩
    obtain ⟨i, -, hi⟩ := EndsFrom.of_next line.noNewline (.inr hcommand)
    exact ⟨i, Nat.zero_le i, hi⟩
  obtain ⟨s, hs, -⟩ := hloop.mpr hends
  refine ⟨s, ?_⟩
  rw [pipelineBuild, hsize]
  exact hs

/-- Every access to `command_args` is inside of it, and every command that is returned has the strings of
its arguments, the null pointer right behind the last of them, and nothing else. -/
theorem args_in_table (heap : Heap) (line : CommandLine) : ∃ s, pipelineBuild heap line.text = .ok s ∧
    ∀ c ∈ s.pipeline.commands, ∃ k, c.EndsAt s k := by
  obtain ⟨s, hs⟩ := exists_build heap line
  obtain ⟨s₁, hloop, hfinish⟩ := ok_of_bind hs
  have hzero : 0 ∉ line.text := by
    rw [CommandLine.text, List.mem_append, List.mem_singleton]
    exact not_or_intro line.noZero (by decide)
  exact ⟨s, hs, ((tabled_start heap).loop hzero hloop).finish hfinish⟩

/-- The longest line, `a a a ... a`: 256 words of one letter. -/
def oneLetterWords : CommandLine where
  chars := (List.replicate 255 [97, space]).flatten ++ [97]
  noZero := by decide +kernel
  noNewline := by decide +kernel
  fits := by decide +kernel
  started := by
    unfold AtStart
    decide +kernel

theorem oneLetterWords_in_table : ∃ s, pipelineBuild (fun _ _ => 120) oneLetterWords.text = .ok s ∧
    ∀ c ∈ s.pipeline.commands, ∃ k, c.EndsAt s k :=
  args_in_table (fun _ _ => 120) oneLetterWords

end OSChallenges.Shell
