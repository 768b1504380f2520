import OSChallenges.Library.Outcomes
import OSChallenges.Shell.Model
import Mathlib.Tactic.Common

/-!
# Where the parser ends

The loop of `pipeline_build` ends at a newline, or where a sign makes it give up. A line without either
is read behind its zero, and a newline right at the start of a command finds redirect paths that nobody
has assigned. Every other line is parsed, and every path that it gets has been assigned.
-/

namespace OSChallenges.Shell

open Outcomes Words

/-- `maxArgSize` of `myshell.c`. -/
def maxArgSize : Nat := 512

/-- What `fgets` stores in a buffer of `maxArgSize` characters, without the zero behind it. -/
structure InputLine where
  chars : List UInt8
  noZero : 0 ∉ chars
  fits : chars.length < maxArgSize

theorem InputLine.inSize (line : InputLine) : toInt32 line.chars.length = (line.chars.length : Int) := by
  refine toInt32_of_lt (line.fits.trans ?_)
  decide

def PipelineCommand.Assigned (c : PipelineCommand) : Prop :=
  c.redirectInPath ≠ .garbage ∧ c.redirectOutPath ≠ .garbage

/-- The parser gives up at a position: at an ampersand that is not the last character but one, or at
the second sign of a kind. -/
def GivesUp (input : List UInt8) (i : Nat) : Prop :=
  input[i]? = some ampersand ∧ i + 2 ≠ input.length ∨
    input[i]? = some less ∧ less ∈ input.take i ∨ input[i]? = some greater ∧ greater ∈ input.take i

/-- A newline with a command before it. -/
def EndsCommand (input : List UInt8) (i : Nat) : Prop :=
  input[i]? = some newline ∧ i ≠ 0 ∧ input[i - 1]? ≠ some bar

/-! ### The parser in the middle of a line -/

def Pointer.IsBlock (p : Pointer) : Prop := ∃ b, p = .block b

/-- The argument that is being typed has its buffer, and the arguments take what they must of the
characters that have been read. -/
def ArgRoom (n : Nat) (s : Parser) : Prop :=
  ∃ b, s.currentCommand.commandArgs s.commandArgPos = .block b ∧ b < s.allocated ∧
    2 * s.commandArgPos + (if s.heap b 0 = ampersand then 0 else 1) ≤ n

/-- The parser after the characters `cs` of a line. -/
structure Midway (cs : List UInt8) (s : Parser) : Prop where
  arg : ArgRoom cs.length s
  unassigned : s.mallocCheck = true → s.currentCommand.redirectInPath = .garbage
  assigned : s.mallocCheck = false →
    s.currentCommand.redirectInPath.IsBlock ∧ s.currentCommand.redirectOutPath.IsBlock
  before : ∀ c ∈ s.before, c.Assigned
  inputPos : s.inputPos = cs.length
  riCheck : s.riCheck = cs.count less
  roCheck : s.roCheck = cs.count greater

/-- The last command can be finished. -/
structure Finishable (s : Parser) : Prop where
  arg : (s.currentCommand.commandArgs s.commandArgPos).IsBlock
  room : s.commandArgPos + 1 < maxArgvLength
  redirectIn : s.currentCommand.redirectInPath.IsBlock
  redirectOut : s.currentCommand.redirectOutPath.IsBlock
  before : ∀ c ∈ s.before, c.Assigned

variable {s s' : Parser} {cs rest : List UInt8} {c : UInt8} {n : Nat}

/-! ### The end of a command -/

theorem closeArgs_of_isBlock (harg : (s.currentCommand.commandArgs s.commandArgPos).IsBlock)
    (hroom : s.commandArgPos + 1 < maxArgvLength) : ∃ command,
      s.closeArgs = .ok { s with currentCommand := command } ∧
      command.redirectInPath = s.currentCommand.redirectInPath ∧
      command.redirectOutPath = s.currentCommand.redirectOutPath := by
  obtain ⟨b, hb⟩ := harg
  have hlast : s.currentCommand.arg s.commandArgPos = .ok (.block b) := by
    rw [PipelineCommand.arg, if_pos (by omega), hb]
  have hset : ∀ i, i < maxArgvLength → s.currentCommand.setArg i .null = .ok { s.currentCommand with
      commandArgs := Function.update s.currentCommand.commandArgs i .null } := fun i hi => if_pos hi
  rw [Parser.closeArgs, hlast, ok_bind]
  show ∃ command, (s.currentCommand.setArg
    (if s.heap b 0 = ampersand then s.commandArgPos else s.commandArgPos + 1) .null >>= _) = _ ∧ _
  rw [hset _ (by split <;> omega)]
  exact ⟨_, rfl, rfl, rfl⟩

theorem closePath_of_isBlock {p : Pointer} (h : p.IsBlock) :
    ∃ p', s.closePath p = .ok p' ∧ p' ≠ .garbage := by
  obtain ⟨b, rfl⟩ := h
  refine ⟨_, rfl, ?_⟩
  split
  · exact fun h => by cases h
  · exact fun h => by cases h

theorem closeRedirects_of_isBlock (hin : s.currentCommand.redirectInPath.IsBlock)
    (hout : s.currentCommand.redirectOutPath.IsBlock) : ∃ redirectIn redirectOut,
      s.closeRedirects = .ok { s with currentCommand := { s.currentCommand with
        redirectInPath := redirectIn
        redirectOutPath := redirectOut } } ∧ redirectIn ≠ .garbage ∧ redirectOut ≠ .garbage := by
  obtain ⟨redirectIn, hin, hassigned⟩ := closePath_of_isBlock (s := s) hin
  obtain ⟨redirectOut, hout, hassigned'⟩ := closePath_of_isBlock (s := s) hout
  refine ⟨redirectIn, redirectOut, ?_, hassigned, hassigned'⟩
  rw [Parser.closeRedirects, hin, ok_bind, hout]
  rfl

theorem Finishable.finish (h : Finishable s) :
    ∃ s', s.finish = .ok s' ∧ ∀ c ∈ s'.pipeline.commands, c.Assigned := by
  obtain ⟨redirectIn, redirectOut, hclose, hin, hout⟩ :=
    closeRedirects_of_isBlock h.redirectIn h.redirectOut
  let s₁ : Parser := { s with currentCommand := { s.currentCommand with
    redirectInPath := redirectIn
    redirectOutPath := redirectOut } }
  obtain ⟨command, hargs, hin', hout'⟩ := closeArgs_of_isBlock (s := s₁) h.arg h.room
  refine ⟨{ s₁ with currentCommand := command }, ?_, ?_⟩
  · rw [Parser.finish, hclose, ok_bind]
    exact hargs
  · show ∀ c ∈ s.before ++ [command], c.Assigned
    rw [List.forall_mem_append, List.forall_mem_singleton]
    refine ⟨h.before, ?_, ?_⟩
    · rw [hin']
      exact hin
    · rw [hout']
      exact hout

theorem finish_of_garbage (h : s.currentCommand.redirectInPath = .garbage) :
    s.finish = .error .wildPointer := by
  rw [Parser.finish, Parser.closeRedirects, h]
  rfl

/-! ### One turn -/

theorem first_of_newBuffer (heap : Heap) (b : Nat) :
    Function.update heap b (Function.update (heap b) 0 ampersand) b 0 = ampersand := by
  rw [Function.update_self, Function.update_self]

theorem ArgRoom.of_empty {b : Nat} (hb : s.currentCommand.commandArgs s.commandArgPos = .block b)
    (hlt : b < s.allocated) (hempty : s.heap b 0 = ampersand) (hroom : 2 * s.commandArgPos ≤ n) :
    ArgRoom n s := by
  refine ⟨b, hb, hlt, ?_⟩
  rw [if_pos hempty]
  exact hroom

theorem ArgRoom.allocateRedirects (h : ArgRoom n s) : ArgRoom n s.allocateRedirects := by
  unfold Parser.allocateRedirects
  split
  · obtain ⟨b, hb, hlt, hroom⟩ := h
    refine ⟨b, hb, Nat.lt_succ_of_lt (Nat.lt_succ_of_lt hlt), ?_⟩
    show _ + (if Function.update (Function.update s.heap s.allocated _) (s.allocated + 1) _ b 0 =
      ampersand then 0 else 1) ≤ n
    rw [Function.update_of_ne (by omega), Function.update_of_ne (by omega)]
    exact hroom
  · exact h

/-- After the allocation both paths of the command are there. -/
theorem Midway.allocateRedirects (h : Midway cs s) : Midway cs s.allocateRedirects ∧
    s.allocateRedirects.mallocCheck = false := by
  have harg := h.arg.allocateRedirects
  unfold Parser.allocateRedirects at harg ⊢
  split at harg
  · rename_i hfirst
    rw [if_pos hfirst]
    refine ⟨?_, rfl⟩
    exact { h with
      arg := harg
      unassigned := fun hc => by cases hc
      assigned := fun _ => ⟨⟨_, rfl⟩, ⟨_, rfl⟩⟩ }
  · rename_i hnot
    rw [if_neg hnot]
    exact ⟨h, Bool.eq_false_iff.mpr hnot⟩

theorem Midway.finishable (h : Midway cs s) (hmalloc : s.mallocCheck = false)
    (hlength : cs.length < maxArgSize) : Finishable s := by
  obtain ⟨b, hb, -, hroom⟩ := h.arg
  obtain ⟨hin, hout⟩ := h.assigned hmalloc
  refine ⟨⟨b, hb⟩, ?_, hin, hout, h.before⟩
  unfold maxArgSize at hlength
  unfold maxArgvLength
  omega

/-- Where the loop ends before the newline. -/
def Stops (inSize : Int) (cs : List UInt8) (c : UInt8) : Prop :=
  c = ampersand ∧ (cs.length : Int) ≠ inSize - 2 ∨ c = less ∧ less ∈ cs ∨ c = greater ∧ greater ∈ cs

theorem Midway.stops (h : Midway cs s) (hlength : cs.length < maxArgSize) {inSize : Int}
    (hstops : Stops inSize cs c) : ∃ s', s.turn inSize c = .ok (false, s') ∧ Finishable s' := by
  obtain ⟨hmid, hmalloc⟩ := h.allocateRedirects
  have hfinish := hmid.finishable hmalloc hlength
  rw [Parser.turn]
  generalize s.allocateRedirects = s₁ at hmid hfinish ⊢
  obtain ⟨rfl, hpos⟩ | ⟨rfl, hmem⟩ | ⟨rfl, hmem⟩ := hstops
  · rw [if_pos rfl]
    show ∃ s', (if (s₁.inputPos : Int) ≠ inSize - 2 then _ else _) = _ ∧ _
    rw [hmid.inputPos, if_pos hpos]
    exact ⟨_, rfl, { hfinish with }⟩
  · have hsecond : 1 < s₁.riCheck + 1 := by
      rw [hmid.riCheck]
      exact Nat.succ_lt_succ (List.count_pos_iff.mpr hmem)
    rw [if_neg (by decide), if_pos rfl]
    show ∃ s', (if 1 < s₁.riCheck + 1 then _ else _) = _ ∧ _
    rw [if_pos hsecond]
    exact ⟨_, rfl, { hfinish with }⟩
  · have hsecond : 1 < s₁.roCheck + 1 := by
      rw [hmid.roCheck]
      exact Nat.succ_lt_succ (List.count_pos_iff.mpr hmem)
    rw [if_neg (by decide), if_neg (by decide), if_pos rfl]
    show ∃ s', (if 1 < s₁.roCheck + 1 then _ else _) = _ ∧ _
    rw [if_pos hsecond]
    exact ⟨_, rfl, { hfinish with }⟩

/-- Whatever a store has done to the buffer of the argument, it takes one more character. -/
theorem ArgRoom.succ (h : ArgRoom n s) (hcommand : s'.currentCommand = s.currentCommand)
    (hpos : s'.commandArgPos = s.commandArgPos) (hallocated : s'.allocated = s.allocated) :
    ArgRoom (n + 1) s' := by
  obtain ⟨b, hb, hlt, hroom⟩ := h
  refine ⟨b, by rw [hcommand, hpos, hb], by rw [hallocated]; exact hlt, ?_⟩
  rw [hpos]
  split
  · omega
  · split at hroom
    · omega
    · omega

theorem ArgRoom.mono {m : Nat} (h : ArgRoom n s) (hle : n ≤ m) : ArgRoom m s := by
  obtain ⟨b, hb, hlt, hroom⟩ := h
  exact ⟨b, hb, hlt, hroom.trans hle⟩

theorem Finishable.nextArg (h : Finishable s) (harg : ArgRoom n s) : ∃ s', s.nextArg = .ok s' ∧
    ArgRoom (n + 1) s' ∧ s'.mallocCheck = s.mallocCheck ∧
    s'.currentCommand.redirectInPath = s.currentCommand.redirectInPath ∧
    s'.currentCommand.redirectOutPath = s.currentCommand.redirectOutPath ∧ s'.before = s.before ∧
    s'.inputPos = s.inputPos ∧ s'.riCheck = s.riCheck ∧ s'.roCheck = s.roCheck := by
  obtain ⟨b, hb, hlt, hroom⟩ := harg
  have hbound := h.room
  have hlast : s.currentCommand.arg s.commandArgPos = .ok (.block b) := by
    rw [PipelineCommand.arg, if_pos (by omega), hb]
  rw [Parser.nextArg, hlast, ok_bind]
  show ∃ s', (if s.heap b 0 ≠ ampersand ∧ _ ∧ _ then _ else _) = _ ∧ _
  split
  · rename_i hletter
    rw [if_neg hletter.1] at hroom
    show ∃ s', (s.currentCommand.setArg (s.commandArgPos + 1) _ >>= _) = _ ∧ _
    rw [PipelineCommand.setArg, if_pos hbound]
    have hnext : 2 * (s.commandArgPos + 1) ≤ n + 1 := by omega
    exact ⟨_, rfl, .of_empty (Function.update_self ..) (Nat.lt_succ_self _)
      (first_of_newBuffer s.heap s.allocated) hnext, rfl, rfl, rfl, rfl, rfl, rfl, rfl⟩
  · exact ⟨_, rfl, ⟨b, hb, hlt, Nat.le_succ_of_le hroom⟩, rfl, rfl, rfl, rfl, rfl, rfl, rfl⟩

theorem Finishable.insert (h : Finishable s) (harg : ArgRoom n s) (c : UInt8) :
    ∃ s', s.insert c = .ok s' ∧ ArgRoom (n + 1) s' ∧ s'.mallocCheck = s.mallocCheck ∧
    s'.currentCommand = s.currentCommand ∧ s'.before = s.before ∧ s'.inputPos = s.inputPos ∧
    s'.riCheck = s.riCheck ∧ s'.roCheck = s.roCheck := by
  obtain ⟨b, hb⟩ := h.arg
  obtain ⟨redirectIn, hin⟩ := h.redirectIn
  obtain ⟨redirectOut, hout⟩ := h.redirectOut
  have hbound := h.room
  have hlast : s.currentCommand.arg s.commandArgPos = .ok (.block b) := by
    rw [PipelineCommand.arg, if_pos (by omega), hb]
  rw [Parser.insert, hlast, ok_bind, hin, hout, Parser.characterInsert]
  split
  · exact ⟨_, rfl, harg.succ rfl rfl rfl, rfl, rfl, rfl, rfl, rfl, rfl⟩
  · split
    · exact ⟨_, rfl, harg.succ rfl rfl rfl, rfl, rfl, rfl, rfl, rfl, rfl⟩
    · exact ⟨_, rfl, harg.succ rfl rfl rfl, rfl, rfl, rfl, rfl, rfl, rfl⟩

theorem Finishable.nextCommand (h : Finishable s) : ∃ s', s.nextCommand = .ok s' ∧
    ArgRoom 0 s' ∧ s'.mallocCheck = true ∧ s'.currentCommand.redirectInPath = .garbage ∧
    (∀ c ∈ s'.before, c.Assigned) ∧ s'.inputPos = s.inputPos ∧ s'.riCheck = s.riCheck ∧
    s'.roCheck = s.roCheck := by
  obtain ⟨command, hargs, hin, hout⟩ := closeArgs_of_isBlock h.arg h.room
  obtain ⟨redirectIn, redirectOut, hclose, hin', hout'⟩ :=
    closeRedirects_of_isBlock (s := { s with currentCommand := command })
      (by rw [hin]; exact h.redirectIn) (by rw [hout]; exact h.redirectOut)
  rw [Parser.nextCommand, hargs, ok_bind, hclose]
  refine ⟨_, rfl, .of_empty rfl (Nat.lt_succ_self _) (first_of_newBuffer s.heap (s.allocated + 1))
    (Nat.le_refl 0), rfl, rfl, ?_, rfl, rfl, rfl⟩
  show ∀ c ∈ s.before ++ [_], c.Assigned
  rw [List.forall_mem_append, List.forall_mem_singleton]
  exact ⟨h.before, hin', hout'⟩

theorem count_other {x : UInt8} (h : c ≠ x) : (cs ++ [c]).count x = cs.count x := by
  rw [List.count_append, List.count_singleton, if_neg (by simpa using h), Nat.add_zero]

theorem count_same : (cs ++ [c]).count c = cs.count c + 1 := by
  rw [List.count_append, List.count_singleton_self]

/-- One more character, for which the command may have got a buffer or a letter. -/
theorem Midway.push (h : Midway cs s) (hmalloc : s.mallocCheck = false)
    (harg : ArgRoom (cs.length + 1) s') (hnew : s'.mallocCheck = s.mallocCheck)
    (hin : s'.currentCommand.redirectInPath = s.currentCommand.redirectInPath)
    (hout : s'.currentCommand.redirectOutPath = s.currentCommand.redirectOutPath)
    (hbefore : s'.before = s.before) (hpos : s'.inputPos = s.inputPos + 1)
    (hri : s'.riCheck = (cs ++ [c]).count less) (hro : s'.roCheck = (cs ++ [c]).count greater) :
    Midway (cs ++ [c]) s' where
  arg := by
    rw [List.length_append, List.length_singleton]
    exact harg
  unassigned := fun hold => by cases hmalloc.symm.trans (hnew.symm.trans hold)
  assigned := fun _ => by
    rw [hin, hout]
    exact h.assigned hmalloc
  before := by
    rw [hbefore]
    exact h.before
  inputPos := by
    rw [hpos, h.inputPos, List.length_append, List.length_singleton]
  riCheck := hri
  roCheck := hro

/-- Any other character leaves the parser in the middle of the line, and right behind a bar nothing has
been allocated for the next command. -/
theorem Midway.goesOn (h : Midway cs s) (hlength : cs.length < maxArgSize) {inSize : Int}
    (hgoes : ¬ Stops inSize cs c) : ∃ s', s.turn inSize c = .ok (true, s') ∧ Midway (cs ++ [c]) s' ∧
      (s'.mallocCheck = true ↔ c = bar) := by
  obtain ⟨hmid, hmalloc⟩ := h.allocateRedirects
  have hfinish := hmid.finishable hmalloc hlength
  rw [Parser.turn]
  generalize s.allocateRedirects = s₁ at hmid hmalloc hfinish ⊢
  have hri : c ≠ less → s₁.riCheck = (cs ++ [c]).count less := fun hne => by
    rw [count_other hne]
    exact hmid.riCheck
  have hro : c ≠ greater → s₁.roCheck = (cs ++ [c]).count greater := fun hne => by
    rw [count_other hne]
    exact hmid.roCheck
  by_cases hamp : c = ampersand
  · subst hamp
    have hpos : ¬ (s₁.inputPos : Int) ≠ inSize - 2 := by
      rw [hmid.inputPos]
      exact fun hne => hgoes (.inl ⟨rfl, hne⟩)
    rw [if_pos rfl]
    show ∃ s', (if (s₁.inputPos : Int) ≠ inSize - 2 then _ else _) = _ ∧ _
    rw [if_neg hpos]
    refine ⟨_, rfl, ?_, iff_of_false (by simp [hmalloc]) (by decide)⟩
    exact hmid.push hmalloc (hmid.arg.succ rfl rfl rfl) rfl rfl rfl rfl rfl (hri (by decide))
      (hro (by decide))
  rw [if_neg hamp]
  by_cases hless : c = less
  · subst hless
    have hzero : cs.count less = 0 :=
      List.count_eq_zero.mpr fun hmem => hgoes (.inr (.inl ⟨rfl, hmem⟩))
    have hfirst : ¬ 1 < s₁.riCheck + 1 := by
      rw [hmid.riCheck, hzero]
      decide
    rw [if_pos rfl]
    show ∃ s', (if 1 < s₁.riCheck + 1 then _ else _) = _ ∧ _
    rw [if_neg hfirst]
    refine ⟨_, rfl, ?_, iff_of_false (by simp [hmalloc]) (by decide)⟩
    refine hmid.push hmalloc (hmid.arg.succ rfl rfl rfl) rfl rfl rfl rfl rfl ?_ (hro (by decide))
    rw [count_same]
    exact congrArg (· + 1) hmid.riCheck
  rw [if_neg hless]
  by_cases hgreater : c = greater
  · subst hgreater
    have hzero : cs.count greater = 0 :=
      List.count_eq_zero.mpr fun hmem => hgoes (.inr (.inr ⟨rfl, hmem⟩))
    have hfirst : ¬ 1 < s₁.roCheck + 1 := by
      rw [hmid.roCheck, hzero]
      decide
    rw [if_pos rfl]
    show ∃ s', (if 1 < s₁.roCheck + 1 then _ else _) = _ ∧ _
    rw [if_neg hfirst]
    refine ⟨_, rfl, ?_, iff_of_false (by simp [hmalloc]) (by decide)⟩
    refine hmid.push hmalloc (hmid.arg.succ rfl rfl rfl) rfl rfl rfl rfl rfl (hri (by decide)) ?_
    rw [count_same]
    exact congrArg (· + 1) hmid.roCheck
  rw [if_neg hgreater]
  by_cases hbar : c = bar
  · subst hbar
    obtain ⟨s', hs', harg, hnew, hgarbage, hbefore, hpos, hri', hro'⟩ := hfinish.nextCommand
    rw [if_pos rfl, hs', ok_bind]
    refine ⟨_, rfl, ⟨?_, fun _ => hgarbage, fun hold => ?_, hbefore, ?_, hri'.trans (hri hless),
      hro'.trans (hro hgreater)⟩, iff_of_true hnew rfl⟩
    · exact harg.mono (Nat.zero_le _)
    · cases hnew.symm.trans hold
    · rw [List.length_append, List.length_singleton]
      exact congrArg (· + 1) (hpos.trans hmid.inputPos)
  rw [if_neg hbar]
  by_cases hspace : c = space
  · subst hspace
    obtain ⟨s', hs', harg, hnew, hin, hout, hbefore, hpos, hri', hro'⟩ := hfinish.nextArg hmid.arg
    rw [if_pos rfl, hs', ok_bind]
    refine ⟨_, rfl, ?_, iff_of_false (by simp [hnew, hmalloc]) (by decide)⟩
    exact hmid.push hmalloc harg hnew hin hout hbefore (congrArg (· + 1) hpos)
      (hri'.trans (hri hless)) (hro'.trans (hro hgreater))
  rw [if_neg hspace]
  obtain ⟨s', hs', harg, hnew, hcommand, hbefore, hpos, hri', hro'⟩ := hfinish.insert hmid.arg c
  rw [hs', ok_bind]
  refine ⟨_, rfl, ?_, iff_of_false (by simp [hnew, hmalloc]) hbar⟩
  exact hmid.push hmalloc harg hnew (by rw [← hcommand]) (by rw [← hcommand]) hbefore
    (congrArg (· + 1) hpos) (hri'.trans (hri hless)) (hro'.trans (hro hgreater))

/-! ### The loop -/

/-- The parser ends at the position `n` or behind. -/
def EndsFrom (line : List UInt8) (n : Nat) : Prop :=
  ∃ i, n ≤ i ∧ i < line.length ∧ newline ∉ line.take i ∧ (GivesUp line i ∨ EndsCommand line i)

/-- Nothing of the command has been read that follows the characters `cs`. -/
def AtStart (cs : List UInt8) : Prop := cs = [] ∨ cs.getLast? = some bar

theorem getElem?_next (cs rest : List UInt8) (c : UInt8) : (cs ++ c :: rest)[cs.length]? = some c := by
  rw [List.getElem?_append_right (Nat.le_refl _), Nat.sub_self]
  rfl

theorem givesUp_iff : GivesUp (cs ++ c :: rest) cs.length ↔ Stops (cs ++ c :: rest).length cs c := by
  have hpos : cs.length + 2 ≠ (cs ++ c :: rest).length ↔
      (cs.length : Int) ≠ ((cs ++ c :: rest).length : Int) - 2 := by omega
  rw [GivesUp, Stops, getElem?_next, List.take_left, hpos]
  simp only [Option.some.injEq]

theorem endsCommand_iff :
    EndsCommand (cs ++ c :: rest) cs.length ↔ c = newline ∧ ¬ AtStart cs := by
  rw [EndsCommand, getElem?_next, AtStart, Option.some.injEq, not_or]
  obtain rfl | ⟨cs, d, rfl⟩ := List.eq_nil_or_concat cs
  · simp
  · have hlast : (cs ++ [d] ++ c :: rest)[(cs ++ [d]).length - 1]? = some d := by
      rw [List.length_append, List.length_singleton, Nat.add_sub_cancel, List.append_assoc]
      exact getElem?_next cs _ d
    rw [List.concat_eq_append, hlast, List.getLast?_concat]
    simp

theorem EndsFrom.of_next (h : newline ∉ cs)
    (hnext : GivesUp (cs ++ c :: rest) cs.length ∨ EndsCommand (cs ++ c :: rest) cs.length) :
    EndsFrom (cs ++ c :: rest) cs.length := by
  refine ⟨cs.length, Nat.le_refl _, ?_, ?_, hnext⟩
  · rw [List.length_append, List.length_cons]
    omega
  · rw [List.take_left]
    exact h

/-- Behind a newline the parser does not come. -/
theorem EndsFrom.next_of_newline (h : EndsFrom (cs ++ newline :: rest) cs.length) :
    GivesUp (cs ++ newline :: rest) cs.length ∨ EndsCommand (cs ++ newline :: rest) cs.length := by
  obtain ⟨i, hle, hlt, hmem, hi⟩ := h
  obtain rfl | hbehind := Nat.eq_or_lt_of_le hle
  · exact hi
  · refine absurd (List.mem_iff_getElem?.mpr ⟨cs.length, ?_⟩) hmem
    rw [List.getElem?_take_of_lt hbehind]
    exact getElem?_next cs rest newline

theorem endsFrom_succ (hgives : ¬ GivesUp (cs ++ c :: rest) cs.length)
    (hends : ¬ EndsCommand (cs ++ c :: rest) cs.length) :
    EndsFrom (cs ++ c :: rest) cs.length ↔ EndsFrom (cs ++ c :: rest) (cs.length + 1) := by
  refine ⟨fun ⟨i, hle, hrest⟩ => ⟨i, ?_, hrest⟩, fun ⟨i, hle, hrest⟩ => ⟨i, Nat.le_of_succ_le hle, hrest⟩⟩
  obtain rfl | hlt := Nat.eq_or_lt_of_le hle
  · exact absurd hrest.2.2 (not_or_intro hgives hends)
  · exact hlt

theorem atStart_append : AtStart (cs ++ [c]) ↔ c = bar := by
  rw [AtStart, List.getLast?_concat]
  simp

/-- From the middle of a line on, the parser comes to a good end exactly when it ends at the next
character or behind. -/
theorem Midway.loop_iff (h : Midway cs s) (hmalloc : s.mallocCheck = true ↔ AtStart cs)
    (hnew : newline ∉ cs) (hlength : (cs ++ rest).length ≤ maxArgSize) :
    (∃ s', (Parser.loop (cs ++ rest).length rest s >>= Parser.finish) = .ok s' ∧
      ∀ c ∈ s'.pipeline.commands, c.Assigned) ↔ EndsFrom (cs ++ rest) cs.length := by
  induction rest generalizing cs s with
  | nil =>
    refine iff_of_false ?_ ?_
    · rintro ⟨s', hs', -⟩
      rw [Parser.loop] at hs'
      cases hturn : s.turn (cs ++ []).length 0 with
      | ok p =>
        rw [hturn] at hs'
        cases hs'
      | error e =>
        rw [hturn] at hs'
        cases hs'
    · rintro ⟨i, hle, hlt, -⟩
      rw [List.append_nil] at hlt
      omega
  | cons c rest ih =>
    have hcs : cs.length < maxArgSize := by
      rw [List.length_append, List.length_cons] at hlength
      omega
    rw [Parser.loop]
    by_cases hc : c = newline
    · subst hc
      rw [if_pos rfl]
      by_cases hstart : AtStart cs
      · refine iff_of_false ?_ fun hends => ?_
        · rintro ⟨s', hs', -⟩
          have hgarbage := finish_of_garbage (h.unassigned (hmalloc.mpr hstart))
          cases hgarbage.symm.trans hs'
        · obtain hgives | hend := hends.next_of_newline
          · obtain ⟨hc, -⟩ | ⟨hc, -⟩ | ⟨hc, -⟩ := givesUp_iff.mp hgives
            · cases hc
            · cases hc
            · cases hc
          · exact (endsCommand_iff.mp hend).2 hstart
      · refine iff_of_true ?_ (EndsFrom.of_next hnew (.inr (endsCommand_iff.mpr ⟨rfl, hstart⟩)))
        exact (h.finishable (Bool.eq_false_iff.mpr (mt hmalloc.mp hstart)) hcs).finish
    · rw [if_neg hc]
      by_cases hstops : Stops (cs ++ c :: rest).length cs c
      · refine iff_of_true ?_ (EndsFrom.of_next hnew (.inl (givesUp_iff.mpr hstops)))
        obtain ⟨s', hs', hfinish⟩ := h.stops hcs hstops
        rw [hs']
        exact hfinish.finish
      · obtain ⟨s', hs', hmid, hnext⟩ := h.goesOn hcs hstops
        rw [hs', endsFrom_succ (mt givesUp_iff.mp hstops) fun hend => hc (endsCommand_iff.mp hend).1]
        have hline : cs ++ c :: rest = cs ++ [c] ++ rest := by
          rw [List.append_assoc, List.singleton_append]
        have hlen : cs.length + 1 = (cs ++ [c]).length := by
          rw [List.length_append, List.length_singleton]
        rw [hline] at hlength ⊢
        rw [hlen]
        refine ih hmid (hnext.trans atStart_append.symm) ?_ hlength
        rw [List.mem_append, List.mem_singleton]
        exact not_or_intro hnew (Ne.symm hc)

theorem midway_start (heap : Heap) : Midway [] (Parser.start heap) where
  arg := .of_empty rfl (Nat.lt_succ_self 2) (first_of_newBuffer heap 2) (Nat.le_refl 0)
  unassigned := fun _ => rfl
  assigned := fun h => by cases h
  before := fun c hc => by cases hc
  inputPos := rfl
  riCheck := rfl
  roCheck := rfl

/-- The parser comes to its end exactly when the line has one. -/
theorem assigned_iff (heap : Heap) (line : InputLine) :
    (∃ s, pipelineBuild heap line.chars = .ok s ∧ ∀ c ∈ s.pipeline.commands, c.Assigned) ↔
      EndsFrom line.chars 0 := by
  have hfits : ([] ++ line.chars).length ≤ maxArgSize := Nat.le_of_lt line.fits
  have hloop := (midway_start heap).loop_iff (iff_of_true rfl (.inl rfl)) List.not_mem_nil hfits
  rw [pipelineBuild, line.inSize]
  exact hloop

end OSChallenges.Shell
