import OSChallenges.Library.Outcomes
import OSChallenges.Shell.Model

/-!
# What the parser has done

The state that each operation of the parser leaves if it succeeds.
-/

namespace OSChallenges.Shell

open Outcomes

theorem PipelineCommand.of_arg {c : PipelineCommand} {i : Nat} {p : Pointer} (h : c.arg i = .ok p) :
    i < maxArgvLength ∧ c.commandArgs i = p := by
  rw [PipelineCommand.arg] at h
  split at h
  · rename_i hlt
    exact ⟨hlt, Except.ok.inj h⟩
  · cases h

theorem PipelineCommand.of_setArg {c c' : PipelineCommand} {i : Nat} {p : Pointer}
    (h : c.setArg i p = .ok c') : i < maxArgvLength ∧
      c' = { c with commandArgs := Function.update c.commandArgs i p } := by
  rw [PipelineCommand.setArg] at h
  split at h
  · rename_i hlt
    exact ⟨hlt, (Except.ok.inj h).symm⟩
  · cases h

namespace Parser

variable {s s' : Parser} {c : UInt8} {p : Pointer}

theorem of_firstByte {first : UInt8} (h : s.firstByte p = .ok first) :
    ∃ b, p = .block b ∧ s.heap b 0 = first := by
  cases p with
  | garbage => cases h
  | null => cases h
  | block b => exact ⟨b, rfl, Except.ok.inj h⟩

theorem of_closeArgs (h : s.closeArgs = .ok s') : ∃ b k,
    s.currentCommand.commandArgs s.commandArgPos = .block b ∧
    (if s.heap b 0 = ampersand then s.commandArgPos else s.commandArgPos + 1) = k ∧
    k < maxArgvLength ∧ s' = { s with currentCommand := { s.currentCommand with
      commandArgs := Function.update s.currentCommand.commandArgs k .null } } := by
  obtain ⟨arg, harg, h⟩ := ok_of_bind h
  obtain ⟨first, hfirst, h⟩ := ok_of_bind h
  obtain ⟨command, hcommand, h⟩ := ok_of_bind h
  obtain ⟨b, rfl, rfl⟩ := of_firstByte hfirst
  obtain ⟨hlt, rfl⟩ := PipelineCommand.of_setArg hcommand
  exact ⟨b, _, (PipelineCommand.of_arg harg).2, rfl, hlt, (ok_of_pure h).symm⟩

theorem of_closeRedirects (h : s.closeRedirects = .ok s') : ∃ redirectIn redirectOut,
    s' = { s with currentCommand := { s.currentCommand with
      redirectInPath := redirectIn
      redirectOutPath := redirectOut } } := by
  obtain ⟨redirectIn, -, h⟩ := ok_of_bind h
  obtain ⟨redirectOut, -, h⟩ := ok_of_bind h
  exact ⟨redirectIn, redirectOut, (ok_of_pure h).symm⟩

/-- Both ends of a command, the one at a bar and the one behind the loop, close the arguments and the
redirects. -/
theorem of_nextCommand (h : s.nextCommand = .ok s') : ∃ s₁ s₂, s.closeArgs = .ok s₁ ∧
    s₁.closeRedirects = .ok s₂ ∧ s' = { s₂.newCommand with
      mallocCheck := true
      argStorePos := 0
      redirectInPos := 0
      redirectOutPos := 0
      commandArgPos := 0
      inCheck := false
      outCheck := false } := by
  obtain ⟨s₁, hargs, h⟩ := ok_of_bind h
  obtain ⟨s₂, hredirects, h⟩ := ok_of_bind h
  exact ⟨s₁, s₂, hargs, hredirects, (ok_of_pure h).symm⟩

/-- A space moves on to a new buffer if there is something in the old one and no sign is before it. -/
theorem of_nextArg (h : s.nextArg = .ok s') : ∃ b,
    s.currentCommand.commandArgs s.commandArgPos = .block b ∧
    (s' = s ∧ (s.heap b 0 = ampersand ∨ s.inCheck = true ∨ s.outCheck = true) ∨
      s.heap b 0 ≠ ampersand ∧ s.inCheck = false ∧ s.outCheck = false ∧
      s' = { s.newBuffer.2 with
        commandArgPos := s.commandArgPos + 1
        currentCommand := { s.currentCommand with
          commandArgs :=
            Function.update s.currentCommand.commandArgs (s.commandArgPos + 1) s.newBuffer.1 }
        argStorePos := 0 }) := by
  obtain ⟨arg, harg, h⟩ := ok_of_bind h
  obtain ⟨first, hfirst, h⟩ := ok_of_bind h
  obtain ⟨b, rfl, rfl⟩ := of_firstByte hfirst
  refine ⟨b, (PipelineCommand.of_arg harg).2, ?_⟩
  split at h
  · rename_i hmoves
    rw [Bool.not_eq_true', Bool.not_eq_true'] at hmoves
    obtain ⟨command, hcommand, h⟩ := ok_of_bind h
    obtain ⟨-, rfl⟩ := PipelineCommand.of_setArg hcommand
    exact .inr ⟨hmoves.1, hmoves.2.1, hmoves.2.2, (ok_of_pure h).symm⟩
  · rename_i hstays
    rw [Bool.not_eq_true', Bool.not_eq_true', not_and_or, not_and_or, not_not, Bool.not_eq_false,
      Bool.not_eq_false] at hstays
    exact .inl ⟨(ok_of_pure h).symm, hstays⟩

/-- A letter is behind a pointer, at a position of the block there. -/
def stored (s : Parser) (b pos : Nat) (letter : UInt8) : Parser :=
  { s with
    heap := Function.update s.heap b (Function.update (s.heap b) pos letter)
    overflow := s.overflow || bufferSize ≤ pos }

/-- Which string gets a letter. -/
inductive Inserted (s : Parser) (letter : UInt8) : Parser → Prop
  | input {b : Nat} (mode : s.inCheck = true) (path : s.currentCommand.redirectInPath = .block b) :
      Inserted s letter
        { s.stored b s.redirectInPos letter with redirectInPos := s.redirectInPos + 1 }
  | output {b : Nat} (before : s.inCheck = false) (mode : s.outCheck = true)
      (path : s.currentCommand.redirectOutPath = .block b) : Inserted s letter
        { s.stored b s.redirectOutPos letter with redirectOutPos := s.redirectOutPos + 1 }
  | arg {b : Nat} (before : s.inCheck = false) (mode : s.outCheck = false)
      (arg : s.currentCommand.commandArgs s.commandArgPos = .block b) : Inserted s letter
        { s.stored b s.argStorePos letter with argStorePos := s.argStorePos + 1 }

theorem inserted (h : s.insert c = .ok s') : Inserted s c s' := by
  have hstore : ∀ {pos p s₁}, s.store c pos p = .ok s₁ → ∃ b, p = .block b ∧ s₁ = s.stored b pos c := by
    intro pos p s₁ h
    cases p with
    | garbage => cases h
    | null => cases h
    | block b => exact ⟨b, rfl, (Except.ok.inj h).symm⟩
  obtain ⟨arg, harg, h⟩ := ok_of_bind h
  rw [characterInsert] at h
  split at h
  · rename_i hin
    obtain ⟨s₁, hs₁, h⟩ := ok_of_bind h
    obtain ⟨b, hb, rfl⟩ := hstore hs₁
    cases ok_of_pure h
    exact .input hin hb
  · rename_i hin
    split at h
    · rename_i hout
      obtain ⟨s₁, hs₁, h⟩ := ok_of_bind h
      obtain ⟨b, hb, rfl⟩ := hstore hs₁
      cases ok_of_pure h
      exact .output (Bool.eq_false_iff.mpr hin) hout hb
    · rename_i hout
      obtain ⟨s₁, hs₁, h⟩ := ok_of_bind h
      obtain ⟨b, rfl, rfl⟩ := hstore hs₁
      cases ok_of_pure h
      exact .arg (Bool.eq_false_iff.mpr hin) (Bool.eq_false_iff.mpr hout) (PipelineCommand.of_arg harg).2

theorem of_insert (h : s.insert c = .ok s') : ∃ b pos argStorePos redirectInPos redirectOutPos,
    (s.currentCommand.commandArgs s.commandArgPos = .block b ∨
      s.currentCommand.redirectInPath = .block b ∨ s.currentCommand.redirectOutPath = .block b) ∧
    s' = { s.stored b pos c with
      argStorePos := argStorePos
      redirectInPos := redirectInPos
      redirectOutPos := redirectOutPos } := by
  cases inserted h with
  | input mode path => exact ⟨_, _, _, _, _, .inr (.inl path), rfl⟩
  | output before mode path => exact ⟨_, _, _, _, _, .inr (.inr path), rfl⟩
  | arg before mode arg => exact ⟨_, _, _, _, _, .inl arg, rfl⟩

/-- What a turn does after the allocation of the redirect paths, one case for each kind of character and
for each sign that makes the parser give up. -/
inductive Turned (s : Parser) (inSize : Int) : UInt8 → Bool → Parser → Prop
  | background (last : (s.inputPos : Int) = inSize - 2) :
      Turned s inSize ampersand true { s with isBackground := true, inputPos := s.inputPos + 1 }
  | misplaced : Turned s inSize ampersand false
      { s with isBackground := true, ampersandPosCheck := true }
  | input : Turned s inSize less true
      { s with inCheck := true, outCheck := false, riCheck := s.riCheck + 1, inputPos := s.inputPos + 1 }
  | secondInput : Turned s inSize less false
      { s with inCheck := true, outCheck := false, riCheck := s.riCheck + 1, doubleRedirectCheck := true }
  | output : Turned s inSize greater true
      { s with outCheck := true, inCheck := false, roCheck := s.roCheck + 1, inputPos := s.inputPos + 1 }
  | secondOutput : Turned s inSize greater false
      { s with outCheck := true, inCheck := false, roCheck := s.roCheck + 1, doubleRedirectCheck := true }
  | bar {s' : Parser} (next : s.nextCommand = .ok s') :
      Turned s inSize bar true { s' with inputPos := s'.inputPos + 1 }
  | space {s' : Parser} (next : s.nextArg = .ok s') :
      Turned s inSize space true { s' with inputPos := s'.inputPos + 1 }
  | letter {c : UInt8} {s' : Parser} (other : c ≠ ampersand) (plain : c ≠ less ∧ c ≠ greater ∧
      c ≠ Shell.bar ∧ c ≠ Shell.space) (next : s.insert c = .ok s') :
      Turned s inSize c true { s' with inputPos := s'.inputPos + 1 }

theorem turned {inSize : Int} {more : Bool} (h : s.turn inSize c = .ok (more, s')) :
    Turned s.allocateRedirects inSize c more s' := by
  unfold turn at h
  generalize s.allocateRedirects = s₁ at h ⊢
  by_cases hamp : c = ampersand
  · subst hamp
    rw [if_pos rfl] at h
    change (if (s₁.inputPos : Int) ≠ inSize - 2 then _ else _) = _ at h
    split at h
    · cases h
      exact .misplaced
    · rename_i hlast
      cases h
      exact .background (not_not.mp hlast)
  rw [if_neg hamp] at h
  by_cases hless : c = less
  · subst hless
    rw [if_pos rfl] at h
    change (if 1 < s₁.riCheck + 1 then _ else _) = _ at h
    split at h
    · cases h
      exact .secondInput
    · cases h
      exact .input
  rw [if_neg hless] at h
  by_cases hgreater : c = greater
  · subst hgreater
    rw [if_pos rfl] at h
    change (if 1 < s₁.roCheck + 1 then _ else _) = _ at h
    split at h
    · cases h
      exact .secondOutput
    · cases h
      exact .output
  rw [if_neg hgreater] at h
  by_cases hbar : c = Shell.bar
  · subst hbar
    rw [if_pos rfl] at h
    obtain ⟨s₂, hnext, h⟩ := ok_of_bind h
    cases ok_of_pure h
    exact .bar hnext
  rw [if_neg hbar] at h
  by_cases hspace : c = Shell.space
  · subst hspace
    rw [if_pos rfl] at h
    obtain ⟨s₂, hnext, h⟩ := ok_of_bind h
    cases ok_of_pure h
    exact .space hnext
  rw [if_neg hspace] at h
  obtain ⟨s₂, hnext, h⟩ := ok_of_bind h
  cases ok_of_pure h
  exact .letter hamp ⟨hless, hgreater, hbar, hspace⟩ hnext

end Parser

end OSChallenges.Shell
