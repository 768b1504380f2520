import OSChallenges.Shell.Steps
import Mathlib.Tactic.Common

/-!
# What the shell checks

`errorCheck` goes over the commands once. Behind the first command it looks for input redirects only, so
that an output redirect of a command in the middle passes. The ampersand is checked by the parser, which
gives up at one that is not the last character but one.
-/

namespace OSChallenges.Shell

open Outcomes Words

/-- The loop of `errorCheck`: whether it returns 1, and the message. -/
def checkCommands (afterFirstCommand : Bool) (errorMessage : String) :
    List PipelineCommand → Bool × String
  | [] => (false, errorMessage)
  | currentCommand :: next =>
    if afterFirstCommand then
      if currentCommand.redirectInPath ≠ .null then
        (true, "ERROR: redirect in file only allowed for first command\n")
      else checkCommands true errorMessage next
    else if !next.isEmpty then
      if currentCommand.redirectOutPath ≠ .null then
        (true, "ERROR: redirect out file only allowed for final command\n")
      else checkCommands true errorMessage next
    else checkCommands true errorMessage next

def errorCheck (pipe : Pipeline) (errorMessage : String) : Bool × String :=
  checkCommands false errorMessage pipe.commands

/-- What `main` prints in place of running the commands. -/
def refusal (s : Parser) (errorMessage : String) : Option String :=
  let (error, errorMessage) := errorCheck s.pipeline errorMessage
  if error then some errorMessage
  else if s.doubleRedirectCheck then
    some "ERROR: << or >> not allowed, please use single < or >\n"
  else if s.ampersandPosCheck then some "ERROR: & may only be inputed at the end of the input\n"
  else none

/-! ### Legal lines -/

/-- Input comes from a file for the first command only, and output goes to one for the last only. -/
def Legal (commands : List PipelineCommand) : Prop :=
  (∀ c ∈ commands.tail, c.redirectInPath = .null) ∧
    ∀ c ∈ commands.dropLast, c.redirectOutPath = .null

instance decidableLegal (commands : List PipelineCommand) : Decidable (Legal commands) :=
  inferInstanceAs (Decidable (_ ∧ _))

variable {s s' : Parser} {c : UInt8} {line rest : List UInt8} {commands : List PipelineCommand}
  {errorMessage : String}

/-! ### The commands -/

theorem checkCommands_later :
    (checkCommands true errorMessage commands).1 = false ↔ ∀ c ∈ commands, c.redirectInPath = .null := by
  induction commands with
  | nil => exact iff_of_true rfl fun c hc => by cases hc
  | cons c next ih =>
    rw [checkCommands, if_pos rfl, List.forall_mem_cons]
    by_cases hin : c.redirectInPath = .null
    · rw [if_neg (not_not_intro hin), ih]
      exact (and_iff_right hin).symm
    · rw [if_pos hin]
      exact iff_of_false Bool.true_eq_false.mp fun h => hin h.1

/-- Of the output redirects only that of the first command is looked at. -/
theorem checkCommands_first : (checkCommands false errorMessage commands).1 = false ↔
    (∀ c ∈ commands.tail, c.redirectInPath = .null) ∧
      ∀ c ∈ commands.dropLast.head?, c.redirectOutPath = .null := by
  cases commands with
  | nil => simp [checkCommands]
  | cons c next =>
    rw [checkCommands, if_neg Bool.false_ne_true]
    cases next with
    | nil => simp [checkCommands]
    | cons d next =>
      have hhead : (∀ c' ∈ (c :: d :: next).dropLast.head?, c'.redirectOutPath = .null) ↔
          c.redirectOutPath = .null := by
        simp
      have hnext : (!(d :: next).isEmpty) = true := rfl
      rw [hhead, if_pos hnext]
      by_cases hout : c.redirectOutPath = .null
      · rw [if_neg (not_not_intro hout), checkCommands_later]
        exact (and_iff_left hout).symm
      · rw [if_pos hout]
        exact iff_of_false Bool.true_eq_false.mp fun h => hout h.2

theorem forall_dropLast {p : PipelineCommand → Prop} : (∀ c ∈ commands.dropLast, p c) ↔
    (∀ c ∈ commands.dropLast.head?, p c) ∧ ∀ c ∈ commands.tail.dropLast, p c := by
  cases commands with
  | nil => simp
  | cons c next =>
    cases next with
    | nil => simp
    | cons d next => simp

/-- The check and the law differ where the only fault is in the middle. -/
theorem legal_iff_checked : Legal commands ↔ (checkCommands false errorMessage commands).1 = false ∧
    ∀ c ∈ commands.tail.dropLast, c.redirectOutPath = .null := by
  rw [Legal, checkCommands_first, forall_dropLast, and_assoc]

/-- The position and the two flags are the same. -/
structure SameFlags (s s' : Parser) : Prop where
  inputPos : s'.inputPos = s.inputPos
  doubleRedirectCheck : s'.doubleRedirectCheck = s.doubleRedirectCheck
  ampersandPosCheck : s'.ampersandPosCheck = s.ampersandPosCheck

theorem SameFlags.refl (s : Parser) : SameFlags s s := ⟨rfl, rfl, rfl⟩

theorem SameFlags.trans {s₁ s₂ s₃ : Parser} (h : SameFlags s₁ s₂) (h' : SameFlags s₂ s₃) :
    SameFlags s₁ s₃ :=
  ⟨h'.inputPos.trans h.inputPos, h'.doubleRedirectCheck.trans h.doubleRedirectCheck,
    h'.ampersandPosCheck.trans h.ampersandPosCheck⟩

theorem refusal_eq_none : refusal s errorMessage = none ↔ (errorCheck s.pipeline errorMessage).1 = false ∧
    s.doubleRedirectCheck = false ∧ s.ampersandPosCheck = false := by
  rw [refusal]
  obtain ⟨error, message⟩ := errorCheck s.pipeline errorMessage
  cases error with
  | true => simp
  | false =>
    cases s.doubleRedirectCheck with
    | true => simp
    | false =>
      cases s.ampersandPosCheck with
      | true => simp
      | false => simp

/-- `a<x|b>y&` and a newline. -/
def legalLine : List UInt8 := [97, 60, 120, 124, 98, 62, 121, 38, 10]

end OSChallenges.Shell
