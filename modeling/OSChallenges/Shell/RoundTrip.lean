import OSChallenges.Shell.Commands

/-!
# Parsing undoes printing

However a pipeline is typed, with whatever spaces between its words and signs, `pipeline_build`
returns its commands. What a buffer held before stays in it behind the word.
-/

namespace OSChallenges.Shell

/-- The bytes that have been written to the string are those of the word. -/
def Holds (old heap : Heap) (p : Pointer) (w : Word) : Prop :=
  ∃ b, p = .block b ∧ heap b = fun o => w.chars.getD o (old b o)

def HoldsPath (old heap : Heap) (p : Pointer) : Option Redirect → Prop
  | none => p = .null
  | some r => Holds old heap p r.path

/-- The command has the arguments and the paths of the typed one. -/
structure Returned (old heap : Heap) (c : TypedCommand) (command : PipelineCommand) : Prop where
  args : ∀ i w, c.args[i]? = some w → Holds old heap (command.commandArgs i) w
  ended : command.commandArgs c.args.length = .null
  redirectIn : HoldsPath old heap command.redirectInPath c.input
  redirectOut : HoldsPath old heap command.redirectOutPath c.output

/-- The words of a command, its paths included. -/
def TypedCommand.words (c : TypedCommand) : List Word :=
  c.args ++ (c.input.map Redirect.path).toList ++ (c.output.map Redirect.path).toList

/-- Every word leaves room for a zero in its buffer. -/
def TypedCommand.WellFormed (c : TypedCommand) : Prop := ∀ w ∈ c.words, w.chars.length < bufferSize

instance (c : TypedCommand) : Decidable c.WellFormed := inferInstanceAs (Decidable (∀ w ∈ c.words, _))

section

variable {old heap : Heap} {k : Nat} {c : TypedCommand} {command : PipelineCommand}

theorem filled_chars (old : Heap) (b : Nat) (w : Word) :
    filled old b w.chars = fun o => w.chars.getD o (old b o) := if_neg w.nonempty

theorem PathParsed.holdsPath {b : Nat} {p : Pointer} {r : Option Redirect}
    (h : PathParsed old heap b p r) : HoldsPath old heap p r := by
  cases r with
  | none => exact h
  | some r => exact ⟨b, h.1, h.2.trans (filled_chars old b r.path)⟩

theorem Parsed.returned (h : Parsed old heap k c command) : Returned old heap c command where
  args := by
    intro i w hw
    obtain ⟨harg, hheld⟩ := h.args i w hw
    exact ⟨_, harg, hheld.trans (filled_chars old _ w)⟩
  ended := h.ended
  redirectIn := h.redirectIn.holdsPath
  redirectOut := h.redirectOut.holdsPath

theorem forall₂_of_layout {R : Nat × TypedCommand → PipelineCommand → Prop}
    {Q : TypedCommand → PipelineCommand → Prop} (hQ : ∀ k c command, R (k, c) command → Q c command)
    {commands : List TypedCommand} {new : List PipelineCommand}
    (h : List.Forall₂ R (layout k commands) new) : List.Forall₂ Q commands new := by
  induction commands generalizing k new with
  | nil =>
    cases h with
    | nil => exact .nil
  | cons c rest ih =>
    cases h with
    | cons hfirst hrest => exact .cons (hQ _ _ _ hfirst) (ih hrest)

theorem TypedCommand.WellFormed.short (h : c.WellFormed) : c.Short := by
  refine ⟨fun w hw => Nat.le_of_lt (h w ?_), ?_, ?_⟩
  · exact List.mem_append_left _ (List.mem_append_left _ hw)
  · cases hin : c.input with
    | none => exact Nat.zero_le _
    | some r => exact Nat.le_of_lt (h r.path (by simp [words, hin]))
  · cases hout : c.output with
    | none => exact Nat.zero_le _
    | some r => exact Nat.le_of_lt (h r.path (by simp [words, hout]))

end

theorem pipelineBuild_text (old : Heap) (l : TypedLine) (hlength : l.text.length ≤ 511)
    (hwords : ∀ c ∈ l.commands, c.WellFormed) : ∃ s, pipelineBuild old l.text = .ok s ∧
      List.Forall₂ (Returned old s.heap) l.commands s.pipeline.commands ∧
      (l.background = true → s.pipeline.isBackground = true) ∧
      s.doubleRedirectCheck = false ∧ s.ampersandPosCheck = false ∧ s.overflow = false := by
  obtain ⟨s, hbuild, hbuilt⟩ := l.built old hlength
  obtain ⟨new, hlist, hparsed⟩ := hbuilt.list
  have hcommands : s.pipeline.commands = new := hlist
  refine ⟨s, hbuild, ?_, ?_, hbuilt.doubleRedirectCheck, hbuilt.ampersandPosCheck, ?_⟩
  · rw [hcommands]
    exact forall₂_of_layout (fun k c command h => h.returned) hparsed
  · intro hset
    show s.isBackground = true
    rw [hbuilt.isBackground, hset]
    rfl
  · exact hbuilt.overflow fun c hc => (hwords c hc).short

/-- `wc  -l<in|cat >  out &`. -/
def counting : TypedLine where
  commands := [
    { lead := 0
      first := ⟨[119, 99], by decide, plain_of_all (by decide)⟩
      more := [(1, ⟨[45, 108], by decide, plain_of_all (by decide)⟩)]
      input := some ⟨0, 0, ⟨[105, 110], by decide, plain_of_all (by decide)⟩⟩
      output := none
      outputFirst := false
      trail := 0 },
    { lead := 0
      first := ⟨[99, 97, 116], by decide, plain_of_all (by decide)⟩
      more := []
      input := none
      output := some ⟨1, 2, ⟨[111, 117, 116], by decide, plain_of_all (by decide)⟩⟩
      outputFirst := false
      trail := 1 }]
  background := true
  nonempty := by simp
  inputFirst := by simp
  outputLast := by simp

theorem pipelineBuild_counting : ∃ s, pipelineBuild (fun _ _ => 255) counting.text = .ok s ∧
    List.Forall₂ (Returned (fun _ _ => 255) s.heap) counting.commands s.pipeline.commands ∧
    (counting.background = true → s.pipeline.isBackground = true) ∧
    s.doubleRedirectCheck = false ∧ s.ampersandPosCheck = false ∧ s.overflow = false :=
  pipelineBuild_text _ counting (by decide) (by decide)

end OSChallenges.Shell
