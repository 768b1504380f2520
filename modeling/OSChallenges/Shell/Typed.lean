import Mathlib.Data.List.Forall2
import OSChallenges.Shell.Leftovers
import OSChallenges.Shell.Wiring

/-!
# What is typed is what runs

A pipeline that has been typed, with any spaces around its words and signs, passes the checks of `main`,
and its commands are executed with the words of the line: as their arguments, and as the names of the
files that they read and write.
-/

namespace OSChallenges.Shell

open Outcomes Runs

/-- A redirect of the line decides, and without one the stream is the one that would be there anyway. -/
def Connected (heap : Heap) (access : Access) (anyway : Option Stream) :
    Option Redirect → Option Stream → Prop
  | none, stream => stream = anyway
  | some r, stream => ∃ path, IsString heap path r.path ∧ stream = some (.file path access)

/-- The child for the command `k` of `n` executes what has been typed. -/
structure RunsAs (heap : Heap) (before : Streams) (pipe n k : Nat) (c : TypedCommand)
    (command : PipelineCommand) (table : Streams) : Prop where
  args : ∀ i w, c.args[i]? = some w → IsString heap (command.commandArgs i) w
  ended : command.commandArgs c.args.length = .null
  input : Connected heap .readOnly (if k = 0 then before stdIn else some (.readEnd pipe)) c.input
    (table stdIn)
  output : Connected heap .writeOnly (if k + 1 = n then before stdOut else some (.writeEnd pipe)) c.output
    (table stdOut)
  others : ∀ fd, fd ≠ stdIn → fd ≠ stdOut → table fd = before fd

variable {heap : Heap} {before : Streams} {pipe n k : Nat} {c : TypedCommand} {command : PipelineCommand}
  {path : Pointer} {r : Option Redirect} {access : Access} {anyway : Option Stream}

theorem isPath_null (h : IsPath heap path r) : path = .null ↔ r = none := by
  cases r with
  | none => exact iff_of_true h rfl
  | some r =>
    obtain ⟨b, rfl, -⟩ := h
    exact iff_of_false nofun nofun

theorem connected_of_isPath (h : IsPath heap path r) :
    Connected heap access anyway r (if path = .null then anyway else some (.file path access)) := by
  cases r with
  | none =>
    have hnull : path = .null := h
    rw [if_pos hnull]
    rfl
  | some r =>
    rw [if_neg fun hnull => nomatch (isPath_null h).mp hnull]
    exact ⟨path, h, rfl⟩

/-- The pipe goes before a file, but no command that has been typed asks for both. -/
theorem runsAs_wiring (h : InStrings heap c command) (hin : k ≠ 0 → c.input = none)
    (hout : k + 1 ≠ n → c.output = none) (hk : k < n) :
    RunsAs heap before pipe n k c command (wiring before pipe n k command) where
  args := h.args
  ended := h.ended
  input := by
    show Connected heap .readOnly _ c.input (standardIn before pipe k command)
    rw [standardIn]
    by_cases hfirst : k = 0
    · rw [if_neg (not_not_intro hfirst), if_pos hfirst]
      exact connected_of_isPath h.redirectIn
    · rw [if_pos hfirst, if_neg hfirst, hin hfirst]
      rfl
  output := by
    have hdistinct : stdOut ≠ stdIn := by decide
    show Connected heap .writeOnly _ c.output (wiring before pipe n k command stdOut)
    rw [wiring, if_neg hdistinct, if_pos rfl, standardOut]
    by_cases hlast : k + 1 = n
    · rw [if_pos hlast, if_neg (Nat.not_lt.mpr (Nat.le_of_eq hlast.symm))]
      exact connected_of_isPath h.redirectOut
    · rw [if_neg hlast, if_pos (Nat.lt_of_le_of_ne hk hlast), hout hlast]
      rfl
  others := fun fd hfd hfd' => by
    rw [wiring, if_neg hfd, if_neg hfd']

/-! ### The line -/

theorem forall_of_forall₂ {α β : Type} {R : α → β → Prop} {P : α → Prop} {Q : β → Prop}
    (himp : ∀ a b, R a b → P a → Q b) {as : List α} {bs : List β} (h : List.Forall₂ R as bs)
    (hP : ∀ a ∈ as, P a) : ∀ b ∈ bs, Q b := by
  induction h with
  | nil => exact fun b hb => absurd hb List.not_mem_nil
  | cons hfirst hrest ih =>
    rw [List.forall_mem_cons] at hP ⊢
    exact ⟨himp _ _ hfirst hP.1, ih hP.2⟩

variable {old : Heap} {l : TypedLine} {p : Parser}

theorem legal_of_inStrings (h : List.Forall₂ (InStrings p.heap) l.commands p.pipeline.commands) :
    Legal p.pipeline.commands := by
  constructor
  · have htail := List.forall₂_drop 1 h
    rw [List.drop_one, List.drop_one] at htail
    exact forall_of_forall₂ (fun c command hc hnone => (isPath_null hc.redirectIn).mpr hnone) htail
      l.inputFirst
  · have hinit := List.forall₂_take (l.commands.length - 1) h
    rw [← List.dropLast_eq_take, h.length_eq, ← List.dropLast_eq_take] at hinit
    exact forall_of_forall₂ (fun c command hc hnone => (isPath_null hc.redirectOut).mpr hnone) hinit
      l.outputLast

theorem refusal_of_typed (h : List.Forall₂ (InStrings p.heap) l.commands p.pipeline.commands)
    (hlength : l.text.length ≤ 511) (hbuild : pipelineBuild old l.text = .ok p) (errorMessage : String) :
    refusal p errorMessage = none := by
  obtain ⟨p', hbuild', hbuilt⟩ := l.built old hlength
  cases hbuild.symm.trans hbuild'
  refine refusal_eq_none.mpr ⟨?_, hbuilt.doubleRedirectCheck, hbuilt.ampersandPosCheck⟩
  exact (legal_iff_checked.mp (legal_of_inStrings h)).1

theorem input_of_later (hc : l.commands[k]? = some c) (hk : k ≠ 0) : c.input = none := by
  refine l.inputFirst c (List.mem_iff_getElem?.mpr ⟨k - 1, ?_⟩)
  rw [List.getElem?_tail, Nat.sub_add_cancel (Nat.pos_of_ne_zero hk), hc]

theorem output_of_earlier (hc : l.commands[k]? = some c) (hk : k + 1 ≠ l.commands.length) :
    c.output = none := by
  obtain ⟨hlt, -⟩ := List.getElem?_eq_some_iff.mp hc
  refine l.outputLast c (List.mem_iff_getElem?.mpr ⟨k, ?_⟩)
  rw [List.getElem?_dropLast, if_pos (by omega), hc]

namespace MainLoop

variable {inherited : List (Option Nat)}

/-- If zeros have been left behind its words, a line that has been typed is not refused, and whenever the
shell runs it, each command that is executed is the one of the line, with its arguments, its files and
its places at the pipe. -/
theorem typed_runs (hin : startedWith inherited stdIn ≠ none) (hout : startedWith inherited stdOut ≠ none)
    {run : List (LoopAction × MainLoop)} (hrun : EachStep Step (start inherited) run)
    (hlength : l.text.length ≤ 511) (hclear : l.Clear old) (hbuild : pipelineBuild old l.text = .ok p) :
    (∀ errorMessage, refusal p errorMessage = none) ∧
      Always (fun s => s.pipeLine = some p → ∀ (k : Nat) (child : Child), s.children[k]? = some child →
        child.code = .ret true → ∃ c command, l.commands[k]? = some c ∧ s.commands[k]? = some command ∧
          RunsAs p.heap (startedWith inherited) s.pipes l.commands.length k c command child.table)
        (start inherited) run := by
  obtain ⟨p', hbuild', -, hstrings, -⟩ := (l.inMemory_iff hlength).mpr hclear
  cases hbuild.symm.trans hbuild'
  refine ⟨refusal_of_typed hstrings hlength hbuild, ?_⟩
  refine (commands_wired hin hout hrun).mono fun s hs hpipe k child hchild hcode => ?_
  obtain ⟨command, hcommand, hwired, -⟩ := hs.1 k child hchild
  have hcommands : s.commands = p.pipeline.commands := by
    rw [commands, hpipe]
  rw [hcommands] at hcommand hwired ⊢
  obtain ⟨hlt, hget⟩ := List.getElem?_eq_some_iff.mp hcommand
  have hlt' : k < l.commands.length := hstrings.length_eq ▸ hlt
  obtain ⟨c, hc⟩ : ∃ c, l.commands[k]? = some c := ⟨_, List.getElem?_eq_getElem hlt'⟩
  have hin' : InStrings p.heap c command := by
    obtain ⟨hlt₁, hget₁⟩ := List.getElem?_eq_some_iff.mp hc
    rw [← hget, ← hget₁]
    exact hstrings.get hlt₁ hlt
  refine ⟨c, command, hc, hcommand, ?_⟩
  rw [hwired hcode, ← hstrings.length_eq]
  exact runsAs_wiring hin' (input_of_later hc) (output_of_earlier hc) hlt'

theorem pipeLine_of_step {s s' : MainLoop} {a : LoopAction} (ha : ∀ heap line, a ≠ .readLine heap line)
    (hstep : Step s a s') : s'.pipeLine = s.pipeLine := by
  cases moved_of_step hstep with
  | readLine hdone hbuild hfits => exact absurd rfl (ha _ _)
  | _ => rfl

theorem step_readLine {s : MainLoop} {heap : Heap} {line : InputLine} {p : Parser} (hdone : s.point = .done)
    (hbuild : pipelineBuild heap line.chars = .ok p) (hfits : p.overflow = false) :
    s.step (.readLine heap line) = some (s.check p) := by
  rw [step, if_pos hdone, hbuild]
  exact if_neg (Bool.eq_false_iff.mp hfits)

def countingInput : InputLine := ⟨counting.text, by decide, by decide⟩

def countingRun : List (LoopAction × MainLoop) :=
  trail taken (start [some 0, some 1, some 2]) (.readLine (fun _ _ => 0) countingInput :: firstCommand)

theorem countingRun_executes :
    (last (start [some 0, some 1, some 2]) countingRun).children[0]?.any Child.executes = true := by
  decide +kernel

theorem countingRun_pipeLine {p : Parser} (hbuild : pipelineBuild (fun _ _ => 0) counting.text = .ok p)
    (hfits : p.overflow = false) :
    (last (start [some 0, some 1, some 2]) countingRun).pipeLine = some p := by
  have hfirst : countingRun = (.readLine (fun _ _ => 0) countingInput,
      (start [some 0, some 1, some 2]).check p) ::
        trail taken ((start [some 0, some 1, some 2]).check p) firstCommand := by
    have hread : taken (start [some 0, some 1, some 2]) (.readLine (fun _ _ => 0) countingInput) =
        .ok ((start [some 0, some 1, some 2]).check p) := by
      rw [taken, step_readLine rfl hbuild hfits]
    rw [countingRun, trail, hread]
  have hrest : EachStep (fun s a s' => (∀ heap line, a ≠ .readLine heap line) ∧ taken s a = .ok s')
      ((start [some 0, some 1, some 2]).check p)
      (trail taken ((start [some 0, some 1, some 2]).check p) firstCommand) := by
    refine eachStep_trail_forall fun a ha heap line heq => ?_
    subst heq
    simp [firstCommand] at ha
  rw [hfirst]
  have hchecked : ((start [some 0, some 1, some 2]).check p).pipeLine = some p := by
    rw [check]
    split
    · rfl
    · rfl
  exact (hrest.always (I := fun s => s.pipeLine = some p)
    (fun s a s' hs h => (pipeLine_of_step h.1 (of_taken h.2)).trans hs) hchecked).last

/-- `wc` reads from `in` and writes to the pipe. -/
theorem typed_runs_counting : ∃ p child c command,
    pipelineBuild (fun _ _ => 0) counting.text = .ok p ∧ refusal p "" = none ∧
      (last (start [some 0, some 1, some 2]) countingRun).children[0]? = some child ∧
      counting.commands[0]? = some c ∧
      RunsAs p.heap (startedWith [some 0, some 1, some 2])
        (last (start [some 0, some 1, some 2]) countingRun).pipes 2 0 c command child.table := by
  have hlength : counting.text.length ≤ 511 := by decide
  have hclear : counting.Clear (fun _ _ => 0) := by decide
  obtain ⟨p, hbuild, hfits, -⟩ := (counting.inMemory_iff hlength).mpr hclear
  have hrun : EachStep Step (start [some 0, some 1, some 2]) countingRun :=
    (eachStep_trail taken _ _).mono fun _ _ _ h => of_taken h
  have hchild := countingRun_executes
  rw [Option.any_eq_true] at hchild
  obtain ⟨child, hchild, hexecutes⟩ := hchild
  obtain ⟨haccepted, halways⟩ :=
    typed_runs (by decide) (by decide) hrun hlength hclear hbuild
  obtain ⟨c, command, hc, -, hruns⟩ := halways.last (countingRun_pipeLine hbuild hfits) 0 child hchild
    (Child.code_of_executes hexecutes)
  exact ⟨p, child, c, command, hbuild, haccepted "", hchild, hc, hruns⟩

end MainLoop

end OSChallenges.Shell
