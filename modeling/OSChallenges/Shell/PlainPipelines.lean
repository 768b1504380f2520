import OSChallenges.Shell.EndOfFile
import OSChallenges.Shell.Wiring

/-!
# Pipelines without redirections in the loop of the shell

Without redirections the code of a child is the list of its calls. From such a pipeline to the next line
the loop of the shell therefore takes exactly the steps of the processes of the pipeline, and what holds of
these holds of every pipeline that the shell comes to, however many lines there have been before.
-/

namespace OSChallenges.Shell

open Program Runs

variable {n k : Nat} {flowThru : Nat × Nat} {command : PipelineCommand} {calls : List Syscall}

/-- The code of a child that comes to `execvp` after these calls. -/
def execvpAfter : List Syscall → ChildCode Bool
  | [] => .ret true
  | .close fd :: calls => .op (.close fd) fun _ => execvpAfter calls
  | .dup2 old new :: calls => .op (.dup2 old new) fun _ => execvpAfter calls

theorem redirect_null (access : Access) (std : Nat) : redirect .null access std = .ret true := by
  rw [redirect, if_pos rfl]
  rfl

theorem childCode_eq (hin : command.redirectInPath = .null) (hout : command.redirectOutPath = .null) :
    childCode n k command flowThru = execvpAfter (childCalls n k flowThru) := by
  rw [childCode, hin, hout, redirect_null, redirect_null, childCalls]
  by_cases hmore : k + 1 < n
  · by_cases hk : k ≠ 0
    · rw [decide_eq_true hmore, decide_eq_true hk, if_pos hmore, if_pos hk]
      rfl
    · rw [decide_eq_true hmore, decide_eq_false hk, if_pos hmore, if_neg hk]
      rfl
  · by_cases hk : k ≠ 0
    · rw [decide_eq_false hmore, decide_eq_true hk, if_neg hmore, if_pos hk]
      rfl
    · rw [decide_eq_false hmore, decide_eq_false hk, if_neg hmore, if_neg hk]
      rfl

theorem execvpAfter_injective : Function.Injective execvpAfter := by
  intro calls calls' h
  induction calls generalizing calls' with
  | nil =>
    cases calls' with
    | nil => rfl
    | cons call' calls' => cases call' <;> cases h
  | cons call calls ih =>
    cases calls' with
    | nil => cases call <;> cases h
    | cons call' calls' =>
      cases call with
      | close fd =>
        cases call' with
        | close fd' =>
          injection h with hrequest hrest
          cases hrequest
          rw [ih (congrFun hrest ())]
        | dup2 old' new' => cases h
      | dup2 old new =>
        cases call' with
        | close fd' => cases h
        | dup2 old' new' =>
          injection h with hrequest hrest
          cases hrequest
          rw [ih (congrFun hrest ())]

/-! ### The processes of a pipeline in the loop -/

def Process.inLoop (child : Process) : Child := ⟨child.table, execvpAfter child.calls, child.life⟩

/-- The loop `s` with the descriptors, the children and the point of `p`. -/
def Processes.inLoop (p : Processes) (s : MainLoop) : MainLoop :=
  { s with
    table := p.shell
    flowThru := p.flowThru
    pipes := p.pipes
    point := p.point
    children := p.children.map Process.inLoop }

theorem Process.inLoop_injective : Function.Injective Process.inLoop := by
  intro child child' h
  obtain ⟨htable, hcalls, hlife⟩ := Child.mk.inj h
  show Process.mk child.table child.calls child.life = child'
  rw [htable, execvpAfter_injective hcalls, hlife]

theorem Processes.inLoop_injective (s : MainLoop) :
    Function.Injective fun p : Processes => p.inLoop s := by
  intro p p' h
  obtain ⟨hshell, hflow, hpipes, hpoint, -, -, -, hchildren⟩ := MainLoop.mk.inj h
  have hsame := (List.map_inj_right fun _ _ heq => Process.inLoop_injective heq).mp hchildren
  show Processes.mk p.shell p.flowThru p.pipes p.point p.children = p'
  rw [hshell, hflow, hpipes, hpoint, hsame]

/-- What an action is in a pipeline, if it is not the next line. -/
def LoopAction.action : LoopAction → Option Action
  | .readLine _ _ => none
  | .pipe fds => some (.pipe fds)
  | .fork => some .fork
  | .closeWrite => some .closeWrite
  | .waitpid j => some (.waitpid j)
  | .closeRead => some .closeRead
  | .call j _ => some (.call j)
  | .exit j => some (.exit j)

theorem exists_action (act : Action) : ∃ a : LoopAction, a.action = some act := by
  cases act with
  | pipe fds => exact ⟨.pipe fds, rfl⟩
  | fork => exact ⟨.fork, rfl⟩
  | closeWrite => exact ⟨.closeWrite, rfl⟩
  | waitpid j => exact ⟨.waitpid j, rfl⟩
  | closeRead => exact ⟨.closeRead, rfl⟩
  | call j => exact ⟨.call j none, rfl⟩
  | exit j => exact ⟨.exit j, rfl⟩

namespace MainLoop

variable {s s' : MainLoop} {p p' : Processes} {a : LoopAction} {act : Action}
  {inherited : List (Option Nat)}

/-- No command has a redirection. -/
def Plain (s : MainLoop) : Prop :=
  ∀ c ∈ s.commands, c.redirectInPath = .null ∧ c.redirectOutPath = .null

instance Plain.decidable (s : MainLoop) : Decidable s.Plain :=
  inferInstanceAs (Decidable (∀ c ∈ s.commands, c.redirectInPath = .null ∧ c.redirectOutPath = .null))

/-- A step that is not the next line. -/
def Within (s : MainLoop) (a : LoopAction) (s' : MainLoop) : Prop := a.action.isSome ∧ Step s a s'

/-- The processes when the shell has accepted a pipeline. -/
def processes (s : MainLoop) : Processes := ⟨s.table, s.flowThru, s.pipes, s.point, []⟩

theorem processes_inLoop (h : s.children = []) : s.processes.inLoop s = s := by
  cases s
  cases h
  rfl

theorem fork_inLoop (hplain : s.Plain) (hfork : ∀ k, p.point = .fork k → k < s.commands.length) :
    (p.inLoop s).step .fork = (p.step s.commands.length .fork).map (·.inLoop s) := by
  rw [step, Processes.step]
  cases hpoint : p.point with
  | fork k =>
    have hlt := hfork k hpoint
    have hcommand : (p.inLoop s).commands[k]? = some s.commands[k] := List.getElem?_eq_getElem hlt
    obtain ⟨hin, hout⟩ := hplain _ (List.getElem_mem hlt)
    have hchild : Process.inLoop ⟨p.shell, childCalls s.commands.length k p.flowThru, .running⟩ =
        ⟨p.shell, childCode s.commands.length k s.commands[k] p.flowThru, .running⟩ := by
      rw [childCode_eq hin hout]
      rfl
    rw [show (p.inLoop s).point = .fork k from hpoint]
    simp only [hcommand]
    simp only [Option.map_some, Processes.inLoop, List.map_append, List.map_singleton, hchild]
    rfl
  | _ =>
    rw [show (p.inLoop s).point = _ from hpoint]
    rfl

theorem child_inLoop (p : Processes) (s : MainLoop) (j : Nat) :
    (p.inLoop s).children[j]? = p.children[j]?.map Process.inLoop :=
  List.getElem?_map ..

theorem set_inLoop (p : Processes) (s : MainLoop) (j : Nat) (child : Process) :
    Processes.inLoop { p with children := p.children.set j child } s =
      { p.inLoop s with children := (p.inLoop s).children.set j child.inLoop } := by
  simp only [Processes.inLoop, List.map_set]

theorem waitpid_inLoop (p : Processes) (s : MainLoop) (j : Nat) :
    (p.inLoop s).step (.waitpid j) = (p.step s.commands.length (.waitpid j)).map (·.inLoop s) := by
  rw [step, Processes.step, child_inLoop]
  cases hpoint : p.point with
  | wait k =>
    rw [show (p.inLoop s).point = .wait k from hpoint]
    cases p.children[j]? with
    | none => rfl
    | some child =>
      show (if child.life = .exited then _ else _) = Option.map _ (if child.life = .exited then _ else _)
      by_cases hexited : child.life = .exited
      · rw [if_pos hexited, if_pos hexited, Option.map_some]
        simp only [Processes.inLoop, List.map_set]
        rfl
      · rw [if_neg hexited, if_neg hexited]
        rfl
  | _ =>
    rw [show (p.inLoop s).point = _ from hpoint]
    cases p.children[j]? <;> rfl

theorem call_inLoop (p : Processes) (s : MainLoop) (j : Nat) (answer : Option Nat) :
    (p.inLoop s).step (.call j answer) = (p.step n (.call j)).map (·.inLoop s) := by
  rw [step, Processes.step, child_inLoop]
  cases p.children[j]? with
  | none => rfl
  | some child =>
    obtain ⟨table, calls, life⟩ := child
    cases life with
    | running =>
      cases calls with
      | nil => rfl
      | cons call calls =>
        cases call with
        | close fd => exact congrArg some (set_inLoop p s j ⟨_, calls, .running⟩).symm
        | dup2 old new => exact congrArg some (set_inLoop p s j ⟨_, calls, .running⟩).symm
    | _ =>
      cases calls with
      | nil => rfl
      | cons call calls => cases call <;> rfl

theorem exit_inLoop (p : Processes) (s : MainLoop) (j : Nat) :
    (p.inLoop s).step (.exit j) = (p.step n (.exit j)).map (·.inLoop s) := by
  rw [step, Processes.step, child_inLoop]
  cases p.children[j]? with
  | none => rfl
  | some child =>
    show (if child.life = .running then _ else _) = Option.map _ (if child.life = .running then _ else _)
    by_cases hrunning : child.life = .running
    · rw [if_pos hrunning, if_pos hrunning, Option.map_some]
      exact congrArg some (set_inLoop p s j { child with life := .exited }).symm
    · rw [if_neg hrunning, if_neg hrunning]
      rfl

/-- In the loop the processes of a pipeline take the steps that they take alone. -/
theorem step_inLoop (hplain : s.Plain) (hfork : ∀ k, p.point = .fork k → k < s.commands.length)
    (ha : a.action = some act) :
    (p.inLoop s).step a = (p.step s.commands.length act).map (·.inLoop s) := by
  cases a with
  | readLine heap line => cases ha
  | pipe fds =>
    cases ha
    rw [step, Processes.step]
    by_cases hpipe : p.point = .start ∧ p.shell.AreLowest fds.1 fds.2
    · rw [if_pos hpipe]
      exact if_pos hpipe
    · rw [if_neg hpipe]
      exact if_neg hpipe
  | fork =>
    cases ha
    exact fork_inLoop hplain hfork
  | closeWrite =>
    cases ha
    obtain ⟨shell, flowThru, pipes, point, children⟩ := p
    cases point <;> rfl
  | waitpid j =>
    cases ha
    exact waitpid_inLoop p s j
  | closeRead =>
    cases ha
    obtain ⟨shell, flowThru, pipes, point, children⟩ := p
    cases point <;> rfl
  | call j answer =>
    cases ha
    exact call_inLoop p s j answer
  | exit j =>
    cases ha
    exact exit_inLoop p s j

theorem fork_lt {p₀ : Processes} (haccepted : p₀.Accepted) (h : p = p₀ ∨ p.Wired n p₀.shell)
    (hpoint : p.point = .fork k) : k < n := by
  obtain rfl | hwired := h
  · cases haccepted.point.symm.trans hpoint
  · exact hwired.inLoop hpoint

/-- Before the next line the loop comes to exactly the states to which the processes of its pipeline come. -/
theorem reaches_inLoop_iff (hplain : s.Plain) (hlength : 0 < s.commands.length)
    (hchildren : s.children = []) (haccepted : s.processes.Accepted) :
    Reaches Within s s' ↔
      ∃ p, Reaches (Processes.Step s.commands.length) s.processes p ∧ p.inLoop s = s' := by
  have hfork : ∀ {p : Processes}, Reaches (Processes.Step s.commands.length) s.processes p →
      ∀ k, p.point = .fork k → k < s.commands.length := fun hreach k hpoint =>
    fork_lt haccepted (hreach.of_always fun run hrun => Processes.wired_run haccepted hlength hrun) hpoint
  constructor
  · rintro ⟨run, hrun, rfl⟩
    have halways : Always (fun q => ∃ p,
        Reaches (Processes.Step s.commands.length) s.processes p ∧ p.inLoop s = q) s run := by
      refine hrun.always (fun q a q' hq hstep => ?_) ⟨_, .refl _, processes_inLoop hchildren⟩
      obtain ⟨p, hreach, rfl⟩ := hq
      obtain ⟨act, ha⟩ := Option.isSome_iff_exists.mp hstep.1
      have hnext := hstep.2
      rw [Step, step_inLoop hplain (hfork hreach) ha] at hnext
      obtain ⟨p', hp', heq⟩ := Option.map_eq_some_iff.mp hnext
      exact ⟨p', hreach.tail hp', heq⟩
    exact halways.last
  · rintro ⟨p, ⟨run, hrun, rfl⟩, rfl⟩
    have halways : Always (fun p => Reaches (Processes.Step s.commands.length) s.processes p ∧
        Reaches Within s (p.inLoop s)) s.processes run := by
      have hstart : Reaches Within s (s.processes.inLoop s) := by
        rw [processes_inLoop hchildren]
        exact .refl s
      refine hrun.always (fun p act p' hp hstep => ?_) ⟨.refl _, hstart⟩
      obtain ⟨hreach, hloop⟩ := hp
      obtain ⟨a, ha⟩ := exists_action act
      refine ⟨hreach.tail hstep, hloop.tail (a := a) ⟨Option.isSome_iff_exists.mpr ⟨act, ha⟩, ?_⟩⟩
      rw [Step, step_inLoop hplain (hfork hreach) ha, hstep]
      rfl
    exact halways.last.2

theorem Running.accepted (h : Running (startedWith inherited) s) (hpoint : s.point = .start) :
    s.processes.Accepted := by
  obtain ⟨htable, -, -⟩ := h.at hpoint
  refine ⟨hpoint, rfl, ?_, ?_⟩
  · intro fd p
    show s.table fd ≠ _ ∧ s.table fd ≠ _
    rw [htable]
    exact startedWith_ne inherited fd p
  · intro low
    show ∃ fd, low ≤ fd ∧ s.table fd = none
    rw [htable]
    exact exists_closed inherited low

/-- Of the pipelines without redirections that the shell comes to, those of one or two commands are fed, and
no others. -/
theorem delivered_inLoop_iff (hin : startedWith inherited stdIn ≠ none)
    (hout : startedWith inherited stdOut ≠ none) {run : List (LoopAction × MainLoop)}
    (hrun : EachStep Step (start inherited) run) :
    Always (fun s => s.point = .start → s.Plain →
      ((∀ p : Processes, Reaches Within s (p.inLoop s) → ∀ k, 1 ≤ k → p.Delivers k) ↔
        s.commands.length = 1 ∨ s.commands.length = 2)) (start inherited) run := by
  refine (running_run hin hout hrun).mono fun s hs hpoint hplain => ?_
  obtain ⟨htable, hchildren, hlength⟩ := hs.at hpoint
  have haccepted := hs.accepted hpoint
  have hopen : s.processes.shell stdIn ≠ none := by
    show s.table stdIn ≠ none
    rw [htable]
    exact hin
  have hiff := Processes.delivered_iff haccepted hlength
  rw [and_iff_left hopen] at hiff
  rw [← hiff]
  constructor
  · intro hall run hrun
    have hreaches : Always (Reaches (Processes.Step s.commands.length) s.processes) s.processes run :=
      hrun.always (fun _ _ _ hreach hstep => hreach.tail hstep) (.refl _)
    exact hreaches.mono fun p hreach =>
      hall p ((reaches_inLoop_iff hplain hlength hchildren haccepted).mpr ⟨p, hreach, rfl⟩)
  · intro hall p hloop
    obtain ⟨p', hreach, heq⟩ :=
      (reaches_inLoop_iff hplain hlength hchildren haccepted).mp hloop
    rw [← Processes.inLoop_injective s heq]
    exact hreach.of_always hall

/-- `a|b|c` -/
def threeWords : InputLine := ⟨[97, bar, 98, bar, 99, newline], by decide, by decide⟩

def threeWordsRun : List (LoopAction × MainLoop) :=
  trail taken (start [some 0, some 1, some 2]) [.readLine (fun _ _ => 0) threeWords]

theorem not_delivered_threeWords :
    ∃ p : Processes, Reaches Within (last (start [some 0, some 1, some 2]) threeWordsRun)
        (p.inLoop (last (start [some 0, some 1, some 2]) threeWordsRun)) ∧
      ∃ k, 1 ≤ k ∧ ¬ p.Delivers k := by
  have hrun : EachStep Step (start [some 0, some 1, some 2]) threeWordsRun :=
    (eachStep_trail taken _ _).mono fun _ _ _ h => of_taken h
  obtain ⟨hpoint, hplain, hlength⟩ : (last (start [some 0, some 1, some 2]) threeWordsRun).point = .start ∧
      (last (start [some 0, some 1, some 2]) threeWordsRun).Plain ∧
      (last (start [some 0, some 1, some 2]) threeWordsRun).commands.length = 3 := by
    decide +kernel
  have hiff := (delivered_inLoop_iff (by decide) (by decide) hrun).last hpoint hplain
  rw [hlength] at hiff
  have hnot := hiff.not.mpr (by decide)
  push Not at hnot
  exact hnot

end MainLoop

end OSChallenges.Shell
