import OSChallenges.Shell.MainLoop

/-!
# Where a command reads and writes

Every child starts with both ends of the pipe and goes through its redirects and the pipe before `execvp`.
The rule below says what its requests do to its descriptors, so that the code of a child is verified alone;
the steps of the others do not touch them. What holds in the loop then follows step by step, and it holds
for any number of lines, since a pipeline leaves the shell with the descriptors from before.
-/

namespace OSChallenges.Shell

open Program Runs

/-! ### What is asked of a child -/

/-- Where a command reads: the pipe goes before a file. -/
def standardIn (before : Streams) (pipe k : Nat) (command : PipelineCommand) : Option Stream :=
  if k ≠ 0 then some (.readEnd pipe)
  else if command.redirectInPath = .null then before stdIn
  else some (.file command.redirectInPath .readOnly)

/-- Where a command writes. -/
def standardOut (before : Streams) (pipe n k : Nat) (command : PipelineCommand) : Option Stream :=
  if k + 1 < n then some (.writeEnd pipe)
  else if command.redirectOutPath = .null then before stdOut
  else some (.file command.redirectOutPath .writeOnly)

/-- The descriptors with which a command is executed. All others are those of the shell before the
pipeline. -/
def wiring (before : Streams) (pipe n k : Nat) (command : PipelineCommand) : Streams := fun fd =>
  if fd = stdIn then standardIn before pipe k command
  else if fd = stdOut then standardOut before pipe n k command
  else before fd

/-- A child that cannot open a file goes on with both ends of the pipe, and it may already read from the
file of its input redirect. -/
def Strays (started : Streams) (command : PipelineCommand) (t : Streams) : Prop :=
  t = started ∨ t = started.put stdIn (.file command.redirectInPath .readOnly)

/-- Where the code of a child leads to. -/
def Arrives (before : Streams) (pipe n k : Nat) (flowThru : Nat × Nat) (command : PipelineCommand) :
    Bool → Streams → Prop
  | true, t => t = wiring before pipe n k command
  | false, t => Strays (bothEnds before pipe flowThru) command t

/-- `open` may fail or answer with the lowest descriptor. -/
def childRule : Rule Request.Res Streams
  | .openFile path access, Q, t =>
    Q none t ∧ ∀ fd, t.IsLowest fd → Q (some fd) (t.put fd (.file path access))
  | .close fd, Q, t => Q () (t.close fd)
  | .dup2 old new, Q, t => Q () (t.dup2 old new)

section

variable {t t' before : Streams} {path : Pointer} {access : Access} {std n k pipe : Nat}
  {flowThru : Nat × Nat} {command : PipelineCommand} {Q : Bool → Streams → Prop}

/-- The descriptors after a redirect. -/
def redirected (t : Streams) (path : Pointer) (access : Access) (std : Nat) : Streams :=
  if path = .null then t else t.put std (.file path access)

theorem wp_redirect (hopen : t std ≠ none) (hfail : Q false t)
    (hdone : Q true (redirected t path access std)) :
    (redirect path access std).wp childRule Q t := by
  rw [redirect]
  rw [redirected] at hdone
  split at hdone
  · rename_i hnull
    rw [if_pos hnull]
    exact hdone
  · rename_i hpath
    rw [if_neg hpath]
    refine ⟨hfail, fun fd hfd => ?_⟩
    show Q true (((Descriptors.Table.close _ _).dup2 fd std).close fd)
    rw [Descriptors.Table.open_move hfd (hfd.ne hopen)]
    exact hdone

/-- The descriptors after a standard one has gone over to the pipe. -/
def attached (t : Streams) (there : Prop) [Decidable there] (target : Stream) (std : Nat) : Streams :=
  if there then t.put std target else t

theorem wp_attach {there : Prop} [Decidable there] (target : Stream) {fd : Nat}
    {Q : Unit → Streams → Prop} (hfd : t fd = some target) (hne : fd ≠ std)
    (h : Q () (attached t there target std)) : (attach there fd std).wp childRule Q t := by
  rw [attached] at h
  rw [attach]
  split at h
  · rename_i hthere
    rw [decide_eq_true hthere, if_pos rfl]
    show Q () ((Descriptors.Table.close t std).dup2 fd std)
    rw [Descriptors.Table.close_dup2 hfd hne]
    exact h
  · rename_i hthere
    rw [decide_eq_false hthere, if_neg Bool.false_ne_true]
    exact h

/-- What the calls behind the redirects do. -/
def piped (t : Streams) (n k pipe : Nat) (flowThru : Nat × Nat) : Streams :=
  (attached ((attached t (k + 1 < n) (.writeEnd pipe) stdOut).close flowThru.2) (k ≠ 0) (.readEnd pipe)
    stdIn).close flowThru.1

/-- The two ends of the pipe and the standard descriptors are four. -/
structure Apart (flowThru : Nat × Nat) : Prop where
  ends : flowThru.1 ≠ flowThru.2
  readIn : flowThru.1 ≠ stdIn
  readOut : flowThru.1 ≠ stdOut
  writeIn : flowThru.2 ≠ stdIn
  writeOut : flowThru.2 ≠ stdOut

theorem Apart.of_lowest (hfds : before.AreLowest flowThru.1 flowThru.2) (hin : before stdIn ≠ none)
    (hout : before stdOut ≠ none) : Apart flowThru where
  ends := hfds.1
  readIn := fun h => hin (h ▸ hfds.2.1)
  readOut := fun h => hout (h ▸ hfds.2.1)
  writeIn := fun h => hin (h ▸ hfds.2.2.1)
  writeOut := fun h => hout (h ▸ hfds.2.2.1)

theorem attached_of_ne {there : Prop} [Decidable there] {target : Stream} {x : Nat} (h : x ≠ std) :
    attached t there target std x = t x := by
  rw [attached]
  split
  · exact Descriptors.Table.put_of_ne h
  · rfl

theorem redirected_of_ne {x : Nat} (h : x ≠ std) : redirected t path access std x = t x := by
  rw [redirected]
  split
  · rfl
  · exact Descriptors.Table.put_of_ne h

theorem wp_childCode (hapart : Apart flowThru) (hin : t stdIn ≠ none) (hout : t stdOut ≠ none)
    (hread : t flowThru.1 = some (.readEnd pipe)) (hwrite : t flowThru.2 = some (.writeEnd pipe))
    (hfail : Q false t) (hfail' : Q false (redirected t command.redirectInPath .readOnly stdIn))
    (hdone : Q true (piped (redirected (redirected t command.redirectInPath .readOnly stdIn)
      command.redirectOutPath .writeOnly stdOut) n k pipe flowThru)) :
    (childCode n k command flowThru).wp childRule Q t := by
  have hdistinct : stdOut ≠ stdIn := by decide
  rw [childCode, Prog.wp_bind]
  refine wp_redirect hin hfail ?_
  rw [Bool.not_true, if_neg Bool.false_ne_true, Prog.wp_bind]
  refine wp_redirect ?_ hfail' ?_
  · rw [redirected_of_ne hdistinct]
    exact hout
  rw [Bool.not_true, if_neg Bool.false_ne_true, Prog.wp_bind]
  refine wp_attach (.writeEnd pipe) ?_ hapart.writeOut ?_
  · rw [redirected_of_ne hapart.writeOut, redirected_of_ne hapart.writeIn, hwrite]
  show ((attach (k ≠ 0) flowThru.1 stdIn) >>= _).wp childRule Q _
  rw [Prog.wp_bind]
  refine wp_attach (.readEnd pipe) ?_ hapart.readIn hdone
  rw [Descriptors.Table.close_of_ne hapart.ends, attached_of_ne hapart.readOut,
    redirected_of_ne hapart.readOut, redirected_of_ne hapart.readIn, hread]

theorem bothEnds_of_ne {x : Nat} (hread : x ≠ flowThru.1) (hwrite : x ≠ flowThru.2) :
    bothEnds before pipe flowThru x = before x := by
  rw [bothEnds, Descriptors.Table.pipe, Descriptors.Table.put_of_ne hwrite,
    Descriptors.Table.put_of_ne hread]

theorem bothEnds_read (hapart : Apart flowThru) :
    bothEnds before pipe flowThru flowThru.1 = some (.readEnd pipe) := by
  rw [bothEnds, Descriptors.Table.pipe, Descriptors.Table.put_of_ne hapart.ends,
    Descriptors.Table.put_self]

theorem bothEnds_write (before : Streams) (pipe : Nat) (flowThru : Nat × Nat) :
    bothEnds before pipe flowThru flowThru.2 = some (.writeEnd pipe) :=
  Descriptors.Table.put_self ..

theorem redirected_self (t : Streams) (path : Pointer) (access : Access) (std : Nat) :
    redirected t path access std std = if path = .null then t std else some (.file path access) := by
  rw [redirected]
  split
  · rfl
  · exact Descriptors.Table.put_self ..

theorem attached_self (t : Streams) (there : Prop) [Decidable there] (target : Stream) (std : Nat) :
    attached t there target std std = if there then some target else t std := by
  rw [attached]
  split
  · exact Descriptors.Table.put_self ..
  · rfl

/-- With both ends closed again only the standard descriptors are left to differ. -/
theorem piped_redirected (hapart : Apart flowThru) (hfds : before.AreLowest flowThru.1 flowThru.2) :
    piped (redirected (redirected (bothEnds before pipe flowThru) command.redirectInPath .readOnly stdIn)
      command.redirectOutPath .writeOnly stdOut) n k pipe flowThru = wiring before pipe n k command := by
  have hdistinct : stdIn ≠ stdOut := by decide
  obtain ⟨-, hread, hwrite, -⟩ := hfds
  funext x
  rw [piped, wiring]
  by_cases hx : x = flowThru.1
  · rw [hx, Descriptors.Table.close_self, if_neg hapart.readIn, if_neg hapart.readOut, hread]
  rw [Descriptors.Table.close_of_ne hx]
  by_cases hin : x = stdIn
  · rw [hin, if_pos rfl, attached_self, Descriptors.Table.close_of_ne hapart.writeIn.symm,
      attached_of_ne hdistinct, redirected_of_ne hdistinct, redirected_self,
      bothEnds_of_ne hapart.readIn.symm hapart.writeIn.symm, standardIn]
  rw [attached_of_ne hin, if_neg hin]
  by_cases hx' : x = flowThru.2
  · rw [hx', Descriptors.Table.close_self, if_neg hapart.writeOut, hwrite]
  rw [Descriptors.Table.close_of_ne hx']
  by_cases hout : x = stdOut
  · rw [hout, if_pos rfl, attached_self, redirected_self, redirected_of_ne hdistinct.symm,
      bothEnds_of_ne hapart.readOut.symm hapart.writeOut.symm, standardOut]
  · rw [attached_of_ne hout, if_neg hout, redirected_of_ne hout, redirected_of_ne hin,
      bothEnds_of_ne hx hx']

/-- A child that has started with both ends of the pipe comes to `execvp` as its command asks, or it
strays. -/
theorem arrives_childCode (hfds : before.AreLowest flowThru.1 flowThru.2) (hin : before stdIn ≠ none)
    (hout : before stdOut ≠ none) : (childCode n k command flowThru).wp childRule
      (Arrives before pipe n k flowThru command) (bothEnds before pipe flowThru) := by
  have hapart := Apart.of_lowest hfds hin hout
  refine wp_childCode hapart ?_ ?_ (bothEnds_read hapart) (bothEnds_write ..) (.inl rfl) ?_
    (piped_redirected hapart hfds)
  · rw [bothEnds_of_ne hapart.readIn.symm hapart.writeIn.symm]
    exact hin
  · rw [bothEnds_of_ne hapart.readOut.symm hapart.writeOut.symm]
    exact hout
  · show Strays _ _ _
    rw [redirected]
    split
    · exact .inl rfl
    · exact .inr rfl

theorem childRule_perform {answer : Option Nat} {o : Request} {r : o.Res}
    {Q : o.Res → Streams → Prop} (h : childRule o Q t) (hperform : perform answer o t = some (r, t')) :
    Q r t' := by
  cases o with
  | openFile path access =>
    cases answer with
    | none =>
      cases hperform
      exact h.1
    | some fd =>
      rw [perform] at hperform
      split at hperform
      · rename_i hlowest
        cases hperform
        exact h.2 fd hlowest
      · cases hperform
  | close fd =>
    cases hperform
    exact h
  | dup2 old new =>
    cases hperform
    exact h

end

/-! ### The shell and its children -/

/-- The shell has a pipe open. -/
def Point.Piping (p : Point) : Prop := p ≠ .start ∧ p ≠ .done

theorem Point.piping_of_eq {p q : Point} (h : p = q) (hstart : q ≠ .start) (hdone : q ≠ .done) :
    p.Piping := by
  rw [h]
  exact ⟨hstart, hdone⟩

/-- The child has come to `execvp`. -/
def Child.executes (child : Child) : Bool :=
  match child.code with
  | .ret arrived => arrived
  | .op _ _ => false

theorem Child.code_of_executes {child : Child} (h : child.executes = true) : child.code = .ret true := by
  rw [executes] at h
  cases hcode : child.code with
  | ret arrived =>
    rw [hcode] at h
    exact congrArg _ h
  | op o k =>
    rw [hcode] at h
    cases h

namespace MainLoop

variable {s s' : MainLoop} {a : LoopAction} {j k : Nat} {child : Child} {inherited : List (Option Nat)}
  {before : Streams}

/-- What a step does, one case for each thing that the shell or a child can do. -/
inductive Moved (s : MainLoop) : LoopAction → MainLoop → Prop
  | readLine {heap : Heap} {line : InputLine} {pipeLine : Parser} (hdone : s.point = .done)
      (hbuild : pipelineBuild heap line.chars = .ok pipeLine) (hfits : pipeLine.overflow = false) :
      Moved s (.readLine heap line) (s.check pipeLine)
  | pipe {fds : Nat × Nat} (hstart : s.point = .start) (hfds : s.table.AreLowest fds.1 fds.2) :
      Moved s (.pipe fds) { s with
        table := s.table.pipe (.readEnd (s.pipes + 1)) (.writeEnd (s.pipes + 1)) fds.1 fds.2
        flowThru := fds
        pipes := s.pipes + 1
        point := .fork 0 }
  | fork {k : Nat} {command : PipelineCommand} (hpoint : s.point = .fork k)
      (hcommand : s.commands[k]? = some command) : Moved s .fork { s with
        children := s.children ++
          [⟨s.table, childCode s.commands.length k command s.flowThru, .running⟩]
        point := if k + 1 = s.commands.length then .closeWrite k else .wait k }
  | closeWrite {k : Nat} (hpoint : s.point = .closeWrite k) :
      Moved s .closeWrite { s with table := s.table.close s.flowThru.2, point := .wait k }
  | waitpid {k j : Nat} {child : Child} (hpoint : s.point = .wait k) (hj : s.children[j]? = some child)
      (hexited : child.life = .exited) : Moved s (.waitpid j) { s with
        children := s.children.set j { child with life := .reaped }
        point := if k + 1 = s.commands.length then .closeRead else .fork (k + 1) }
  | closeRead (hpoint : s.point = .closeRead) :
      Moved s .closeRead { s with table := s.table.close s.flowThru.1, point := .done }
  | call {j : Nat} {answer : Option Nat} {table table' : Streams} {o : Request}
      {code : o.Res → ChildCode Bool} {r : o.Res} (hj : s.children[j]? = some ⟨table, .op o code, .running⟩)
      (hperform : perform answer o table = some (r, table')) :
      Moved s (.call j answer) { s with children := s.children.set j ⟨table', code r, .running⟩ }
  | exit {j : Nat} {child : Child} (hj : s.children[j]? = some child) (hrunning : child.life = .running) :
      Moved s (.exit j) { s with children := s.children.set j { child with life := .exited } }

theorem moved_of_step (hstep : Step s a s') : Moved s a s' := by
  cases a with
  | readLine heap line =>
    rw [Step, step] at hstep
    split at hstep
    · rename_i hdone
      split at hstep
      · rename_i pipeLine hbuild
        split at hstep
        · cases hstep
        · rename_i hfits
          cases hstep
          exact .readLine hdone hbuild (Bool.eq_false_iff.mpr hfits)
      · cases hstep
    · cases hstep
  | pipe fds =>
    rw [Step, step] at hstep
    split at hstep
    · rename_i hstart
      cases hstep
      exact .pipe hstart.1 hstart.2
    · cases hstep
  | fork =>
    rw [Step, step] at hstep
    split at hstep
    · rename_i k hpoint
      split at hstep
      · cases hstep
      · rename_i command hcommand
        cases hstep
        exact .fork hpoint hcommand
    · cases hstep
  | closeWrite =>
    rw [Step, step] at hstep
    split at hstep
    · rename_i k hpoint
      cases hstep
      exact .closeWrite hpoint
    · cases hstep
  | waitpid j =>
    rw [Step, step] at hstep
    split at hstep
    · rename_i k child hpoint hj
      split at hstep
      · rename_i hexited
        cases hstep
        exact .waitpid hpoint hj hexited
      · cases hstep
    · cases hstep
  | closeRead =>
    rw [Step, step] at hstep
    split at hstep
    · rename_i hpoint
      cases hstep
      exact .closeRead hpoint
    · cases hstep
  | call j answer =>
    rw [Step, step] at hstep
    split at hstep
    · rename_i table o code hj
      split at hstep
      · cases hstep
      · rename_i r table' hperform
        cases hstep
        exact .call hj hperform
    · cases hstep
  | exit j =>
    rw [Step, step] at hstep
    split at hstep
    · rename_i child hj
      split at hstep
      · rename_i hrunning
        cases hstep
        exact .exit hj hrunning
      · cases hstep
    · cases hstep

/-- What the place in the loop says of the descriptors of the shell and of how many children there are. -/
def AtPoint (before : Streams) (s : MainLoop) : Point → Prop
  | .start => s.table = before ∧ s.children = [] ∧ 0 < s.commands.length
  | .fork k => s.table = bothEnds before s.pipes s.flowThru ∧ s.children.length = k ∧
      k < s.commands.length
  | .closeWrite k => s.table = bothEnds before s.pipes s.flowThru ∧ s.children.length = k + 1 ∧
      k + 1 = s.commands.length
  | .wait k => s.table = (if k + 1 = s.commands.length
        then (bothEnds before s.pipes s.flowThru).close s.flowThru.2
        else bothEnds before s.pipes s.flowThru) ∧
      s.children.length = k + 1 ∧ k < s.commands.length
  | .closeRead => s.table = (bothEnds before s.pipes s.flowThru).close s.flowThru.2
  | .done => s.table = before

/-- What holds in the loop, from one line to the next. -/
structure Running (before : Streams) (s : MainLoop) : Prop where
  point : s.AtPoint before s.point
  fds : s.point.Piping → before.AreLowest s.flowThru.1 s.flowThru.2
  /-- The shell has waited for each child but the last one. -/
  waited : ∀ (j : Nat) (child : Child), s.children[j]? = some child →
    child.life = .reaped ∨ s.point = .closeWrite j ∨ s.point = .wait j
  children : ∀ (k : Nat) (child : Child), s.children[k]? = some child → ∃ command, s.commands[k]? = some command ∧
    child.code.wp childRule (Arrives before s.pipes s.commands.length k s.flowThru command) child.table

theorem Running.at {q : Point} (h : Running before s) (hpoint : s.point = q) : s.AtPoint before q :=
  hpoint ▸ h.point

theorem replaced_cases {children : List Child} {child' c : Child} {i : Nat}
    (hc : (children.set j child')[i]? = some c) : i = j ∧ c = child' ∨ i ≠ j ∧ children[i]? = some c := by
  rw [List.getElem?_set] at hc
  split at hc
  · rename_i hij
    split at hc
    · exact .inl ⟨hij.symm, (Option.some.inj hc).symm⟩
    · cases hc
  · rename_i hij
    exact .inr ⟨Ne.symm hij, hc⟩

theorem Running.set (h : Running before s) (hj : s.children[j]? = some child) (child' : Child)
    (hlife : child.life ≠ .reaped)
    (hcode : ∀ Q : Bool → Streams → Prop, child.code.wp childRule Q child.table →
      child'.code.wp childRule Q child'.table) :
    Running before { s with children := s.children.set j child' } := by
  have hlength : (s.children.set j child').length = s.children.length := List.length_set
  have hwaits := (h.waited j child hj).resolve_left hlife
  refine ⟨?_, h.fds, fun i c hc => ?_, fun i c hc => ?_⟩
  · have hpoint := h.point
    show AtPoint before { s with children := s.children.set j child' } s.point
    obtain hwait | hwait := hwaits
    · rw [hwait] at hpoint ⊢
      exact ⟨hpoint.1, hlength.trans hpoint.2.1, hpoint.2.2⟩
    · rw [hwait] at hpoint ⊢
      exact ⟨hpoint.1, hlength.trans hpoint.2.1, hpoint.2.2⟩
  · obtain ⟨rfl, -⟩ | ⟨-, hold⟩ := replaced_cases hc
    · exact .inr hwaits
    · exact h.waited i c hold
  · obtain ⟨rfl, rfl⟩ | ⟨-, hold⟩ := replaced_cases hc
    · obtain ⟨command, hcommand, hwp⟩ := h.children i child hj
      exact ⟨command, hcommand, hcode _ hwp⟩
    · exact h.children i c hold

theorem Running.check (h : Running before s) (hdone : s.point = .done) (pipeLine : Parser) :
    Running before (s.check pipeLine) := by
  have htable : s.table = before := h.at hdone
  rw [MainLoop.check]
  cases refusal pipeLine s.errorMessage with
  | some message =>
    refine ⟨?_, fun hpiping => absurd hdone hpiping.2, fun j c hc => ?_, fun k c hc => ?_⟩
    · show AtPoint before _ s.point
      rw [hdone]
      exact htable
    · cases hc
    · cases hc
  | none =>
    refine ⟨⟨htable, rfl, ?_⟩, fun hpiping => absurd rfl hpiping.1, fun j c hc => ?_, fun k c hc => ?_⟩
    · show 0 < (pipeLine.before ++ [pipeLine.currentCommand]).length
      rw [List.length_append]
      exact Nat.succ_pos _
    · cases hc
    · cases hc

theorem Running.pipe {fds : Nat × Nat} (h : Running before s) (hpoint : s.point = .start)
    (hfds : s.table.AreLowest fds.1 fds.2) : Running before { s with
      table := s.table.pipe (.readEnd (s.pipes + 1)) (.writeEnd (s.pipes + 1)) fds.1 fds.2
      flowThru := fds
      pipes := s.pipes + 1
      point := .fork 0 } := by
  obtain ⟨htable, hnone, hcommands⟩ := h.at hpoint
  rw [htable] at hfds
  refine ⟨⟨?_, ?_, hcommands⟩, fun _ => hfds, fun j c hc => ?_, fun k c hc => ?_⟩
  · show s.table.pipe _ _ _ _ = _
    rw [htable]
    rfl
  · show s.children.length = 0
    rw [hnone]
    rfl
  · rw [show s.children = [] from hnone] at hc
    cases hc
  · rw [show s.children = [] from hnone] at hc
    cases hc

/-- A new child has both ends of the pipe and its code before it. -/
theorem Running.fork (h : Running before s) (hin : before stdIn ≠ none) (hout : before stdOut ≠ none)
    (hpoint : s.point = .fork k) {command : PipelineCommand}
    (hcommand : s.commands[k]? = some command) : Running before { s with
      children := s.children ++
        [⟨s.table, childCode s.commands.length k command s.flowThru, .running⟩]
      point := if k + 1 = s.commands.length then .closeWrite k else .wait k } := by
  obtain ⟨htable, hlength, hlt⟩ := h.at hpoint
  have hfds := h.fds (Point.piping_of_eq hpoint nofun nofun)
  have hlength' : (s.children ++
      [Child.mk s.table (childCode s.commands.length k command s.flowThru) .running]).length = k + 1 := by
    rw [List.length_append, hlength]
    rfl
  have hnew : ∀ j c, (s.children ++
      [Child.mk s.table (childCode s.commands.length k command s.flowThru) .running])[j]? = some c →
      s.children[j]? = some c ∨
        j = k ∧ c = ⟨s.table, childCode s.commands.length k command s.flowThru, .running⟩ := by
    intro j c hc
    rw [List.getElem?_append] at hc
    split at hc
    · exact .inl hc
    · rename_i hge
      rw [List.getElem?_singleton, hlength] at hc
      split at hc
      · exact .inr ⟨by omega, (Option.some.inj hc).symm⟩
      · cases hc
  refine ⟨?_, fun _ => hfds, fun j c hc => ?_, fun j c hc => ?_⟩
  · show AtPoint before _ (if k + 1 = s.commands.length then .closeWrite k else .wait k)
    split
    · rename_i hlast
      exact ⟨htable, hlength', hlast⟩
    · rename_i hmore
      refine ⟨?_, hlength', hlt⟩
      show s.table = if k + 1 = s.commands.length then _ else _
      rw [if_neg hmore]
      exact htable
  · obtain hold | ⟨rfl, -⟩ := hnew j c hc
    · obtain hreaped | hwait | hwait := h.waited j c hold
      · exact .inl hreaped
      · cases hpoint.symm.trans hwait
      · cases hpoint.symm.trans hwait
    · right
      show (if j + 1 = s.commands.length then Point.closeWrite j else .wait j) = .closeWrite j ∨
        (if j + 1 = s.commands.length then Point.closeWrite j else .wait j) = .wait j
      split
      · exact .inl rfl
      · exact .inr rfl
  · obtain hold | ⟨rfl, rfl⟩ := hnew j c hc
    · exact h.children j c hold
    · refine ⟨command, hcommand, ?_⟩
      show (childCode s.commands.length j command s.flowThru).wp childRule _ s.table
      rw [htable]
      exact arrives_childCode hfds hin hout

theorem Running.closeWrite (h : Running before s) (hpoint : s.point = .closeWrite k) :
    Running before { s with table := s.table.close s.flowThru.2, point := .wait k } := by
  obtain ⟨htable, hlength, hlast⟩ := h.at hpoint
  refine ⟨⟨?_, hlength, hlast ▸ Nat.lt_succ_self k⟩, fun _ => h.fds (Point.piping_of_eq hpoint nofun nofun),
    fun j c hc => ?_, h.children⟩
  · show s.table.close s.flowThru.2 = if k + 1 = s.commands.length then _ else _
    rw [if_pos hlast, htable]
  · obtain hreaped | hwait | hwait := h.waited j c hc
    · exact .inl hreaped
    · cases hpoint.symm.trans hwait
      exact .inr (.inr rfl)
    · cases hpoint.symm.trans hwait

/-- The child that `waitpid` returns is the one that the shell has just begun. -/
theorem Running.waitpid (h : Running before s) (hpoint : s.point = .wait k)
    (hj : s.children[j]? = some child) (hexited : child.life = .exited) : Running before { s with
      children := s.children.set j { child with life := .reaped }
      point := if k + 1 = s.commands.length then .closeRead else .fork (k + 1) } := by
  have hfds := h.fds (Point.piping_of_eq hpoint nofun nofun)
  obtain ⟨htable, hlength, hlt⟩ := h.at hpoint
  have hlife : child.life ≠ .reaped := by
    rw [hexited]
    decide
  have hset := h.set hj { child with life := .reaped } hlife fun Q hQ => hQ
  have hjk : j = k := by
    obtain hreaped | hwait | hwait := h.waited j child hj
    · exact absurd hreaped hlife
    · cases hpoint.symm.trans hwait
    · cases hpoint.symm.trans hwait
      rfl
  subst hjk
  refine ⟨?_, fun _ => hfds, fun i c hc => .inl ?_, hset.children⟩
  · show AtPoint before _ (if j + 1 = s.commands.length then .closeRead else .fork (j + 1))
    split
    · rename_i hlast
      show s.table = _
      rw [htable, if_pos hlast]
    · rename_i hmore
      refine ⟨?_, (List.length_set).trans hlength, ?_⟩
      · show s.table = _
        rw [htable, if_neg hmore]
      · show j + 1 < s.commands.length
        omega
  · obtain ⟨-, rfl⟩ | ⟨hij, hold⟩ := replaced_cases hc
    · rfl
    · obtain hreaped | hwait | hwait := h.waited i c hold
      · exact hreaped
      · cases hpoint.symm.trans hwait
      · cases hpoint.symm.trans hwait
        exact absurd rfl hij

/-- With the read end closed the descriptors are those from before the pipeline. -/
theorem Running.closeRead (h : Running before s) (hpoint : s.point = .closeRead) :
    Running before { s with table := s.table.close s.flowThru.1, point := .done } := by
  have htable : s.table = _ := h.at hpoint
  have hfds := h.fds (Point.piping_of_eq hpoint nofun nofun)
  refine ⟨?_, fun hpiping => absurd rfl hpiping.2, fun j c hc => ?_, h.children⟩
  · show s.table.close s.flowThru.1 = before
    rw [htable]
    exact Descriptors.Table.close_pipe hfds
  · obtain hreaped | hwait | hwait := h.waited j c hc
    · exact .inl hreaped
    · cases hpoint.symm.trans hwait
    · cases hpoint.symm.trans hwait

theorem Running.step (h : Running before s) (hin : before stdIn ≠ none) (hout : before stdOut ≠ none)
    (hstep : Step s a s') : Running before s' := by
  cases moved_of_step hstep with
  | readLine hdone hbuild hfits => exact h.check hdone _
  | pipe hstart hfds => exact h.pipe hstart hfds
  | fork hpoint hcommand => exact h.fork hin hout hpoint hcommand
  | closeWrite hpoint => exact h.closeWrite hpoint
  | waitpid hpoint hj hexited => exact h.waitpid hpoint hj hexited
  | closeRead hpoint => exact h.closeRead hpoint
  | call hj hperform => exact h.set hj _ nofun fun Q hQ => childRule_perform hQ hperform
  | exit hj hrunning =>
    refine h.set hj _ ?_ fun Q hQ => hQ
    rw [hrunning]
    decide

theorem running_start (inherited : List (Option Nat)) :
    Running (startedWith inherited) (start inherited) where
  point := rfl
  fds := fun hpiping => absurd rfl hpiping.2
  waited := fun j c hc => by cases hc
  children := fun k c hc => by cases hc

theorem running_run (hin : startedWith inherited stdIn ≠ none) (hout : startedWith inherited stdOut ≠ none)
    {run : List (LoopAction × MainLoop)} (hrun : EachStep Step (start inherited) run) :
    Always (Running (startedWith inherited)) (start inherited) run :=
  hrun.always (fun _ _ _ hs hstep => hs.step hin hout hstep) (running_start inherited)

/-- Every command that is executed has its own standard descriptors and otherwise those of the shell, with
no end of the pipe and no file besides; a child whose file cannot be opened keeps the whole pipe. And
whenever the shell waits for a line, no child is left and nothing is open that has not been before. -/
theorem commands_wired (hin : startedWith inherited stdIn ≠ none)
    (hout : startedWith inherited stdOut ≠ none) {run : List (LoopAction × MainLoop)}
    (hrun : EachStep Step (start inherited) run) :
    Always (fun s =>
      (∀ (k : Nat) (child : Child), s.children[k]? = some child → ∃ command, s.commands[k]? = some command ∧
        (child.code = .ret true →
          child.table = wiring (startedWith inherited) s.pipes s.commands.length k command) ∧
        (child.code = .ret false →
          Strays (bothEnds (startedWith inherited) s.pipes s.flowThru) command child.table)) ∧
      (s.point = .done → s.table = startedWith inherited ∧
        ∀ child ∈ s.children, child.life = .reaped)) (start inherited) run := by
  refine (running_run hin hout hrun).mono fun s hs => ⟨fun k child hk => ?_, fun hdone => ⟨?_, ?_⟩⟩
  · obtain ⟨command, hcommand, hwp⟩ := hs.children k child hk
    refine ⟨command, hcommand, fun hcode => ?_, fun hcode => ?_⟩
    · rw [hcode] at hwp
      exact hwp
    · rw [hcode] at hwp
      exact hwp
  · exact hs.at hdone
  · intro child hchild
    obtain ⟨j, hj⟩ := List.mem_iff_getElem?.mp hchild
    obtain hreaped | hwait | hwait := hs.waited j child hj
    · exact hreaped
    · cases hdone.symm.trans hwait
    · cases hdone.symm.trans hwait

/-! ### A run -/

def taken (s : MainLoop) (a : LoopAction) : Except Unit MainLoop :=
  match s.step a with
  | some s' => .ok s'
  | none => .error ()

theorem of_taken (h : taken s a = .ok s') : Step s a s' := by
  rw [taken] at h
  rw [Step]
  cases hstep : s.step a with
  | none =>
    rw [hstep] at h
    cases h
  | some s₁ =>
    rw [hstep] at h
    rw [Except.ok.inj h]

/-- The shell begins with the first of two commands, which has an input file and comes to `execvp`. -/
def firstCommand : List LoopAction :=
  [.pipe (3, 4), .fork, .call 0 (some 5)] ++ List.replicate 7 (.call 0 none)

def legalInput : InputLine := ⟨legalLine, by decide, by decide⟩

def legalRun : List (LoopAction × MainLoop) :=
  trail taken (start [some 0, some 1, some 2]) (.readLine (fun _ _ => 0) legalInput :: firstCommand)

theorem commands_wired_legalRun : EachStep Step (start [some 0, some 1, some 2]) legalRun ∧
    ∃ child command, (last (start [some 0, some 1, some 2]) legalRun).children[0]? = some child ∧
      child.code = .ret true ∧ child.table = wiring (startedWith [some 0, some 1, some 2]) 1 2 0 command ∧
      child.table stdIn = some (.file (.block 3) .readOnly) ∧ child.table stdOut = some (.writeEnd 1) := by
  have hrun : EachStep Step (start [some 0, some 1, some 2]) legalRun :=
    (eachStep_trail taken _ _).mono fun _ _ _ h => of_taken h
  have hlast : (last (start [some 0, some 1, some 2]) legalRun).pipes = 1 ∧
      (last (start [some 0, some 1, some 2]) legalRun).commands.length = 2 ∧
      ((last (start [some 0, some 1, some 2]) legalRun).children[0]?.any fun child =>
        child.executes && decide (child.table stdIn = some (.file (.block 3) .readOnly)) &&
          decide (child.table stdOut = some (.writeEnd 1))) = true := by
    decide +kernel
  obtain ⟨hpipes, hcommands, hchild⟩ := hlast
  rw [Option.any_eq_true] at hchild
  obtain ⟨child, hchild, htests⟩ := hchild
  rw [Bool.and_eq_true, Bool.and_eq_true, decide_eq_true_eq, decide_eq_true_eq] at htests
  obtain ⟨⟨hexecutes, hin⟩, hout⟩ := htests
  have hcode := Child.code_of_executes hexecutes
  obtain ⟨command, -, hwired, -⟩ := (commands_wired (by decide) (by decide) hrun).last.1 0 child hchild
  rw [hpipes, hcommands] at hwired
  exact ⟨hrun, child, command, hchild, hcode, hwired hcode, hin, hout⟩

end MainLoop

end OSChallenges.Shell
