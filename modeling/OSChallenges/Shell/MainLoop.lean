import OSChallenges.Library.Program
import OSChallenges.Shell.Endings
import OSChallenges.Shell.Processes
import OSChallenges.Shell.Redirections

/-!
# The loop of the shell

`main` of `myshell.c`: it reads a line, has it parsed and checked, and runs its commands one after the
other. What a child does before `execvp` is a program over its descriptors; the shell and its children
take their steps in any order. `pipe`, `fork` and `execvp` succeed, `open` need not.
-/

namespace OSChallenges.Shell

open Program Runs

/-! ### The children -/

inductive Request
  | openFile (path : Pointer) (access : Access)
  | close (fd : Nat)
  | dup2 (old new : Nat)
  deriving DecidableEq, Repr

/-- The answer to a request: of `open` the descriptor, if it succeeds. -/
def Request.Res : Request → Type
  | .openFile _ _ => Option Nat
  | .close _ | .dup2 _ _ => Unit

abbrev ChildCode (α : Type) := Prog Request.Res α

def openFile (path : Pointer) (access : Access) : ChildCode (Option Nat) :=
  Prog.perform (Request.openFile path access)

def close (fd : Nat) : ChildCode Unit := Prog.perform (Request.close fd)

def dup2 (old new : Nat) : ChildCode Unit := Prog.perform (Request.dup2 old new)

/-- A redirect, if there is one: false if its file cannot be opened. -/
def redirect (path : Pointer) (access : Access) (std : Nat) : ChildCode Bool := do
  if path = .null then return true
  else
    let redirected ← openFile path access
    match redirected with
    | none => return false
    | some fd =>
      close std
      dup2 fd std
      close fd
      return true

/-- A standard descriptor goes over to its end of the pipe, if there is a command on that side. -/
def attach (there : Bool) (fd std : Nat) : ChildCode Unit := do
  if there then
    close std
    dup2 fd std

/-- What the child for the command `k` of `n` does before `execvp`, the first one being 0. With a file
that cannot be opened it leaves the loop over the commands instead. -/
def childCode (n k : Nat) (currentCommand : PipelineCommand) (flowThru : Nat × Nat) :
    ChildCode Bool := do
  let opened ← redirect currentCommand.redirectInPath .readOnly stdIn
  if !opened then return false
  else
    let opened ← redirect currentCommand.redirectOutPath .writeOnly stdOut
    if !opened then return false
    else
      attach (k + 1 < n) flowThru.2 stdOut
      close flowThru.2
      attach (k ≠ 0) flowThru.1 stdIn
      close flowThru.1
      return true

/-- A request of a child. `open` answers with the lowest descriptor, or it fails. -/
def perform (answer : Option Nat) : (o : Request) → Streams → Option (o.Res × Streams)
  | .openFile path access, t =>
    match answer with
    | none => some (none, t)
    | some fd => if t.IsLowest fd then some (some fd, t.put fd (.file path access)) else none
  | .close fd, t => some ((), t.close fd)
  | .dup2 old new, t => some ((), t.dup2 old new)

structure Child where
  table : Streams
  /-- What it has left to do: true if it comes to `execvp`, false if it goes on as a second shell. -/
  code : ChildCode Bool
  life : Life

/-! ### The shell -/

/-- The variables of `main`, the descriptors of the shell and the children of its last pipeline. At the
point `done` it waits for a line, at `start` it has accepted one. -/
structure MainLoop where
  table : Streams
  /-- `flowThru[0]` and `flowThru[1]`. -/
  flowThru : Nat × Nat
  /-- How many pipes there have been; the last one has this number. -/
  pipes : Nat
  point : Point
  pipeLine : Option Parser
  errorMessage : String
  stderr : List String
  children : List Child

inductive LoopAction
  /-- A line comes in, with what has been left in the memory that `malloc` hands out. -/
  | readLine (heap : Heap) (line : InputLine)
  | pipe (fds : Nat × Nat)
  | fork
  | closeWrite
  /-- `waitpid` returns the child of the command `j`, which need not be the last one. -/
  | waitpid (j : Nat)
  | closeRead
  /-- A request of the child of the command `j`, and what `open` answers if it is that. -/
  | call (j : Nat) (answer : Option Nat)
  | exit (j : Nat)

namespace MainLoop

def start (inherited : List (Option Nat)) : MainLoop where
  table := startedWith inherited
  flowThru := (0, 0)
  pipes := 0
  point := .done
  pipeLine := none
  errorMessage := ""
  stderr := []
  children := []

/-- The list from `pipeLine -> commands` on. -/
def commands (s : MainLoop) : List PipelineCommand :=
  match s.pipeLine with
  | none => []
  | some pipe => pipe.pipeline.commands

/-- What `main` does with a line that has been parsed. -/
def check (s : MainLoop) (pipeLine : Parser) : MainLoop :=
  let checked := { s with
    pipeLine := some pipeLine
    errorMessage := (errorCheck pipeLine.pipeline s.errorMessage).2
    children := [] }
  match refusal pipeLine s.errorMessage with
  | some message => { checked with stderr := s.stderr ++ [message] }
  | none => { checked with point := .start }

/-- One step of the shell or of a child. The loop does not go on behind a line with which the parser does not
come to its end, or of which it stores a letter behind a buffer. -/
def step (s : MainLoop) : LoopAction → Option MainLoop
  | .readLine heap line =>
    if s.point = .done then
      match pipelineBuild heap line.chars with
      | .ok pipeLine => if pipeLine.overflow then none else some (s.check pipeLine)
      | .error _ => none
    else none
  | .pipe fds =>
    if s.point = .start ∧ s.table.AreLowest fds.1 fds.2 then
      some { s with
        table := s.table.pipe (.readEnd (s.pipes + 1)) (.writeEnd (s.pipes + 1)) fds.1 fds.2
        flowThru := fds
        pipes := s.pipes + 1
        point := .fork 0 }
    else none
  | .fork =>
    match s.point with
    | .fork k =>
      match s.commands[k]? with
      | none => none
      | some currentCommand => some { s with
          children := s.children ++
            [⟨s.table, childCode s.commands.length k currentCommand s.flowThru, .running⟩]
          point := if k + 1 = s.commands.length then .closeWrite k else .wait k }
    | _ => none
  | .closeWrite =>
    match s.point with
    | .closeWrite k => some { s with table := s.table.close s.flowThru.2, point := .wait k }
    | _ => none
  | .waitpid j =>
    match s.point, s.children[j]? with
    | .wait k, some child =>
      if child.life = .exited then
        some { s with
          children := s.children.set j { child with life := .reaped }
          point := if k + 1 = s.commands.length then .closeRead else .fork (k + 1) }
      else none
    | _, _ => none
  | .closeRead =>
    match s.point with
    | .closeRead => some { s with table := s.table.close s.flowThru.1, point := .done }
    | _ => none
  | .call j answer =>
    match s.children[j]? with
    | some ⟨table, .op o k, .running⟩ =>
      match perform answer o table with
      | none => none
      | some (r, table) => some { s with children := s.children.set j ⟨table, k r, .running⟩ }
    | _ => none
  | .exit j =>
    match s.children[j]? with
    | some child =>
      if child.life = .running then
        some { s with children := s.children.set j { child with life := .exited } }
      else none
    | none => none

def Step (s : MainLoop) (a : LoopAction) (s' : MainLoop) : Prop := s.step a = some s'

end MainLoop

end OSChallenges.Shell
