import OSChallenges.Library.Descriptors
import OSChallenges.Library.Runs
import OSChallenges.Shell.Model

/-!
# The processes of a pipeline

The loop of `main` in `myshell.c` over the commands of a pipeline without redirections. The shell and
its children have a table of descriptors each and take their steps in any order. `pipe`, `fork` and
`execvp` succeed. What a command does after `execvp` is left open, but for its descriptors, which stay
as they are, and for its exit, which can come at any time.
-/

namespace OSChallenges.Shell

open Runs

def stdIn : Nat := 0

def stdOut : Nat := 1

/-- How `open` is asked for a file. Both ways create it if it is not there. -/
inductive Access
  | readOnly
  | writeOnly
  deriving DecidableEq, Repr

/-- What a descriptor stands for. -/
inductive Stream
  /-- Something the shell has been started with. -/
  | inherited (n : Nat)
  | readEnd (pipe : Nat)
  | writeEnd (pipe : Nat)
  | file (path : Pointer) (access : Access)
  deriving DecidableEq, Repr

abbrev Streams := Descriptors.Table Stream

/-- The descriptors of a shell that was started with these, from 0 on. -/
def startedWith (inherited : List (Option Nat)) : Streams := fun fd =>
  inherited[fd]?.join.map .inherited

/-- The descriptors with which every child starts. -/
def bothEnds (before : Streams) (pipe : Nat) (flowThru : Nat × Nat) : Streams :=
  before.pipe (.readEnd pipe) (.writeEnd pipe) flowThru.1 flowThru.2

/-- What a child calls before `execvp`. -/
inductive Syscall
  | close (fd : Nat)
  | dup2 (old new : Nat)
  deriving DecidableEq, Repr

def Syscall.run (t : Streams) : Syscall → Streams
  | .close fd => t.close fd
  | .dup2 old new => t.dup2 old new

/-- The calls of the child for the command `k` of `n`, the first one being 0. -/
def childCalls (n k : Nat) (flowThru : Nat × Nat) : List Syscall :=
  (if k + 1 < n then [.close stdOut, .dup2 flowThru.2 stdOut] else []) ++
    [.close flowThru.2] ++
    (if k ≠ 0 then [.close stdIn, .dup2 flowThru.1 stdIn] else []) ++
    [.close flowThru.1]

inductive Life
  | running
  | exited
  /-- `waitpid` has returned it. -/
  | reaped
  deriving DecidableEq, Repr

structure Process where
  table : Streams
  /-- What it has left to call; the next one is `execvp` if there is nothing. -/
  calls : List Syscall
  life : Life

/-- Where the shell is in the loop. -/
inductive Point
  | start
  | fork (k : Nat)
  | closeWrite (k : Nat)
  | wait (k : Nat)
  | closeRead
  | done
  deriving DecidableEq, Repr

/-- The table of the shell, which has been `before` when the pipeline came. -/
def shellTable (n : Nat) (before : Streams) (pipe : Nat) (flowThru : Nat × Nat) : Point → Streams
  | .start => before
  | .fork _ | .closeWrite _ => bothEnds before pipe flowThru
  | .wait k =>
    if k + 1 = n then (bothEnds before pipe flowThru).close flowThru.2
    else bothEnds before pipe flowThru
  | .closeRead => (bothEnds before pipe flowThru).close flowThru.2
  | .done => ((bothEnds before pipe flowThru).close flowThru.2).close flowThru.1

/-- The shell and its children, one for each command so far. -/
structure Processes where
  shell : Streams
  flowThru : Nat × Nat
  /-- How many pipes there have been; the last one has this number. -/
  pipes : Nat
  point : Point
  children : List Process

inductive Action
  | pipe (fds : Nat × Nat)
  | fork
  | closeWrite
  /-- `waitpid` returns the child of the command `j`, which need not be the last one. -/
  | waitpid (j : Nat)
  | closeRead
  | call (j : Nat)
  | exit (j : Nat)

namespace Processes

def start (inherited : List (Option Nat)) : Processes := ⟨startedWith inherited, (0, 0), 0, .start, []⟩

/-- One step of the shell or of a child, in a pipeline of `n` commands. -/
def step (n : Nat) (s : Processes) : Action → Option Processes
  | .pipe fds =>
    if s.point = .start ∧ s.shell.AreLowest fds.1 fds.2 then
      some { s with
        shell := s.shell.pipe (.readEnd (s.pipes + 1)) (.writeEnd (s.pipes + 1)) fds.1 fds.2
        flowThru := fds
        pipes := s.pipes + 1
        point := .fork 0 }
    else none
  | .fork =>
    match s.point with
    | .fork k => some { s with
        children := s.children ++ [⟨s.shell, childCalls n k s.flowThru, .running⟩]
        point := if k + 1 = n then .closeWrite k else .wait k }
    | _ => none
  | .closeWrite =>
    match s.point with
    | .closeWrite k => some { s with shell := s.shell.close s.flowThru.2, point := .wait k }
    | _ => none
  | .waitpid j =>
    match s.point, s.children[j]? with
    | .wait k, some child =>
      if child.life = .exited then
        some { s with
          children := s.children.set j { child with life := .reaped }
          point := if k + 1 = n then .closeRead else .fork (k + 1) }
      else none
    | _, _ => none
  | .closeRead =>
    match s.point with
    | .closeRead => some { s with shell := s.shell.close s.flowThru.1, point := .done }
    | _ => none
  | .call j =>
    match s.children[j]? with
    | some ⟨table, call :: calls, .running⟩ =>
      some { s with children := s.children.set j ⟨call.run table, calls, .running⟩ }
    | _ => none
  | .exit j =>
    match s.children[j]? with
    | some child =>
      if child.life = .running then
        some { s with children := s.children.set j { child with life := .exited } }
      else none
    | none => none

def Step (n : Nat) (s : Processes) (a : Action) (s' : Processes) : Prop := s.step n a = some s'

end Processes

end OSChallenges.Shell
