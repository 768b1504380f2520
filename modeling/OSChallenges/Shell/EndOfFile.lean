import OSChallenges.Shell.Processes
import Mathlib.Tactic.Common

/-!
# Where the pipe is open

All commands of a pipeline share one pipe. The shell closes its write end only after the last `fork`,
so it still has it when it waits for a child between the first and the last one. A pipeline of two
commands has no such child, and there the reader comes to the end of its input.
-/

namespace OSChallenges.Shell

open Runs

variable {n k j fd p : Nat} {t before : Streams} {fds : Nat × Nat} {target : Stream}
  {s s' s₀ : Processes} {a : Action} {child : Process} {inherited : List (Option Nat)}

/-! ### Tables -/

theorem startedWith_ne (inherited : List (Option Nat)) (fd p : Nat) :
    startedWith inherited fd ≠ some (.readEnd p) ∧ startedWith inherited fd ≠ some (.writeEnd p) := by
  unfold startedWith
  cases inherited[fd]?.join <;> simp

theorem exists_closed (inherited : List (Option Nat)) (low : Nat) :
    ∃ fd, low ≤ fd ∧ startedWith inherited fd = none :=
  ⟨low + inherited.length, Nat.le_add_right _ _, by simp [startedWith]⟩

theorem Syscall.run_eq_some {call : Syscall} (h : call.run t fd = some target) :
    ∃ x, t x = some target := by
  cases call with
  | close x =>
    rw [Syscall.run, Descriptors.Table.close_apply] at h
    split at h
    · cases h
    · exact ⟨fd, h⟩
  | dup2 old new =>
    rw [Syscall.run] at h
    cases hold : t old with
    | none =>
      rw [Descriptors.Table.dup2_closed hold] at h
      exact ⟨fd, h⟩
    | some x =>
      rw [Descriptors.Table.dup2_apply hold] at h
      split at h
      · exact ⟨old, hold.trans h⟩
      · exact ⟨fd, h⟩

theorem calls_eq_some {calls : List Syscall} (h : calls.foldl Syscall.run t fd = some target) :
    ∃ x, t x = some target := by
  induction calls generalizing t fd with
  | nil => exact ⟨fd, h⟩
  | cons call calls ih =>
    obtain ⟨x, hx⟩ := ih h
    exact Syscall.run_eq_some hx

/-- The last child reads from the pipe and has no other end of it. -/
theorem lastCalls_run (h : before.AreLowest fds.1 fds.2) (hlast : k + 1 = n) (hk : k ≠ 0)
    (hopen : fds.1 ≠ stdIn) :
    (childCalls n k fds).foldl Syscall.run (bothEnds before p fds) = before.put stdIn (.readEnd p) := by
  have hread : (before.put fds.1 (.readEnd p)) fds.1 = some (.readEnd p) :=
    Descriptors.Table.put_self ..
  simp only [childCalls, if_neg (Nat.not_lt_of_le (Nat.le_of_eq hlast.symm)), if_pos hk,
    List.nil_append, List.cons_append, List.foldl_cons, List.foldl_nil, Syscall.run, bothEnds,
    Descriptors.Table.close_write_pipe h, Descriptors.Table.close_dup2 hread hopen]
  funext x
  rw [Descriptors.Table.close_apply, Descriptors.Table.put_apply, Descriptors.Table.put_apply,
    Descriptors.Table.put_apply]
  by_cases hx : x = fds.1
  · rw [if_pos hx, hx, if_neg hopen, h.2.1]
  · rw [if_neg hx, if_neg hx]

/-- If the pipe took the descriptor 0, the last child closes what it has just opened. -/
theorem lastCalls_run_stdIn (t : Streams) (hlast : k + 1 = n) (hk : k ≠ 0) (hclosed : fds.1 = stdIn) :
    (childCalls n k fds).foldl Syscall.run t stdIn = none := by
  simp only [childCalls, if_neg (Nat.not_lt_of_le (Nat.le_of_eq hlast.symm)), if_pos hk,
    List.nil_append, List.cons_append, List.foldl_cons, List.foldl_nil, Syscall.run]
  rw [Descriptors.Table.close_apply, if_pos hclosed.symm]

/-! ### The shell and its children -/

/-- How many children there are. -/
def Point.forked (n : Nat) : Point → Nat
  | .start => 0
  | .fork k => k
  | .closeWrite k | .wait k => k + 1
  | .closeRead | .done => n

/-- How many children `waitpid` has returned. -/
def Point.collected (n : Nat) : Point → Nat
  | .start => 0
  | .fork k | .closeWrite k | .wait k => k
  | .closeRead | .done => n

/-- The `k` of a place in the loop is one of the commands, and the write end is closed for the last. -/
def Point.InLoop (n : Nat) : Point → Prop
  | .start => False
  | .fork k | .wait k => k < n
  | .closeWrite k => k + 1 = n
  | .closeRead | .done => True

namespace Processes

/-- What holds from `pipe` on: every child has started with both ends of the pipe, and at most the last
one has not been returned. -/
structure Wired (n : Nat) (before : Streams) (s : Processes) : Prop where
  point : s.point.InLoop n
  fds : before.AreLowest s.flowThru.1 s.flowThru.2
  shell : s.shell = shellTable n before s.pipes s.flowThru s.point
  forked : s.children.length = s.point.forked n
  calls : ∀ k child, s.children[k]? = some child → ∃ done,
    childCalls n k s.flowThru = done ++ child.calls ∧
      child.table = done.foldl Syscall.run (bothEnds before s.pipes s.flowThru)
  reaped : ∀ k child, s.children[k]? = some child → k < s.point.collected n → child.life = .reaped

theorem Wired.inLoop {q : Point} (h : Wired n before s) (hpoint : s.point = q) : q.InLoop n :=
  hpoint ▸ h.point

theorem Wired.set (h : Wired n before s) (hj : s.children[j]? = some child) (child' : Process)
    (hreaped : child.life ≠ .reaped)
    (hcalls : ∃ done, childCalls n j s.flowThru = done ++ child'.calls ∧
      child'.table = done.foldl Syscall.run (bothEnds before s.pipes s.flowThru)) :
    Wired n before { s with children := s.children.set j child' } := by
  refine ⟨h.point, h.fds, h.shell, (List.length_set).trans h.forked, ?_, ?_⟩
  · intro k c hc
    rw [List.getElem?_set] at hc
    split at hc
    · rename_i hjk
      split at hc
      · cases hc
        exact hjk ▸ hcalls
      · cases hc
    · exact h.calls k c hc
  · intro k c hc hk
    rw [List.getElem?_set] at hc
    split at hc
    · rename_i hjk
      subst hjk
      exact absurd (h.reaped j child hj hk) hreaped
    · exact h.reaped k c hc hk

/-- The child for which the shell waits is the only one it has not had back. -/
theorem Wired.awaited (h : Wired n before s) (hpoint : s.point = .wait k)
    (hj : s.children[j]? = some child) (hreaped : child.life ≠ .reaped) : j = k := by
  have hlt : j < s.children.length := (List.getElem?_eq_some_iff.mp hj).1
  rw [h.forked, hpoint] at hlt
  refine Nat.le_antisymm (Nat.le_of_lt_succ hlt) (Nat.le_of_not_lt fun hjk => hreaped ?_)
  exact h.reaped j child hj (by rw [hpoint]; exact hjk)

theorem Wired.fork (h : Wired n before s) (hpoint : s.point = .fork k) :
    Wired n before { s with
      children := s.children ++ [⟨s.shell, childCalls n k s.flowThru, .running⟩]
      point := if k + 1 = n then .closeWrite k else .wait k } := by
  have hk : k < n := h.inLoop hpoint
  have hshell : s.shell = bothEnds before s.pipes s.flowThru := by rw [h.shell, hpoint]; rfl
  have hlen : s.children.length = k := by rw [h.forked, hpoint]; rfl
  have hnew : ∀ j c, (s.children ++ [⟨s.shell, childCalls n k s.flowThru, .running⟩])[j]? = some c →
      s.children[j]? = some c ∨ j = k ∧ c = ⟨s.shell, childCalls n k s.flowThru, .running⟩ := by
    intro j c hc
    rw [List.getElem?_append] at hc
    split at hc
    · exact .inl hc
    · rename_i hge
      rw [List.getElem?_singleton, hlen] at hc
      split at hc
      · exact .inr ⟨by omega, (Option.some.inj hc).symm⟩
      · cases hc
  have hcollected : (if k + 1 = n then Point.closeWrite k else .wait k).collected n = k := by
    split <;> rfl
  refine ⟨?_, h.fds, ?_, ?_, ?_, ?_⟩
  · show (if k + 1 = n then Point.closeWrite k else .wait k).InLoop n
    split
    · assumption
    · exact hk
  · show s.shell = shellTable n before s.pipes s.flowThru (if k + 1 = n then Point.closeWrite k else .wait k)
    rw [hshell]
    split
    · rfl
    · rename_i hlast
      exact (if_neg hlast).symm
  · show _ = (if k + 1 = n then Point.closeWrite k else .wait k).forked n
    rw [List.length_append, hlen]
    split <;> rfl
  · intro j c hc
    obtain hold | ⟨rfl, rfl⟩ := hnew j c hc
    · exact h.calls j c hold
    · exact ⟨[], rfl, hshell⟩
  · intro j c hc hj
    rw [hcollected] at hj
    obtain hold | ⟨rfl, -⟩ := hnew j c hc
    · exact h.reaped j c hold (by rw [hpoint]; exact hj)
    · exact absurd hj (Nat.lt_irrefl j)

theorem Wired.closeWrite (h : Wired n before s) (hpoint : s.point = .closeWrite k) :
    Wired n before { s with shell := s.shell.close (s.flowThru.2), point := .wait k } := by
  have hlast : k + 1 = n := h.inLoop hpoint
  refine ⟨?_, h.fds, ?_, ?_, h.calls, ?_⟩
  · show k < n
    omega
  · show s.shell.close (s.flowThru.2) = if k + 1 = n then _ else _
    rw [if_pos hlast, h.shell, hpoint]
    rfl
  · rw [h.forked, hpoint]
    rfl
  · intro j c hc hj
    exact h.reaped j c hc (by rw [hpoint]; exact hj)

theorem Wired.waitpid (h : Wired n before s) (hpoint : s.point = .wait k)
    (hj : s.children[j]? = some child) (hexited : child.life = .exited) :
    Wired n before { s with
      children := s.children.set j { child with life := .reaped }
      point := if k + 1 = n then .closeRead else .fork (k + 1) } := by
  have hk : k < n := h.inLoop hpoint
  have hne : child.life ≠ .reaped := by
    rw [hexited]
    decide
  obtain rfl := h.awaited hpoint hj hne
  have hset := h.set hj { child with life := .reaped } hne (h.calls j child hj)
  have hlen : s.children.length = j + 1 := by rw [h.forked, hpoint]; rfl
  refine ⟨?_, h.fds, ?_, ?_, hset.calls, ?_⟩
  · show (if j + 1 = n then Point.closeRead else .fork (j + 1)).InLoop n
    split
    · trivial
    · show j + 1 < n
      omega
  · show s.shell = shellTable n before s.pipes s.flowThru (if j + 1 = n then Point.closeRead else .fork (j + 1))
    rw [h.shell, hpoint, shellTable]
    split <;> rfl
  · show _ = (if j + 1 = n then Point.closeRead else .fork (j + 1)).forked n
    rw [List.length_set, hlen]
    split
    · assumption
    · rfl
  · intro i c hc _
    have hi : i < j + 1 := by
      have hlt := (List.getElem?_eq_some_iff.mp hc).1
      rwa [List.length_set, hlen] at hlt
    obtain hlt | rfl := Nat.lt_succ_iff_lt_or_eq.mp hi
    · exact hset.reaped i c hc (by rw [hpoint]; exact hlt)
    · rw [List.getElem?_set, if_pos rfl, if_pos (by omega)] at hc
      cases hc
      rfl

theorem Wired.closeRead (h : Wired n before s) (hpoint : s.point = .closeRead) :
    Wired n before { s with shell := s.shell.close (s.flowThru.1), point := .done } := by
  refine ⟨trivial, h.fds, ?_, ?_, h.calls, ?_⟩
  · show s.shell.close (s.flowThru.1) = _
    rw [h.shell, hpoint]
    rfl
  · rw [h.forked, hpoint]
    rfl
  · intro j c hc hj
    exact h.reaped j c hc (by rw [hpoint]; exact hj)

theorem Wired.step (h : Wired n before s) (hstep : Step n s a s') : Wired n before s' := by
  cases a with
  | pipe fds =>
    rw [Step, Processes.step] at hstep
    split at hstep
    · rename_i hstart
      exact (h.inLoop hstart.1).elim
    · cases hstep
  | fork =>
    rw [Step, Processes.step] at hstep
    split at hstep
    · rename_i k hpoint
      cases hstep
      exact h.fork hpoint
    · cases hstep
  | closeWrite =>
    rw [Step, Processes.step] at hstep
    split at hstep
    · rename_i k hpoint
      cases hstep
      exact h.closeWrite hpoint
    · cases hstep
  | waitpid j =>
    rw [Step, Processes.step] at hstep
    split at hstep
    · rename_i k child hpoint hj
      split at hstep
      · rename_i hexited
        cases hstep
        exact h.waitpid hpoint hj hexited
      · cases hstep
    · cases hstep
  | closeRead =>
    rw [Step, Processes.step] at hstep
    split at hstep
    · rename_i hpoint
      cases hstep
      exact h.closeRead hpoint
    · cases hstep
  | call j =>
    rw [Step, Processes.step] at hstep
    split at hstep
    · rename_i table call calls hj
      cases hstep
      obtain ⟨done, hdone, htable⟩ := h.calls j _ hj
      refine h.set hj _ nofun ⟨done ++ [call], ?_, ?_⟩
      · rw [hdone, List.append_assoc]
        rfl
      · rw [List.foldl_append, ← htable]
        rfl
    · cases hstep
  | exit j =>
    rw [Step, Processes.step] at hstep
    split at hstep
    · rename_i child hj
      split at hstep
      · rename_i hrunning
        cases hstep
        refine h.set hj _ ?_ (h.calls j child hj)
        rw [hrunning]
        decide
      · cases hstep
    · cases hstep

/-- A shell that has accepted a pipeline: it has no end of a pipe open, and descriptors enough. -/
structure Accepted (s : Processes) : Prop where
  point : s.point = .start
  children : s.children = []
  clean : ∀ fd p, s.shell fd ≠ some (.readEnd p) ∧ s.shell fd ≠ some (.writeEnd p)
  room : ∀ low, ∃ fd, low ≤ fd ∧ s.shell fd = none

theorem accepted_start (inherited : List (Option Nat)) : Accepted (start inherited) where
  point := rfl
  children := rfl
  clean := startedWith_ne inherited
  room := exists_closed inherited

/-- The first step is `pipe`. -/
theorem Accepted.wired (h : Accepted s₀) (hn : 0 < n) (hstep : Step n s₀ a s') : Wired n s₀.shell s' := by
  cases a with
  | pipe fds =>
    rw [Step, Processes.step] at hstep
    split at hstep
    · rename_i hpipe
      cases hstep
      refine ⟨hn, hpipe.2, rfl, ?_, ?_, ?_⟩
      · show s₀.children.length = 0
        rw [h.children]
        rfl
      · intro k c hc
        rw [show s₀.children = [] from h.children] at hc
        cases hc
      · intro k c hc
        rw [show s₀.children = [] from h.children] at hc
        cases hc
    · cases hstep
  | call j => simp [Step, Processes.step, h.children] at hstep
  | exit j => simp [Step, Processes.step, h.children] at hstep
  | _ => simp [Step, Processes.step, h.point] at hstep

theorem wired_run (h : Accepted s₀) (hn : 0 < n) {run : List (Action × Processes)}
    (hrun : EachStep (Step n) s₀ run) :
    Always (fun s => s = s₀ ∨ Wired n s₀.shell s) s₀ run := by
  refine hrun.always (fun s a s' hs hstep => ?_) (.inl rfl)
  obtain rfl | hwired := hs
  · exact .inr (h.wired hn hstep)
  · exact .inr (hwired.step hstep)

theorem Wired.of_reaches (h : Accepted s₀) (hn : 0 < n) (hreach : Reaches (Step n) s₀ s)
    (hstarted : s.point ≠ .start) : Wired n s₀.shell s := by
  obtain rfl | hwired := hreach.of_always fun run hrun => wired_run h hn hrun
  · exact absurd h.point hstarted
  · exact hwired

/-- A pipeline leaves the descriptors of the shell as they were, and no child that has not been
returned. -/
theorem shell_done (h : Accepted s₀) (hn : 0 < n) {run : List (Action × Processes)}
    (hrun : EachStep (Step n) s₀ run) :
    Always (fun s => s.point = .done → s.shell = s₀.shell ∧
      ∀ (k : Nat) (child : Process), s.children[k]? = some child → child.life = .reaped) s₀ run := by
  refine (wired_run h hn hrun).mono fun s hs hdone => ?_
  obtain rfl | hwired := hs
  · cases h.point.symm.trans hdone
  constructor
  · rw [hwired.shell, hdone]
    exact Descriptors.Table.close_pipe hwired.fds
  · intro k child hk
    have hlt := (List.getElem?_eq_some_iff.mp hk).1
    rw [hwired.forked, hdone] at hlt
    exact hwired.reaped k child hk (by rw [hdone]; exact hlt)

/-! ### The end of the input -/

/-- The child for the command `k` has not exited. -/
def Running (s : Processes) (k : Nat) (child : Process) : Prop :=
  s.children[k]? = some child ∧ child.life = .running

/-- The shell has come to the `waitpid` after the `fork` for the command `k`. -/
def HasWaited (s : Processes) (k : Nat) : Prop :=
  match s.point with
  | .start => False
  | .fork i | .closeWrite i => k < i
  | .wait i => k ≤ i
  | .closeRead | .done => True

/-- Some process that is still running can write to the pipe `p`. -/
def Writable (s : Processes) (p : Nat) : Prop :=
  (∃ fd, s.shell fd = some (.writeEnd p)) ∨
    ∃ j child, s.Running j child ∧ ∃ fd, child.table fd = some (.writeEnd p)

/-- The child for the command `k` reads from a pipe to which only the child before can write, and does
not write to it. -/
structure FedBy (s : Processes) (k : Nat) (child : Process) (p : Nat) : Prop where
  input : child.table stdIn = some (.readEnd p)
  shell : ∀ fd, s.shell fd ≠ some (.writeEnd p)
  children : ∀ j c fd, s.Running j c → c.table fd = some (.writeEnd p) → j + 1 = k
  output : child.table stdOut ≠ some (.readEnd p) ∧ child.table stdOut ≠ some (.writeEnd p)

/-- A child that has come to `execvp` is fed by the one before, and when that one is gone nobody can
write to its pipe any more. -/
def Delivers (k : Nat) (s : Processes) : Prop :=
  ∀ child, s.Running k child → child.calls = [] → s.HasWaited k →
    ∃ p, s.FedBy k child p ∧ ((∀ j c, j + 1 = k → ¬ s.Running j c) → ¬ s.Writable p)

theorem FedBy.not_writable (h : s.FedBy k child p) (hgone : ∀ j c, j + 1 = k → ¬ s.Running j c) :
    ¬ s.Writable p := by
  rintro (⟨fd, hfd⟩ | ⟨j, c, hc, fd, hfd⟩)
  · exact h.shell fd hfd
  · exact hgone j c (h.children j c fd hc hfd) hc

theorem Wired.forked_le (h : Wired n before s) : s.children.length ≤ n := by
  rw [h.forked]
  cases hpoint : s.point with
  | start => exact Nat.zero_le n
  | fork k => exact Nat.le_of_lt (h.inLoop hpoint)
  | closeWrite k => exact Nat.le_of_eq (h.inLoop hpoint)
  | wait k => exact h.inLoop hpoint
  | closeRead | done => exact Nat.le_refl n

theorem Wired.waits (h : Wired n before s) (hchild : s.Running k child) (hwaited : s.HasWaited k) :
    s.point = .wait k := by
  have hlt := (List.getElem?_eq_some_iff.mp hchild.1).1
  have hnot : s.point.collected n ≤ k := Nat.le_of_not_lt fun hlt => by
    have hlife := h.reaped k child hchild.1 hlt
    rw [hchild.2] at hlife
    cases hlife
  rw [h.forked] at hlt
  unfold HasWaited at hwaited
  cases hpoint : s.point with
  | start =>
    rw [hpoint] at hwaited
    exact hwaited.elim
  | fork i | closeWrite i =>
    rw [hpoint] at hwaited hnot
    exact absurd hwaited (Nat.not_lt_of_le hnot)
  | wait i =>
    rw [hpoint] at hwaited hnot
    exact congrArg Point.wait (Nat.le_antisymm hnot hwaited)
  | closeRead | done =>
    rw [hpoint] at hlt hnot
    exact absurd hlt (Nat.not_lt_of_le hnot)

/-- While the shell waits for another child than the last one it has the write end itself. -/
theorem Wired.shell_writes (h : Wired n before s) (hpoint : s.point = .wait k) (hnot : k + 1 ≠ n) :
    s.shell s.flowThru.2 = some (.writeEnd s.pipes) := by
  rw [h.shell, hpoint, shellTable, if_neg hnot, bothEnds, Descriptors.Table.pipe_apply, if_pos rfl]

/-- The last child comes to the end of its input. -/
theorem Wired.delivers_last (h : Wired n s₀.shell s) (haccepted : Accepted s₀) (hlast : k + 1 = n)
    (hk : k ≠ 0) (hopen : s₀.shell stdIn ≠ none) : Delivers k s := by
  intro child hchild hcalls hwaited
  have hstdIn : s.flowThru.1 ≠ stdIn := fun heq => hopen (heq ▸ h.fds.2.1)
  have hne := haccepted.clean
  obtain ⟨done, hdone, htable⟩ := h.calls k child hchild.1
  rw [hcalls, List.append_nil] at hdone
  rw [← hdone, lastCalls_run h.fds hlast hk hstdIn] at htable
  have hpoint := h.waits hchild hwaited
  have hshell : s.shell = s₀.shell.put s.flowThru.1 (.readEnd s.pipes) := by
    rw [h.shell, hpoint, shellTable, if_pos hlast]
    exact Descriptors.Table.close_write_pipe h.fds
  have hfed : s.FedBy k child s.pipes := by
    refine ⟨?_, ?_, ?_, ?_⟩
    · rw [htable, Descriptors.Table.put_self]
    · intro fd
      rw [hshell, Descriptors.Table.put_apply]
      split
      · nofun
      · exact (hne fd _).2
    · intro j c fd hc hfd
      have hj : j = k := h.awaited hpoint hc.1 (by rw [hc.2]; decide)
      subst hj
      have heq : c = child := Option.some.inj (hc.1.symm.trans hchild.1)
      rw [heq, htable, Descriptors.Table.put_apply] at hfd
      split at hfd
      · cases hfd
      · exact absurd hfd (hne fd _).2
    · rw [htable, Descriptors.Table.put_of_ne (by decide)]
      exact hne stdOut _
  exact ⟨s.pipes, hfed, hfed.not_writable⟩

/-- Only a child that reads from the pipe while nobody else has its write end is fed. -/
theorem Wired.last_of_delivers (h : Wired n s₀.shell s) (haccepted : Accepted s₀) (hk : k ≠ 0)
    (hlow : s.flowThru.1 < s.flowThru.2) (hpoint : s.point = .wait k) (hchild : s.Running k child)
    (hcalls : child.calls = []) (hdelivers : Delivers k s) :
    k + 1 = n ∧ s₀.shell stdIn ≠ none := by
  have hwaited : s.HasWaited k := by
    rw [HasWaited, hpoint]
  obtain ⟨p, hfed, -⟩ := hdelivers child hchild hcalls hwaited
  obtain ⟨done, hdone, htable⟩ := h.calls k child hchild.1
  rw [hcalls, List.append_nil] at hdone
  rw [← hdone] at htable
  have hinput := hfed.input
  rw [htable] at hinput
  -- There is one pipe.
  have hp : p = s.pipes := by
    obtain ⟨x, hx⟩ := calls_eq_some hinput
    rw [bothEnds, Descriptors.Table.pipe_apply] at hx
    split at hx
    · cases hx
    · split at hx
      · cases hx
        rfl
      · exact absurd hx (haccepted.clean x p).1
  have hlast : k + 1 = n := by
    by_contra hnot
    exact hfed.shell s.flowThru.2 (hp ▸ h.shell_writes hpoint hnot)
  refine ⟨hlast, fun hclosed => ?_⟩
  -- The descriptor 0 is the lowest one.
  have hzero : s.flowThru.1 = stdIn := by
    by_contra hne
    obtain heq | heq := h.fds.2.2.2 stdIn (Nat.lt_of_lt_of_le (Nat.pos_of_ne_zero hne)
      (Nat.le_max_left _ _)) hclosed
    · exact hne heq.symm
    · exact absurd (heq ▸ hlow) (Nat.not_lt_zero _)
  rw [lastCalls_run_stdIn _ hlast hk hzero] at hinput
  cases hinput

/-! ### The runs that lead to each child -/

theorem reaches_execvp (h : Reaches (Step n) s₀ s) (hchild : s.Running k child) :
    ∃ s' child', Reaches (Step n) s₀ s' ∧ s'.flowThru = s.flowThru ∧ s'.point = s.point ∧
      s'.Running k child' ∧ child'.calls = [] := by
  obtain ⟨table, calls, life⟩ := child
  obtain ⟨hk, rfl⟩ := hchild
  induction calls generalizing s table with
  | nil => exact ⟨s, _, h, rfl, rfl, ⟨hk, rfl⟩, rfl⟩
  | cons call calls ih =>
    have hstep : Step n s (.call k)
        { s with children := s.children.set k ⟨call.run table, calls, .running⟩ } := by
      rw [Step, Processes.step, hk]
    have hlt := (List.getElem?_eq_some_iff.mp hk).1
    obtain ⟨s', child', hreach, hfds, hpoint, hrest⟩ := ih (h.tail hstep) (call.run table)
      (List.getElem?_set_self hlt)
    exact ⟨s', child', hreach, hfds, hpoint, hrest⟩

theorem reaches_wait_of_fork (haccepted : Accepted s₀) (h : Reaches (Step n) s₀ s) (hk : k < n)
    (hpoint : s.point = .fork k) :
    ∃ s' child, Reaches (Step n) s₀ s' ∧ s'.flowThru = s.flowThru ∧ s'.point = .wait k ∧
      s'.Running k child := by
  have hwired := Wired.of_reaches haccepted (by omega) h (by rw [hpoint]; nofun)
  have hlen : s.children.length = k := by rw [hwired.forked, hpoint]; rfl
  have hstep : Step n s .fork { s with
      children := s.children ++ [⟨s.shell, childCalls n k s.flowThru, .running⟩]
      point := if k + 1 = n then .closeWrite k else .wait k } := by
    rw [Step, Processes.step, hpoint]
  have hchild : (s.children ++ [⟨s.shell, childCalls n k s.flowThru, .running⟩])[k]? =
      some ⟨s.shell, childCalls n k s.flowThru, .running⟩ := by
    rw [List.getElem?_append_right (Nat.le_of_eq hlen), hlen, Nat.sub_self]
    rfl
  by_cases hlast : k + 1 = n
  · rw [if_pos hlast] at hstep
    exact ⟨_, _, (h.tail hstep).tail (a := .closeWrite) rfl, rfl, rfl, hchild, rfl⟩
  · rw [if_neg hlast] at hstep
    exact ⟨_, _, h.tail hstep, rfl, rfl, hchild, rfl⟩

theorem reaches_wait (haccepted : Accepted s₀) (hlow : s₀.shell.AreLowest fds.1 fds.2) (hk : k < n) :
    ∃ s child, Reaches (Step n) s₀ s ∧ s.flowThru = fds ∧ s.point = .wait k ∧ s.Running k child := by
  induction k with
  | zero =>
    have hstep : Step n s₀ (.pipe fds) { s₀ with
        shell := s₀.shell.pipe (.readEnd (s₀.pipes + 1)) (.writeEnd (s₀.pipes + 1)) fds.1 fds.2
        flowThru := fds
        pipes := s₀.pipes + 1
        point := .fork 0 } := by
      rw [Step, Processes.step]
      exact if_pos ⟨haccepted.point, hlow⟩
    exact reaches_wait_of_fork haccepted ((Reaches.refl _).tail hstep) hk rfl
  | succ k ih =>
    obtain ⟨s, child, hreach, hfds, hpoint, hchild⟩ := ih (Nat.lt_of_succ_lt hk)
    have hlt := (List.getElem?_eq_some_iff.mp hchild.1).1
    have hexit : Step n s (.exit k)
        { s with children := s.children.set k { child with life := .exited } } := by
      rw [Step, Processes.step, hchild.1]
      exact if_pos hchild.2
    have hwait : Step n { s with children := s.children.set k { child with life := .exited } }
        (.waitpid k) { s with
          children := (s.children.set k { child with life := .exited }).set k
            { child with life := .reaped }
          point := .fork (k + 1) } := by
      rw [Step, Processes.step, hpoint, List.getElem?_set_self hlt]
      simp only [if_pos, if_neg (Nat.ne_of_lt hk)]
    obtain ⟨s', child', hreach', hfds', hwaits⟩ :=
      reaches_wait_of_fork haccepted ((hreach.tail hexit).tail hwait) hk rfl
    exact ⟨s', child', hreach', hfds'.trans hfds, hwaits⟩

/-! ### The commands that are fed -/

/-- Of all commands that read from the pipe the last one alone does so safely. -/
theorem delivers_command_iff (haccepted : Accepted s₀) (hk : k ≠ 0) (hkn : k < n) :
    (∀ run, EachStep (Step n) s₀ run → Always (Delivers k) s₀ run) ↔
      k + 1 = n ∧ s₀.shell stdIn ≠ none := by
  constructor
  · intro halways
    obtain ⟨fd, fd', hfds, hlow⟩ := Descriptors.Table.exists_areLowest haccepted.room
    obtain ⟨s, child, hreach, hflow, hpoint, hchild⟩ :=
      reaches_wait haccepted (show s₀.shell.AreLowest (fd, fd').1 (fd, fd').2 from hfds) hkn
    obtain ⟨s', child', hreach', hflow', hpoint', hchild', hcalls⟩ := reaches_execvp hreach hchild
    rw [hpoint] at hpoint'
    have hwired := Wired.of_reaches haccepted (by omega) hreach' (by rw [hpoint']; nofun)
    refine hwired.last_of_delivers haccepted hk ?_ hpoint' hchild' hcalls (hreach'.of_always halways)
    rwa [hflow', hflow]
  · rintro ⟨hlast, hopen⟩ run hrun
    refine (wired_run haccepted (by omega) hrun).mono fun s hs => ?_
    obtain rfl | hwired := hs
    · intro child hchild
      rw [Running, haccepted.children] at hchild
      cases hchild.1
    · exact hwired.delivers_last haccepted hlast hk hopen

/-- While another child than the last one runs, its pipe does not come to an end. -/
theorem writable_of_running (haccepted : Accepted s₀) (hkn : k + 1 < n) {run : List (Action × Processes)}
    (hrun : EachStep (Step n) s₀ run) :
    Always (fun s => ∀ child, s.Running k child → s.HasWaited k → s.Writable s.pipes) s₀ run := by
  refine (wired_run haccepted (by omega) hrun).mono fun s hs child hchild hwaited => ?_
  obtain rfl | hwired := hs
  · rw [Running, haccepted.children] at hchild
    cases hchild.1
  · have hpoint := hwired.waits hchild hwaited
    exact .inl ⟨s.flowThru.2, hwired.shell_writes hpoint (Nat.ne_of_lt hkn)⟩

/-- Every command after the first one is fed exactly in a pipeline of one or two commands, if standard
input was open. -/
theorem delivered_iff (haccepted : Accepted s₀) (hn : 0 < n) :
    (∀ run, EachStep (Step n) s₀ run → Always (fun s => ∀ k, 1 ≤ k → Delivers k s) s₀ run) ↔
      n = 1 ∨ n = 2 ∧ s₀.shell stdIn ≠ none := by
  constructor
  · intro halways
    by_contra hnot
    have hsecond : 1 < n := by omega
    have h := (delivers_command_iff haccepted (Nat.one_ne_zero) hsecond).mp fun run hrun =>
      (halways run hrun).mono fun s hs => hs 1 (Nat.le_refl 1)
    exact hnot (.inr ⟨h.1.symm, h.2⟩)
  · intro hcond run hrun
    refine (wired_run haccepted hn hrun).mono fun s hs k hk => ?_
    obtain rfl | hwired := hs
    · intro child hchild
      rw [Running, haccepted.children] at hchild
      cases hchild.1
    · by_cases hkn : k < n
      · obtain rfl | ⟨rfl, hopen⟩ := hcond
        · omega
        · exact hwired.delivers_last haccepted (by omega) (by omega) hopen
      · intro child hchild
        have hlt := (List.getElem?_eq_some_iff.mp hchild.1).1
        have hle := hwired.forked_le
        omega

/-- So it is for a shell that has just been started. -/
theorem endOfFile_delivered_iff (n : Nat) (hn : 0 < n) (inherited : List (Option Nat)) :
    (∀ run, EachStep (Step n) (start inherited) run →
        Always (fun s => ∀ k, 1 ≤ k → Delivers k s) (start inherited) run) ↔
      n = 1 ∨ n = 2 ∧ startedWith inherited stdIn ≠ none :=
  delivered_iff (accepted_start inherited) hn

theorem endOfFile_delivered_two : 0 < 2 ∧
    ∀ run, EachStep (Step 2) (start [some 0, some 1, some 2]) run →
      Always (fun s => ∀ k, 1 ≤ k → Delivers k s) (start [some 0, some 1, some 2]) run :=
  ⟨by decide, (endOfFile_delivered_iff 2 (by decide) [some 0, some 1, some 2]).mpr
    (.inr ⟨rfl, by decide⟩)⟩

theorem not_endOfFile_delivered_three :
    ¬ ∀ run, EachStep (Step 3) (start [some 0, some 1, some 2]) run →
      Always (fun s => ∀ k, 1 ≤ k → Delivers k s) (start [some 0, some 1, some 2]) run := by
  intro halways
  have h := (delivers_command_iff (n := 3) (k := 1) (accepted_start _) (by decide) (by decide)).mp
    fun run hrun => (halways run hrun).mono fun s hs => hs 1 (Nat.le_refl 1)
  exact absurd h.1 (by decide)

end Processes

end OSChallenges.Shell
