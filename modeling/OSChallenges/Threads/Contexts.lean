import OSChallenges.Library.Runs
import OSChallenges.Threads.Bookkeeping

/-!
# No thread loses execution

`lastContext` reads off the trace the context a thread had when it last stopped running, or was
created with. A run keeps every thread's execution when each `longjmp` loads that context, each
thread that waits for the processor has it in `tcbList`, and `schedule` knows which thread runs.
This fails in exactly two ways: `pthread_exit` of the last created thread jumps to main behind
`schedule`'s back, and an unlock or a completed round makes a thread ready that has exited.
-/

namespace OSChallenges.Threads

open State Runs

/-- The context a thread had when it last stopped running, or that it was created with. -/
def lastContext (t : Nat) : List Event → Option Context
  | [] => none
  | e :: trace =>
    match e with
    | .stopped u context => if u = t then some context else lastContext t trace
    | .created u context => if u = t then some context else lastContext t trace
    | _ => lastContext t trace

/-- Every `longjmp` loaded the context that its thread last stopped with. -/
def LoadsLast : List Event → Prop
  | [] => True
  | e :: trace =>
    match e with
    | .loaded t context => lastContext t trace = some context ∧ LoadsLast trace
    | _ => LoadsLast trace

instance LoadsLast.decidable : DecidablePred LoadsLast
  | [] => isTrue trivial
  | .loaded t context :: trace =>
    have := LoadsLast.decidable trace
    inferInstanceAs (Decidable (lastContext t trace = some context ∧ LoadsLast trace))
  | .mutexInit _ :: trace | .mutexDestroy _ :: trace | .acquired _ _ :: trace
  | .queued _ _ :: trace | .released _ _ :: trace | .granted _ _ :: trace
  | .returned _ _ :: trace | .barrierInit _ :: trace | .barrierDestroy _ :: trace
  | .arrived _ _ :: trace | .completed _ :: trace | .left _ _ _ _ :: trace
  | .created _ _ :: trace | .exited _ :: trace | .stopped _ _ :: trace =>
    LoadsLast.decidable trace

structure ExecutionKept (s : State) : Prop where
  loads : LoadsLast s.trace
  saved : ∀ t, t ≠ s.currentThreadID → s.status t ≠ .exited → lastContext t s.trace = some (s.buf t)
  top : s.topThread = s.currentThreadID

/-- `pthread_exit` does not jump to main. -/
def NoJumpToMain (s : State) : Action → Prop
  | .exit => LastCreated s → s.status 0 = .exited
  | _ => True

/-- A thread on a list that has exited stopped in `pthread_exit`. -/
def StoppedInExit (s : State) (t : Nat) : Prop :=
  s.status t = .exited → ∃ context, lastContext t s.trace = some context ∧ context.point = .exiting

structure ContextInv (s : State) : Prop where
  consistent : Consistent s
  kept : ExecutionKept s
  mutexLists : ∀ id t, t ∈ s.mutexThreadLists id → StoppedInExit s t
  barrierLists : ∀ id t, t ∈ s.barrierThreadLists id → StoppedInExit s t
  saved_point : ∀ t, (s.buf t).point ≠ .exiting
  cpu_point : s.cpu.point ≠ .exiting
  current_point : ∀ context, lastContext s.currentThreadID s.trace = some context →
    context.point ≠ .exiting

private theorem ContextInv.quiet {s s' : State} (h : ContextInv s) (hcons : Consistent s')
    (hbuf : ∀ t, s'.buf t = s.buf t) (hlast : ∀ t, lastContext t s'.trace = lastContext t s.trace)
    (hloads : LoadsLast s'.trace = LoadsLast s.trace) (htop : s'.topThread = s.topThread)
    (hcurrent : s'.currentThreadID = s.currentThreadID)
    (hexited : ∀ t, s'.status t = .exited → s.status t = .exited)
    (hstay : ∀ t, t ≠ s.currentThreadID → s.status t = .exited → s'.status t = .exited)
    (hmutex : ∀ id t, t ∈ s'.mutexThreadLists id →
      t ∈ s.mutexThreadLists id ∨ s'.status t ≠ .exited)
    (hbarrier : ∀ id t, t ∈ s'.barrierThreadLists id →
      t ∈ s.barrierThreadLists id ∨ s'.status t ≠ .exited)
    (hpoint : s'.cpu.point ≠ .exiting) : ContextInv s' := by
  have hstopped : ∀ t, StoppedInExit s t → StoppedInExit s' t := by
    intro t ht hex
    rw [hlast]
    exact ht (hexited t hex)
  refine ⟨hcons, ⟨?_, ?_, ?_⟩, ?_, ?_, ?_, hpoint, ?_⟩
  · rw [hloads]
    exact h.kept.loads
  · intro t hne hal
    rw [hlast, hbuf]
    rw [hcurrent] at hne
    exact h.kept.saved t hne (fun hex => hal (hstay t hne hex))
  · rw [htop, hcurrent]
    exact h.kept.top
  · intro id t ht
    rcases hmutex id t ht with hold | hal
    · exact hstopped t (h.mutexLists id t hold)
    · exact fun hex => absurd hex hal
  · intro id t ht
    rcases hbarrier id t ht with hold | hal
    · exact hstopped t (h.barrierLists id t hold)
    · exact fun hex => absurd hex hal
  · intro t
    rw [hbuf]
    exact h.saved_point t
  · intro context
    rw [hlast, hcurrent]
    exact h.current_point context

/-- `schedule` saves the running thread unless it has exited, and loads what the next one saved. -/
private theorem switch_contexts {s s' : State} {t : Nat} (hcons : Consistent s')
    (hswitch : Switch s s' t) (hloads : LoadsLast s.trace) (htop : s.topThread = s.currentThreadID)
    (hsaved : ∀ u, u ≠ s.currentThreadID → s.status u ≠ .exited →
      lastContext u s.trace = some (s.buf u))
    (hmutex : ∀ id u, u ∈ s.mutexThreadLists id → u ≠ s.currentThreadID → StoppedInExit s u)
    (hbarrier : ∀ id u, u ∈ s.barrierThreadLists id → u ≠ s.currentThreadID → StoppedInExit s u)
    (hbuf : ∀ u, (s.buf u).point ≠ .exiting)
    (hcpu : s.cpu.point = .exiting ↔ s.status s.currentThreadID = .exited) : ContextInv s' := by
  -- Every thread that has not exited has its last context in `tcbList` once `schedule` has saved.
  have hlast : ∀ u, s.status u ≠ .exited →
      lastContext u (.stopped s.currentThreadID s.cpu :: s.trace) = some (s'.buf u) := by
    intro u hal
    rw [hswitch.buf, htop, lastContext]
    by_cases hu : u = s.currentThreadID
    · subst u
      simp [hal]
    · simp only [hu, Ne.symm hu, if_false, false_and]
      exact hsaved u hu hal
  have hstatus : ∀ u, s'.status u = .exited ↔ s.status u = .exited := fun _ => hswitch.exited
  have htrace : ∀ u, lastContext u s'.trace =
      lastContext u (.stopped s.currentThreadID s.cpu :: s.trace) := by
    intro u
    rw [hswitch.trace]
    rfl
  have hpoint : ∀ u, (s'.buf u).point ≠ .exiting := by
    intro u
    rw [hswitch.buf]
    split
    · rename_i hu
      rw [Ne, hcpu, ← htop, ← hu.1]
      exact hu.2
    · exact hbuf u
  have hstopped : ∀ u, (u ≠ s.currentThreadID → StoppedInExit s u) → StoppedInExit s' u := by
    intro u hu hex
    rw [htrace, lastContext]
    by_cases hc : u = s.currentThreadID
    · subst u
      exact ⟨s.cpu, by simp, hcpu.mpr ((hstatus _).mp hex)⟩
    · simp only [Ne.symm hc, if_false]
      exact hu hc ((hstatus u).mp hex)
  refine ⟨hcons, ⟨?_, ?_, ?_⟩, ?_, ?_, hpoint, ?_, ?_⟩
  · rw [hswitch.trace, hswitch.cpu]
    exact ⟨hlast t hswitch.runnable.1, hloads⟩
  · intro u _ hal
    rw [htrace]
    exact hlast u (fun hex => hal ((hstatus u).mpr hex))
  · rw [hswitch.top, hswitch.current]
  · intro id u hu
    rw [hswitch.mutexThreadLists] at hu
    exact hstopped u (hmutex id u hu)
  · intro id u hu
    rw [hswitch.barrierThreadLists] at hu
    exact hstopped u (hbarrier id u hu)
  · rw [hswitch.cpu]
    exact hpoint t
  · intro context hcontext
    rw [hswitch.current, htrace, hlast t hswitch.runnable.1] at hcontext
    cases hcontext
    exact hpoint t

/-- A new thread has its creation context; nothing changes for the others. -/
private theorem ContextInv.create {s s' : State} {c : Context} (h : ContextInv s)
    (hcons : Consistent s') (hnew : s.numOfThreads + 1 ≠ s.currentThreadID)
    (hpoint : c.point ≠ .exiting)
    (hstatus : ∀ t, t ≠ s.numOfThreads + 1 → t ≠ s.currentThreadID → s'.status t = s.status t)
    (hready : s'.status (s.numOfThreads + 1) ≠ .exited)
    (halive : s'.status s.currentThreadID ≠ .exited)
    (hbuf : ∀ t, s'.buf t = if t = s.numOfThreads + 1 then c else s.buf t)
    (htrace : s'.trace = .created (s.numOfThreads + 1) c :: s.trace)
    (htop : s'.topThread = s.topThread) (hcurrent : s'.currentThreadID = s.currentThreadID)
    (hmutex : s'.mutexThreadLists = s.mutexThreadLists)
    (hbarrier : s'.barrierThreadLists = s.barrierThreadLists) (hcpu : s'.cpu = s.cpu) :
    ContextInv s' := by
  have hlast : ∀ t, lastContext t s'.trace =
      if s.numOfThreads + 1 = t then some c else lastContext t s.trace := by
    intro t
    rw [htrace]
    rfl
  have hstopped : ∀ t, StoppedInExit s t → StoppedInExit s' t := by
    intro t ht hex
    have hne : t ≠ s.numOfThreads + 1 := fun heq => hready (heq ▸ hex)
    have hne' : t ≠ s.currentThreadID := fun heq => halive (heq ▸ hex)
    rw [hlast, if_neg (Ne.symm hne)]
    exact ht (hstatus t hne hne' ▸ hex)
  refine ⟨hcons, ⟨?_, ?_, ?_⟩, ?_, ?_, ?_, ?_, ?_⟩
  · rw [htrace]
    exact h.kept.loads
  · intro t hne hal
    rw [hlast, hbuf]
    by_cases ht : t = s.numOfThreads + 1
    · rw [if_pos ht.symm, if_pos ht]
    · rw [if_neg (Ne.symm ht), if_neg ht]
      rw [hcurrent] at hne
      exact h.kept.saved t hne (hstatus t ht hne ▸ hal)
  · rw [htop, hcurrent]
    exact h.kept.top
  · intro id t ht
    exact hstopped t (h.mutexLists id t (hmutex ▸ ht))
  · intro id t ht
    exact hstopped t (h.barrierLists id t (hbarrier ▸ ht))
  · intro t
    rw [hbuf]
    split
    · exact hpoint
    · exact h.saved_point t
  · rw [hcpu]
    exact h.cpu_point
  · intro context hc
    rw [hcurrent, hlast, if_neg hnew] at hc
    exact h.current_point context hc

private theorem mem_update_append {lists : Nat → List Nat} {id id' t u : Nat}
    (h : t ∈ Function.update lists id (lists id ++ [u]) id') : t ∈ lists id' ∨ t = u := by
  by_cases hid : id' = id
  · subst id'
    simpa using h
  · rw [Function.update_of_ne hid] at h
    exact .inl h

private theorem mem_update_sublist {lists : Nat → List Nat} {id id' t : Nat} {list : List Nat}
    (hsub : ∀ u ∈ list, u ∈ lists id) (h : t ∈ Function.update lists id list id') :
    t ∈ lists id' := by
  by_cases hid : id' = id
  · subst id'
    exact hsub t (by simpa using h)
  · rwa [Function.update_of_ne hid] at h

private theorem ContextInv.block {s s' : State} (h : ContextInv s) (hcons : Consistent s')
    (hbuf : ∀ t, s'.buf t = s.buf t) (hlast : ∀ t, lastContext t s'.trace = lastContext t s.trace)
    (hloads : LoadsLast s'.trace = LoadsLast s.trace) (htop : s'.topThread = s.topThread)
    (hcurrent : s'.currentThreadID = s.currentThreadID)
    (hstatus : ∀ t, s'.status t = if t = s.currentThreadID then .blocked else s.status t)
    (hmutex : ∀ id t, t ∈ s'.mutexThreadLists id →
      t ∈ s.mutexThreadLists id ∨ t = s.currentThreadID)
    (hbarrier : ∀ id t, t ∈ s'.barrierThreadLists id →
      t ∈ s.barrierThreadLists id ∨ t = s.currentThreadID)
    (hpoint : s'.cpu.point ≠ .exiting) : ContextInv s' := by
  have hblocked : ∀ t, t = s.currentThreadID → s'.status t ≠ .exited := by
    intro t ht
    rw [hstatus, if_pos ht]
    decide
  refine h.quiet hcons hbuf hlast hloads htop hcurrent (fun t ht => ?_) (fun t hne ht => ?_)
    (fun id t ht => (hmutex id t ht).imp_right (hblocked t))
    (fun id t ht => (hbarrier id t ht).imp_right (hblocked t)) hpoint
  · rw [hstatus] at ht
    split at ht
    · cases ht
    · exact ht
  · rw [hstatus, if_neg hne]
    exact ht

private theorem ContextInv.release {s s' : State} {l : List Nat} (h : ContextInv s)
    (hcons : Consistent s') (hbuf : ∀ t, s'.buf t = s.buf t)
    (hlast : ∀ t, lastContext t s'.trace = lastContext t s.trace)
    (hloads : LoadsLast s'.trace = LoadsLast s.trace) (htop : s'.topThread = s.topThread)
    (hcurrent : s'.currentThreadID = s.currentThreadID)
    (hstatus : ∀ t, s'.status t = if t ∈ l then .ready else s.status t)
    (hlist : ∀ t ∈ l, s.status t ≠ .exited)
    (hmutex : ∀ id t, t ∈ s'.mutexThreadLists id → t ∈ s.mutexThreadLists id)
    (hbarrier : s'.barrierThreadLists = s.barrierThreadLists)
    (hpoint : s'.cpu.point ≠ .exiting) : ContextInv s' := by
  refine h.quiet hcons hbuf hlast hloads htop hcurrent (fun t ht => ?_) (fun t _ ht => ?_)
    (fun id t ht => .inl (hmutex id t ht)) (fun id t ht => .inl (hbarrier ▸ ht)) hpoint
  · rw [hstatus] at ht
    split at ht
    · cases ht
    · exact ht
  · rw [hstatus, if_neg (fun hmem => hlist t hmem ht)]
    exact ht

theorem ContextInv.step {s s' : State} {a : Action} (h : ContextInv s) (hjump : NoJumpToMain s a)
    (hno : NoRevival s a) (heff : Effect s a s') : ContextInv s' := by
  have hcons := h.consistent.step hno heff
  cases heff with
  | compute regs hpoint =>
    exact h.quiet hcons (fun _ => rfl) (fun _ => rfl) rfl rfl rfl (fun _ => id) (fun _ _ => id)
      (fun _ _ => .inl) (fun _ _ => .inl) (by simp)
  | timer hfirst hswitch =>
    exact switch_contexts hcons hswitch h.kept.loads h.kept.top h.kept.saved
      (fun id u hu _ => h.mutexLists id u hu) (fun id u hu _ => h.barrierLists id u hu)
      h.saved_point (iff_of_false h.cpu_point (h.consistent.alive hfirst))
  | createFailed hpoint hfail =>
    exact h.quiet hcons (fun _ => rfl) (fun _ => rfl) rfl rfl rfl (fun _ => id) (fun _ _ => id)
      (fun _ _ => .inl) (fun _ _ => .inl) h.cpu_point
  | create hpoint hlt hfirst =>
    have := h.consistent.current_le
    refine h.create hcons (by omega) (c := ⟨.user, _⟩) (by simp) (fun t ht _ => ?_) ?_ ?_
      (fun t => ?_) rfl rfl rfl rfl rfl rfl
    · rw [addThread_status, if_neg (by exact ht)]
      rfl
    · rw [addThread_status, if_pos rfl]
      decide
    · rw [addThread_status, if_neg (by simp only; omega)]
      exact h.consistent.alive hfirst
    · rw [addThread_buf]
      rfl
  | createFirst hpoint hlt hfirst =>
    obtain ⟨hzero, -, -, -⟩ := h.consistent.before hfirst
    refine h.create hcons (by omega) (c := ⟨.user, _⟩) (by simp) (fun t ht ht' => ?_) ?_ ?_
      (fun t => ?_) rfl rfl rfl rfl rfl rfl
    · rw [schedulerInit_status, if_neg (by omega), setFirst_status, addThread_status,
        if_neg (by exact ht)]
      rfl
    · rw [schedulerInit_status, if_neg (by omega), setFirst_status, addThread_status, if_pos rfl]
      decide
    · rw [schedulerInit_status, if_pos hzero]
      decide
    · rw [schedulerInit_buf, setFirst_buf, addThread_buf]
      rfl
  | exitSwitch hpoint hmore hswitch =>
    refine switch_contexts hcons hswitch h.kept.loads h.kept.top (fun u hu hal => ?_)
      (fun id u hu hne hex => ?_) (fun id u hu hne hex => ?_) (fun u => ?_) ?_
    · rw [markExited_buf]
      exact h.kept.saved u hu (by rwa [markExited_status, if_neg (by exact hu)] at hal)
    · exact h.mutexLists id u hu (by rwa [markExited_status, if_neg (by exact hne)] at hex)
    · exact h.barrierLists id u hu (by rwa [markExited_status, if_neg (by exact hne)] at hex)
    · rw [markExited_buf]
      exact h.saved_point u
    · exact iff_of_true rfl (by simp)
  | exitToMain hpoint hlast hmain =>
    obtain ⟨hlastCreated, hmain⟩ := lastCreated_of_jump hlast hmain
    exact absurd (hjump hlastCreated) hmain
  | mutexInit hpoint hlt =>
    exact h.quiet hcons (fun _ => rfl) (fun _ => rfl) rfl rfl rfl (fun _ => id) (fun _ _ => id)
      (fun _ _ ht => .inl (mem_update_sublist (by simp) ht)) (fun _ _ => .inl) h.cpu_point
  | mutexDestroy hpoint =>
    exact h.quiet hcons (fun _ => rfl) (fun _ => rfl) rfl rfl rfl (fun _ => id) (fun _ _ => id)
      (fun _ _ => .inl) (fun _ _ => .inl) h.cpu_point
  | acquire hpoint hlock =>
    exact h.quiet hcons (fun _ => rfl) (fun _ => rfl) rfl rfl rfl (fun _ => id) (fun _ _ => id)
      (fun _ _ => .inl) (fun _ _ => .inl) h.cpu_point
  | queue hpoint hlock =>
    exact h.block hcons (fun _ => by simp) (fun _ => rfl) rfl rfl rfl
      (fun _ => by simp) (fun _ _ => mem_update_append) (fun _ _ => .inl)
      (by simp)
  | unlockFree hpoint hlist =>
    exact h.quiet hcons (fun _ => rfl) (fun _ => rfl) rfl rfl rfl (fun _ => id) (fun _ _ => id)
      (fun _ _ => .inl) (fun _ _ => .inl) h.cpu_point
  | @unlockGrant m t rest hpoint hlist =>
    refine h.release (l := [t]) hcons (fun _ => by simp) (fun _ => rfl) rfl rfl rfl
      (fun _ => by simp) ?_ (fun _ _ => mem_update_sublist ?_) rfl h.cpu_point
    · intro u hu
      rw [List.mem_singleton.mp hu]
      exact hno t rest hlist
    · intro u hu
      exact hlist ▸ List.mem_cons_of_mem t hu
  | barrierRefused hpoint => exact h
  | barrierInit hpoint hcount hlt =>
    exact h.quiet hcons (fun _ => rfl) (fun _ => rfl) rfl rfl rfl (fun _ => id) (fun _ _ => id)
      (fun _ _ => .inl) (fun _ _ ht => .inl (mem_update_sublist (by simp) ht)) h.cpu_point
  | barrierDestroy hpoint =>
    exact h.quiet hcons (fun _ => rfl) (fun _ => rfl) rfl rfl rfl (fun _ => id) (fun _ _ => id)
      (fun _ _ => .inl) (fun _ _ => .inl) h.cpu_point
  | arrive hpoint hcount =>
    exact h.block hcons (fun _ => by simp) (fun _ => by rw [queueOnBarrier_trace]; rfl)
      (by rw [queueOnBarrier_trace]; rfl) (by simp [queueOnBarrier]) (by simp [queueOnBarrier])
      (fun _ => by simp) (fun _ _ ht => .inl (by simpa using ht))
      (fun _ _ ht => mem_update_append (by simpa using ht)) (by simp)
  | complete hpoint hcount =>
    exact h.release hcons (fun _ => by simp) (fun _ => by rw [completeRound_trace]; rfl)
      (by rw [completeRound_trace]; rfl) (by simp [completeRound]) (by simp [completeRound])
      (fun _ => by simp) (hno hcount) (fun _ _ ht => by simpa using ht) (by simp) (by simp)
  | proceedSchedule hpoint hswitch =>
    have hfirst := h.consistent.not_first hswitch.runnable
    exact switch_contexts hcons hswitch h.kept.loads h.kept.top h.kept.saved
      (fun id u hu _ => h.mutexLists id u hu) (fun id u hu _ => h.barrierLists id u hu)
      h.saved_point (iff_of_false (by simp) (h.consistent.alive hfirst))
  | proceedReturn hpoint =>
    exact h.quiet hcons (fun _ => rfl) (fun _ => rfl) rfl rfl rfl (fun _ => id) (fun _ _ => id)
      (fun _ _ => .inl) (fun _ _ => .inl) (by simp)
  | proceedLeave hpoint =>
    exact h.quiet hcons (fun _ => rfl) (fun _ => rfl) rfl rfl rfl (fun _ => id) (fun _ _ => id)
      (fun _ _ => .inl) (fun _ _ => .inl) (by simp)

theorem initial_contexts (mutexes : Nat → MutexData) (barriers : Nat → Nat) (regs : Nat) :
    ContextInv (initial mutexes barriers regs) where
  consistent := initial_consistent mutexes barriers regs
  kept := ⟨trivial, fun _ _ h => absurd rfl h, rfl⟩
  mutexLists := nofun
  barrierLists := nofun
  saved_point := nofun
  cpu_point := nofun
  current_point := nofun

/-! ### The two ways to lose a context -/

end OSChallenges.Threads
