import OSChallenges.Threads.Model
import Mathlib.Tactic.Common

/-!
# What one step of the thread library does

`schedule` is known to the rest of the development through `Switch`, which gives every field of the
state it leaves, and a step through `Effect`, which has one constructor for each way a step can end.
Every invariant is a case analysis on `Effect`; no other module unfolds the library's functions.
-/

namespace OSChallenges.Threads

namespace State

@[simp] theorem setStatus_status (s : State) (t u : Nat) (x : ThreadStatus) :
    (s.setStatus t x).status u = if u = t then x else s.status u := by
  by_cases h : u = t
  · subst u
    simp [setStatus, status]
  · simp [setStatus, status, h]

@[simp] theorem setStatus_buf (s : State) (t u : Nat) (x : ThreadStatus) :
    (s.setStatus t x).buf u = s.buf u := by
  by_cases h : u = t
  · subst u
    simp [setStatus, buf]
  · simp [setStatus, buf, h]

@[simp] theorem setBuf_buf (s : State) (t u : Nat) (x : Context) :
    (s.setBuf t x).buf u = if u = t then x else s.buf u := by
  by_cases h : u = t
  · subst u
    simp [setBuf, buf]
  · simp [setBuf, buf, h]

@[simp] theorem setBuf_status (s : State) (t u : Nat) (x : Context) :
    (s.setBuf t x).status u = s.status u := by
  by_cases h : u = t
  · subst u
    simp [setBuf, status]
  · simp [setBuf, status, h]

/-! The other updates leave every thread control block as it is. -/

@[simp] theorem setPoint_status (s : State) (p : Point) (u : Nat) :
    (s.setPoint p).status u = s.status u := rfl

@[simp] theorem setPoint_buf (s : State) (p : Point) (u : Nat) : (s.setPoint p).buf u = s.buf u := rfl

@[simp] theorem setMutex_status (s : State) (m : Nat) (data : MutexData) (u : Nat) :
    (s.setMutex m data).status u = s.status u := rfl

@[simp] theorem setMutex_buf (s : State) (m : Nat) (data : MutexData) (u : Nat) : (s.setMutex m data).buf u = s.buf u := rfl

@[simp] theorem setMutexList_status (s : State) (id : Nat) (list : List Nat) (u : Nat) :
    (s.setMutexList id list).status u = s.status u := rfl

@[simp] theorem setMutexList_buf (s : State) (id : Nat) (list : List Nat) (u : Nat) : (s.setMutexList id list).buf u = s.buf u := rfl

@[simp] theorem setBarrierList_status (s : State) (id : Nat) (list : List Nat) (u : Nat) :
    (s.setBarrierList id list).status u = s.status u := rfl

@[simp] theorem setBarrierList_buf (s : State) (id : Nat) (list : List Nat) (u : Nat) : (s.setBarrierList id list).buf u = s.buf u := rfl

@[simp] theorem setCounts_status (s : State) (id : Nat) (counts : Counts) (u : Nat) :
    (s.setCounts id counts).status u = s.status u := rfl

@[simp] theorem setCounts_buf (s : State) (id : Nat) (counts : Counts) (u : Nat) : (s.setCounts id counts).buf u = s.buf u := rfl

@[simp] theorem log_status (s : State) (e : Event) (u : Nat) :
    (s.log e).status u = s.status u := rfl

@[simp] theorem log_buf (s : State) (e : Event) (u : Nat) : (s.log e).buf u = s.buf u := rfl

@[simp] theorem lock_status (s : State) (u : Nat) :
    s.lock.status u = s.status u := rfl

@[simp] theorem lock_buf (s : State) (u : Nat) : s.lock.buf u = s.buf u := rfl

@[simp] theorem unlock_status (s : State) (u : Nat) :
    s.unlock.status u = s.status u := rfl

@[simp] theorem unlock_buf (s : State) (u : Nat) : s.unlock.buf u = s.buf u := rfl

@[simp] theorem addMutex_status (s : State) (m u : Nat) : (addMutex s m).status u = s.status u := rfl

@[simp] theorem addMutex_buf (s : State) (m u : Nat) : (addMutex s m).buf u = s.buf u := rfl

@[simp] theorem addBarrier_status (s : State) (b : Nat) (maxCount : Int) (u : Nat) :
    (addBarrier s b maxCount).status u = s.status u := rfl

@[simp] theorem addBarrier_buf (s : State) (b : Nat) (maxCount : Int) (u : Nat) :
    (addBarrier s b maxCount).buf u = s.buf u := rfl

@[simp] theorem leaveBarrier_status (s : State) (b round u : Nat) :
    (leaveBarrier s b round).status u = s.status u := rfl

@[simp] theorem leaveBarrier_buf (s : State) (b round u : Nat) :
    (leaveBarrier s b round).buf u = s.buf u := rfl

/-! Creation and exit change one. -/

@[simp] theorem addThread_status (s : State) (regs u : Nat) :
    (addThread s regs).status u = if u = s.numOfThreads then .ready else s.status u := by
  by_cases h : u = s.numOfThreads
  · subst u
    simp [status]
  · simp [status, h]

@[simp] theorem addThread_buf (s : State) (regs u : Nat) :
    (addThread s regs).buf u = if u = s.numOfThreads then ⟨.user, regs⟩ else s.buf u := by
  by_cases h : u = s.numOfThreads
  · subst u
    simp [buf]
  · simp [buf, h]

@[simp] theorem setFirst_status (s : State) (first : Bool) (u : Nat) :
    { s with isFirstCall := first }.status u = s.status u := rfl

@[simp] theorem setFirst_buf (s : State) (first : Bool) (u : Nat) :
    { s with isFirstCall := first }.buf u = s.buf u := rfl

@[simp] theorem schedulerInit_status (s : State) (u : Nat) :
    (schedulerInit s).status u = if u = 0 then .ready else s.status u := by
  by_cases h : u = 0
  · subst u
    simp [status]
  · simp [status, h]

@[simp] theorem schedulerInit_buf (s : State) (u : Nat) : (schedulerInit s).buf u = s.buf u := by
  by_cases h : u = 0
  · subst u
    simp [buf]
  · simp [buf, h]

@[simp] theorem markExited_status (s : State) (u : Nat) :
    (markExited s).status u = if u = s.currentThreadID then .exited else s.status u :=
  setStatus_status s s.currentThreadID u .exited

@[simp] theorem markExited_buf (s : State) (u : Nat) : (markExited s).buf u = s.buf u :=
  setStatus_buf s s.currentThreadID u .exited

@[simp] theorem jumpToMain_status (s : State) (u : Nat) :
    (jumpToMain s).status u = if u = 0 then .running else s.status u :=
  setStatus_status s 0 u .running

@[simp] theorem jumpToMain_buf (s : State) (u : Nat) : (jumpToMain s).buf u = s.buf u :=
  setStatus_buf s 0 u .running

@[simp] theorem wake_status (s : State) (list : List Nat) (u : Nat) :
    (wake s list).status u = if u ∈ list then .ready else s.status u := by
  induction list generalizing s with
  | nil => simp [wake, wakeAll, status]
  | cons t rest ih =>
    have hstep : (wake s (t :: rest)).status u = (wake (s.setStatus t .ready) rest).status u := rfl
    rw [hstep, ih, setStatus_status]
    by_cases hrest : u ∈ rest <;> simp [hrest]

@[simp] theorem wake_buf (s : State) (list : List Nat) (u : Nat) :
    (wake s list).buf u = s.buf u := by
  induction list generalizing s with
  | nil => rfl
  | cons t rest ih =>
    have hstep : (wake s (t :: rest)).buf u = (wake (s.setStatus t .ready) rest).buf u := rfl
    rw [hstep, ih, setStatus_buf]

end State

open State

/-! ### Calls that wait and rounds that are complete -/

section

variable (s : State) (m b t : Nat)

@[simp] theorem queueOnMutex_status :
    (queueOnMutex s m).status t = if t = s.currentThreadID then .blocked else s.status t := by
  simp [queueOnMutex]

@[simp] theorem queueOnMutex_buf : (queueOnMutex s m).buf t = s.buf t := by
  simp [queueOnMutex]

@[simp] theorem queueOnMutex_cpu :
    (queueOnMutex s m).cpu = { s.cpu with point := .callSchedule (.mutex m) } := by
  simp only [queueOnMutex, setStatus, setMutexList, unlock, setPoint, log]

@[simp] theorem queueOnMutex_trace :
    (queueOnMutex s m).trace = .queued s.currentThreadID m :: s.trace := by
  simp only [queueOnMutex, setStatus, setMutexList, unlock, setPoint, log]

@[simp] theorem queueOnMutex_mutexThreadLists :
    (queueOnMutex s m).mutexThreadLists = Function.update s.mutexThreadLists (s.mutexes m).count
      (s.mutexThreadLists (s.mutexes m).count ++ [s.currentThreadID]) := by
  simp only [queueOnMutex, setStatus, setMutexList, unlock, setPoint, log]

@[simp] theorem queueOnMutex_mutexes : (queueOnMutex s m).mutexes = s.mutexes := by
  simp only [queueOnMutex, setStatus, setMutexList, unlock, setPoint, log]

@[simp] theorem queueOnMutex_barriers : (queueOnMutex s m).barriers = s.barriers := by
  simp only [queueOnMutex, setStatus, setMutexList, unlock, setPoint, log]

@[simp] theorem queueOnMutex_barrierThreadLists :
    (queueOnMutex s m).barrierThreadLists = s.barrierThreadLists := by
  simp only [queueOnMutex, setStatus, setMutexList, unlock, setPoint, log]

@[simp] theorem queueOnMutex_barrierCounts :
    (queueOnMutex s m).barrierCounts = s.barrierCounts := by
  simp only [queueOnMutex, setStatus, setMutexList, unlock, setPoint, log]

@[simp] theorem queueOnBarrier_status :
    (queueOnBarrier s b).status t = if t = s.currentThreadID then .blocked else s.status t := by
  simp [queueOnBarrier]

@[simp] theorem queueOnBarrier_buf : (queueOnBarrier s b).buf t = s.buf t := by
  simp [queueOnBarrier]

@[simp] theorem queueOnBarrier_cpu : (queueOnBarrier s b).cpu =
    { s.cpu with point := .callSchedule (.barrier b (completions b s.trace)) } := by
  simp only [queueOnBarrier, setCounts, log, setStatus, setBarrierList, unlock, setPoint]

@[simp] theorem queueOnBarrier_trace :
    (queueOnBarrier s b).trace = .arrived s.currentThreadID b :: s.trace := by
  simp only [queueOnBarrier, setCounts, log, setStatus, setBarrierList, unlock, setPoint]

@[simp] theorem queueOnBarrier_mutexThreadLists :
    (queueOnBarrier s b).mutexThreadLists = s.mutexThreadLists := by
  simp only [queueOnBarrier, setCounts, log, setStatus, setBarrierList, unlock, setPoint]

@[simp] theorem queueOnBarrier_mutexes : (queueOnBarrier s b).mutexes = s.mutexes := by
  simp only [queueOnBarrier, setCounts, log, setStatus, setBarrierList, unlock, setPoint]

@[simp] theorem queueOnBarrier_barriers : (queueOnBarrier s b).barriers = s.barriers := by
  simp only [queueOnBarrier, setCounts, log, setStatus, setBarrierList, unlock, setPoint]

@[simp] theorem queueOnBarrier_barrierThreadLists :
    (queueOnBarrier s b).barrierThreadLists = Function.update s.barrierThreadLists (s.barriers b)
      (s.barrierThreadLists (s.barriers b) ++ [s.currentThreadID]) := by
  simp only [queueOnBarrier, setCounts, log, setStatus, setBarrierList, unlock, setPoint]

@[simp] theorem queueOnBarrier_barrierCounts :
    (queueOnBarrier s b).barrierCounts = Function.update s.barrierCounts (s.barriers b)
      (s.barrierCounts (s.barriers b)).arrival := by
  simp only [queueOnBarrier, setCounts, log, setStatus, setBarrierList, unlock, setPoint]

@[simp] theorem completeRound_status : (completeRound s b).status t =
    if t ∈ s.barrierThreadLists (s.barriers b) then .ready else s.status t := by
  simp [completeRound]

@[simp] theorem completeRound_buf : (completeRound s b).buf t = s.buf t := by
  simp [completeRound]

@[simp] theorem completeRound_cpu :
    (completeRound s b).cpu = { s.cpu with point := .user } := by
  simp only [completeRound, setCounts, log, wake, unlock, leaveBarrier]

@[simp] theorem completeRound_trace : (completeRound s b).trace =
    .left s.currentThreadID b (completions b s.trace)
      (s.barrierCounts (s.barriers b)).arrival.printSerialThread ::
        .completed b :: .arrived s.currentThreadID b :: s.trace := by
  simp [completeRound]

@[simp] theorem completeRound_barrierCounts : (completeRound s b).barrierCounts =
    Function.update s.barrierCounts (s.barriers b)
      { (s.barrierCounts (s.barriers b)).arrival with
        currentCount := 0
        printSerialThread := false } := by
  funext i
  by_cases hi : i = s.barriers b
  · subst i
    simp [completeRound]
  · simp [completeRound, hi]

@[simp] theorem completeRound_mutexThreadLists :
    (completeRound s b).mutexThreadLists = s.mutexThreadLists := by
  simp only [completeRound, setCounts, log, wake, unlock, leaveBarrier]

@[simp] theorem completeRound_mutexes : (completeRound s b).mutexes = s.mutexes := by
  simp only [completeRound, setCounts, log, wake, unlock, leaveBarrier]

@[simp] theorem completeRound_barriers : (completeRound s b).barriers = s.barriers := by
  simp only [completeRound, setCounts, log, wake, unlock, leaveBarrier]

@[simp] theorem completeRound_barrierThreadLists :
    (completeRound s b).barrierThreadLists = s.barrierThreadLists := by
  simp only [completeRound, setCounts, log, wake, unlock, leaveBarrier]

end

/-! ### The search for the next thread -/

theorem advance_le {s : State} {top : Nat} (h : top ≤ s.numOfThreads) :
    advance s top ≤ s.numOfThreads := by
  unfold advance
  split <;> omega

theorem search_ok {s : State} {rounds top t : Nat} (h : search s rounds top = .ok t) :
    s.Runnable t ∧ t < maxThreads ∧ (top ≤ s.numOfThreads → t ≤ s.numOfThreads) := by
  induction rounds generalizing top with
  | zero => cases h
  | succ rounds ih =>
    rw [search] at h
    by_cases hbound : maxThreads ≤ advance s top
    · rw [if_pos hbound] at h
      cases h
    · rw [if_neg hbound] at h
      by_cases hrunnable : s.Runnable (advance s top)
      · rw [if_pos hrunnable] at h
        cases h
        exact ⟨hrunnable, by omega, advance_le⟩
      · rw [if_neg hrunnable] at h
        obtain ⟨hfound, hlt, hle⟩ := ih h
        exact ⟨hfound, hlt, fun htop => hle (advance_le htop)⟩

theorem advance_eq {s : State} {top : Nat} (h : top ≤ s.numOfThreads) :
    advance s top = (top + 1) % (s.numOfThreads + 1) := by
  unfold advance
  by_cases hlast : top = s.numOfThreads
  · simp [hlast]
  · rw [if_neg (by omega), Nat.mod_eq_of_lt (by omega)]

/-- The state after `schedule` has loaded the context of `t`. -/
structure Switch (s s' : State) (t : Nat) : Prop where
  runnable : s.Runnable t
  lt : t < maxThreads
  le : s.topThread ≤ s.numOfThreads → t ≤ s.numOfThreads
  current : s'.currentThreadID = t
  top : s'.topThread = t
  status : ∀ u, s'.status u =
    if u = t then .running else if u = s.topThread ∧ s.Runnable u then .ready else s.status u
  buf : ∀ u, s'.buf u =
    if u = s.topThread ∧ s.status u ≠ .exited then s.cpu else s.buf u
  cpu : s'.cpu = s'.buf t
  trace : s'.trace = .loaded t s'.cpu :: .stopped s.currentThreadID s.cpu :: s.trace
  numOfThreads : s'.numOfThreads = s.numOfThreads
  exitedThreads : s'.exitedThreads = s.exitedThreads
  isFirstCall : s'.isFirstCall = s.isFirstCall
  mutexThreadLists : s'.mutexThreadLists = s.mutexThreadLists
  barrierThreadLists : s'.barrierThreadLists = s.barrierThreadLists
  barrierCounts : s'.barrierCounts = s.barrierCounts
  mutexes : s'.mutexes = s.mutexes
  barriers : s'.barriers = s.barriers
  mutexId : s'.mutexId = s.mutexId
  barrierId : s'.barrierId = s.barrierId

/-- `schedule` neither ends a thread nor brings one back. -/
theorem Switch.exited {s s' : State} {t u : Nat} (h : Switch s s' t) :
    s'.status u = .exited ↔ s.status u = .exited := by
  rw [h.status]
  by_cases hu : u = t
  · subst u
    simpa using h.runnable.1
  · rw [if_neg hu]
    split
    · rename_i hready
      exact iff_of_false (by decide) hready.2.1
    · exact Iff.rfl

/-- `schedule` neither blocks a thread nor wakes one. -/
theorem Switch.blocked {s s' : State} {t u : Nat} (h : Switch s s' t) :
    s'.status u = .blocked ↔ s.status u = .blocked := by
  rw [h.status]
  by_cases hu : u = t
  · subst u
    simpa using h.runnable.2
  · rw [if_neg hu]
    split
    · rename_i hready
      exact iff_of_false (by decide) hready.2.2
    · exact Iff.rfl

@[simp] theorem markReady_status (s : State) (u : Nat) :
    (markReady s).status u = if u = s.topThread ∧ s.Runnable u then .ready else s.status u := by
  by_cases htop : s.Runnable s.topThread
  · by_cases hu : u = s.topThread
    · subst u
      simp [markReady, htop]
    · simp [markReady, htop, hu]
  · have hnone : ¬ (u = s.topThread ∧ s.Runnable u) := by
      rintro ⟨rfl, hrun⟩
      exact htop hrun
    simp [markReady, htop, hnone]

@[simp] theorem markReady_runnable (s : State) (u : Nat) :
    (markReady s).Runnable u ↔ s.Runnable u := by
  change (markReady s).status u ≠ .exited ∧ (markReady s).status u ≠ .blocked ↔ s.Runnable u
  rw [markReady_status]
  split
  · rename_i hu
    simp [hu.2]
  · exact Iff.rfl

@[simp] theorem markReady_buf (s : State) (u : Nat) : (markReady s).buf u = s.buf u := by
  unfold markReady
  split <;> simp

theorem markReady_frame (s : State) : markReady s = { s with tcbList := (markReady s).tcbList } := by
  unfold markReady
  split <;> rfl

private theorem switch_of_search {s m s' : State}
    (hm : ∃ tcbs, m =
      { s with tcbList := tcbs, trace := .stopped s.currentThreadID s.cpu :: s.trace })
    (hstatus : ∀ u, m.status u = if u = s.topThread ∧ s.Runnable u then .ready else s.status u)
    (hbuf : ∀ u, m.buf u = if u = s.topThread ∧ s.status u ≠ .exited then s.cpu else s.buf u)
    (h : (search m (m.numOfThreads + 1) m.topThread).map (switchTo m) = .ok s') :
    ∃ t, Switch s s' t := by
  have hrunnable : ∀ u, m.Runnable u ↔ s.Runnable u := by
    intro u
    change m.status u ≠ .exited ∧ m.status u ≠ .blocked ↔ s.Runnable u
    rw [hstatus]
    split
    · rename_i hu
      simp [hu.2]
    · exact Iff.rfl
  cases hsearch : search m (m.numOfThreads + 1) m.topThread with
  | error e =>
    rw [hsearch] at h
    cases h
  | ok t =>
    rw [hsearch] at h
    cases h
    obtain ⟨hrun, hlt, hle⟩ := search_ok hsearch
    refine ⟨t, ?_⟩
    have hswitch : ∀ u, (switchTo m t).status u = if u = t then .running else m.status u := by
      intro u
      exact setStatus_status m t u .running
    have hkeep : ∀ u, (switchTo m t).buf u = m.buf u := by
      intro u
      exact setStatus_buf m t u .running
    obtain ⟨tcbs, rfl⟩ := hm
    exact {
      runnable := (hrunnable t).mp hrun
      lt := hlt
      le := hle
      current := rfl
      top := rfl
      status := fun u => by rw [hswitch, hstatus]
      buf := fun u => by rw [hkeep, hbuf]
      cpu := (hkeep t).symm
      trace := rfl
      numOfThreads := rfl
      exitedThreads := rfl
      isFirstCall := rfl
      mutexThreadLists := rfl
      barrierThreadLists := rfl
      barrierCounts := rfl
      mutexes := rfl
      barriers := rfl
      mutexId := rfl
      barrierId := rfl }

theorem schedule_switch {s s' : State} (h : schedule s = .ok s') : ∃ t, Switch s s' t := by
  unfold schedule at h
  have hframe := markReady_frame (s.log (.stopped s.currentThreadID s.cpu))
  have hexited : (markReady (s.log (.stopped s.currentThreadID s.cpu))).status s.topThread = .exited ↔
      s.status s.topThread = .exited := by
    rw [markReady_status]
    split
    · rename_i htop
      exact iff_of_false (by decide) htop.2.1
    · exact Iff.rfl
  have htop : (markReady (s.log (.stopped s.currentThreadID s.cpu))).topThread = s.topThread := by
    rw [hframe]
    rfl
  have hcpu : (markReady (s.log (.stopped s.currentThreadID s.cpu))).cpu = s.cpu := by
    rw [hframe]
    rfl
  simp only [htop, hcpu, hexited] at h
  split at h
  · -- The thread has exited: nothing is saved.
    rename_i hgone
    rw [← htop] at h
    refine switch_of_search ⟨_, hframe⟩ (fun u => markReady_status _ u) (fun u => ?_) h
    rw [markReady_buf, if_neg (by rintro ⟨rfl, hne⟩; exact hne hgone)]
    rfl
  · rename_i halive
    refine switch_of_search ?_ (fun u => ?_) (fun u => ?_) h
    · exact ⟨_, congrArg (fun m => m.setBuf s.topThread s.cpu) hframe⟩
    · rw [setBuf_status, markReady_status]
      rfl
    · rw [setBuf_buf, markReady_buf]
      by_cases hu : u = s.topThread
      · subst u
        rw [if_pos rfl, if_pos ⟨rfl, halive⟩]
      · rw [if_neg hu, if_neg (fun h => hu h.1)]
        rfl

/-! ### Every way a step can end -/

/-- The states that a step can lead to, one constructor for each branch of the library. -/
inductive Effect (s : State) : Action → State → Prop
  | compute (regs : Nat) (hpoint : s.cpu.point = .user) :
      Effect s (.compute regs) { s with cpu := ⟨.user, regs⟩ }
  | timer {s' : State} {t : Nat} (hfirst : s.isFirstCall = false) (hswitch : Switch s s' t) :
      Effect s .timer s'
  | createFailed {mallocOk : Bool} {regs : Nat} (hpoint : s.cpu.point = .user)
      (hfail : maxThreads ≤ s.numOfThreads ∨ mallocOk = false) :
      Effect s (.create mallocOk regs) { s with numOfThreads := s.numOfThreads + 1 }
  | create {regs : Nat} (hpoint : s.cpu.point = .user) (hlt : s.numOfThreads + 1 < maxThreads)
      (hfirst : s.isFirstCall = false) :
      Effect s (.create true regs) (addThread { s with numOfThreads := s.numOfThreads + 1 } regs)
  | createFirst {regs : Nat} (hpoint : s.cpu.point = .user) (hlt : s.numOfThreads + 1 < maxThreads)
      (hfirst : s.isFirstCall = true) :
      Effect s (.create true regs) (schedulerInit
        { addThread { s with numOfThreads := s.numOfThreads + 1 } regs with isFirstCall := false })
  | exitSwitch {s' : State} {t : Nat} (hpoint : s.cpu.point = .user)
      (hmore : (markExited s).exitedThreads ≠ s.numOfThreads) (hswitch : Switch (markExited s) s' t) :
      Effect s .exit s'
  | exitToMain (hpoint : s.cpu.point = .user)
      (hlast : (markExited s).exitedThreads = s.numOfThreads)
      (hmain : (markExited s).status 0 ≠ .exited) :
      Effect s .exit (jumpToMain (markExited s))
  | mutexInit {m : Nat} (hpoint : s.cpu.point = .user) (hlt : s.mutexId < maxThreads) :
      Effect s (.mutexInit m) (addMutex s m)
  | mutexDestroy {m : Nat} (hpoint : s.cpu.point = .user) :
      Effect s (.mutexDestroy m) (s.log (.mutexDestroy m))
  | acquire {m : Nat} (hpoint : s.cpu.point = .user) (hlock : (s.mutexes m).lock ≠ 0) :
      Effect s (.mutexLock m)
        ((s.setMutex m { s.mutexes m with lock := 0, owner := s.currentThreadID }).unlock.log
          (.acquired s.currentThreadID m))
  | queue {m : Nat} (hpoint : s.cpu.point = .user) (hlock : (s.mutexes m).lock = 0) :
      Effect s (.mutexLock m) (queueOnMutex s m)
  | unlockFree {m : Nat} (hpoint : s.cpu.point = .user)
      (hlist : s.mutexThreadLists (s.mutexes m).count = []) :
      Effect s (.mutexUnlock m)
        ((s.log (.released s.currentThreadID m)).setMutex m
          { s.mutexes m with lock := 0, owner := noOwner }).unlock
  | unlockGrant {m t : Nat} {rest : List Nat} (hpoint : s.cpu.point = .user)
      (hlist : s.mutexThreadLists (s.mutexes m).count = t :: rest) :
      Effect s (.mutexUnlock m)
        ((((s.log (.released s.currentThreadID m)).setStatus t .ready).setMutexList
          (s.mutexes m).count rest).unlock.log (.granted t m))
  | barrierRefused {b : Nat} (hpoint : s.cpu.point = .user) : Effect s (.barrierInit b 0) s
  | barrierInit {b count : Nat} (hpoint : s.cpu.point = .user) (hcount : count ≠ 0)
      (hlt : s.barrierId < maxThreads) :
      Effect s (.barrierInit b count) (addBarrier s b (Words.toInt32 count))
  | barrierDestroy {b : Nat} (hpoint : s.cpu.point = .user) :
      Effect s (.barrierDestroy b) (s.log (.barrierDestroy b))
  | arrive {b : Nat} (hpoint : s.cpu.point = .user)
      (hcount : (s.barrierCounts (s.barriers b)).maxCount ≠
        (s.barrierCounts (s.barriers b)).currentCount + 1) :
      Effect s (.barrierWait b) (queueOnBarrier s b)
  | complete {b : Nat} (hpoint : s.cpu.point = .user)
      (hcount : (s.barrierCounts (s.barriers b)).maxCount =
        (s.barrierCounts (s.barriers b)).currentCount + 1) :
      Effect s (.barrierWait b) (completeRound s b)
  | proceedSchedule {w : Wait} {s' : State} {t : Nat} (hpoint : s.cpu.point = .callSchedule w)
      (hswitch : Switch (s.setPoint (.resume w)) s' t) : Effect s .proceed s'
  | proceedReturn {m : Nat} (hpoint : s.cpu.point = .resume (.mutex m)) :
      Effect s .proceed ((s.setPoint .user).log (.returned s.currentThreadID m))
  | proceedLeave {b round : Nat} (hpoint : s.cpu.point = .resume (.barrier b round)) :
      Effect s .proceed (leaveBarrier s b round)

private theorem create_effect {s s' : State} {mallocOk : Bool} {regs : Nat}
    (hpoint : s.cpu.point = .user) (h : (pthreadCreate s mallocOk regs).map Prod.snd = .ok s') :
    Effect s (.create mallocOk regs) s' := by
  simp only [pthreadCreate] at h
  by_cases hfull : maxThreads ≤ s.numOfThreads
  · rw [if_pos hfull] at h
    cases h
    exact .createFailed hpoint (.inl hfull)
  · rw [if_neg hfull] at h
    cases mallocOk with
    | false =>
      cases h
      exact .createFailed hpoint (.inr rfl)
    | true =>
      simp only [Bool.not_true, Bool.false_eq_true, if_false] at h
      by_cases hindex : maxThreads ≤ s.numOfThreads + 1
      · rw [if_pos hindex] at h
        cases h
      · rw [if_neg hindex] at h
        simp only [addThread_isFirstCall] at h
        split at h
        · rename_i hfirst
          cases h
          exact .createFirst hpoint (by omega) hfirst
        · rename_i hfirst
          cases h
          exact .create hpoint (by omega) (Bool.not_eq_true _ ▸ hfirst)

private theorem exit_effect {s s' : State} (hpoint : s.cpu.point = .user)
    (h : pthreadExit s = .ok s') : Effect s .exit s' := by
  simp only [pthreadExit, markExited_numOfThreads] at h
  split at h
  · rename_i hmore
    obtain ⟨t, hswitch⟩ := schedule_switch h
    exact .exitSwitch hpoint hmore hswitch
  · rename_i hlast
    split at h
    · rename_i hmain
      cases h
      exact .exitToMain hpoint (not_not.mp hlast) hmain
    · cases h

private theorem lock_effect {s s' : State} {m : Nat} (hpoint : s.cpu.point = .user)
    (h : pthreadMutexLock s m = .ok s') : Effect s (.mutexLock m) s' := by
  simp only [pthreadMutexLock, lock_mutexes] at h
  split at h
  · rename_i hlock
    cases h
    exact .acquire hpoint hlock
  · rename_i hlock
    split at h
    · cases h
    · cases h
      exact .queue hpoint (not_not.mp hlock)

private theorem unlock_effect {s s' : State} {m : Nat} (hpoint : s.cpu.point = .user)
    (h : pthreadMutexUnlock s m = .ok s') : Effect s (.mutexUnlock m) s' := by
  simp only [pthreadMutexUnlock, lock_mutexes] at h
  split at h
  · cases h
  · split at h
    · rename_i hlist
      cases h
      exact .unlockFree hpoint hlist
    · rename_i hlist
      cases h
      exact .unlockGrant hpoint hlist

private theorem wait_effect {s s' : State} {b : Nat} (hpoint : s.cpu.point = .user)
    (h : pthreadBarrierWait s b = .ok s') : Effect s (.barrierWait b) s' := by
  simp only [pthreadBarrierWait, lock_barrierCounts, lock_barriers, Counts.arrival] at h
  split at h
  · cases h
  · split at h
    · rename_i hcount
      cases h
      exact .arrive hpoint hcount
    · rename_i hcount
      cases h
      exact .complete hpoint (not_not.mp hcount)

private theorem call_effect {s s' : State} {a : Action} (hpoint : s.cpu.point = .user)
    (h : call s a = .ok s') : Effect s a s' := by
  cases a with
  | compute regs =>
    cases h
    exact .compute regs hpoint
  | timer => cases h
  | create mallocOk regs => exact create_effect hpoint h
  | exit => exact exit_effect hpoint h
  | mutexInit m =>
    simp only [call, pthreadMutexInit] at h
    split at h
    · cases h
    · cases h
      exact .mutexInit hpoint (by omega)
  | mutexDestroy m =>
    simp only [call, pthreadMutexDestroy] at h
    split at h
    · cases h
    · cases h
      exact .mutexDestroy hpoint
  | mutexLock m => exact lock_effect hpoint h
  | mutexUnlock m => exact unlock_effect hpoint h
  | barrierInit b count =>
    simp only [call, pthreadBarrierInit] at h
    split at h
    · rename_i hcount
      cases h
      subst hcount
      exact .barrierRefused hpoint
    · split at h
      · cases h
      · cases h
        exact .barrierInit hpoint (by assumption) (by omega)
  | barrierDestroy b =>
    simp only [call, pthreadBarrierDestroy] at h
    split at h
    · cases h
    · cases h
      exact .barrierDestroy hpoint
  | barrierWait b => exact wait_effect hpoint h
  | proceed => cases h

private theorem proceed_effect {s s' : State} (h : proceed s = .ok s') : Effect s .proceed s' := by
  simp only [proceed] at h
  split at h
  · cases h
  · rename_i w hpoint
    obtain ⟨t, hswitch⟩ := schedule_switch h
    exact .proceedSchedule hpoint hswitch
  · rename_i m hpoint
    cases h
    exact .proceedReturn hpoint
  · rename_i b round hpoint
    cases h
    exact .proceedLeave hpoint
  · cases h

theorem step_effect {s s' : State} {a : Action} (h : step s a = .ok s') : Effect s a s' := by
  simp only [step] at h
  split at h
  · rename_i ha
    subst ha
    split at h
    · cases h
    · split at h
      · cases h
      · rename_i hfirst
        obtain ⟨t, hswitch⟩ := schedule_switch h
        exact .timer (Bool.not_eq_true _ ▸ hfirst) hswitch
  · split at h
    · rename_i ha
      subst ha
      exact proceed_effect h
    · split at h
      · rename_i hpoint
        exact call_effect hpoint h
      · cases h

end OSChallenges.Threads
