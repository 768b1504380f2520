import OSChallenges.Threads.Steps

/-!
# The scheduler's own bookkeeping

`Consistent` relates the two records of the running thread, `topThread` of `schedule` and
`currentThreadID`, to the thread statuses. It holds along every run in which no call makes an exited
thread ready (`NoRevival`): the library does that only for a thread left on a list it should have
been taken off.
-/

namespace OSChallenges.Threads

open State

/-- No thread that the step makes ready has exited. -/
def NoRevival (s : State) : Action → Prop
  | .mutexUnlock m =>
    ∀ t rest, s.mutexThreadLists (s.mutexes m).count = t :: rest → s.status t ≠ .exited
  | .barrierWait b =>
    (s.barrierCounts (s.barriers b)).maxCount = (s.barrierCounts (s.barriers b)).currentCount + 1 →
      ∀ t ∈ s.barrierThreadLists (s.barriers b), s.status t ≠ .exited
  | _ => True

/-- The running thread is a created one, and with its exit `pthread_exit` has counted them all. -/
def LastCreated (s : State) : Prop :=
  s.currentThreadID ≠ 0 ∧ s.exitedThreads + 1 = s.numOfThreads

theorem lastCreated_of_jump {s : State} (hlast : (markExited s).exitedThreads = s.numOfThreads)
    (hmain : (markExited s).status 0 ≠ .exited) : LastCreated s ∧ s.status 0 ≠ .exited := by
  have hne : s.currentThreadID ≠ 0 := by
    intro hzero
    rw [markExited_status, if_pos hzero.symm] at hmain
    exact hmain rfl
  refine ⟨⟨hne, ?_⟩, ?_⟩
  · simpa [hne] using hlast
  · rwa [markExited_status, if_neg (Ne.symm hne)] at hmain

structure Consistent (s : State) : Prop where
  /-- After the jump of `pthread_exit` to main, `topThread` is the thread that exited. -/
  top : s.topThread = s.currentThreadID ∨ s.status s.topThread = .exited
  top_le : s.topThread ≤ s.numOfThreads
  current_le : s.currentThreadID ≤ s.numOfThreads
  unborn : ∀ t, s.numOfThreads < t → s.status t = .exited
  /-- Before the first creation main runs alone, with the status of static memory. -/
  before : s.isFirstCall = true → s.currentThreadID = 0 ∧ s.topThread = 0 ∧
    (∀ t, ¬ s.Runnable t) ∧
    ((s.cpu.point = .user ∧ ∀ t, s.status t = .exited) ∨ ∃ w, s.cpu.point = .callSchedule w)
  alive : s.isFirstCall = false → s.status s.currentThreadID ≠ .exited
  awake : s.status s.currentThreadID = .blocked → ∃ w, s.cpu.point = .callSchedule w

theorem initial_consistent (mutexes : Nat → MutexData) (barriers : Nat → Nat) (regs : Nat) :
    Consistent (initial mutexes barriers regs) where
  top := .inl rfl
  top_le := Nat.le_refl 0
  current_le := Nat.le_refl 0
  unborn := fun _ _ => rfl
  before := fun _ => ⟨rfl, rfl, fun _ h => h.1 rfl, .inl ⟨rfl, fun _ => rfl⟩⟩
  alive := nofun
  awake := nofun

theorem Consistent.not_blocked {s : State} (h : Consistent s) (hpoint : s.cpu.point = .user) :
    s.status s.currentThreadID ≠ .blocked := by
  intro hblocked
  obtain ⟨w, hw⟩ := h.awake hblocked
  rw [hpoint] at hw
  cases hw

theorem Consistent.not_first {s : State} {t : Nat} (h : Consistent s) (hrun : s.Runnable t) :
    s.isFirstCall = false := by
  cases hfirst : s.isFirstCall with
  | false => rfl
  | true => exact absurd hrun ((h.before hfirst).2.2.1 t)

theorem markExited_runnable {s : State} {t : Nat} (h : (markExited s).Runnable t) : s.Runnable t := by
  rw [Runnable, markExited_status] at h
  split at h
  · exact absurd rfl h.1
  · exact h

/-- After `schedule` the running thread is the one it chose, whatever happened before. -/
private theorem switch_consistent {s s' : State} {t : Nat} (hswitch : Switch s s' t)
    (htop : s.topThread ≤ s.numOfThreads) (hunborn : ∀ u, s.numOfThreads < u → s.status u = .exited)
    (hfirst : s.isFirstCall = false) : Consistent s' := by
  have hle := hswitch.le htop
  have hrunning : s'.status s'.currentThreadID = .running := by
    rw [hswitch.status, hswitch.current, if_pos rfl]
  refine ⟨.inl (hswitch.top.trans hswitch.current.symm), ?_, ?_, ?_, ?_, ?_, ?_⟩
  · rw [hswitch.top, hswitch.numOfThreads]
    exact hle
  · rw [hswitch.current, hswitch.numOfThreads]
    exact hle
  · intro u hu
    rw [hswitch.numOfThreads] at hu
    rw [hswitch.status, if_neg (by omega), if_neg (fun h => by omega)]
    exact hunborn u hu
  · intro h
    rw [hswitch.isFirstCall, hfirst] at h
    cases h
  · intro _
    rw [hrunning]
    decide
  · intro h
    rw [hrunning] at h
    cases h

private theorem Consistent.update {s s' : State} (h : Consistent s) (htcb : s'.tcbList = s.tcbList)
    (htop : s'.topThread = s.topThread) (hcurrent : s'.currentThreadID = s.currentThreadID)
    (hnum : s.numOfThreads ≤ s'.numOfThreads) (hfirst : s'.isFirstCall = s.isFirstCall)
    (hfrom : ∀ w, s.cpu.point ≠ .callSchedule w) (hpoint : s'.cpu.point = .user) :
    Consistent s' := by
  have hstatus : ∀ t, s'.status t = s.status t := fun t => by rw [status, status, htcb]
  refine ⟨?_, ?_, ?_, ?_, ?_, ?_, ?_⟩
  · rw [htop, hcurrent, hstatus]
    exact h.top
  · rw [htop]
    exact Nat.le_trans h.top_le hnum
  · rw [hcurrent]
    exact Nat.le_trans h.current_le hnum
  · intro t ht
    rw [hstatus]
    exact h.unborn t (Nat.lt_of_le_of_lt hnum ht)
  · intro hf
    rw [hfirst] at hf
    obtain ⟨hzero, hzero', hnone, hpt⟩ := h.before hf
    refine ⟨hcurrent.trans hzero, htop.trans hzero', fun t => ?_, .inl ⟨hpoint, fun t => ?_⟩⟩
    · simpa only [Runnable, hstatus] using hnone t
    · rcases hpt with ⟨_, hall⟩ | ⟨w, hw⟩
      · rw [hstatus]
        exact hall t
      · exact absurd hw (hfrom w)
  · intro hf
    rw [hstatus, hcurrent]
    exact h.alive (hfirst ▸ hf)
  · intro hblocked
    rw [hstatus, hcurrent] at hblocked
    obtain ⟨w, hw⟩ := h.awake hblocked
    exact absurd hw (hfrom w)

private theorem Consistent.block {s s' : State} {w : Wait} (h : Consistent s)
    (hstatus : ∀ t, s'.status t = if t = s.currentThreadID then .blocked else s.status t)
    (htop : s'.topThread = s.topThread) (hcurrent : s'.currentThreadID = s.currentThreadID)
    (hnum : s'.numOfThreads = s.numOfThreads) (hfirst : s'.isFirstCall = s.isFirstCall)
    (hpoint : s'.cpu.point = .callSchedule w) : Consistent s' := by
  refine ⟨?_, ?_, ?_, ?_, ?_, ?_, ?_⟩
  · rw [htop, hcurrent, hstatus]
    rcases h.top with heq | hex
    · exact .inl heq
    · by_cases hsame : s.topThread = s.currentThreadID
      · exact .inl hsame
      · rw [if_neg hsame]
        exact .inr hex
  · rw [htop, hnum]
    exact h.top_le
  · rw [hcurrent, hnum]
    exact h.current_le
  · intro t ht
    rw [hnum] at ht
    have := h.current_le
    rw [hstatus, if_neg (by omega)]
    exact h.unborn t ht
  · intro hf
    rw [hfirst] at hf
    obtain ⟨hzero, hzero', hnone, _⟩ := h.before hf
    refine ⟨hcurrent.trans hzero, htop.trans hzero', fun t hrun => ?_, .inr ⟨w, hpoint⟩⟩
    rw [Runnable, hstatus] at hrun
    split at hrun
    · exact hrun.2 rfl
    · exact hnone t hrun
  · intro _
    rw [hstatus, hcurrent, if_pos rfl]
    decide
  · intro _
    exact ⟨w, hpoint⟩

private theorem Consistent.release {s s' : State} {l : List Nat} (h : Consistent s)
    (hstatus : ∀ t, s'.status t = if t ∈ l then .ready else s.status t)
    (hlist : ∀ t ∈ l, s.status t ≠ .exited)
    (htop : s'.topThread = s.topThread) (hcurrent : s'.currentThreadID = s.currentThreadID)
    (hnum : s'.numOfThreads = s.numOfThreads) (hfirst : s'.isFirstCall = s.isFirstCall)
    (hfrom : s.cpu.point = .user) (hpoint : s'.cpu.point = .user) : Consistent s' := by
  have hexited : ∀ t, s.status t = .exited → s'.status t = .exited := by
    intro t ht
    rw [hstatus, if_neg (fun hmem => hlist t hmem ht)]
    exact ht
  refine ⟨?_, ?_, ?_, ?_, ?_, ?_, ?_⟩
  · rw [htop, hcurrent]
    exact h.top.imp_right (hexited _)
  · rw [htop, hnum]
    exact h.top_le
  · rw [hcurrent, hnum]
    exact h.current_le
  · intro t ht
    exact hexited t (h.unborn t (hnum ▸ ht))
  · intro hf
    rw [hfirst] at hf
    obtain ⟨hzero, hzero', hnone, hpt⟩ := h.before hf
    rcases hpt with ⟨_, hall⟩ | ⟨w, hw⟩
    · exact ⟨hcurrent.trans hzero, htop.trans hzero', fun t hrun => hrun.1 (hexited t (hall t)),
        .inl ⟨hpoint, fun t => hexited t (hall t)⟩⟩
    · rw [hfrom] at hw
      cases hw
  · intro hf
    rw [hstatus, hcurrent]
    split
    · decide
    · exact h.alive (hfirst ▸ hf)
  · intro hblocked
    rw [hstatus, hcurrent] at hblocked
    split at hblocked
    · cases hblocked
    · exact absurd hblocked (h.not_blocked hfrom)

theorem Consistent.step {s s' : State} {a : Action} (h : Consistent s) (hno : NoRevival s a)
    (heff : Effect s a s') : Consistent s' := by
  cases heff with
  | compute regs hpoint =>
    exact h.update rfl rfl rfl (Nat.le_refl _) rfl (by simp [hpoint]) rfl
  | timer hfirst hswitch => exact switch_consistent hswitch h.top_le h.unborn hfirst
  | createFailed hpoint hfail =>
    exact h.update rfl rfl rfl (Nat.le_succ _) rfl (by simp [hpoint]) hpoint
  | create hpoint hlt hfirst =>
    have := h.top_le
    have := h.current_le
    refine ⟨?_, ?_, ?_, ?_, ?_, ?_, ?_⟩
    · simp only [addThread_topThread, addThread_currentThreadID, addThread_status]
      rw [if_neg (by omega)]
      exact h.top
    · exact Nat.le_succ_of_le h.top_le
    · exact Nat.le_succ_of_le h.current_le
    · intro t ht
      simp only [addThread_numOfThreads] at ht
      simp only [addThread_status]
      rw [if_neg (by omega)]
      exact h.unborn t (by omega)
    · intro hf
      simp only [addThread_isFirstCall, hfirst] at hf
      cases hf
    · intro _
      simp only [addThread_status, addThread_currentThreadID]
      rw [if_neg (by omega)]
      exact h.alive hfirst
    · intro hblocked
      simp only [addThread_status, addThread_currentThreadID] at hblocked
      rw [if_neg (by omega)] at hblocked
      exact absurd hblocked (h.not_blocked hpoint)
  | createFirst hpoint hlt hfirst =>
    obtain ⟨hzero, hzero', -, -⟩ := h.before hfirst
    refine ⟨?_, ?_, ?_, ?_, ?_, ?_, ?_⟩
    · exact .inl (hzero'.trans hzero.symm)
    · exact Nat.le_succ_of_le h.top_le
    · exact Nat.le_succ_of_le h.current_le
    · intro t ht
      simp only [schedulerInit_numOfThreads, addThread_numOfThreads] at ht
      simp only [schedulerInit_status, setFirst_status, addThread_status]
      rw [if_neg (by omega), if_neg (by omega)]
      exact h.unborn t (by omega)
    · intro hf
      cases hf
    · intro _
      rw [schedulerInit_status, if_pos (by exact hzero)]
      decide
    · intro hblocked
      rw [schedulerInit_status, if_pos (by exact hzero)] at hblocked
      cases hblocked
  | exitSwitch hpoint hmore hswitch =>
    have hrun := markExited_runnable hswitch.runnable
    refine switch_consistent hswitch h.top_le (fun u hu => ?_) (h.not_first hrun)
    rw [markExited_status]
    split
    · rfl
    · exact h.unborn u hu
  | exitToMain hpoint hlast hmain =>
    obtain ⟨⟨hne, -⟩, hmain⟩ := lastCreated_of_jump hlast hmain
    refine ⟨.inr ?_, h.top_le, Nat.zero_le _, ?_, ?_, ?_, ?_⟩
    · rw [jumpToMain_status, markExited_status]
      rcases h.top with heq | hexited
      · rw [jumpToMain_topThread, markExited_topThread, heq, if_neg hne, if_pos rfl]
      · rw [jumpToMain_topThread, markExited_topThread, if_neg, hexited, ite_self]
        intro hzero
        rw [hzero] at hexited
        exact hmain hexited
    · intro t ht
      have hlt : s.numOfThreads < t := ht
      rw [jumpToMain_status, markExited_status, if_neg (by omega), h.unborn t hlt, ite_self]
    · intro hf
      exact absurd ((h.before hf).1) hne
    · intro _
      rw [jumpToMain_status, jumpToMain_currentThreadID, if_pos rfl]
      decide
    · intro hblocked
      rw [jumpToMain_status, jumpToMain_currentThreadID, if_pos rfl] at hblocked
      cases hblocked
  | mutexInit hpoint hlt => exact h.update rfl rfl rfl (Nat.le_refl _) rfl (by simp [hpoint]) hpoint
  | mutexDestroy hpoint => exact h.update rfl rfl rfl (Nat.le_refl _) rfl (by simp [hpoint]) hpoint
  | acquire hpoint hlock => exact h.update rfl rfl rfl (Nat.le_refl _) rfl (by simp [hpoint]) hpoint
  | queue hpoint hlock =>
    exact h.block (fun t => by simp) rfl rfl rfl rfl rfl
  | unlockFree hpoint hlist =>
    exact h.update rfl rfl rfl (Nat.le_refl _) rfl (by simp [hpoint]) hpoint
  | @unlockGrant m t rest hpoint hlist =>
    refine h.release (l := [t]) (fun u => by simp) ?_ rfl rfl rfl rfl hpoint hpoint
    intro u hu
    rw [List.mem_singleton.mp hu]
    exact hno t rest hlist
  | barrierRefused hpoint => exact h
  | barrierInit hpoint hcount hlt =>
    exact h.update rfl rfl rfl (Nat.le_refl _) rfl (by simp [hpoint]) hpoint
  | barrierDestroy hpoint =>
    exact h.update rfl rfl rfl (Nat.le_refl _) rfl (by simp [hpoint]) hpoint
  | arrive hpoint hcount =>
    exact h.block (fun t => by simp) (by simp [queueOnBarrier]) (by simp [queueOnBarrier])
      (by simp [queueOnBarrier]) (by simp [queueOnBarrier])
      (congrArg Context.point (queueOnBarrier_cpu s _))
  | complete hpoint hcount =>
    exact h.release (fun u => by simp) (hno hcount) (by simp [completeRound])
      (by simp [completeRound]) (by simp [completeRound]) (by simp [completeRound]) hpoint (by simp)
  | proceedSchedule hpoint hswitch =>
    exact switch_consistent hswitch h.top_le h.unborn (h.not_first hswitch.runnable)
  | proceedReturn hpoint =>
    exact h.update rfl rfl rfl (Nat.le_refl _) rfl (by simp [hpoint]) rfl
  | proceedLeave hpoint =>
    exact h.update rfl rfl rfl (Nat.le_refl _) rfl (by simp [hpoint]) rfl

end OSChallenges.Threads
