import OSChallenges.Library.Outcomes
import OSChallenges.Library.Potential
import OSChallenges.Threads.Bookkeeping
import OSChallenges.Threads.Turns

/-!
# No thread waits for the processor for ever

Only the running thread blocks or ends itself, so a thread that is ready stays ready until it runs. Each call
of `schedule` brings the search closer to it, whatever the other threads have done in between: threads may
have been created, have exited, have blocked and become ready again.
-/

namespace OSChallenges.Threads

open State Runs Outcomes

variable {s s' m : State} {a : Action} {t n x top rounds : Nat}

/-- Whatever is a thread to the library has a number up to `numOfThreads`. -/
structure Born (s : State) : Prop where
  top : s.topThread ≤ s.numOfThreads
  current : s.currentThreadID ≤ s.numOfThreads
  threads : ∀ t, s.Runnable t → t ≤ s.numOfThreads
  mutexes : ∀ id, ∀ t ∈ s.mutexThreadLists id, t ≤ s.numOfThreads
  barriers : ∀ id, ∀ t ∈ s.barrierThreadLists id, t ≤ s.numOfThreads

theorem Born.update (h : Born s) (hnum : s.numOfThreads ≤ s'.numOfThreads)
    (htop : s'.topThread ≤ s'.numOfThreads) (hcurrent : s'.currentThreadID ≤ s'.numOfThreads)
    (hthreads : ∀ t, s'.Runnable t → s.Runnable t ∨ t ≤ s'.numOfThreads)
    (hmutexes : ∀ id, ∀ t ∈ s'.mutexThreadLists id, t ∈ s.mutexThreadLists id ∨ t = s.currentThreadID)
    (hbarriers : ∀ id, ∀ t ∈ s'.barrierThreadLists id,
      t ∈ s.barrierThreadLists id ∨ t = s.currentThreadID) : Born s' where
  top := htop
  current := hcurrent
  threads t ht := by
    obtain hold | hnew := hthreads t ht
    · exact Nat.le_trans (h.threads t hold) hnum
    · exact hnew
  mutexes id t ht := by
    obtain hold | rfl := hmutexes id t ht
    · exact Nat.le_trans (h.mutexes id t hold) hnum
    · exact Nat.le_trans h.current hnum
  barriers id t ht := by
    obtain hold | rfl := hbarriers id t ht
    · exact Nat.le_trans (h.barriers id t hold) hnum
    · exact Nat.le_trans h.current hnum

theorem Switch.runnable_iff {u : Nat} (h : Switch s s' t) : s'.Runnable u ↔ s.Runnable u :=
  and_congr (not_congr h.exited) (not_congr h.blocked)

theorem Born.switch (h : Born s) (hswitch : Switch s s' t) : Born s' := by
  have hle := hswitch.le h.top
  refine h.update (Nat.le_of_eq hswitch.numOfThreads.symm) ?_ ?_ (fun u hu => ?_) (fun id u hu => ?_)
    fun id u hu => ?_
  · rw [hswitch.top, hswitch.numOfThreads]
    exact hle
  · rw [hswitch.current, hswitch.numOfThreads]
    exact hle
  · exact .inl (hswitch.runnable_iff.mp hu)
  · rw [hswitch.mutexThreadLists] at hu
    exact .inl hu
  · rw [hswitch.barrierThreadLists] at hu
    exact .inl hu

theorem Born.markExited (h : Born s) : Born (markExited s) :=
  h.update (Nat.le_refl _) h.top h.current (fun _ hu => .inl (markExited_runnable hu))
    (fun _ _ hu => .inl hu) fun _ _ hu => .inl hu

theorem Born.same (h : Born s) (hnum : s.numOfThreads ≤ s'.numOfThreads) (htop : s'.topThread = s.topThread)
    (hcurrent : s'.currentThreadID = s.currentThreadID) (hstatus : ∀ t, s'.status t = s.status t)
    (hmutexes : ∀ id, s'.mutexThreadLists id = s.mutexThreadLists id ∨ s'.mutexThreadLists id = [])
    (hbarriers : ∀ id, s'.barrierThreadLists id = s.barrierThreadLists id ∨
      s'.barrierThreadLists id = []) : Born s' := by
  refine h.update hnum ?_ ?_ (fun t ht => ?_) (fun id t ht => ?_) fun id t ht => ?_
  · rw [htop]
    exact Nat.le_trans h.top hnum
  · rw [hcurrent]
    exact Nat.le_trans h.current hnum
  · rw [Runnable, hstatus] at ht
    exact .inl ht
  · obtain heq | heq := hmutexes id
    · rw [heq] at ht
      exact .inl ht
    · rw [heq] at ht
      cases ht
  · obtain heq | heq := hbarriers id
    · rw [heq] at ht
      exact .inl ht
    · rw [heq] at ht
      cases ht

theorem update_or_nil {f : Nat → List Nat} (k id : Nat) :
    Function.update f k [] id = f id ∨ Function.update f k [] id = [] := by
  by_cases h : id = k
  · rw [h, Function.update_self]
    exact .inr rfl
  · rw [Function.update_of_ne h]
    exact .inl rfl

theorem mem_queued {f : Nat → List Nat} {k id u v : Nat}
    (h : u ∈ Function.update f k (f k ++ [v]) id) : u ∈ f id ∨ u = v := by
  by_cases hid : id = k
  · rw [hid, Function.update_self, List.mem_append, List.mem_singleton] at h
    rw [hid]
    exact h
  · rw [Function.update_of_ne hid] at h
    exact .inl h

theorem Born.step (h : Born s) (heff : Effect s a s') : Born s' := by
  have hle := Nat.le_succ s.numOfThreads
  cases heff with
  | compute regs hpoint =>
    exact h.same (Nat.le_refl _) rfl rfl (fun _ => rfl) (fun _ => .inl rfl) fun _ => .inl rfl
  | timer hfirst hswitch => exact h.switch hswitch
  | createFailed hpoint hfail =>
    exact h.same hle rfl rfl (fun _ => rfl) (fun _ => .inl rfl) fun _ => .inl rfl
  | create hpoint hlt hfirst =>
    refine h.update hle (Nat.le_trans h.top hle) (Nat.le_trans h.current hle) (fun t ht => ?_)
      (fun _ _ hu => .inl hu) fun _ _ hu => .inl hu
    rw [Runnable, addThread_status] at ht
    split at ht
    · rename_i hnew
      exact .inr (Nat.le_of_eq hnew)
    · exact .inl ht
  | createFirst hpoint hlt hfirst =>
    refine h.update hle (Nat.le_trans h.top hle) (Nat.le_trans h.current hle) (fun t ht => ?_)
      (fun _ _ hu => .inl hu) fun _ _ hu => .inl hu
    rw [Runnable, schedulerInit_status] at ht
    split at ht
    · rename_i hmain
      rw [hmain]
      exact .inr (Nat.zero_le _)
    · rw [setFirst_status, addThread_status] at ht
      split at ht
      · rename_i hnew
        exact .inr (Nat.le_of_eq hnew)
      · exact .inl ht
  | exitSwitch hpoint hmore hswitch => exact h.markExited.switch hswitch
  | exitToMain hpoint hlast hmain =>
    refine h.markExited.update (Nat.le_refl _) h.top (Nat.zero_le _) (fun t ht => ?_)
      (fun _ _ hu => .inl hu) fun _ _ hu => .inl hu
    rw [Runnable, jumpToMain_status] at ht
    split at ht
    · rename_i hzero
      rw [hzero]
      exact .inr (Nat.zero_le _)
    · exact .inl ht
  | mutexInit hpoint hlt =>
    exact h.same (Nat.le_refl _) rfl rfl (fun _ => rfl) (update_or_nil s.mutexId) fun _ => .inl rfl
  | mutexDestroy hpoint =>
    exact h.same (Nat.le_refl _) rfl rfl (fun _ => rfl) (fun _ => .inl rfl) fun _ => .inl rfl
  | acquire hpoint hlock =>
    exact h.same (Nat.le_refl _) rfl rfl (fun _ => rfl) (fun _ => .inl rfl) fun _ => .inl rfl
  | queue hpoint hlock =>
    refine h.update (Nat.le_refl _) h.top h.current (fun t ht => ?_) (fun id t ht => ?_) fun _ _ hu => .inl hu
    · rw [Runnable, queueOnMutex_status] at ht
      split at ht
      · exact absurd rfl ht.2
      · exact .inl ht
    · rw [queueOnMutex_mutexThreadLists] at ht
      exact mem_queued ht
  | unlockFree hpoint hlist =>
    exact h.same (Nat.le_refl _) rfl rfl (fun _ => rfl) (fun _ => .inl rfl) fun _ => .inl rfl
  | @unlockGrant m t rest hpoint hlist =>
    have hmem : ∀ u, u = t ∨ u ∈ rest → u ∈ s.mutexThreadLists (s.mutexes m).count := by
      intro u hu
      rw [hlist]
      exact List.mem_cons.mpr hu
    refine h.update (Nat.le_refl _) h.top h.current (fun u hu => ?_) (fun id u hu => ?_) fun _ _ hu => .inl hu
    · by_cases hut : u = t
      · exact .inr (h.mutexes _ u (hmem u (.inl hut)))
      · rw [Runnable, log_status, unlock_status, setMutexList_status, setStatus_status, if_neg hut] at hu
        exact .inl hu
    · by_cases hid : id = (s.mutexes m).count
      · have hlist' : u ∈ rest := by
          rw [hid] at hu
          exact (Function.update_self (s.mutexes m).count rest s.mutexThreadLists) ▸ hu
        rw [hid]
        exact .inl (hmem u (.inr hlist'))
      · exact .inl ((Function.update_of_ne hid rest s.mutexThreadLists) ▸ hu)
  | barrierRefused hpoint => exact h
  | barrierInit hpoint hcount hlt =>
    exact h.same (Nat.le_refl _) rfl rfl (fun _ => rfl) (fun _ => .inl rfl) (update_or_nil s.barrierId)
  | barrierDestroy hpoint =>
    exact h.same (Nat.le_refl _) rfl rfl (fun _ => rfl) (fun _ => .inl rfl) fun _ => .inl rfl
  | arrive hpoint hcount =>
    refine h.update (Nat.le_refl _) h.top h.current (fun t ht => ?_) (fun _ _ hu => .inl hu) fun id t ht => ?_
    · rw [Runnable, queueOnBarrier_status] at ht
      split at ht
      · exact absurd rfl ht.2
      · exact .inl ht
    · rw [queueOnBarrier_barrierThreadLists] at ht
      exact mem_queued ht
  | complete hpoint hcount =>
    refine h.update (Nat.le_refl _) h.top h.current (fun t ht => ?_) (fun _ _ hu => .inl hu) fun _ _ hu => ?_
    · rw [Runnable, completeRound_status] at ht
      split at ht
      · rename_i hmem
        exact .inr (h.barriers _ t hmem)
      · exact .inl ht
    · rw [completeRound_barrierThreadLists] at hu
      exact .inl hu
  | @proceedSchedule w s' t hpoint hswitch =>
    have hsame : Born (s.setPoint (.resume w)) :=
      h.same (Nat.le_refl _) rfl rfl (fun _ => rfl) (fun _ => .inl rfl) fun _ => .inl rfl
    exact hsame.switch hswitch
  | proceedReturn hpoint =>
    exact h.same (Nat.le_refl _) rfl rfl (fun _ => rfl) (fun _ => .inl rfl) fun _ => .inl rfl
  | proceedLeave hpoint =>
    exact h.same (Nat.le_refl _) rfl rfl (fun _ => rfl) (fun _ => .inl rfl) fun _ => .inl rfl

/-- Only the running thread blocks or ends itself. -/
theorem runnable_kept (heff : Effect s a s') (hrun : s.Runnable t) (hne : t ≠ s.currentThreadID) :
    s'.Runnable t := by
  have hexit : (markExited s).Runnable t := by
    rw [Runnable, markExited_status, if_neg hne]
    exact hrun
  have hready : ∀ {status : ThreadStatus}, status = .ready ∨ status = .running →
      status ≠ .exited ∧ status ≠ .blocked := by
    rintro status (rfl | rfl)
    · decide
    · decide
  cases heff with
  | timer hfirst hswitch => exact hswitch.runnable_iff.mpr hrun
  | exitSwitch hpoint hmore hswitch => exact hswitch.runnable_iff.mpr hexit
  | proceedSchedule hpoint hswitch => exact hswitch.runnable_iff.mpr hrun
  | create hpoint hlt hfirst =>
    rw [Runnable, addThread_status]
    split
    · exact hready (.inl rfl)
    · exact hrun
  | createFirst hpoint hlt hfirst =>
    rw [Runnable, schedulerInit_status, setFirst_status, addThread_status]
    split
    · exact hready (.inl rfl)
    · split
      · exact hready (.inl rfl)
      · exact hrun
  | exitToMain hpoint hlast hmain =>
    rw [Runnable, jumpToMain_status]
    split
    · exact hready (.inr rfl)
    · exact hexit
  | queue hpoint hlock =>
    rw [Runnable, queueOnMutex_status, if_neg hne]
    exact hrun
  | unlockGrant hpoint hlist =>
    rw [Runnable, log_status, unlock_status, setMutexList_status, setStatus_status]
    split
    · exact hready (.inl rfl)
    · exact hrun
  | arrive hpoint hcount =>
    rw [Runnable, queueOnBarrier_status, if_neg hne]
    exact hrun
  | complete hpoint hcount =>
    rw [Runnable, completeRound_status]
    split
    · exact hready (.inl rfl)
    · exact hrun
  | _ => exact hrun

/-! ### The search comes closer -/

/-- The state in which a step calls `schedule`, if it does. -/
def scheduling (s : State) : Action → Option State
  | .timer => some s
  | .proceed =>
    match s.cpu.point with
    | .callSchedule w => some (s.setPoint (.resume w))
    | _ => none
  | .exit => if (markExited s).exitedThreads ≠ s.numOfThreads then some (markExited s) else none
  | _ => none

theorem search_first (h : search s rounds top = .ok x) (htop : top ≤ s.numOfThreads) :
    ∃ k, k < rounds ∧ x = turn s.numOfThreads top k ∧
      ∀ j, j < k → ¬ s.Runnable (turn s.numOfThreads top j) := by
  induction rounds generalizing top with
  | zero => cases h
  | succ rounds ih =>
    have hle := advance_le htop
    rw [search] at h
    rw [turn_zero htop] at h hle
    split at h
    · cases h
    · split at h
      · cases h
        exact ⟨0, Nat.succ_pos _, rfl, fun j hj => absurd hj (Nat.not_lt_zero j)⟩
      · rename_i hskip
        obtain ⟨k, hk, heq, hfirst⟩ := ih h hle
        refine ⟨k + 1, Nat.succ_lt_succ hk, heq.trans turn_turn, fun j hj => ?_⟩
        cases j with
        | zero => exact hskip
        | succ j =>
          rw [← turn_turn]
          exact hfirst j (Nat.lt_of_succ_lt_succ hj)

theorem search_of_schedule (h : schedule s = .ok s') :
    search s (s.numOfThreads + 1) s.topThread = .ok s'.topThread := by
  have hframe := markReady_frame (s.log (.stopped s.currentThreadID s.cpu))
  have hsame := markReady_runnable (s.log (.stopped s.currentThreadID s.cpu))
  unfold schedule at h
  generalize markReady (s.log (.stopped s.currentThreadID s.cpu)) = m at hframe hsame h
  have htop : m.topThread = s.topThread := by
    rw [hframe]
    rfl
  have hthreads : m.numOfThreads = s.numOfThreads := by
    rw [hframe]
    rfl
  have hrun : ∀ u, m.Runnable u ↔ s.Runnable u := hsame
  have hfound : ∀ m' : State, m'.numOfThreads = s.numOfThreads → (∀ u, m'.Runnable u ↔ s.Runnable u) →
      m'.topThread = s.topThread →
      (search m' (m'.numOfThreads + 1) m'.topThread).map (switchTo m') = .ok s' →
      search s (s.numOfThreads + 1) s.topThread = .ok s'.topThread := by
    intro m' hthreads' hrun' htop' hmap
    rw [hthreads', htop', search_congr hthreads' hrun'] at hmap
    obtain ⟨t, hsearch, rfl⟩ := ok_of_map hmap
    exact hsearch
  simp only at h
  split at h
  · exact hfound m hthreads hrun htop h
  · refine hfound (m.setBuf m.topThread m.cpu) hthreads (fun u => ?_) htop h
    rw [Runnable, setBuf_status]
    exact hrun u

/-- How far the search is from a thread; all the way round from the thread itself. -/
def distance (n t x : Nat) : Nat := if x < t then t - x else t + (n + 1) - x

/-- Threads that have been created in the meantime are counted from the start. -/
theorem closer_of_schedule (h : schedule m = .ok s') (htop : m.topThread ≤ m.numOfThreads)
    (hn : m.numOfThreads ≤ n) (ht : t ≤ m.numOfThreads) (hrun : m.Runnable t) :
    s'.topThread = t ∨ distance n t s'.topThread < distance n t m.topThread := by
  obtain ⟨k, hk, heq, hfirst⟩ := search_first (search_of_schedule h) htop
  obtain ⟨j, hj, hturn⟩ := exists_turn htop ht
  have hkj : k ≤ j := by
    by_contra hlt
    exact hfirst j (Nat.lt_of_not_le hlt) (hturn ▸ hrun)
  rw [turn_eq htop hj] at hturn
  rw [heq, turn_eq htop (by omega)]
  unfold distance
  split at hturn <;> split <;> split <;> split <;> omega

/-- A step either calls `schedule` or leaves `topThread`. -/
theorem step_scheduling (h : step s a = .ok s') :
    (∃ m, scheduling s a = some m ∧ schedule m = .ok s' ∧ m.topThread = s.topThread ∧
      m.numOfThreads = s.numOfThreads ∧ ∀ t, t ≠ s.currentThreadID → (m.Runnable t ↔ s.Runnable t)) ∨
    scheduling s a = none ∧ s'.topThread = s.topThread := by
  have heff := step_effect h
  cases a with
  | timer =>
    left
    refine ⟨s, rfl, ?_, rfl, rfl, fun _ _ => Iff.rfl⟩
    simp only [step, if_true] at h
    split at h
    · cases h
    · split at h
      · cases h
      · exact h
  | proceed =>
    simp only [step, reduceCtorEq, if_false, if_true, proceed] at h
    split at h
    · cases h
    · rename_i w hpoint
      left
      refine ⟨s.setPoint (.resume w), ?_, h, rfl, rfl, fun _ _ => Iff.rfl⟩
      simp only [scheduling, hpoint]
    · rename_i m hpoint
      right
      cases h
      simp only [scheduling, hpoint]
      exact ⟨trivial, rfl⟩
    · rename_i b round hpoint
      right
      cases h
      simp only [scheduling, hpoint]
      exact ⟨trivial, rfl⟩
    · cases h
  | exit =>
    have hpoint : s.cpu.point = .user := by
      cases heff with
      | exitSwitch hpoint hmore hswitch => exact hpoint
      | exitToMain hpoint hlast hmain => exact hpoint
    simp only [step, reduceCtorEq, if_false, hpoint, if_true, call, pthreadExit,
      markExited_numOfThreads] at h
    split at h
    · rename_i hmore
      left
      refine ⟨markExited s, ?_, h, rfl, rfl, fun t ht => ?_⟩
      · simp only [scheduling, if_pos hmore]
      · rw [Runnable, markExited_status, if_neg ht]
        exact Iff.rfl
    · rename_i hlast
      right
      refine ⟨by simp only [scheduling, if_neg hlast], ?_⟩
      split at h
      · cases h
        rfl
      · cases h
  | _ =>
    right
    refine ⟨rfl, ?_⟩
    cases heff with
    | _ => rfl

/-! ### Runs -/

def schedules (s : State) (a : Action) : Bool := (scheduling s a).isSome

/-- The thread is ready and another one runs. -/
structure Awaits (n t : Nat) (s : State) : Prop where
  born : Born s
  threads : s.numOfThreads ≤ n
  ready : s.Runnable t
  away : s.currentThreadID ≠ t

theorem Awaits.step (h : Awaits n t s) (hstep : step s a = .ok s') (hthreads : s'.numOfThreads ≤ n)
    (haway : s'.currentThreadID ≠ t) : Awaits n t s' ∧
      (if schedules s a then 1 else 0) + distance n t s'.topThread ≤ distance n t s.topThread := by
  have heff := step_effect hstep
  refine ⟨⟨h.born.step heff, hthreads, runnable_kept heff h.ready h.away.symm, haway⟩, ?_⟩
  obtain ⟨m, hm, hschedule, htop, hnum, hrun⟩ | ⟨hnone, htop⟩ := step_scheduling hstep
  · obtain ⟨u, hswitch⟩ := schedule_switch hschedule
    have hle := h.born.top
    have hlt := h.born.threads t h.ready
    have hthreads := h.threads
    rw [← htop, ← hnum] at hle
    rw [← hnum] at hlt hthreads
    obtain hnext | hcloser := closer_of_schedule hschedule hle hthreads hlt ((hrun t h.away.symm).mpr h.ready)
    · exact absurd (hswitch.current.trans (hswitch.top.symm.trans hnext)) haway
    · rw [schedules, hm, ← htop]
      simp only [Option.isSome_some, if_true]
      omega
  · rw [schedules, hnone, htop]
    simp only [Option.isSome_none, Bool.false_eq_true, if_false, zero_add, Nat.le_refl]

end OSChallenges.Threads
