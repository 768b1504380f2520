import OSChallenges.Threads.Resuming

/-!
# When the process ends

`pthread_exit` compares the number of threads that have exited with the number of threads created.
Without barriers the two counters say what the statuses of the created threads say (`ExitInv`), for
main exiting early, late or never, and even when main has been jumped to while blocked: what can
happen to main alone does not touch them. Only a `pthread_create` that finds no memory breaks them:
it has already counted its thread, whose status stays that of an exited one.
-/

namespace OSChallenges.Threads

open State Runs

/-- `malloc` finds the memory for the stack of a new thread. -/
def MallocOk : Action → Bool
  | .create mallocOk _ => mallocOk
  | _ => true

structure ExitInv (s : State) : Prop where
  /-- After the jump of `pthread_exit` to main, `topThread` is the thread that exited. -/
  top : s.topThread = s.currentThreadID ∨ s.topThread ≠ 0 ∧ s.status s.topThread = .exited
  top_le : s.topThread ≤ s.numOfThreads
  current_le : s.currentThreadID ≤ s.numOfThreads
  bound : s.numOfThreads < maxThreads
  unborn : ∀ t, s.numOfThreads < t → s.status t = .exited
  alive : s.currentThreadID ≠ 0 → s.status s.currentThreadID ≠ .exited
  awake : s.currentThreadID ≠ 0 → s.status s.currentThreadID = .blocked →
    ∃ w, s.cpu.point = .callSchedule w
  lists : Lists (· ≠ 0) s
  points : s.cpu.point ≠ .exiting ∧ ∀ t, (s.buf t).point ≠ .exiting
  counted : s.exitedThreads = (exitedCreated s).card

variable {s s' : State} {a : Action}

/-! ### The counter -/

theorem exitedCreated_congr (hnum : s'.numOfThreads = s.numOfThreads)
    (hexited : ∀ t < s.numOfThreads, s'.status (t + 1) = .exited ↔ s.status (t + 1) = .exited) :
    exitedCreated s' = exitedCreated s := by
  unfold exitedCreated
  rw [hnum]
  refine Finset.filter_congr fun t ht => ?_
  exact hexited t (Finset.mem_range.mp ht)

theorem ExitInv.not_blocked (h : ExitInv s) (hpoint : s.cpu.point = .user)
    (hne : s.currentThreadID ≠ 0) : s.status s.currentThreadID ≠ .blocked := by
  intro hblocked
  obtain ⟨w, hw⟩ := h.awake hne hblocked
  cases hpoint.symm.trans hw

theorem ExitInv.resting (h : ExitInv s) (a : Action) {t : Nat} (hne : t ≠ 0)
    (ht : s.status t = .blocked) : Resting s a t where
  notRunning := by
    rintro hpoint rfl
    exact h.not_blocked hpoint hne ht
  created := by
    rintro rfl
    rw [h.unborn _ (Nat.lt_succ_self _)] at ht
    cases ht
  notFirst := fun _ _ => hne
  noJump := fun hzero => absurd hzero hne

/-- The exit of a created thread counts it, the exit of main does not count. -/
theorem ExitInv.counted_exit (h : ExitInv s) :
    (markExited s).exitedThreads = (exitedCreated (markExited s)).card := by
  by_cases hzero : s.currentThreadID = 0
  · have hsame : exitedCreated (markExited s) = exitedCreated s := by
      refine exitedCreated_congr rfl fun t _ => ?_
      rw [markExited_status, if_neg (by omega)]
    rw [hsame, ← h.counted]
    simp [hzero]
  · obtain ⟨c, hc⟩ := Nat.exists_eq_succ_of_ne_zero hzero
    have hle := h.current_le
    have hnew : c ∉ exitedCreated s := by
      simp only [exitedCreated, Finset.mem_filter, not_and]
      intro _ hexited
      exact h.alive hzero (hc ▸ hexited)
    have hinsert : exitedCreated (markExited s) = insert c (exitedCreated s) := by
      ext t
      simp only [exitedCreated, Finset.mem_insert, Finset.mem_filter, Finset.mem_range,
        markExited_status, markExited_numOfThreads]
      by_cases ht : t = c
      · subst t
        simp [hc]
        omega
      · have hne : t + 1 ≠ s.currentThreadID := by omega
        simp [ht, hne]
    rw [hinsert, Finset.card_insert_of_notMem hnew, ← h.counted]
    simp [hzero]

/-- The thread that `schedule` takes for the running one has exited, with this call or before. -/
theorem ExitInv.top_exited (h : ExitInv s) : (markExited s).status s.topThread = .exited := by
  rw [markExited_status]
  rcases h.top with htop | ⟨-, hexited⟩
  · rw [if_pos htop]
  · rw [hexited, ite_self]

/-! ### Steps -/

private theorem ExitInv.switch {m : State} {t : Nat} (hswitch : Switch m s' t)
    (htop : m.topThread ≤ m.numOfThreads) (hbound : m.numOfThreads < maxThreads)
    (hunborn : ∀ u, m.numOfThreads < u → m.status u = .exited) (hlists : Lists (· ≠ 0) s')
    (hbuf : ∀ u, (m.buf u).point ≠ .exiting)
    (hcpu : m.status m.topThread ≠ .exited → m.cpu.point ≠ .exiting)
    (hcounted : m.exitedThreads = (exitedCreated m).card) : ExitInv s' := by
  have hle := hswitch.le htop
  have hrunning : s'.status s'.currentThreadID = .running := by
    rw [hswitch.status, hswitch.current, if_pos rfl]
  have hpoints : ∀ u, (s'.buf u).point ≠ .exiting := by
    intro u
    rw [hswitch.buf]
    split
    · rename_i hsaved
      exact hcpu (hsaved.1 ▸ hsaved.2)
    · exact hbuf u
  refine ⟨.inl (hswitch.top.trans hswitch.current.symm), ?_, ?_, ?_, fun u hu => ?_, fun _ => ?_,
    fun _ hb => ?_, hlists, ⟨?_, hpoints⟩, ?_⟩
  · rw [hswitch.top, hswitch.numOfThreads]
    exact hle
  · rw [hswitch.current, hswitch.numOfThreads]
    exact hle
  · rw [hswitch.numOfThreads]
    exact hbound
  · rw [hswitch.numOfThreads] at hu
    exact hswitch.exited.mpr (hunborn u hu)
  · rw [hrunning]
    decide
  · rw [hrunning] at hb
    cases hb
  · rw [hswitch.cpu]
    exact hpoints t
  · rw [hswitch.exitedThreads, hcounted,
      exitedCreated_congr hswitch.numOfThreads (fun _ _ => hswitch.exited)]

private theorem ExitInv.stay (h : ExitInv s) (hlists : Lists (· ≠ 0) s')
    (htop : s'.topThread = s.topThread) (hcurrent : s'.currentThreadID = s.currentThreadID)
    (hnum : s'.numOfThreads = s.numOfThreads) (hcount : s'.exitedThreads = s.exitedThreads)
    (hexited : ∀ t, t ≠ 0 → (s'.status t = .exited ↔ s.status t = .exited))
    (hawake : s.currentThreadID ≠ 0 → s'.status s.currentThreadID = .blocked →
      ∃ w, s'.cpu.point = .callSchedule w)
    (hbuf : ∀ t, s'.buf t = s.buf t) (hcpu : s'.cpu.point ≠ .exiting) : ExitInv s' := by
  refine ⟨?_, ?_, ?_, ?_, fun t ht => ?_, fun hne => ?_, fun hne hb => ?_, hlists,
    ⟨hcpu, fun t => ?_⟩, ?_⟩
  · rw [htop, hcurrent]
    exact h.top.imp_right fun ⟨hne, hex⟩ => ⟨hne, (hexited _ hne).mpr hex⟩
  · rw [htop, hnum]
    exact h.top_le
  · rw [hcurrent, hnum]
    exact h.current_le
  · rw [hnum]
    exact h.bound
  · rw [hnum] at ht
    exact (hexited t (by omega)).mpr (h.unborn t ht)
  · rw [hcurrent] at hne ⊢
    exact fun hex => h.alive hne ((hexited _ hne).mp hex)
  · rw [hcurrent] at hne hb
    exact hawake hne hb
  · rw [hbuf]
    exact h.points.2 t
  · rw [hcount, h.counted, exitedCreated_congr hnum (fun t _ => hexited (t + 1) (Nat.succ_ne_zero t))]

private theorem ExitInv.quiet (h : ExitInv s) (hlists : Lists (· ≠ 0) s')
    (hstatus : ∀ t, s'.status t = s.status t) (hbuf : ∀ t, s'.buf t = s.buf t)
    (hframe : s'.topThread = s.topThread ∧ s'.currentThreadID = s.currentThreadID ∧
      s'.numOfThreads = s.numOfThreads ∧ s'.exitedThreads = s.exitedThreads)
    (hfrom : ∀ w, s.cpu.point ≠ .callSchedule w) (hcpu : s'.cpu.point ≠ .exiting) : ExitInv s' := by
  obtain ⟨htop, hcurrent, hnum, hcount⟩ := hframe
  refine h.stay hlists htop hcurrent hnum hcount (fun t _ => by rw [hstatus]) (fun hne hb => ?_)
    hbuf hcpu
  rw [hstatus] at hb
  obtain ⟨w, hw⟩ := h.awake hne hb
  exact absurd hw (hfrom w)

private theorem ExitInv.create (h : ExitInv s) (hlists : Lists (· ≠ 0) s')
    (hpoint : s.cpu.point = .user) (hlt : s.numOfThreads + 1 < maxThreads)
    (hnum : s'.numOfThreads = s.numOfThreads + 1) (htop : s'.topThread = s.topThread)
    (hcurrent : s'.currentThreadID = s.currentThreadID)
    (hcount : s'.exitedThreads = s.exitedThreads)
    (hstatus : ∀ t, t ≠ 0 → s'.status t = if t = s.numOfThreads + 1 then .ready else s.status t)
    (hbuf : ∀ t, (s'.buf t).point = .user ∨ s'.buf t = s.buf t) (hcpu : s'.cpu = s.cpu) :
    ExitInv s' := by
  have htop_le := h.top_le
  have hcurrent_le := h.current_le
  have hcreated : exitedCreated s' = exitedCreated s := by
    ext t
    simp only [exitedCreated, Finset.mem_filter, Finset.mem_range, hnum,
      hstatus (t + 1) (Nat.succ_ne_zero t)]
    by_cases ht : t = s.numOfThreads
    · subst t
      simp
    · have hne : t + 1 ≠ s.numOfThreads + 1 := by omega
      rw [if_neg hne]
      constructor
      · rintro ⟨hlt', hex⟩
        exact ⟨by omega, hex⟩
      · rintro ⟨hlt', hex⟩
        exact ⟨by omega, hex⟩
  refine ⟨?_, ?_, ?_, ?_, fun t ht => ?_, fun hne => ?_, fun hne hb => ?_, hlists,
    ⟨?_, fun t => ?_⟩, ?_⟩
  · rw [htop, hcurrent]
    obtain htop | ⟨hne, hex⟩ := h.top
    · exact .inl htop
    · refine .inr ⟨hne, ?_⟩
      rw [hstatus _ hne, if_neg (by omega)]
      exact hex
  · omega
  · omega
  · rw [hnum]
    exact hlt
  · rw [hstatus t (by omega), if_neg (by omega)]
    exact h.unborn t (by omega)
  · rw [hcurrent] at hne ⊢
    rw [hstatus _ hne, if_neg (by omega)]
    exact h.alive hne
  · rw [hcurrent] at hne hb
    rw [hstatus _ hne, if_neg (by omega)] at hb
    exact absurd hb (h.not_blocked hpoint hne)
  · rw [hcpu]
    exact h.points.1
  · rcases hbuf t with huser | hsame
    · rw [huser]
      decide
    · rw [hsame]
      exact h.points.2 t
  · rw [hcount, h.counted, hcreated]

theorem ExitInv.step (h : ExitInv s) (hlocks : LocksOnly a = true) (hmalloc : MallocOk a = true)
    (heff : Effect s a s') (hbound : s'.numOfThreads < maxThreads) : ExitInv s' := by
  have hlists := h.lists.step hlocks (fun _ hne => h.resting a hne) heff
  have huser : s.cpu.point = .user → ∀ w, s.cpu.point ≠ .callSchedule w := by
    intro hpoint w hw
    cases hpoint.symm.trans hw
  cases heff with
  | compute regs hpoint =>
    exact h.quiet hlists (fun _ => rfl) (fun _ => rfl) ⟨rfl, rfl, rfl, rfl⟩ (huser hpoint)
      (fun h => by cases h)
  | timer hfirst hswitch =>
    exact ExitInv.switch hswitch h.top_le h.bound h.unborn hlists h.points.2 (fun _ => h.points.1)
      h.counted
  | createFailed hpoint hfail =>
    rcases hfail with hfull | rfl
    · exact absurd h.bound (Nat.not_lt.mpr hfull)
    · cases hmalloc
  | create hpoint hlt hfirst =>
    refine h.create hlists hpoint hlt rfl rfl rfl rfl (fun t _ => ?_) (fun t => ?_) rfl
    · rw [addThread_status]
      rfl
    · rw [addThread_buf]
      split
      · exact .inl rfl
      · exact .inr rfl
  | createFirst hpoint hlt hfirst =>
    refine h.create hlists hpoint hlt rfl rfl rfl rfl (fun t ht => ?_) (fun t => ?_) rfl
    · rw [schedulerInit_status, if_neg ht, setFirst_status, addThread_status]
      rfl
    · rw [schedulerInit_buf, setFirst_buf, addThread_buf]
      split
      · exact .inl rfl
      · exact .inr rfl
  | exitSwitch hpoint hmore hswitch =>
    refine ExitInv.switch hswitch h.top_le h.bound (fun u hu => ?_) hlists (fun u => ?_)
      (fun halive => ?_) h.counted_exit
    · rw [markExited_status, h.unborn u hu, ite_self]
    · rw [markExited_buf]
      exact h.points.2 u
    · exact absurd h.top_exited halive
  | exitToMain hpoint hlast hmain =>
    obtain ⟨⟨hne, -⟩, -⟩ := lastCreated_of_jump hlast hmain
    have hother : ∀ t, t ≠ 0 →
        (jumpToMain (markExited s)).status t = (markExited s).status t := by
      intro t ht
      rw [jumpToMain_status, if_neg ht]
    have hpoints : ∀ t, ((jumpToMain (markExited s)).buf t).point ≠ .exiting := by
      intro t
      rw [jumpToMain_buf, markExited_buf]
      exact h.points.2 t
    have hcreated : exitedCreated (jumpToMain (markExited s)) = exitedCreated (markExited s) :=
      exitedCreated_congr rfl fun t _ => by rw [hother _ (Nat.succ_ne_zero t)]
    have htop : s.topThread ≠ 0 := by
      rcases h.top with htop | ⟨hne', -⟩
      · rw [htop]
        exact hne
      · exact hne'
    refine ⟨.inr ⟨htop, (hother _ htop).trans h.top_exited⟩, h.top_le, Nat.zero_le _, h.bound,
      fun t ht => ?_, fun hne' => absurd rfl hne', fun hne' => absurd rfl hne', hlists,
      ⟨?_, hpoints⟩, ?_⟩
    · rw [hother t (Nat.ne_of_gt (Nat.zero_lt_of_lt ht)), markExited_status, h.unborn t ht, ite_self]
    · rw [jumpToMain_cpu, markExited_buf]
      exact h.points.2 0
    · rw [hcreated]
      exact h.counted_exit
  | mutexInit hpoint hlt =>
    exact h.quiet hlists (fun _ => rfl) (fun _ => rfl) ⟨rfl, rfl, rfl, rfl⟩ (huser hpoint) h.points.1
  | acquire hpoint hlock =>
    exact h.quiet hlists (fun _ => rfl) (fun _ => rfl) ⟨rfl, rfl, rfl, rfl⟩ (huser hpoint) h.points.1
  | queue hpoint hlock =>
    refine h.stay hlists rfl rfl rfl rfl (fun t ht => ?_) (fun _ _ => ⟨_, rfl⟩)
      (fun t => by simp) (fun h => by cases h)
    by_cases hcurrent : t = s.currentThreadID
    · subst t
      exact iff_of_false (by simp) (h.alive ht)
    · simp [hcurrent]
  | unlockFree hpoint hlist =>
    exact h.quiet hlists (fun _ => rfl) (fun _ => rfl) ⟨rfl, rfl, rfl, rfl⟩ (huser hpoint) h.points.1
  | @unlockGrant m u rest hpoint hlist =>
    refine h.stay hlists rfl rfl rfl rfl (fun t ht => ?_) (fun hne hb => ?_) (fun t => by simp)
      h.points.1
    · by_cases htu : t = u
      · subst u
        have hblocked := h.lists.blocked (s.mutexes m).count t ht (hlist ▸ List.mem_cons_self)
        exact iff_of_false (by simp) (by simp [hblocked])
      · simp [htu]
    · by_cases hcu : s.currentThreadID = u
      · simp [hcu] at hb
      · exact absurd (by simpa [hcu] using hb) (h.not_blocked hpoint hne)
  | proceedSchedule hpoint hswitch =>
    exact ExitInv.switch hswitch h.top_le h.bound h.unborn hlists h.points.2 (fun _ h => by cases h)
      h.counted
  | proceedReturn hpoint =>
    exact h.quiet hlists (fun _ => rfl) (fun _ => rfl) ⟨rfl, rfl, rfl, rfl⟩ (by simp [hpoint])
      (fun h => by cases h)
  | proceedLeave hpoint =>
    exact h.quiet hlists (fun _ => rfl) (fun _ => rfl) ⟨rfl, rfl, rfl, rfl⟩ (by simp [hpoint])
      (fun h => by cases h)
  | mutexDestroy hpoint => cases hlocks
  | barrierRefused hpoint => cases hlocks
  | barrierInit hpoint hcount hlt => cases hlocks
  | barrierDestroy hpoint => cases hlocks
  | arrive hpoint hcount => cases hlocks
  | complete hpoint hcount => cases hlocks

/-! ### What `pthread_exit` decides -/

theorem search_bounded {rounds top : Nat} {e : Stop} (htop : top ≤ s.numOfThreads)
    (hbound : s.numOfThreads < maxThreads) (h : search s rounds top = .error e) : e = .spin := by
  induction rounds generalizing top with
  | zero =>
    cases h
    rfl
  | succ rounds ih =>
    have hle := advance_le htop
    rw [search, if_neg (by omega)] at h
    split at h
    · cases h
    · exact ih hle h

end OSChallenges.Threads
