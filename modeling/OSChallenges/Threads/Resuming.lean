import OSChallenges.Library.Runs
import OSChallenges.Threads.Mutex

/-!
# Who makes a blocked thread run again

Without barriers a blocked thread stands on one list of the mutex table, once (`Lists`), so the
unlock that takes it off is the only call that can make it ready. The exception is `pthread_exit`
of the last created thread: it jumps to main whatever main's status is. The second way for a thread
to come back from `pthread_mutex_lock` without the mutex is an unlock that pops a thread waiting for
another mutex, which two mutexes make possible only when they share an entry of the table.
-/

namespace OSChallenges.Threads

open State Runs

/-- The calls and events of a program without barriers that destroys no mutex. -/
def LocksOnly : Action → Bool
  | .mutexDestroy _ | .barrierInit _ _ | .barrierDestroy _ | .barrierWait _ => false
  | _ => true

/-- An unlock of the mutex has taken the thread off the list, and it has not queued there again. -/
def Popped (t m : Nat) (trace : List Event) : Prop :=
  .granted t m ∈ trace ∧ (t, .mutex m) ∉ waiting trace

instance (t m : Nat) (trace : List Event) : Decidable (Popped t m trace) :=
  inferInstanceAs (Decidable (_ ∧ _))

/-- Each call of `pthread_mutex_lock` that had to block came back after it was popped. -/
def ReturnsPopped : List Event → Prop
  | [] => True
  | e :: trace =>
    match e with
    | .returned t m => Popped t m trace ∧ ReturnsPopped trace
    | _ => ReturnsPopped trace

instance ReturnsPopped.decidable : DecidablePred ReturnsPopped
  | [] => isTrue trivial
  | .returned t m :: trace =>
    have := ReturnsPopped.decidable trace
    inferInstanceAs (Decidable (Popped t m trace ∧ ReturnsPopped trace))
  | .mutexInit _ :: trace | .mutexDestroy _ :: trace | .acquired _ _ :: trace
  | .queued _ _ :: trace | .released _ _ :: trace | .granted _ _ :: trace
  | .loaded _ _ :: trace | .barrierInit _ :: trace | .barrierDestroy _ :: trace
  | .arrived _ _ :: trace | .completed _ :: trace | .left _ _ _ _ :: trace
  | .created _ _ :: trace | .exited _ :: trace | .stopped _ _ :: trace =>
    ReturnsPopped.decidable trace

/-- An unlock that pops a thread pops one that waits for this mutex. -/
def PopsOwnWaiter (s : State) : Action → Prop
  | .mutexUnlock m => ∀ t, (s.mutexThreadLists (s.mutexes m).count).head? = some t →
      (t, .mutex m) ∈ waiting s.trace
  | _ => True

instance (s : State) : (a : Action) → Decidable (PopsOwnWaiter s a)
  | .mutexUnlock m =>
    inferInstanceAs (Decidable (∀ t, (s.mutexThreadLists (s.mutexes m).count).head? = some t →
      (t, .mutex m) ∈ waiting s.trace))
  | .compute _ | .timer | .create _ _ | .exit | .mutexInit _ | .mutexDestroy _ | .mutexLock _
  | .barrierInit _ _ | .barrierDestroy _ | .barrierWait _ | .proceed => inferInstanceAs (Decidable True)

/-! ### What a step does to a blocked thread -/

/-- A blocked thread is neither the running one nor one still to be created, and the step does not
jump to it. -/
structure Resting (s : State) (a : Action) (t : Nat) : Prop where
  notRunning : s.cpu.point = .user → t ≠ s.currentThreadID
  created : t ≠ s.numOfThreads + 1
  notFirst : s.isFirstCall = true → s.cpu.point = .user → t ≠ 0
  noJump : t = 0 → MainAwake s a

variable {K : Nat → Prop} {s s' : State} {a : Action} {t : Nat}

theorem blocked_step (hlocks : LocksOnly a = true) (hrest : Resting s a t)
    (ht : s.status t = .blocked) (heff : Effect s a s') :
    s'.status t = .blocked ∨
      ∃ m, a = .mutexUnlock m ∧ (s.mutexThreadLists (s.mutexes m).count).head? = some t := by
  cases heff with
  | timer _ hswitch => exact .inl (hswitch.blocked.mpr ht)
  | create hpoint hlt hf =>
    left
    rw [addThread_status, if_neg (by exact hrest.created)]
    exact ht
  | createFirst hpoint hlt hf =>
    left
    rw [schedulerInit_status, if_neg (hrest.notFirst hf hpoint), setFirst_status, addThread_status,
      if_neg (by exact hrest.created)]
    exact ht
  | exitSwitch hpoint hmore hswitch =>
    left
    rw [hswitch.blocked, markExited_status, if_neg (hrest.notRunning hpoint)]
    exact ht
  | exitToMain hpoint hlast hmain =>
    left
    have hne : t ≠ 0 := fun hzero =>
      hrest.noJump hzero (lastCreated_of_jump hlast hmain).1 (hzero ▸ ht)
    rw [jumpToMain_status, if_neg hne, markExited_status, if_neg (hrest.notRunning hpoint)]
    exact ht
  | queue hpoint hlock => exact .inl (by simp [ht])
  | @unlockGrant m u rest hpoint hlist =>
    by_cases hu : t = u
    · subst u
      exact .inr ⟨m, rfl, by rw [hlist]; rfl⟩
    · exact .inl (by simp [hu, ht])
  | proceedSchedule hpoint hswitch => exact .inl (hswitch.blocked.mpr ht)
  | mutexDestroy hpoint => cases hlocks
  | barrierRefused hpoint => cases hlocks
  | barrierInit hpoint hcount hlt => cases hlocks
  | barrierDestroy hpoint => cases hlocks
  | arrive hpoint hcount => cases hlocks
  | complete hpoint hcount => cases hlocks
  | _ => exact .inl ht

theorem blocked_stays (hlocks : LocksOnly a = true) (hrest : Resting s a t)
    (ht : s.status t = .blocked) (heff : Effect s a s') (hkeep : ∀ m, a ≠ .mutexUnlock m) :
    s'.status t = .blocked :=
  (blocked_step hlocks hrest ht heff).resolve_right fun ⟨m, ha, _⟩ => hkeep m ha

/-! ### The lists of the mutex table -/

/-- The threads in `K` that stand on a list are blocked, and each stands there once. -/
structure Lists (K : Nat → Prop) (s : State) : Prop where
  blocked : ∀ id t, K t → t ∈ s.mutexThreadLists id → s.status t = .blocked
  once : ∀ id t, K t → (s.mutexThreadLists id).count t ≤ 1
  place : ∀ id id' t, K t → t ∈ s.mutexThreadLists id → t ∈ s.mutexThreadLists id' → id = id'

private theorem Lists.congr (h : Lists K s) (hlists : s'.mutexThreadLists = s.mutexThreadLists)
    (hstatus : ∀ t, K t → s.status t = .blocked → s'.status t = .blocked) : Lists K s' where
  blocked := by
    intro id t ht hmem
    rw [hlists] at hmem
    exact hstatus t ht (h.blocked id t ht hmem)
  once := by
    rw [hlists]
    exact h.once
  place := by
    rw [hlists]
    exact h.place

private theorem Lists.reset {id : Nat} (h : Lists K s)
    (hlists : s'.mutexThreadLists = Function.update s.mutexThreadLists id [])
    (hstatus : ∀ t, s'.status t = s.status t) : Lists K s' := by
  have hsub : ∀ i t, t ∈ s'.mutexThreadLists i → t ∈ s.mutexThreadLists i := by
    intro i t ht
    rw [hlists] at ht
    by_cases hi : i = id
    · subst i
      simp at ht
    · rwa [Function.update_of_ne hi] at ht
  refine ⟨fun i t ht hmem => ?_, fun i t ht => ?_, fun i j t ht hmem hmem' => ?_⟩
  · rw [hstatus]
    exact h.blocked i t ht (hsub i t hmem)
  · rw [hlists]
    by_cases hi : i = id
    · subst i
      simp
    · rw [Function.update_of_ne hi]
      exact h.once i t ht
  · exact h.place i j t ht (hsub i t hmem) (hsub j t hmem')

private theorem Lists.append {id t : Nat} (h : Lists K s) (hnew : K t → s.status t ≠ .blocked)
    (hlists : s'.mutexThreadLists =
      Function.update s.mutexThreadLists id (s.mutexThreadLists id ++ [t]))
    (hstatus : ∀ u, s'.status u = if u = t then .blocked else s.status u) : Lists K s' := by
  have hmem : ∀ i u, u ∈ s'.mutexThreadLists i → u ∈ s.mutexThreadLists i ∨ i = id ∧ u = t := by
    intro i u hu
    rw [hlists] at hu
    by_cases hi : i = id
    · subst i
      rw [Function.update_self, List.mem_append, List.mem_singleton] at hu
      exact hu.imp_right fun ht => ⟨rfl, ht⟩
    · rw [Function.update_of_ne hi] at hu
      exact .inl hu
  have hout : K t → ∀ i, t ∉ s.mutexThreadLists i :=
    fun ht i hi => hnew ht (h.blocked i t ht hi)
  refine ⟨fun i u hK hu => ?_, fun i u hK => ?_, fun i j u hK hi hj => ?_⟩
  · rw [hstatus]
    split
    · rfl
    · rename_i hne
      rcases hmem i u hu with hold | ⟨-, heq⟩
      · exact h.blocked i u hK hold
      · exact absurd heq hne
  · rw [hlists]
    by_cases hi : i = id
    · subst i
      rw [Function.update_self, List.count_append]
      by_cases hu : u = t
      · subst u
        rw [List.count_eq_zero_of_not_mem (hout hK id)]
        simp
      · rw [List.count_singleton, if_neg (by simpa using Ne.symm hu)]
        exact h.once id u hK
    · rw [Function.update_of_ne hi]
      exact h.once i u hK
  · rcases hmem i u hi with hold | ⟨rfl, rfl⟩
    · rcases hmem j u hj with hold' | ⟨rfl, rfl⟩
      · exact h.place i j u hK hold hold'
      · exact absurd hold (hout hK i)
    · rcases hmem j u hj with hold' | ⟨rfl, -⟩
      · exact absurd hold' (hout hK j)
      · rfl

private theorem Lists.pop {id t : Nat} {rest : List Nat} (h : Lists K s)
    (hlist : s.mutexThreadLists id = t :: rest)
    (hlists : s'.mutexThreadLists = Function.update s.mutexThreadLists id rest)
    (hstatus : ∀ u, s'.status u = if u = t then .ready else s.status u) : Lists K s' := by
  have hsub : ∀ i, (s'.mutexThreadLists i).Sublist (s.mutexThreadLists i) := by
    intro i
    rw [hlists]
    by_cases hi : i = id
    · subst i
      rw [Function.update_self, hlist]
      exact List.sublist_cons_self t rest
    · rw [Function.update_of_ne hi]
  have hhead : t ∈ s.mutexThreadLists id := hlist ▸ List.mem_cons_self
  have hgone : K t → ∀ i, t ∉ s'.mutexThreadLists i := by
    intro hK i hi
    have heq := h.place i id t hK ((hsub i).subset hi) hhead
    subst i
    rw [hlists, Function.update_self] at hi
    have honce := h.once id t hK
    rw [hlist, List.count_cons_self] at honce
    have hpos := List.count_pos_iff.mpr hi
    omega
  refine ⟨fun i u hK hu => ?_, fun i u hK => ?_, fun i j u hK hi hj => ?_⟩
  · rw [hstatus, if_neg]
    · exact h.blocked i u hK ((hsub i).subset hu)
    · rintro rfl
      exact hgone hK i hu
  · exact Nat.le_trans ((hsub i).count_le u) (h.once i u hK)
  · exact h.place i j u hK ((hsub i).subset hi) ((hsub j).subset hj)

theorem Lists.step (h : Lists K s) (hlocks : LocksOnly a = true)
    (hrest : ∀ t, K t → s.status t = .blocked → Resting s a t) (heff : Effect s a s') :
    Lists K s' := by
  have hstays : (∀ m, a ≠ .mutexUnlock m) → ∀ t, K t → s.status t = .blocked →
      s'.status t = .blocked :=
    fun hkeep t hK ht => blocked_stays hlocks (hrest t hK ht) ht heff hkeep
  cases heff with
  | timer _ hswitch => exact h.congr hswitch.mutexThreadLists (hstays fun _ h => by cases h)
  | exitSwitch hpoint hmore hswitch => exact h.congr hswitch.mutexThreadLists (hstays fun _ h => by cases h)
  | mutexInit hpoint hlt => exact h.reset rfl (fun _ => rfl)
  | queue hpoint hlock =>
    exact h.append (fun hK hb => (hrest _ hK hb).notRunning hpoint rfl) rfl
      (fun _ => by simp)
  | unlockFree hpoint hlist => exact h.congr rfl (fun _ _ => id)
  | unlockGrant hpoint hlist => exact h.pop hlist rfl (fun _ => by simp)
  | proceedSchedule hpoint hswitch => exact h.congr hswitch.mutexThreadLists (hstays fun _ h => by cases h)
  | _ => exact h.congr rfl (hstays fun _ h => by cases h)

def WaitsOrPopped (t m : Nat) (trace : List Event) : Prop :=
  Popped t m trace ∨ (t, .mutex m) ∈ waiting trace

/-- A thread that waits for a mutex does so until it is popped. -/
theorem WaitsOrPopped.cons {m : Nat} {trace : List Event} (h : WaitsOrPopped t m trace)
    (e : Event) : WaitsOrPopped t m (e :: trace) := by
  by_cases hwaits : (t, .mutex m) ∈ waiting (e :: trace)
  · exact .inr hwaits
  · refine .inl ⟨?_, hwaits⟩
    rcases h with hpopped | hold
    · exact List.mem_cons_of_mem e hpopped.1
    · cases e with
      | granted u i =>
        -- Only the grant of this mutex to this thread takes it off.
        have hsame : (t, Place.mutex m) = (u, .mutex i) := by
          by_contra hne
          exact hwaits (List.mem_filter.mpr ⟨hold, decide_eq_true hne⟩)
        cases hsame
        exact List.mem_cons_self
      | completed b => exact absurd (List.mem_filter.mpr ⟨hold, by simp⟩) hwaits
      | queued u i => exact absurd (List.mem_append_left _ hold) hwaits
      | arrived u b => exact absurd (List.mem_append_left _ hold) hwaits
      | _ => exact absurd hold hwaits

/-- A context inside `pthread_mutex_lock` belongs to a thread that waits there or has been popped
since. -/
def ParkedAt (trace : List Event) (t : Nat) (point : Point) : Prop :=
  ∀ m, Inside m point → WaitsOrPopped t m trace

theorem ParkedAt.append {trace : List Event} {point : Point} (h : ParkedAt trace t point)
    (events : List Event) : ParkedAt (events ++ trace) t point := by
  induction events with
  | nil => exact h
  | cons e events ih => exact fun m hm => (ih m hm).cons e

theorem parkedAt_user {trace : List Event} {point : Point} (h : point = .user) :
    ParkedAt trace t point :=
  fun _ hm => absurd hm (not_inside h)

/-- Where each thread stands, and what the returned calls did. -/
structure ParkedInv (s : State) : Prop where
  cpu : ParkedAt s.trace s.currentThreadID s.cpu.point
  buf : ∀ t, ParkedAt s.trace t (s.buf t).point
  returned : ReturnsPopped s.trace

structure LockInv (s : State) : Prop where
  consistent : Consistent s
  lists : Lists (fun _ => True) s
  waiters : Waiters s
  parked : ParkedInv s

theorem LockInv.resting (h : LockInv s) (hmain : MainAwake s a) (ht : s.status t = .blocked) :
    Resting s a t where
  notRunning := by
    rintro hpoint rfl
    exact h.consistent.not_blocked hpoint ht
  created := by
    rintro rfl
    rw [h.consistent.unborn _ (Nat.lt_succ_self _)] at ht
    cases ht
  notFirst := by
    rintro hfirst hpoint rfl
    rw [← (h.consistent.before hfirst).1] at ht
    exact h.consistent.not_blocked hpoint ht
  noJump := fun _ => hmain

/-! ### Steps -/

private theorem LockInv.noRevival (h : LockInv s) (hlocks : LocksOnly a = true) :
    NoRevival s a := by
  cases a with
  | mutexUnlock m =>
    intro t rest hlist
    rw [h.lists.blocked (s.mutexes m).count t trivial (hlist ▸ List.mem_cons_self)]
    decide
  | barrierWait b => cases hlocks
  | _ => trivial

/-- Only the first thread of the list of an unlocked mutex stops waiting. -/
private theorem Waiters.step (h : Waiters s) (hlocks : LocksOnly a = true)
    (hrest : ∀ t, s.status t = .blocked → Resting s a t) (hpops : PopsOwnWaiter s a)
    (heff : Effect s a s') : Waiters s' := by
  have hquiet : (∀ m, a ≠ .mutexUnlock m) → waiting s'.trace = waiting s.trace → Waiters s' := by
    intro hkeep hwait
    refine ⟨hwait ▸ h.nodup, fun t p ht => ?_⟩
    have hblocked := h.blocked t p (hwait ▸ ht)
    exact blocked_stays hlocks (hrest t hblocked) hblocked heff hkeep
  cases heff with
  | timer hfirst hswitch => exact hquiet (fun _ h => by cases h) (by rw [hswitch.trace]; rfl)
  | exitSwitch hpoint hmore hswitch => exact hquiet (fun _ h => by cases h) (by rw [hswitch.trace]; rfl)
  | @queue m hpoint hlock =>
    exact h.block (fun hb => (hrest _ hb).notRunning hpoint rfl) rfl
      (fun _ => by simp)
  | unlockFree hpoint hlist => exact ⟨h.nodup, h.blocked⟩
  | @unlockGrant m t rest hpoint hlist =>
    refine h.release rfl (fun u p hu hkeep => ?_)
    have hhead : (t, Place.mutex m) ∈ waiting s.trace := hpops t (by rw [hlist]; rfl)
    have hne : u ≠ t := by
      rintro rfl
      rw [h.unique hu hhead] at hkeep
      simp at hkeep
    simp [hne]
  | proceedSchedule hpoint hswitch => exact hquiet (fun _ h => by cases h) (by rw [hswitch.trace]; rfl)
  | mutexDestroy hpoint => cases hlocks
  | barrierRefused hpoint => cases hlocks
  | barrierInit hpoint hcount hlt => cases hlocks
  | barrierDestroy hpoint => cases hlocks
  | arrive hpoint hcount => cases hlocks
  | complete hpoint hcount => cases hlocks
  | _ => exact hquiet (fun _ h => by cases h) rfl

theorem ReturnsPopped.cons {e : Event} {trace : List Event} (h : ReturnsPopped trace)
    (he : ∀ t m, e ≠ .returned t m) : ReturnsPopped (e :: trace) := by
  cases e with
  | returned t m => exact absurd rfl (he t m)
  | _ => exact h

private theorem ParkedInv.update (h : ParkedInv s) (hpoint : s'.cpu.point = .user)
    (events : List Event) (htrace : s'.trace = events ++ s.trace)
    (hbuf : ∀ t, (s'.buf t).point = .user ∨ s'.buf t = s.buf t)
    (hreturned : ReturnsPopped s'.trace) : ParkedInv s' := by
  refine ⟨parkedAt_user hpoint, fun t => ?_, hreturned⟩
  rcases hbuf t with huser | hsame
  · exact parkedAt_user huser
  · rw [htrace, hsame]
    exact (h.buf t).append events

private theorem ParkedInv.switch {m : State} (h : ParkedInv s) (hswitch : Switch m s' t)
    (hcurrent : m.currentThreadID = s.currentThreadID)
    (htop : m.topThread = m.currentThreadID ∨ m.status m.topThread = .exited)
    (hbuf : ∀ u, m.buf u = s.buf u)
    (htrace : ∃ events, m.trace = events ++ s.trace) (hreturned : ReturnsPopped m.trace)
    (hcpu : m.status m.currentThreadID ≠ .exited →
      ∀ i, Inside i m.cpu.point → Inside i s.cpu.point) : ParkedInv s' := by
  obtain ⟨events, htrace⟩ := htrace
  have hevents : s'.trace =
      .loaded t s'.cpu :: .stopped m.currentThreadID m.cpu :: events ++ s.trace := by
    rw [hswitch.trace, htrace]
    rfl
  have hall : ∀ u, ParkedAt s'.trace u (s'.buf u).point := by
    intro u
    rw [hevents, hswitch.buf]
    split
    · -- Only the running thread is saved.
      rename_i hu
      have hsame : u = m.currentThreadID := by
        rcases htop with htop | hexited
        · exact hu.1.trans htop
        · exact absurd (hu.1 ▸ hexited) hu.2
      subst u
      rw [hcurrent] at hcpu ⊢
      have hcpu' : ParkedAt s.trace s.currentThreadID m.cpu.point :=
        fun i hi => h.cpu i (hcpu (hcurrent ▸ hu.2) i hi)
      exact hcpu'.append _
    · rw [hbuf]
      exact (h.buf u).append _
  refine ⟨?_, hall, ?_⟩
  · rw [hswitch.cpu, hswitch.current]
    exact hall t
  · rw [hswitch.trace]
    exact (hreturned.cons (by simp)).cons (by simp)

private theorem ParkedInv.step (h : ParkedInv s) (hcons : Consistent s) (hwaiters : Waiters s)
    (hlocks : LocksOnly a = true) (heff : Effect s a s') : ParkedInv s' := by
  have htop := hcons.top
  cases heff with
  | compute regs hpoint => exact h.update rfl [] rfl (fun _ => .inr rfl) h.returned
  | timer hfirst hswitch =>
    exact h.switch hswitch rfl htop (fun _ => rfl) ⟨[], rfl⟩ h.returned (fun _ _ => id)
  | createFailed hpoint hfail => exact h.update hpoint [] rfl (fun _ => .inr rfl) h.returned
  | create hpoint hlt hfirst =>
    refine h.update hpoint [_] rfl (fun t => ?_) (h.returned.cons (by simp))
    rw [addThread_buf]
    split
    · exact .inl rfl
    · exact .inr rfl
  | createFirst hpoint hlt hfirst =>
    refine h.update hpoint [_] rfl (fun t => ?_) (h.returned.cons (by simp))
    rw [schedulerInit_buf, setFirst_buf, addThread_buf]
    split
    · exact .inl rfl
    · exact .inr rfl
  | exitSwitch hpoint hmore hswitch =>
    refine h.switch hswitch rfl ?_ (fun u => markExited_buf s u) ⟨[_], rfl⟩
      (h.returned.cons (by simp)) (fun halive => ?_)
    · refine htop.imp_right fun hexited => ?_
      rw [markExited_status, markExited_topThread, hexited, ite_self]
    · rw [markExited_status, markExited_currentThreadID, if_pos rfl] at halive
      exact absurd rfl halive
  | exitToMain hpoint hlast hmain =>
    have hall : ∀ t, ParkedAt (jumpToMain (markExited s)).trace t (s.buf t).point :=
      fun t => (h.buf t).append [_, _, _]
    refine ⟨?_, fun t => ?_, ((h.returned.cons (by simp)).cons (by simp)).cons (by simp)⟩
    · rw [jumpToMain_cpu, markExited_buf]
      exact hall 0
    · rw [jumpToMain_buf, markExited_buf]
      exact hall t
  | mutexInit hpoint hlt =>
    exact h.update hpoint [_] rfl (fun _ => .inr rfl) (h.returned.cons (by simp))
  | acquire hpoint hlock =>
    exact h.update hpoint [_] rfl (fun _ => .inr rfl) (h.returned.cons (by simp))
  | @queue m hpoint hlock =>
    refine ⟨fun i hi => ?_, fun t => ?_, h.returned.cons (by simp)⟩
    · rcases hi with hi | hi <;> cases hi
      exact .inr (List.mem_append_right _ (List.mem_singleton.mpr rfl))
    · rw [queueOnMutex_buf]
      exact (h.buf t).append [_]
  | unlockFree hpoint hlist =>
    exact h.update hpoint [_] rfl (fun _ => .inr rfl) (h.returned.cons (by simp))
  | unlockGrant hpoint hlist =>
    exact h.update hpoint [_, _] rfl (fun _ => .inr (by simp))
      ((h.returned.cons (by simp)).cons (by simp))
  | proceedSchedule hpoint hswitch =>
    refine h.switch hswitch rfl htop (fun _ => rfl) ⟨[], rfl⟩ h.returned (fun _ i hi => ?_)
    rcases hi with hi | hi <;> cases hi
    exact .inl hpoint
  | @proceedReturn m hpoint =>
    refine h.update rfl [_] rfl (fun _ => .inr rfl) ⟨?_, h.returned⟩
    -- A thread that still waits is blocked, and does not run behind its `schedule(14)`.
    refine (h.cpu m (.inr hpoint)).resolve_right fun hwaits => ?_
    obtain ⟨w, hw⟩ := hcons.awake (hwaiters.blocked _ _ hwaits)
    cases hpoint.symm.trans hw
  | proceedLeave hpoint =>
    exact h.update rfl [_] rfl (fun _ => .inr rfl) (h.returned.cons (by simp))
  | mutexDestroy hpoint => cases hlocks
  | barrierRefused hpoint => cases hlocks
  | barrierInit hpoint hcount hlt => cases hlocks
  | barrierDestroy hpoint => cases hlocks
  | arrive hpoint hcount => cases hlocks
  | complete hpoint hcount => cases hlocks

theorem LockInv.step (h : LockInv s) (hlocks : LocksOnly a = true) (hmain : MainAwake s a)
    (hpops : PopsOwnWaiter s a) (heff : Effect s a s') : LockInv s' where
  consistent := h.consistent.step (h.noRevival hlocks) heff
  lists := h.lists.step hlocks (fun _ _ => h.resting hmain) heff
  waiters := h.waiters.step hlocks (fun _ => h.resting hmain) hpops heff
  parked := h.parked.step h.consistent h.waiters hlocks heff

/-! ### The property -/

/-- Mutexes that are initialised once, before their use, have entries of their own. -/
theorem WaitingInv.popsOwnWaiter (h : WaitingInv s) (huse : ProperUse s a) : PopsOwnWaiter s a := by
  cases a with
  | mutexUnlock m =>
    intro t ht
    rw [h.queues.mutex m huse] at ht
    exact mem_threadsAt.mp (List.mem_of_head? ht)
  | _ => trivial

/-- With mutexes that are initialised once, before their use, only the exit of the last created
thread can resume a blocked thread: main. -/
theorem lock_returns_popped_initialised (mutexes : Nat → MutexData) (barriers : Nat → Nat)
    (regs : Nat) (actions : List Action) (h : ∀ a ∈ actions, LocksOnly a = true)
    (huse : EachStep (fun s a _ => ProperUse s a ∧ MainAwake s a) (initial mutexes barriers regs)
      (trail step (initial mutexes barriers regs) actions)) :
    EachStep (fun s a _ => MainAwake s a ∧ PopsOwnWaiter s a) (initial mutexes barriers regs)
      (trail step (initial mutexes barriers regs) actions) := by
  have hrun := (eachStep_trail_forall (f := step) (s := initial mutexes barriers regs) h).and huse
  have hwakes : ∀ s a, LocksOnly a = true → WakesRound s a := by
    intro s a hlocks
    cases a with
    | barrierWait b => cases hlocks
    | _ => trivial
  have hinv := EachStep.always (I := WaitingInv)
    (fun s a s' hs hstep => hs.step hstep.2.1 (hwakes s a hstep.1.1) hstep.2.2
      (step_effect hstep.1.2))
    (initial_waiting mutexes barriers regs) hrun
  refine (hinv.eachStep.and hrun).mono fun s a s' hstep => ?_
  exact ⟨hstep.2.2.2, hstep.1.1.popsOwnWaiter hstep.2.2.1⟩

end OSChallenges.Threads
