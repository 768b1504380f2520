import OSChallenges.Threads.Contexts
import OSChallenges.Threads.Waiting
import Mathlib.Data.Finset.Card
import Mathlib.Data.Finset.Range

/-!
# Mutual exclusion and the hand-off

Read off the trace, a mutex has holders, which have come back from `pthread_mutex_lock` and not yet
called `pthread_mutex_unlock`, and grantees, which an unlock has taken off the list and which are
still inside `pthread_mutex_lock`. While some created thread has not exited there is at most one of
them, the list is a queue of blocked threads, and an unlock makes the head of the queue ready. The
argument is that a context inside `pthread_mutex_lock` belongs to a thread that waits or is granted
(`Parked`), so a thread that comes back from it was the grantee.
-/

namespace OSChallenges.Threads

open State Runs

/-- The threads that hold a mutex. -/
def holders (m : Nat) : List Event → List Nat
  | [] => []
  | e :: trace =>
    match e with
    | .acquired t i => if i = m then t :: holders m trace else holders m trace
    | .returned t i => if i = m then t :: holders m trace else holders m trace
    | .released t i => if i = m then (holders m trace).filter (· ≠ t) else holders m trace
    | _ => holders m trace

/-- The threads that an unlock has granted the mutex and that have not returned from their lock. -/
def grantees (m : Nat) : List Event → List Nat
  | [] => []
  | e :: trace =>
    match e with
    | .granted t i => if i = m then t :: grantees m trace else grantees m trace
    | .returned t i => if i = m then (grantees m trace).filter (· ≠ t) else grantees m trace
    | _ => grantees m trace

/-- Mutexes are initialised once, before their use, and not destroyed; only a holder unlocks; there
are no barriers. -/
def MutexUse (s : State) : Action → Prop
  | .mutexInit m => .mutexInit m ∉ s.trace
  | .mutexLock m => .mutexInit m ∈ s.trace
  | .mutexUnlock m => .mutexInit m ∈ s.trace ∧ s.currentThreadID ∈ holders m s.trace
  | .mutexDestroy _ | .barrierInit _ _ | .barrierDestroy _ | .barrierWait _ => False
  | _ => True

instance (s : State) : (a : Action) → Decidable (MutexUse s a)
  | .mutexInit m => inferInstanceAs (Decidable (.mutexInit m ∉ s.trace))
  | .mutexLock m => inferInstanceAs (Decidable (.mutexInit m ∈ s.trace))
  | .mutexUnlock m =>
    inferInstanceAs (Decidable (.mutexInit m ∈ s.trace ∧ s.currentThreadID ∈ holders m s.trace))
  | .mutexDestroy _ | .barrierInit _ _ | .barrierDestroy _ | .barrierWait _ =>
    inferInstanceAs (Decidable False)
  | .compute _ | .timer | .create _ _ | .exit | .proceed => inferInstanceAs (Decidable True)

/-- No thread has been created yet, or one of the created threads has not exited. -/
def ThreadsLeft (s : State) : Prop :=
  s.isFirstCall = true ∨ ∃ t < s.numOfThreads, s.status (t + 1) ≠ .exited

instance (s : State) : Decidable (ThreadsLeft s) :=
  inferInstanceAs (Decidable (_ ∨ _))

structure MutexesKept (s : State) : Prop where
  exclusive : ∀ m, (holders m s.trace).length + (grantees m s.trace).length ≤ 1
  queue : ∀ m, .mutexInit m ∈ s.trace →
    s.mutexThreadLists (s.mutexes m).count = waitingAt (.mutex m) s.trace
  nodup : ∀ m, .mutexInit m ∈ s.trace → (s.mutexThreadLists (s.mutexes m).count).Nodup
  blocked : ∀ m t, .mutexInit m ∈ s.trace → t ∈ s.mutexThreadLists (s.mutexes m).count →
    s.status t = .blocked
  disjoint : ∀ m m' t, .mutexInit m ∈ s.trace → .mutexInit m' ∈ s.trace →
    t ∈ s.mutexThreadLists (s.mutexes m).count →
    t ∈ s.mutexThreadLists (s.mutexes m').count → m = m'

/-- An unlock with a non-empty list makes ready the thread that has waited longest, and no other. -/
def HandsOff (s : State) : Action → State → Prop
  | .mutexUnlock m, s' =>
    ∀ t rest, s.mutexThreadLists (s.mutexes m).count = t :: rest →
      (waitingAt (.mutex m) s.trace).head? = some t ∧ s.status t = .blocked ∧
        s'.status t = .ready ∧ ∀ u, u ≠ t → s'.status u = s.status u
  | _, _ => True

/-! ### The counter of exited threads -/

/-- The created threads that have exited, each by its index less one; a creation that failed counts
as one. -/
def exitedCreated (s : State) : Finset Nat :=
  (Finset.range s.numOfThreads).filter fun t => s.status (t + 1) = .exited

/-- `exitedThreads` counts no thread twice. -/
def CountsExits (s : State) : Prop := s.exitedThreads ≤ (exitedCreated s).card

private theorem CountsExits.mono {s s' : State} (h : CountsExits s)
    (hnum : s.numOfThreads ≤ s'.numOfThreads) (hcount : s'.exitedThreads = s.exitedThreads)
    (hexited : ∀ t < s.numOfThreads, s.status (t + 1) = .exited → s'.status (t + 1) = .exited) :
    CountsExits s' := by
  have hsub : exitedCreated s ⊆ exitedCreated s' := by
    intro t ht
    simp only [exitedCreated, Finset.mem_filter, Finset.mem_range] at ht ⊢
    exact ⟨Nat.lt_of_lt_of_le ht.1 hnum, hexited t ht.1 ht.2⟩
  rw [CountsExits, hcount]
  exact Nat.le_trans h (Finset.card_le_card hsub)

private theorem CountsExits.exit {s : State} (h : CountsExits s) (hcons : Consistent s)
    (hfirst : s.isFirstCall = false) : CountsExits (markExited s) := by
  by_cases hzero : s.currentThreadID = 0
  · refine h.mono (Nat.le_refl _) (by simp [hzero]) (fun t _ ht => ?_)
    rw [markExited_status, if_neg (by omega)]
    exact ht
  · obtain ⟨c, hc⟩ := Nat.exists_eq_succ_of_ne_zero hzero
    have hle := hcons.current_le
    have hnew : c ∉ exitedCreated s := by
      simp only [exitedCreated, Finset.mem_filter, not_and]
      intro _ hex
      exact hcons.alive hfirst (hc ▸ hex)
    have hsub : insert c (exitedCreated s) ⊆ exitedCreated (markExited s) := by
      intro t ht
      rw [Finset.mem_insert] at ht
      simp only [exitedCreated, Finset.mem_filter, Finset.mem_range, markExited_status,
        markExited_numOfThreads] at ht ⊢
      rcases ht with rfl | ht
      · exact ⟨by omega, if_pos hc.symm⟩
      · exact ⟨ht.1, by rw [ht.2, ite_self]⟩
    have hcard := Finset.card_le_card hsub
    rw [Finset.card_insert_of_notMem hnew] at hcard
    rw [CountsExits, markExited_exitedThreads, if_pos hzero]
    unfold CountsExits at h
    omega

/-- When the last created thread exits, all have exited. -/
private theorem CountsExits.not_last {s s' : State} (h : CountsExits s) (hcons : Consistent s)
    (heff : Effect s .exit s') (hleft : ThreadsLeft s') : ¬ LastCreated s := by
  rintro ⟨hne, hlast⟩
  have hfirst : s.isFirstCall = false := by
    cases hf : s.isFirstCall with
    | false => rfl
    | true => exact absurd (hcons.before hf).1 hne
  have hcount := h.exit hcons hfirst
  rw [CountsExits, markExited_exitedThreads, if_pos hne, hlast] at hcount
  have hall : exitedCreated (markExited s) = Finset.range s.numOfThreads := by
    refine Finset.eq_of_subset_of_card_le (Finset.filter_subset _ _) ?_
    rw [Finset.card_range]
    exact hcount
  cases heff with
  | exitSwitch hpoint hmore hswitch => exact hmore (by simp [hne, hlast])
  | exitToMain hpoint hlast' hmain =>
    rcases hleft with hf | ⟨t, ht, halive⟩
    · rw [jumpToMain_isFirstCall, markExited_isFirstCall, hfirst] at hf
      cases hf
    · have hmem : t ∈ exitedCreated (markExited s) := by
        rw [hall]
        exact Finset.mem_range.mpr ht
      rw [jumpToMain_status, if_neg (by omega)] at halive
      exact halive (Finset.mem_filter.mp hmem).2

/-! ### Contexts inside a lock -/

/-- A context of `pthread_mutex_lock`, at its `schedule(14)` or behind it. -/
def Inside (m : Nat) (point : Point) : Prop :=
  point = .callSchedule (.mutex m) ∨ point = .resume (.mutex m)

def WaitsOrGranted (m t : Nat) (trace : List Event) : Prop :=
  (t, .mutex m) ∈ waiting trace ∨ t ∈ grantees m trace

/-- A thread inside `pthread_mutex_lock` waits or is granted the mutex. -/
structure Parked (s : State) : Prop where
  cpu : ∀ m, Inside m s.cpu.point → WaitsOrGranted m s.currentThreadID s.trace
  buf : ∀ t m, t ≠ s.currentThreadID → s.status t ≠ .exited → Inside m (s.buf t).point →
    WaitsOrGranted m t s.trace

private theorem Parked.update {s s' : State} (h : Parked s)
    (hcurrent : s'.currentThreadID = s.currentThreadID)
    (hpoint : ∀ m, Inside m s'.cpu.point → WaitsOrGranted m s.currentThreadID s'.trace)
    (hbuf : ∀ t m, t ≠ s.currentThreadID → s'.status t ≠ .exited → Inside m (s'.buf t).point →
      s.status t ≠ .exited ∧ Inside m (s.buf t).point)
    (hstay : ∀ t m, t ≠ s.currentThreadID → WaitsOrGranted m t s.trace →
      WaitsOrGranted m t s'.trace) : Parked s' := by
  refine ⟨fun m hm => ?_, fun t m hne halive hm => ?_⟩
  · rw [hcurrent]
    exact hpoint m hm
  · rw [hcurrent] at hne
    obtain ⟨halive, hm⟩ := hbuf t m hne halive hm
    exact hstay t m hne (h.buf t m hne halive hm)

private theorem Switch.parked {s s' : State} {t : Nat} (hswitch : Switch s s' t)
    (htop : s.topThread = s.currentThreadID)
    (hcpu : s.status s.currentThreadID ≠ .exited →
      ∀ m, Inside m s.cpu.point → WaitsOrGranted m s.currentThreadID s.trace)
    (hbuf : ∀ u m, u ≠ s.currentThreadID → s.status u ≠ .exited → Inside m (s.buf u).point →
      WaitsOrGranted m u s.trace) : Parked s' := by
  have hall : ∀ u m, s.status u ≠ .exited → Inside m (s'.buf u).point →
      WaitsOrGranted m u s'.trace := by
    intro u m halive hm
    rw [hswitch.trace]
    rw [hswitch.buf, htop] at hm
    by_cases hu : u = s.currentThreadID
    · subst u
      rw [if_pos ⟨rfl, halive⟩] at hm
      exact hcpu halive m hm
    · rw [if_neg (fun h => hu h.1)] at hm
      exact hbuf u m hu halive hm
  refine ⟨fun m hm => ?_, fun u m _ halive hm => hall u m ?_ hm⟩
  · rw [hswitch.cpu] at hm
    rw [hswitch.current]
    exact hall t m hswitch.runnable.1 hm
  · exact fun hex => halive (hswitch.exited.mpr hex)

/-! ### The flag -/

/-- A mutex that is free for the taking has neither holder nor grantee. -/
structure Exclusive (s : State) : Prop where
  free : ∀ m, (.mutexInit m ∈ s.trace → (s.mutexes m).lock ≠ 0) →
    holders m s.trace = [] ∧ grantees m s.trace = []
  one : ∀ m, (holders m s.trace).length + (grantees m s.trace).length ≤ 1

structure MutexInv (s : State) : Prop where
  contexts : ContextInv s
  waits : WaitingInv s
  exits : CountsExits s
  parked : Parked s
  exclusive : Exclusive s

theorem not_inside {m : Nat} {point : Point} (h : point = .user) : ¬ Inside m point := by
  rintro (h' | h') <;> cases h.symm.trans h'

/-! ### Steps -/

private theorem MutexUse.proper {s : State} {a : Action} (h : MutexUse s a) :
    ProperUse s a ∧ WakesRound s a := by
  cases a with
  | mutexUnlock m => exact ⟨h.1, trivial⟩
  | mutexDestroy m => exact h.elim
  | barrierInit b count => exact h.elim
  | barrierDestroy b => exact h.elim
  | barrierWait b => exact h.elim
  | _ => exact ⟨h, trivial⟩

private theorem CountsExits.step {s s' : State} {a : Action} (h : CountsExits s)
    (hcons : Consistent s) (huse : MutexUse s a) (hno : NoRevival s a) (heff : Effect s a s')
    (hmain : ¬ (a = .exit ∧ LastCreated s)) : CountsExits s' := by
  cases heff with
  | create hpoint hlt hfirst =>
    refine h.mono (Nat.le_succ _) rfl (fun t ht hex => ?_)
    rw [addThread_status, if_neg (by simp only; omega)]
    exact hex
  | createFirst hpoint hlt hfirst =>
    refine h.mono (Nat.le_succ _) rfl (fun t ht hex => ?_)
    rw [schedulerInit_status, if_neg (by omega), setFirst_status, addThread_status,
      if_neg (by simp only; omega)]
    exact hex
  | createFailed hpoint hfail => exact h.mono (Nat.le_succ _) rfl (fun _ _ => id)
  | timer hfirst hswitch =>
    exact h.mono hswitch.numOfThreads.ge hswitch.exitedThreads (fun _ _ => hswitch.exited.mpr)
  | exitSwitch hpoint hmore hswitch =>
    have hfirst := hcons.not_first (markExited_runnable hswitch.runnable)
    exact (h.exit hcons hfirst).mono hswitch.numOfThreads.ge hswitch.exitedThreads
      (fun _ _ => hswitch.exited.mpr)
  | exitToMain hpoint hlast hmain' =>
    exact absurd ⟨rfl, (lastCreated_of_jump hlast hmain').1⟩ hmain
  | queue hpoint hlock =>
    refine h.mono (Nat.le_refl _) rfl (fun t _ hex => ?_)
    have hne : t + 1 ≠ s.currentThreadID := by
      intro heq
      have hfirst : s.isFirstCall = false := by
        cases hf : s.isFirstCall with
        | false => rfl
        | true => exact absurd (heq.trans (hcons.before hf).1) (Nat.succ_ne_zero t)
      exact hcons.alive hfirst (heq ▸ hex)
    simpa [hne] using hex
  | @unlockGrant m t rest hpoint hlist =>
    refine h.mono (Nat.le_refl _) rfl (fun u _ hex => ?_)
    have hne : u + 1 ≠ t := by
      rintro rfl
      exact hno _ _ hlist hex
    simpa [hne] using hex
  | mutexDestroy hpoint => exact huse.elim
  | barrierRefused hpoint => exact huse.elim
  | barrierInit hpoint hcount hlt => exact huse.elim
  | barrierDestroy hpoint => exact huse.elim
  | arrive hpoint hcount => exact huse.elim
  | complete hpoint hcount => exact huse.elim
  | proceedSchedule hpoint hswitch =>
    exact h.mono hswitch.numOfThreads.ge hswitch.exitedThreads (fun _ _ => hswitch.exited.mpr)
  | _ => exact h.mono (Nat.le_refl _) rfl (fun _ _ => id)

private theorem Parked.step {s s' : State} {a : Action} (h : Parked s) (hcontexts : ContextInv s)
    (hwait : WaitingInv s) (huse : MutexUse s a) (heff : Effect s a s')
    (hmain : ¬ (a = .exit ∧ LastCreated s)) : Parked s' := by
  have htop := hcontexts.kept.top
  have hcons := hwait.consistent
  cases heff with
  | compute regs hpoint =>
    exact h.update rfl (fun _ hm => absurd hm (not_inside rfl)) (fun _ _ _ hal hm => ⟨hal, hm⟩)
      (fun _ _ _ => id)
  | timer hfirst hswitch => exact hswitch.parked htop (fun _ => h.cpu) h.buf
  | createFailed hpoint hfail =>
    exact h.update rfl (fun _ hm => absurd hm (not_inside hpoint)) (fun _ _ _ hal hm => ⟨hal, hm⟩)
      (fun _ _ _ => id)
  | create hpoint hlt hfirst =>
    refine h.update rfl (fun _ hm => absurd hm (not_inside hpoint)) (fun t m _ hal hm => ?_)
      (fun _ _ _ => id)
    rw [addThread_buf] at hm
    rw [addThread_status] at hal
    split at hm
    · exact absurd hm (not_inside rfl)
    · rename_i hne
      rw [if_neg hne] at hal
      exact ⟨hal, hm⟩
  | createFirst hpoint hlt hfirst =>
    obtain ⟨hzero, -, -, -⟩ := hcons.before hfirst
    refine h.update rfl (fun _ hm => absurd hm (not_inside hpoint)) (fun t m hother hal hm => ?_)
      (fun _ _ _ => id)
    rw [schedulerInit_buf, setFirst_buf, addThread_buf] at hm
    rw [schedulerInit_status, if_neg (fun h0 => hother (h0.trans hzero.symm)), setFirst_status,
      addThread_status] at hal
    split at hm
    · exact absurd hm (not_inside rfl)
    · rename_i hne
      rw [if_neg hne] at hal
      exact ⟨hal, hm⟩
  | exitSwitch hpoint hmore hswitch =>
    refine hswitch.parked htop (fun halive => ?_) (fun u m hu halive hm => ?_)
    · rw [markExited_status, markExited_currentThreadID, if_pos rfl] at halive
      exact absurd rfl halive
    · rw [markExited_status, if_neg (by simpa using hu)] at halive
      rw [markExited_buf] at hm
      exact h.buf u m hu halive hm
  | exitToMain hpoint hlast hmain' =>
    exact absurd ⟨rfl, (lastCreated_of_jump hlast hmain').1⟩ hmain
  | mutexInit hpoint hlt =>
    exact h.update rfl (fun _ hm => absurd hm (not_inside hpoint)) (fun _ _ _ hal hm => ⟨hal, hm⟩)
      (fun _ _ _ => id)
  | acquire hpoint hlock =>
    exact h.update rfl (fun _ hm => absurd hm (not_inside hpoint)) (fun _ _ _ hal hm => ⟨hal, hm⟩)
      (fun _ _ _ => id)
  | @queue m hpoint hlock =>
    refine h.update rfl (fun i hi => ?_) (fun t i hne hal hm => ?_) (fun t i _ => ?_)
    · rcases hi with hi | hi <;> cases hi
      exact .inl (by simp)
    · simp only [queueOnMutex_status, queueOnMutex_buf, if_neg hne] at hal hm
      exact ⟨hal, hm⟩
    · exact Or.imp_left fun hold => by simp [hold]
  | unlockFree hpoint hlist =>
    exact h.update rfl (fun _ hm => absurd hm (not_inside hpoint)) (fun _ _ _ hal hm => ⟨hal, hm⟩)
      (fun _ _ _ => id)
  | @unlockGrant m t rest hpoint hlist =>
    refine h.update rfl (fun _ hm => absurd hm (not_inside hpoint)) (fun u i hne hal hm => ?_)
      (fun u i _ hold => ?_)
    · simp only [log_status, unlock_status, setMutexList_status, setStatus_status, log_buf,
        unlock_buf, setMutexList_buf, setStatus_buf] at hal hm
      refine ⟨?_, hm⟩
      split at hal
      · rename_i hu
        exact hu ▸ hwait.noRevival huse.proper.1 huse.proper.2 t rest hlist
      · exact hal
    · -- The head of the list goes from waiting to granted.
      by_cases hhead : u = t ∧ i = m
      · obtain ⟨rfl, rfl⟩ := hhead
        exact .inr (by simp [grantees])
      · refine hold.imp (fun hwaits => ?_) (fun hgranted => ?_)
        · change (u, Place.mutex i) ∈ (waiting s.trace).filter fun w => w ≠ (t, .mutex m)
          rw [List.mem_filter]
          exact ⟨hwaits, decide_eq_true fun heq => hhead (Prod.mk.inj heq |>.imp_right Place.mutex.inj)⟩
        · change u ∈ if m = i then t :: grantees i s.trace else grantees i s.trace
          split
          · exact List.mem_cons_of_mem t hgranted
          · exact hgranted
  | mutexDestroy hpoint => exact huse.elim
  | barrierRefused hpoint => exact huse.elim
  | barrierInit hpoint hcount hlt => exact huse.elim
  | barrierDestroy hpoint => exact huse.elim
  | arrive hpoint hcount => exact huse.elim
  | complete hpoint hcount => exact huse.elim
  | proceedSchedule hpoint hswitch =>
    refine hswitch.parked htop (fun _ m hm => ?_) h.buf
    rcases hm with hm | hm <;> cases hm
    exact h.cpu m (.inl hpoint)
  | @proceedReturn m hpoint =>
    refine h.update rfl (fun _ hm => absurd hm (not_inside rfl)) (fun _ _ _ hal hm => ⟨hal, hm⟩)
      (fun t i hne hold => hold.imp_right fun hgranted => ?_)
    change t ∈ if m = i then (grantees i s.trace).filter (· ≠ s.currentThreadID)
      else grantees i s.trace
    split
    · simpa [hne] using hgranted
    · exact hgranted
  | proceedLeave hpoint =>
    exact h.update rfl (fun _ hm => absurd hm (not_inside rfl)) (fun _ _ _ hal hm => ⟨hal, hm⟩)
      (fun _ _ _ => id)

private theorem Exclusive.congr {s s' : State} (h : Exclusive s)
    (hholders : ∀ m, holders m s'.trace = holders m s.trace)
    (hgrantees : ∀ m, grantees m s'.trace = grantees m s.trace)
    (hfree : ∀ m, (.mutexInit m ∈ s'.trace → (s'.mutexes m).lock ≠ 0) →
      .mutexInit m ∈ s.trace → (s.mutexes m).lock ≠ 0) : Exclusive s' := by
  refine ⟨fun m hm => ?_, fun m => ?_⟩
  · rw [hholders, hgrantees]
    exact h.free m (hfree m hm)
  · rw [hholders, hgrantees]
    exact h.one m

private theorem Exclusive.change {s s' : State} {m : Nat} (h : Exclusive s)
    (hholders : ∀ i, i ≠ m → holders i s'.trace = holders i s.trace)
    (hgrantees : ∀ i, i ≠ m → grantees i s'.trace = grantees i s.trace)
    (hmutex : ∀ i, i ≠ m → (.mutexInit i ∈ s'.trace ↔ .mutexInit i ∈ s.trace) ∧
      s'.mutexes i = s.mutexes i)
    (htaken : .mutexInit m ∈ s'.trace ∧ (s'.mutexes m).lock = 0)
    (hone : (holders m s'.trace).length + (grantees m s'.trace).length ≤ 1) : Exclusive s' := by
  refine ⟨fun i hi => ?_, fun i => ?_⟩
  · by_cases him : i = m
    · subst i
      exact absurd htaken.2 (hi htaken.1)
    · rw [hholders i him, hgrantees i him]
      refine h.free i (fun hinit => ?_)
      rw [← (hmutex i him).2]
      exact hi ((hmutex i him).1.mpr hinit)
  · by_cases him : i = m
    · subst i
      exact hone
    · rw [hholders i him, hgrantees i him]
      exact h.one i

theorem Exclusive.holder {s : State} {m t : Nat} (h : Exclusive s)
    (ht : t ∈ holders m s.trace) :
    holders m s.trace = [t] ∧ grantees m s.trace = [] ∧
      .mutexInit m ∈ s.trace ∧ (s.mutexes m).lock = 0 := by
  have hone := h.one m
  have hpos := List.length_pos_of_mem ht
  refine ⟨?_, List.eq_nil_of_length_eq_zero (by omega), ?_⟩
  · obtain ⟨u, hu⟩ := List.length_eq_one_iff.mp (show (holders m s.trace).length = 1 by omega)
    rw [hu] at ht
    rw [hu, List.mem_singleton.mp ht]
  · by_contra htaken
    rw [(h.free m fun hinit hlock => htaken ⟨hinit, hlock⟩).1] at ht
    cases ht

theorem Exclusive.grantee {s : State} {m t : Nat} (h : Exclusive s)
    (ht : t ∈ grantees m s.trace) :
    holders m s.trace = [] ∧ grantees m s.trace = [t] ∧
      .mutexInit m ∈ s.trace ∧ (s.mutexes m).lock = 0 := by
  have hone := h.one m
  have hpos := List.length_pos_of_mem ht
  refine ⟨List.eq_nil_of_length_eq_zero (by omega), ?_, ?_⟩
  · obtain ⟨u, hu⟩ := List.length_eq_one_iff.mp (show (grantees m s.trace).length = 1 by omega)
    rw [hu] at ht
    rw [hu, List.mem_singleton.mp ht]
  · by_contra htaken
    rw [(h.free m fun hinit hlock => htaken ⟨hinit, hlock⟩).2] at ht
    cases ht

/-- A thread that comes back from `pthread_mutex_lock` was granted the mutex. -/
theorem Parked.returning {s : State} {m : Nat} (h : Parked s) (hwait : WaitingInv s)
    (hpoint : s.cpu.point = .resume (.mutex m)) : s.currentThreadID ∈ grantees m s.trace := by
  rcases h.cpu m (.inr hpoint) with hwaits | hgranted
  · obtain ⟨w, hw⟩ := hwait.consistent.awake (hwait.waiters.blocked _ _ hwaits)
    cases hpoint.symm.trans hw
  · exact hgranted

private theorem Exclusive.switch {s m s' : State} {t : Nat} (h : Exclusive s)
    (hswitch : Switch m s' t) (hmutexes : m.mutexes = s.mutexes)
    (htrace : m.trace = s.trace ∨ m.trace = .exited s.currentThreadID :: s.trace) :
    Exclusive s' := by
  refine h.congr (fun i => ?_) (fun i => ?_) (fun i hi hinit => ?_)
  · rcases htrace with htrace | htrace <;> rw [hswitch.trace, htrace] <;> rfl
  · rcases htrace with htrace | htrace <;> rw [hswitch.trace, htrace] <;> rfl
  · rw [hswitch.mutexes, hmutexes] at hi
    rcases htrace with htrace | htrace <;> exact hi (by simp [hswitch.trace, htrace, hinit])

private theorem Exclusive.step {s s' : State} {a : Action} (h : Exclusive s) (hparked : Parked s)
    (hwait : WaitingInv s) (huse : MutexUse s a) (heff : Effect s a s') : Exclusive s' := by
  cases heff with
  | compute regs hpoint => exact h.congr (fun _ => rfl) (fun _ => rfl) (fun _ => id)
  | timer hfirst hswitch => exact h.switch hswitch rfl (.inl rfl)
  | createFailed hpoint hfail => exact h.congr (fun _ => rfl) (fun _ => rfl) (fun _ => id)
  | create hpoint hlt hfirst =>
    exact h.congr (fun _ => rfl) (fun _ => rfl) (fun _ hi hinit => hi (by simp [hinit]))
  | createFirst hpoint hlt hfirst =>
    exact h.congr (fun _ => rfl) (fun _ => rfl) (fun _ hi hinit => hi (by simp [hinit]))
  | exitSwitch hpoint hmore hswitch => exact h.switch hswitch rfl (.inr rfl)
  | exitToMain hpoint hlast hmain =>
    exact h.congr (fun _ => rfl) (fun _ => rfl) (fun _ hi hinit => hi (by simp [hinit]))
  | @mutexInit m hpoint hlt =>
    refine h.congr (fun _ => rfl) (fun _ => rfl) (fun i hi hinit => ?_)
    have hne : i ≠ m := by
      rintro rfl
      exact huse hinit
    simpa [Function.update_of_ne hne] using hi (by simp [hinit])
  | @acquire m hpoint hlock =>
    obtain ⟨hnone, hnone'⟩ := h.free m (fun _ => hlock)
    refine h.change (m := m) (fun i hi => ?_) (fun i _ => rfl) (fun i hi => ?_) ?_ ?_
    · simp [holders, Ne.symm hi]
    · simp [Function.update_of_ne hi]
    · have hinit : .mutexInit m ∈ s.trace := huse
      simp [hinit]
    · simp [holders, grantees, hnone, hnone']
  | queue hpoint hlock =>
    exact h.congr (fun _ => rfl) (fun _ => rfl) (fun _ hi hinit => hi (by simp [hinit]))
  | @unlockFree m hpoint hlist =>
    obtain ⟨hone, hnone, -⟩ := h.holder huse.2
    refine h.change (m := m) (fun i hi => ?_) (fun i _ => rfl) (fun i hi => ?_) ?_ ?_
    · simp [holders, Ne.symm hi]
    · simp [Function.update_of_ne hi]
    · simp [huse.1]
    · simp [holders, grantees, hone, hnone]
  | @unlockGrant m t rest hpoint hlist =>
    obtain ⟨hone, hnone, -, hlock⟩ := h.holder huse.2
    refine h.change (m := m) (fun i hi => ?_) (fun i hi => ?_) (fun i hi => ?_) ?_ ?_
    · simp [holders, Ne.symm hi]
    · simp [grantees, Ne.symm hi]
    · simp
    · simp [huse.1, hlock]
    · simp [holders, grantees, hone, hnone]
  | mutexDestroy hpoint => exact huse.elim
  | barrierRefused hpoint => exact huse.elim
  | barrierInit hpoint hcount hlt => exact huse.elim
  | barrierDestroy hpoint => exact huse.elim
  | arrive hpoint hcount => exact huse.elim
  | complete hpoint hcount => exact huse.elim
  | proceedSchedule hpoint hswitch => exact h.switch hswitch rfl (.inl rfl)
  | @proceedReturn m hpoint =>
    obtain ⟨hnone, hone, hinit, hlock⟩ := h.grantee (hparked.returning hwait hpoint)
    refine h.change (m := m) (fun i hi => ?_) (fun i hi => ?_) (fun i hi => ?_) ?_ ?_
    · simp [holders, Ne.symm hi]
    · simp [grantees, Ne.symm hi]
    · simp
    · simp [hinit, hlock]
    · simp [holders, grantees, hone, hnone]
  | proceedLeave hpoint =>
    exact h.congr (fun _ => rfl) (fun _ => rfl) (fun _ hi hinit => hi (by simp [hinit]))

theorem initial_mutex (mutexes : Nat → MutexData) (barriers : Nat → Nat) (regs : Nat) :
    MutexInv (initial mutexes barriers regs) where
  contexts := initial_contexts mutexes barriers regs
  waits := initial_waiting mutexes barriers regs
  exits := Nat.zero_le _
  parked := ⟨fun _ hm => absurd hm (not_inside rfl), fun _ _ _ _ hm => absurd hm (not_inside rfl)⟩
  exclusive := ⟨fun _ _ => ⟨rfl, rfl⟩, fun _ => Nat.zero_le 1⟩

theorem MutexInv.not_last {s s' : State} {a : Action} (h : MutexInv s) (heff : Effect s a s')
    (hleft : ThreadsLeft s') : ¬ (a = .exit ∧ LastCreated s) := by
  rintro ⟨rfl, hlast⟩
  exact h.exits.not_last h.waits.consistent heff hleft hlast

theorem MutexInv.step {s s' : State} {a : Action} (h : MutexInv s) (huse : MutexUse s a)
    (hleft : ThreadsLeft s') (heff : Effect s a s') : MutexInv s' := by
  obtain ⟨hproper, hwakes⟩ := huse.proper
  have hno := h.waits.noRevival hproper hwakes
  have hlast := h.not_last heff hleft
  have hjump : NoJumpToMain s a := by
    cases a with
    | exit => exact fun hl => absurd ⟨rfl, hl⟩ hlast
    | _ => trivial
  have hmain : MainAwake s a := by
    cases a with
    | exit => exact fun hl => absurd ⟨rfl, hl⟩ hlast
    | _ => trivial
  exact {
    contexts := h.contexts.step hjump hno heff
    waits := h.waits.step hproper hwakes hmain heff
    exits := h.exits.step h.waits.consistent huse hno heff hlast
    parked := h.parked.step h.contexts h.waits huse heff hlast
    exclusive := h.exclusive.step h.parked h.waits huse heff }

/-! ### The properties -/

theorem MutexInv.kept {s : State} (h : MutexInv s) : MutexesKept s := by
  have hmem : ∀ m t, .mutexInit m ∈ s.trace → t ∈ s.mutexThreadLists (s.mutexes m).count →
      (t, .mutex m) ∈ waiting s.trace := by
    intro m t hinit ht
    rw [h.waits.queues.mutex m hinit] at ht
    exact mem_threadsAt.mp ht
  refine ⟨h.exclusive.one, h.waits.queues.mutex, fun m hinit => ?_, fun m t hinit ht => ?_,
    fun m m' t hinit hinit' ht ht' => ?_⟩
  · rw [h.waits.queues.mutex m hinit]
    exact h.waits.waiters.nodup.sublist (List.filter_sublist.map _)
  · exact h.waits.waiters.blocked t _ (hmem m t hinit ht)
  · exact Place.mutex.inj (h.waits.waiters.unique (hmem m t hinit ht) (hmem m' t hinit' ht'))

theorem MutexInv.handsOff {s s' : State} {a : Action} (h : MutexInv s) (huse : MutexUse s a)
    (heff : Effect s a s') : HandsOff s a s' := by
  cases heff with
  | @unlockFree m hpoint hlist =>
    intro t rest hcons
    rw [hlist] at hcons
    cases hcons
  | @unlockGrant m t rest hpoint hlist =>
    intro u tail hcons
    rw [hlist] at hcons
    cases hcons
    refine ⟨?_, h.kept.blocked m t huse.1 ?_, by simp, fun v hv => by simp [hv]⟩
    · rw [← h.waits.queues.mutex m huse.1, hlist]
      rfl
    · rw [hlist]
      exact List.mem_cons_self
  | _ => trivial

/-- **Mutual exclusion and FIFO hand-off**, in every run of creations, exits, locks, unlocks and
alarms in which only holders unlock, as long as some created thread has not exited. -/
theorem mutual_exclusion (mutexes : Nat → MutexData) (barriers : Nat → Nat) (regs : Nat)
    (actions : List Action)
    (h : EachStep (fun s a s' => MutexUse s a ∧ ThreadsLeft s') (initial mutexes barriers regs)
      (trail step (initial mutexes barriers regs) actions)) :
    Always MutexesKept (initial mutexes barriers regs)
        (trail step (initial mutexes barriers regs) actions) ∧
      EachStep HandsOff (initial mutexes barriers regs)
        (trail step (initial mutexes barriers regs) actions) := by
  have hsteps := (eachStep_trail step (initial mutexes barriers regs) actions).and h
  have hinv := EachStep.always (I := MutexInv)
    (fun s a s' hs hstep => hs.step hstep.2.1 hstep.2.2 (step_effect hstep.1))
    (initial_mutex mutexes barriers regs) hsteps
  refine ⟨hinv.mono fun s hs => hs.kept, ?_⟩
  refine (hinv.eachStep.and hsteps).mono fun s a s' hboth => ?_
  exact hboth.1.1.handsOff hboth.2.2.1 (step_effect hboth.2.1)

/-- Main holds the mutex when it is preempted; the thread queues on it and gets it at the unlock. -/
theorem mutual_exclusion_handOff :
    (EachStep (fun s a s' => MutexUse s a ∧ ThreadsLeft s') (initial (fun _ => ⟨0, 0, 0⟩) (fun _ => 0) 0)
      (trail step (initial (fun _ => ⟨0, 0, 0⟩) (fun _ => 0) 0)
        [.mutexInit 5, .create true 7, .mutexLock 5, .timer, .mutexLock 5, .proceed, .mutexUnlock 5,
          .timer, .proceed, .mutexUnlock 5])) ∧
    Always MutexesKept (initial (fun _ => ⟨0, 0, 0⟩) (fun _ => 0) 0)
      (trail step (initial (fun _ => ⟨0, 0, 0⟩) (fun _ => 0) 0)
        [.mutexInit 5, .create true 7, .mutexLock 5, .timer, .mutexLock 5, .proceed, .mutexUnlock 5,
          .timer, .proceed, .mutexUnlock 5]) :=
  have hlegal := by decide
  ⟨hlegal, (mutual_exclusion (fun _ => ⟨0, 0, 0⟩) (fun _ => 0) 0 _ hlegal).1⟩

end OSChallenges.Threads
