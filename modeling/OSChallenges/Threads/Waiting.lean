import OSChallenges.Threads.Bookkeeping
import Mathlib.Data.List.Nodup

/-!
# Who waits where

`waiting` reads off the trace the threads that have queued on a mutex or arrived at a barrier and have
neither been granted the mutex nor seen their round completed, in order of arrival. `WaitingInv`
says that the library's lists hold these threads, that each is blocked, and that none waits twice.
A barrier's list also keeps every thread of its earlier rounds; the invariant survives a completed
round only if none of those is blocked elsewhere or has exited (`WakesRound`).
-/

namespace OSChallenges.Threads

open State

/-- What a thread is queued on. -/
inductive Place
  | mutex (m : Nat)
  | barrier (b : Nat)
  deriving DecidableEq, Repr

def waiting : List Event → List (Nat × Place)
  | [] => []
  | e :: trace =>
    match e with
    | .queued t m => waiting trace ++ [(t, .mutex m)]
    | .granted t m => (waiting trace).filter fun w => w ≠ (t, .mutex m)
    | .arrived t b => waiting trace ++ [(t, .barrier b)]
    | .completed b => (waiting trace).filter fun w => w.2 ≠ .barrier b
    | _ => waiting trace

@[simp] theorem waiting_queued (t m : Nat) (trace : List Event) :
    waiting (.queued t m :: trace) = waiting trace ++ [(t, .mutex m)] := rfl

@[simp] theorem waiting_arrived (t b : Nat) (trace : List Event) :
    waiting (.arrived t b :: trace) = waiting trace ++ [(t, .barrier b)] := rfl

@[simp] theorem waiting_completed (b : Nat) (trace : List Event) :
    waiting (.completed b :: trace) = (waiting trace).filter fun w => w.2 ≠ .barrier b := rfl

@[simp] theorem waiting_left (t b round : Nat) (serial : Bool) (trace : List Event) :
    waiting (.left t b round serial :: trace) = waiting trace := rfl

/-- The threads of a waiting list that wait at one place, in order. -/
def threadsAt (p : Place) (list : List (Nat × Place)) : List Nat :=
  (list.filter fun w => w.2 = p).map Prod.fst

abbrev waitingAt (p : Place) (trace : List Event) : List Nat := threadsAt p (waiting trace)

/-! ### Lists of waiting threads -/

@[simp] theorem threadsAt_append (p : Place) (list list' : List (Nat × Place)) :
    threadsAt p (list ++ list') = threadsAt p list ++ threadsAt p list' := by
  simp [threadsAt]

@[simp] theorem threadsAt_single (p q : Place) (t : Nat) :
    threadsAt p [(t, q)] = if q = p then [t] else [] := by
  by_cases h : q = p <;> simp [threadsAt, h]

theorem mem_threadsAt {p : Place} {t : Nat} {list : List (Nat × Place)} :
    t ∈ threadsAt p list ↔ (t, p) ∈ list := by
  simp [threadsAt]

theorem threadsAt_filter_self (p : Place) (t : Nat) (list : List (Nat × Place)) :
    threadsAt p (list.filter fun w => w ≠ (t, p)) = (threadsAt p list).filter fun u => u ≠ t := by
  induction list with
  | nil => rfl
  | cons w rest ih =>
    obtain ⟨u, q⟩ := w
    unfold threadsAt at ih ⊢
    by_cases hq : q = p
    · subst q
      by_cases hu : u = t
      · subst u
        simpa using ih
      · simpa [hu] using ih
    · by_cases hu : u = t
      · simpa [hq] using ih
      · simpa [hq, hu] using ih

theorem threadsAt_filter_of_forall {p : Place} {keep : Nat × Place → Bool}
    (hkeep : ∀ t, keep (t, p) = true) (list : List (Nat × Place)) :
    threadsAt p (list.filter keep) = threadsAt p list := by
  unfold threadsAt
  rw [List.filter_filter]
  congr 1
  apply List.filter_congr
  intro w _
  by_cases hw : w.2 = p
  · obtain ⟨u, q⟩ := w
    cases hw
    simp [hkeep]
  · simp [hw]

theorem threadsAt_filter_none (p : Place) (list : List (Nat × Place)) :
    threadsAt p (list.filter fun w => w.2 ≠ p) = [] := by
  simp [threadsAt, List.filter_filter]

theorem threadsAt_eq_nil {p : Place} {list : List (Nat × Place)} (h : ∀ t, (t, p) ∉ list) :
    threadsAt p list = [] :=
  List.eq_nil_iff_forall_not_mem.mpr fun t ht => h t (mem_threadsAt.mp ht)

/-! ### The invariant -/

/-- Objects are initialised once, before their use, and not destroyed. -/
def ProperUse (s : State) : Action → Prop
  | .mutexInit m => .mutexInit m ∉ s.trace
  | .mutexLock m => .mutexInit m ∈ s.trace
  | .mutexUnlock m => .mutexInit m ∈ s.trace
  | .barrierInit b _ => .barrierInit b ∉ s.trace
  | .barrierWait b => .barrierInit b ∈ s.trace
  | .mutexDestroy _ => False
  | .barrierDestroy _ => False
  | _ => True

instance (s : State) : (a : Action) → Decidable (ProperUse s a)
  | .mutexInit m => inferInstanceAs (Decidable (.mutexInit m ∉ s.trace))
  | .mutexLock m | .mutexUnlock m => inferInstanceAs (Decidable (.mutexInit m ∈ s.trace))
  | .barrierInit b _ => inferInstanceAs (Decidable (.barrierInit b ∉ s.trace))
  | .barrierWait b => inferInstanceAs (Decidable (.barrierInit b ∈ s.trace))
  | .mutexDestroy _ | .barrierDestroy _ => inferInstanceAs (Decidable False)
  | .compute _ | .timer | .create _ _ | .exit | .proceed => inferInstanceAs (Decidable True)

/-- An arrival that completes a round finds on the barrier's list, besides the threads of this round,
only threads that run anyway. -/
def WakesRound (s : State) : Action → Prop
  | .barrierWait b =>
    (s.barrierCounts (s.barriers b)).maxCount = (s.barrierCounts (s.barriers b)).currentCount + 1 →
      ∀ t ∈ s.barrierThreadLists (s.barriers b),
        (t, .barrier b) ∈ waiting s.trace ∨ s.Runnable t
  | _ => True

/-- The last created thread does not exit while main is blocked. -/
def MainAwake (s : State) : Action → Prop
  | .exit => LastCreated s → s.status 0 ≠ .blocked
  | _ => True

instance (s : State) : (a : Action) → Decidable (WakesRound s a)
  | .barrierWait b =>
    inferInstanceAs (Decidable (
      (s.barrierCounts (s.barriers b)).maxCount = (s.barrierCounts (s.barriers b)).currentCount + 1 →
        ∀ t ∈ s.barrierThreadLists (s.barriers b), (t, .barrier b) ∈ waiting s.trace ∨ s.Runnable t))
  | .compute _ | .timer | .create _ _ | .exit | .mutexInit _ | .mutexDestroy _ | .mutexLock _
  | .mutexUnlock _ | .barrierInit _ _ | .barrierDestroy _ | .proceed => inferInstanceAs (Decidable True)

instance (s : State) : Decidable (LastCreated s) := inferInstanceAs (Decidable (_ ∧ _))

instance (s : State) : (a : Action) → Decidable (MainAwake s a)
  | .exit => inferInstanceAs (Decidable (LastCreated s → s.status 0 ≠ .blocked))
  | .compute _ | .timer | .create _ _ | .mutexInit _ | .mutexDestroy _ | .mutexLock _
  | .mutexUnlock _ | .barrierInit _ _ | .barrierDestroy _ | .barrierWait _ | .proceed =>
    inferInstanceAs (Decidable True)

/-- Every initialised object has an entry of the tables of its own. -/
structure Objects (s : State) : Prop where
  mutexId : ∀ m, .mutexInit m ∈ s.trace → (s.mutexes m).count < s.mutexId
  mutexDistinct : ∀ m m', .mutexInit m ∈ s.trace → .mutexInit m' ∈ s.trace →
    (s.mutexes m).count = (s.mutexes m').count → m = m'
  barrierId : ∀ b, .barrierInit b ∈ s.trace → s.barriers b < s.barrierId
  barrierDistinct : ∀ b b', .barrierInit b ∈ s.trace → .barrierInit b' ∈ s.trace →
    s.barriers b = s.barriers b' → b = b'
  waiting_mutex : ∀ t m, (t, .mutex m) ∈ waiting s.trace → .mutexInit m ∈ s.trace
  waiting_barrier : ∀ t b, (t, .barrier b) ∈ waiting s.trace → .barrierInit b ∈ s.trace

/-- The lists of the library hold the waiting threads in order of arrival. -/
structure Queues (s : State) : Prop where
  mutex : ∀ m, .mutexInit m ∈ s.trace →
    s.mutexThreadLists (s.mutexes m).count = waitingAt (.mutex m) s.trace
  barrier : ∀ b, .barrierInit b ∈ s.trace →
    ∃ earlier, s.barrierThreadLists (s.barriers b) = earlier ++ waitingAt (.barrier b) s.trace
  count : ∀ b, .barrierInit b ∈ s.trace →
    (s.barrierCounts (s.barriers b)).currentCount = (waitingAt (.barrier b) s.trace).length

/-- A waiting thread is blocked and waits at one place. -/
structure Waiters (s : State) : Prop where
  nodup : ((waiting s.trace).map Prod.fst).Nodup
  blocked : ∀ t p, (t, p) ∈ waiting s.trace → s.status t = .blocked

structure WaitingInv (s : State) : Prop where
  consistent : Consistent s
  objects : Objects s
  queues : Queues s
  waiters : Waiters s

theorem initial_waiting (mutexes : Nat → MutexData) (barriers : Nat → Nat) (regs : Nat) :
    WaitingInv (initial mutexes barriers regs) where
  consistent := initial_consistent mutexes barriers regs
  objects := ⟨nofun, nofun, nofun, nofun, nofun, nofun⟩
  queues := ⟨nofun, nofun, nofun⟩
  waiters := ⟨List.nodup_nil, nofun⟩

theorem WaitingInv.noRevival {s : State} {a : Action} (h : WaitingInv s) (huse : ProperUse s a)
    (hwakes : WakesRound s a) : NoRevival s a := by
  cases a with
  | mutexUnlock m =>
    intro t rest hlist
    have hmem : t ∈ waitingAt (.mutex m) s.trace := by
      rw [← h.queues.mutex m huse, hlist]
      exact List.mem_cons_self
    rw [h.waiters.blocked t _ (mem_threadsAt.mp hmem)]
    decide
  | barrierWait b =>
    intro hcount t ht
    rcases hwakes hcount t ht with hwait | hrun
    · rw [h.waiters.blocked t _ hwait]
      decide
    · exact hrun.1
  | _ => trivial

/-! ### Steps -/

theorem WaitingInv.not_waiting {s : State} {t : Nat} (h : WaitingInv s) (ht : s.status t ≠ .blocked)
    (p : Place) : (t, p) ∉ waiting s.trace :=
  fun hmem => ht (h.waiters.blocked t p hmem)

theorem WaitingInv.current_not_waiting {s : State} (h : WaitingInv s) (hpoint : s.cpu.point = .user)
    (p : Place) : (s.currentThreadID, p) ∉ waiting s.trace :=
  h.not_waiting (h.consistent.not_blocked hpoint) p

private theorem update_count {mutexes : Nat → MutexData} {m i : Nat} {data : MutexData}
    (h : data.count = (mutexes m).count) :
    (Function.update mutexes m data i).count = (mutexes i).count := by
  by_cases him : i = m
  · subst i
    rw [Function.update_self, h]
  · rw [Function.update_of_ne him]

private theorem WaitingInv.quiet {s s' : State} (h : WaitingInv s) (hcons : Consistent s')
    (hcount : ∀ m, (s'.mutexes m).count = (s.mutexes m).count) (hmutexId : s'.mutexId = s.mutexId)
    (hbarriers : s'.barriers = s.barriers) (hbarrierId : s'.barrierId = s.barrierId)
    (hlists : s'.mutexThreadLists = s.mutexThreadLists)
    (hlists' : s'.barrierThreadLists = s.barrierThreadLists)
    (hcounts : ∀ id, (s'.barrierCounts id).currentCount = (s.barrierCounts id).currentCount)
    (hmutex : ∀ m, .mutexInit m ∈ s'.trace ↔ .mutexInit m ∈ s.trace)
    (hbarrier : ∀ b, .barrierInit b ∈ s'.trace ↔ .barrierInit b ∈ s.trace)
    (hwait : waiting s'.trace = waiting s.trace)
    (hblocked : ∀ t p, (t, p) ∈ waiting s.trace → s'.status t = .blocked) : WaitingInv s' := by
  refine ⟨hcons, ⟨?_, ?_, ?_, ?_, ?_, ?_⟩, ⟨?_, ?_, ?_⟩, ⟨?_, ?_⟩⟩
  · simpa only [hmutex, hcount, hmutexId] using h.objects.mutexId
  · simpa only [hmutex, hcount] using h.objects.mutexDistinct
  · simpa only [hbarrier, hbarriers, hbarrierId] using h.objects.barrierId
  · simpa only [hbarrier, hbarriers] using h.objects.barrierDistinct
  · simpa only [hmutex, hwait] using h.objects.waiting_mutex
  · simpa only [hbarrier, hwait] using h.objects.waiting_barrier
  · simpa only [hmutex, hlists, hcount, waitingAt, hwait] using h.queues.mutex
  · simpa only [hbarrier, hlists', hbarriers, waitingAt, hwait] using h.queues.barrier
  · simpa only [hbarrier, hbarriers, hcounts, waitingAt, hwait] using h.queues.count
  · simpa only [hwait] using h.waiters.nodup
  · simpa only [hwait] using hblocked

private theorem WaitingInv.switch {s m s' : State} {t : Nat} (h : WaitingInv s)
    (hcons : Consistent s') (hswitch : Switch m s' t)
    (hm : m.mutexes = s.mutexes ∧ m.mutexId = s.mutexId ∧ m.barriers = s.barriers ∧
      m.barrierId = s.barrierId ∧ m.mutexThreadLists = s.mutexThreadLists ∧
      m.barrierThreadLists = s.barrierThreadLists ∧ m.barrierCounts = s.barrierCounts)
    (hmutex : ∀ i, .mutexInit i ∈ m.trace ↔ .mutexInit i ∈ s.trace)
    (hbarrier : ∀ b, .barrierInit b ∈ m.trace ↔ .barrierInit b ∈ s.trace)
    (hwait : waiting m.trace = waiting s.trace)
    (hblocked : ∀ t p, (t, p) ∈ waiting s.trace → m.status t = .blocked) : WaitingInv s' := by
  obtain ⟨hmutexes, hmutexId, hbarriers, hbarrierId, hlists, hlists', hcounts⟩ := hm
  refine h.quiet hcons (fun i => ?_) (hswitch.mutexId.trans hmutexId)
    (hswitch.barriers.trans hbarriers) (hswitch.barrierId.trans hbarrierId)
    (hswitch.mutexThreadLists.trans hlists) (hswitch.barrierThreadLists.trans hlists') (fun id => ?_)
    (fun i => ?_) (fun b => ?_) ?_ (fun u p hu => hswitch.blocked.mpr (hblocked u p hu))
  · rw [hswitch.mutexes, hmutexes]
  · rw [hswitch.barrierCounts, hcounts]
  · simpa [hswitch.trace] using hmutex i
  · simpa [hswitch.trace] using hbarrier b
  · rw [hswitch.trace]
    exact hwait

theorem Waiters.block {s s' : State} {t : Nat} {p : Place} (h : Waiters s)
    (ht : s.status t ≠ .blocked) (hwait : waiting s'.trace = waiting s.trace ++ [(t, p)])
    (hstatus : ∀ u, s'.status u = if u = t then .blocked else s.status u) : Waiters s' := by
  refine ⟨?_, fun u q hu => ?_⟩
  · rw [hwait, List.map_append, List.nodup_append]
    refine ⟨h.nodup, by simp, ?_⟩
    rintro u hu v hv rfl
    obtain ⟨⟨u, q⟩, hmem, rfl⟩ := List.mem_map.mp hu
    simp only [List.map_cons, List.map_nil, List.mem_singleton] at hv
    exact ht (hv ▸ h.blocked u q hmem)
  · rw [hstatus]
    split
    · rfl
    · rename_i hne
      rw [hwait, List.mem_append, List.mem_singleton] at hu
      rcases hu with hu | hu
      · exact h.blocked u q hu
      · exact absurd (Prod.mk.inj hu).1 hne

theorem Waiters.release {s s' : State} {keep : Nat × Place → Bool} (h : Waiters s)
    (hwait : waiting s'.trace = (waiting s.trace).filter keep)
    (hstatus : ∀ u p, (u, p) ∈ waiting s.trace → keep (u, p) = true → s'.status u = s.status u) :
    Waiters s' := by
  refine ⟨?_, fun u p hu => ?_⟩
  · rw [hwait]
    exact h.nodup.sublist (List.filter_sublist.map _)
  · rw [hwait, List.mem_filter] at hu
    rw [hstatus u p hu.1 hu.2]
    exact h.blocked u p hu.1

/-- A thread waits at one place. -/
theorem Waiters.unique {s : State} {t : Nat} {p q : Place} (h : Waiters s)
    (hp : (t, p) ∈ waiting s.trace) (hq : (t, q) ∈ waiting s.trace) : p = q :=
  congrArg Prod.snd (List.inj_on_of_nodup_map h.nodup hp hq rfl)

private theorem WaitingInv.mutexInit {s : State} {m : Nat} (h : WaitingInv s)
    (hcons : Consistent (addMutex s m)) (hnew : .mutexInit m ∉ s.trace) :
    WaitingInv (addMutex s m) := by
  have hinit : ∀ i, .mutexInit i ∈ (addMutex s m).trace ↔ i = m ∨ .mutexInit i ∈ s.trace := by
    simp
  have hcount : ∀ i, .mutexInit i ∈ s.trace →
      ((addMutex s m).mutexes i).count = (s.mutexes i).count := by
    intro i hi
    rw [addMutex_mutexes, Function.update_of_ne]
    rintro rfl
    exact hnew hi
  have hcount' : ((addMutex s m).mutexes m).count = s.mutexId := by simp
  refine ⟨hcons, ⟨?_, ?_, ?_, ?_, ?_, ?_⟩, ⟨?_, ?_, ?_⟩, ⟨h.waiters.nodup, h.waiters.blocked⟩⟩
  · intro i hi
    rw [addMutex_mutexId]
    rcases (hinit i).mp hi with rfl | hold
    · omega
    · have := h.objects.mutexId i hold
      rw [hcount i hold]
      omega
  · intro i j hi hj heq
    rcases (hinit i).mp hi with rfl | hold <;> rcases (hinit j).mp hj with rfl | hold'
    · rfl
    · have := h.objects.mutexId j hold'
      rw [hcount', hcount j hold'] at heq
      omega
    · have := h.objects.mutexId i hold
      rw [hcount', hcount i hold] at heq
      omega
    · rw [hcount i hold, hcount j hold'] at heq
      exact h.objects.mutexDistinct i j hold hold' heq
  · simpa using h.objects.barrierId
  · simpa using h.objects.barrierDistinct
  · exact fun t i ht => (hinit i).mpr (.inr (h.objects.waiting_mutex t i ht))
  · exact fun t b ht => List.mem_cons_of_mem _ (h.objects.waiting_barrier t b ht)
  · intro i hi
    rcases (hinit i).mp hi with rfl | hold
    · rw [hcount', addMutex_mutexThreadLists, Function.update_self]
      exact (threadsAt_eq_nil fun t ht => hnew (h.objects.waiting_mutex t i ht)).symm
    · have := h.objects.mutexId i hold
      rw [hcount i hold, addMutex_mutexThreadLists, Function.update_of_ne (by omega)]
      exact h.queues.mutex i hold
  · intro b hb
    exact h.queues.barrier b (by simpa using hb)
  · intro b hb
    exact h.queues.count b (by simpa using hb)

private theorem WaitingInv.barrierInit {s : State} {b : Nat} {maxCount : Int} (h : WaitingInv s)
    (hcons : Consistent (addBarrier s b maxCount)) (hnew : .barrierInit b ∉ s.trace) :
    WaitingInv (addBarrier s b maxCount) := by
  have hinit : ∀ i, .barrierInit i ∈ (addBarrier s b maxCount).trace ↔
      i = b ∨ .barrierInit i ∈ s.trace := by
    simp
  have hentry : ∀ i, .barrierInit i ∈ s.trace →
      (addBarrier s b maxCount).barriers i = s.barriers i := by
    intro i hi
    rw [addBarrier_barriers, Function.update_of_ne]
    rintro rfl
    exact hnew hi
  have hentry' : (addBarrier s b maxCount).barriers b = s.barrierId := by simp
  have hnone : waitingAt (.barrier b) s.trace = [] :=
    threadsAt_eq_nil fun t ht => hnew (h.objects.waiting_barrier t b ht)
  refine ⟨hcons, ⟨?_, ?_, ?_, ?_, ?_, ?_⟩, ⟨?_, ?_, ?_⟩, ⟨h.waiters.nodup, h.waiters.blocked⟩⟩
  · simpa using h.objects.mutexId
  · simpa using h.objects.mutexDistinct
  · intro i hi
    rw [addBarrier_barrierId]
    rcases (hinit i).mp hi with rfl | hold
    · omega
    · have := h.objects.barrierId i hold
      rw [hentry i hold]
      omega
  · intro i j hi hj heq
    rcases (hinit i).mp hi with rfl | hold <;> rcases (hinit j).mp hj with rfl | hold'
    · rfl
    · have := h.objects.barrierId j hold'
      rw [hentry', hentry j hold'] at heq
      omega
    · have := h.objects.barrierId i hold
      rw [hentry', hentry i hold] at heq
      omega
    · rw [hentry i hold, hentry j hold'] at heq
      exact h.objects.barrierDistinct i j hold hold' heq
  · exact fun t m ht => List.mem_cons_of_mem _ (h.objects.waiting_mutex t m ht)
  · exact fun t i ht => (hinit i).mpr (.inr (h.objects.waiting_barrier t i ht))
  · intro m hm
    exact h.queues.mutex m (by simpa using hm)
  · intro i hi
    rcases (hinit i).mp hi with rfl | hold
    · rw [hentry', addBarrier_barrierThreadLists, Function.update_self]
      exact ⟨[], hnone.symm⟩
    · have := h.objects.barrierId i hold
      rw [hentry i hold, addBarrier_barrierThreadLists, Function.update_of_ne (by omega)]
      exact h.queues.barrier i hold
  · intro i hi
    rcases (hinit i).mp hi with rfl | hold
    · rw [hentry', addBarrier_barrierCounts, Function.update_self]
      change (0 : Int) = (waitingAt (.barrier i) s.trace).length
      rw [hnone]
      rfl
    · have := h.objects.barrierId i hold
      rw [hentry i hold, addBarrier_barrierCounts, Function.update_of_ne (by omega)]
      exact h.queues.count i hold

private theorem Objects.congr {s s' : State} (h : Objects s)
    (hcount : ∀ m, (s'.mutexes m).count = (s.mutexes m).count) (hmutexId : s'.mutexId = s.mutexId)
    (hbarriers : s'.barriers = s.barriers) (hbarrierId : s'.barrierId = s.barrierId)
    (hmutex : ∀ m, .mutexInit m ∈ s'.trace ↔ .mutexInit m ∈ s.trace)
    (hbarrier : ∀ b, .barrierInit b ∈ s'.trace ↔ .barrierInit b ∈ s.trace)
    (hwait : ∀ t m, (t, .mutex m) ∈ waiting s'.trace → .mutexInit m ∈ s.trace)
    (hwait' : ∀ t b, (t, .barrier b) ∈ waiting s'.trace → .barrierInit b ∈ s.trace) :
    Objects s' := by
  refine ⟨?_, ?_, ?_, ?_, ?_, ?_⟩
  · simpa only [hmutex, hcount, hmutexId] using h.mutexId
  · simpa only [hmutex, hcount] using h.mutexDistinct
  · simpa only [hbarrier, hbarriers, hbarrierId] using h.barrierId
  · simpa only [hbarrier, hbarriers] using h.barrierDistinct
  · simpa only [hmutex] using hwait
  · simpa only [hbarrier] using hwait'

private theorem WaitingInv.queue {s : State} {m : Nat} (h : WaitingInv s)
    (hcons : Consistent (queueOnMutex s m)) (hpoint : s.cpu.point = .user)
    (hinit : .mutexInit m ∈ s.trace) : WaitingInv (queueOnMutex s m) := by
  have hwait : waiting (queueOnMutex s m).trace =
      waiting s.trace ++ [(s.currentThreadID, .mutex m)] := rfl
  refine ⟨hcons, h.objects.congr (fun _ => rfl) rfl rfl rfl (fun _ => by simp)
    (fun _ => by simp) (fun t i ht => ?_) (fun t b ht => ?_), ⟨?_, ?_, ?_⟩,
    h.waiters.block (h.consistent.not_blocked hpoint) hwait (fun _ => by simp)⟩
  · rw [hwait, List.mem_append, List.mem_singleton] at ht
    rcases ht with ht | ht
    · exact h.objects.waiting_mutex t i ht
    · cases ht
      exact hinit
  · rw [hwait, List.mem_append, List.mem_singleton] at ht
    rcases ht with ht | ht
    · exact h.objects.waiting_barrier t b ht
    · cases ht
  · intro i hi
    have hi' : .mutexInit i ∈ s.trace := by simpa using hi
    have hold : s.mutexThreadLists (s.mutexes i).count = threadsAt (.mutex i) (waiting s.trace) :=
      h.queues.mutex i hi'
    rw [waitingAt, hwait, threadsAt_append, threadsAt_single, ← hold]
    by_cases him : i = m
    · subst i
      simp
    · have hne : (s.mutexes i).count ≠ (s.mutexes m).count :=
        fun heq => him (h.objects.mutexDistinct i m hi' hinit heq)
      simp [Function.update_of_ne hne, Ne.symm him]
  · intro b hb
    obtain ⟨earlier, hlist⟩ := h.queues.barrier b (by simpa using hb)
    refine ⟨earlier, ?_⟩
    rw [waitingAt, hwait, threadsAt_append, threadsAt_single, if_neg (by simp), List.append_nil]
    exact hlist
  · intro b hb
    have hcount := h.queues.count b (by simpa using hb)
    rw [waitingAt, hwait, threadsAt_append, threadsAt_single, if_neg (by simp), List.append_nil]
    exact hcount

/-- The first thread of a mutex's list is granted the mutex. -/
private theorem WaitingInv.grant {s s' : State} {m t : Nat} {rest : List Nat} (h : WaitingInv s)
    (hcons : Consistent s') (hinit : .mutexInit m ∈ s.trace)
    (hlist : s.mutexThreadLists (s.mutexes m).count = t :: rest)
    (hs' : s' = (((s.log (.released s.currentThreadID m)).setStatus t .ready).setMutexList
      (s.mutexes m).count rest).unlock.log (.granted t m)) : WaitingInv s' := by
  have hwait : waiting s'.trace = (waiting s.trace).filter fun w => w ≠ (t, .mutex m) := by
    rw [hs']
    rfl
  have hmem : ∀ w, w ∈ waiting s'.trace → w ∈ waiting s.trace := by
    intro w hw
    rw [hwait] at hw
    exact (List.mem_filter.mp hw).1
  have hthreads : waitingAt (.mutex m) s.trace = t :: rest :=
    (h.queues.mutex m hinit).symm.trans hlist
  have hother : ∀ p, p ≠ .mutex m → waitingAt p s'.trace = waitingAt p s.trace := by
    intro p hp
    rw [waitingAt, hwait]
    exact threadsAt_filter_of_forall (fun u => by simp [hp]) _
  refine ⟨hcons, h.objects.congr ?_ ?_ ?_ ?_ ?_ ?_ (fun u i hu => ?_) (fun u b hu => ?_),
    ⟨?_, ?_, ?_⟩, h.waiters.release hwait (fun u p hu hkeep => ?_)⟩
  · simp [hs']
  · simp [hs']
  · rw [hs']
    rfl
  · simp [hs']
  · simp [hs']
  · simp [hs']
  · exact h.objects.waiting_mutex u i (hmem _ hu)
  · exact h.objects.waiting_barrier u b (hmem _ hu)
  · intro i hi
    have hi' : .mutexInit i ∈ s.trace := by simpa [hs'] using hi
    by_cases him : i = m
    · subst i
      -- No thread waits twice, so only the head of the list goes.
      have hnodup : (t :: rest).Nodup := by
        rw [← hthreads]
        exact h.waiters.nodup.sublist (List.filter_sublist.map _)
      have hrest : rest.filter (fun u => u ≠ t) = rest := by
        rw [List.filter_eq_self]
        intro u hu
        have hne : u ≠ t := by
          rintro rfl
          exact (List.nodup_cons.mp hnodup).1 hu
        simpa using hne
      rw [waitingAt, hwait, threadsAt_filter_self]
      rw [show threadsAt (.mutex m) (waiting s.trace) = t :: rest from hthreads]
      rw [List.filter_cons_of_neg (by simp), hrest]
      simp [hs']
    · have hne : (s.mutexes i).count ≠ (s.mutexes m).count :=
        fun heq => him (h.objects.mutexDistinct i m hi' hinit heq)
      rw [hother _ (by simpa using him), ← h.queues.mutex i hi']
      simp [hs', Function.update_of_ne hne]
  · intro b hb
    obtain ⟨earlier, hold⟩ := h.queues.barrier b (by simpa [hs'] using hb)
    refine ⟨earlier, ?_⟩
    rw [hother (.barrier b) (by simp), ← hold]
    simp [hs']
  · intro b hb
    have hold := h.queues.count b (by simpa [hs'] using hb)
    rw [hother (.barrier b) (by simp), ← hold]
    simp [hs']
  · -- A thread that waits elsewhere is not the one at the head of this list.
    have hne : u ≠ t := by
      rintro rfl
      have hhead : (u, .mutex m) ∈ waiting s.trace := by
        rw [← mem_threadsAt, show threadsAt (.mutex m) (waiting s.trace) = u :: rest from hthreads]
        exact List.mem_cons_self
      rw [h.waiters.unique hu hhead] at hkeep
      simp at hkeep
    simp [hs', hne]

private theorem WaitingInv.arrive {s : State} {b : Nat} (h : WaitingInv s)
    (hcons : Consistent (queueOnBarrier s b)) (hpoint : s.cpu.point = .user)
    (hinit : .barrierInit b ∈ s.trace) : WaitingInv (queueOnBarrier s b) := by
  have hwait : waiting (queueOnBarrier s b).trace =
      waiting s.trace ++ [(s.currentThreadID, .barrier b)] := rfl
  have hat : ∀ p, waitingAt p (queueOnBarrier s b).trace =
      waitingAt p s.trace ++ if .barrier b = p then [s.currentThreadID] else [] := by
    intro p
    rw [waitingAt, hwait, threadsAt_append, threadsAt_single]
  refine ⟨hcons, h.objects.congr (fun _ => rfl) rfl rfl rfl (fun _ => by simp)
    (fun _ => by simp) (fun t m ht => ?_) (fun t i ht => ?_), ⟨?_, ?_, ?_⟩,
    h.waiters.block (h.consistent.not_blocked hpoint) hwait (fun _ => by simp)⟩
  · rw [hwait, List.mem_append, List.mem_singleton] at ht
    rcases ht with ht | ht
    · exact h.objects.waiting_mutex t m ht
    · cases ht
  · rw [hwait, List.mem_append, List.mem_singleton] at ht
    rcases ht with ht | ht
    · exact h.objects.waiting_barrier t i ht
    · cases ht
      exact hinit
  · intro m hm
    rw [hat, if_neg (by simp), List.append_nil]
    exact h.queues.mutex m (by simpa using hm)
  · intro i hi
    have hi' : .barrierInit i ∈ s.trace := by simpa using hi
    obtain ⟨earlier, hlist⟩ := h.queues.barrier i hi'
    refine ⟨earlier, ?_⟩
    rw [hat, ← List.append_assoc, ← hlist]
    by_cases hib : i = b
    · subst i
      simp
    · have hne : s.barriers i ≠ s.barriers b :=
        fun heq => hib (h.objects.barrierDistinct i b hi' hinit heq)
      simp [Function.update_of_ne hne, Ne.symm hib]
  · intro i hi
    have hi' : .barrierInit i ∈ s.trace := by simpa using hi
    rw [hat, List.length_append, Int.natCast_add, ← h.queues.count i hi']
    by_cases hib : i = b
    · subst i
      simp [Counts.arrival]
    · have hne : s.barriers i ≠ s.barriers b :=
        fun heq => hib (h.objects.barrierDistinct i b hi' hinit heq)
      simp [Function.update_of_ne hne, Ne.symm hib]

/-- The waiting threads of the barrier whose round is complete are ready; the list keeps them. -/
private theorem WaitingInv.complete {s : State} {b : Nat} (h : WaitingInv s)
    (hcons : Consistent (completeRound s b)) (hinit : .barrierInit b ∈ s.trace)
    (hwakes : ∀ t ∈ s.barrierThreadLists (s.barriers b),
      (t, .barrier b) ∈ waiting s.trace ∨ s.Runnable t) : WaitingInv (completeRound s b) := by
  have hwait : waiting (completeRound s b).trace =
      (waiting s.trace).filter fun w => w.2 ≠ Place.barrier b := by
    simp
  have hmem : ∀ w, w ∈ waiting (completeRound s b).trace → w ∈ waiting s.trace := by
    intro w hw
    rw [hwait] at hw
    exact (List.mem_filter.mp hw).1
  have hother : ∀ p, p ≠ .barrier b →
      waitingAt p (completeRound s b).trace = waitingAt p s.trace := by
    intro p hp
    rw [waitingAt, hwait]
    exact threadsAt_filter_of_forall (fun u => by simp [hp]) _
  refine ⟨hcons, h.objects.congr (fun _ => rfl) rfl rfl rfl (fun _ => by simp)
    (fun _ => by simp) (fun t m ht => h.objects.waiting_mutex t m (hmem _ ht))
    (fun t i ht => h.objects.waiting_barrier t i (hmem _ ht)), ⟨?_, ?_, ?_⟩,
    h.waiters.release hwait (fun t p ht hkeep => ?_)⟩
  · intro m hm
    rw [hother (.mutex m) (by simp)]
    exact h.queues.mutex m (by simpa using hm)
  · intro i hi
    have hi' : .barrierInit i ∈ s.trace := by simpa using hi
    by_cases hib : i = b
    · subst i
      refine ⟨s.barrierThreadLists (s.barriers b), ?_⟩
      rw [waitingAt, hwait, threadsAt_filter_none, List.append_nil]
      rfl
    · rw [hother _ (by simpa using hib)]
      exact h.queues.barrier i hi'
  · intro i hi
    have hi' : .barrierInit i ∈ s.trace := by simpa using hi
    by_cases hib : i = b
    · subst i
      rw [waitingAt, hwait, threadsAt_filter_none]
      simp
    · have hne : s.barriers i ≠ s.barriers b :=
        fun heq => hib (h.objects.barrierDistinct i b hi' hinit heq)
      rw [hother _ (by simpa using hib), ← h.queues.count i hi']
      simp [Function.update_of_ne hne]
  · -- A thread that waits elsewhere is blocked, so by assumption it is not on this list.
    have hblocked := h.waiters.blocked t p ht
    have hnot : t ∉ s.barrierThreadLists (s.barriers b) := by
      intro hlist
      rcases hwakes t hlist with hwaits | hrun
      · rw [h.waiters.unique ht hwaits] at hkeep
        simp at hkeep
      · exact hrun.2 hblocked
    simp [hnot]

theorem WaitingInv.step {s s' : State} {a : Action} (h : WaitingInv s) (huse : ProperUse s a)
    (hwakes : WakesRound s a) (hmain : MainAwake s a) (heff : Effect s a s') : WaitingInv s' := by
  have hcons := h.consistent.step (h.noRevival huse hwakes) heff
  cases heff with
  | compute regs hpoint =>
    exact h.quiet hcons (fun _ => rfl) rfl rfl rfl rfl rfl (fun _ => rfl) (fun _ => Iff.rfl)
      (fun _ => Iff.rfl) rfl h.waiters.blocked
  | timer hfirst hswitch =>
    exact h.switch hcons hswitch ⟨rfl, rfl, rfl, rfl, rfl, rfl, rfl⟩ (fun _ => Iff.rfl)
      (fun _ => Iff.rfl) rfl h.waiters.blocked
  | createFailed hpoint hfail =>
    exact h.quiet hcons (fun _ => rfl) rfl rfl rfl rfl rfl (fun _ => rfl) (fun _ => Iff.rfl)
      (fun _ => Iff.rfl) rfl h.waiters.blocked
  | create hpoint hlt hfirst =>
    refine h.quiet hcons (fun _ => rfl) rfl rfl rfl rfl rfl (fun _ => rfl) (fun _ => by simp)
      (fun _ => by simp) rfl (fun t p ht => ?_)
    have hold := h.waiters.blocked t p ht
    rw [addThread_status, if_neg]
    · exact hold
    · rintro rfl
      rw [h.consistent.unborn _ (Nat.lt_succ_self _)] at hold
      cases hold
  | createFirst hpoint hlt hfirst =>
    obtain ⟨hzero, -, -, -⟩ := h.consistent.before hfirst
    refine h.quiet hcons (fun _ => rfl) rfl rfl rfl rfl rfl (fun _ => rfl) (fun _ => by simp)
      (fun _ => by simp) rfl (fun t p ht => ?_)
    have hold := h.waiters.blocked t p ht
    rw [schedulerInit_status, if_neg, setFirst_status, addThread_status, if_neg]
    · exact hold
    · rintro rfl
      rw [h.consistent.unborn _ (Nat.lt_succ_self _)] at hold
      cases hold
    · rintro rfl
      exact h.consistent.not_blocked hpoint (hzero ▸ hold)
  | exitSwitch hpoint hmore hswitch =>
    refine h.switch hcons hswitch ⟨rfl, rfl, rfl, rfl, rfl, rfl, rfl⟩ (fun _ => by simp)
      (fun _ => by simp) rfl (fun t p ht => ?_)
    rw [markExited_status, if_neg]
    · exact h.waiters.blocked t p ht
    · rintro rfl
      exact h.current_not_waiting hpoint p ht
  | exitToMain hpoint hlast hmain' =>
    refine h.quiet hcons (fun _ => rfl) rfl rfl rfl rfl rfl (fun _ => rfl) (fun _ => by simp)
      (fun _ => by simp) rfl (fun t p ht => ?_)
    rw [jumpToMain_status, if_neg, markExited_status, if_neg]
    · exact h.waiters.blocked t p ht
    · rintro rfl
      exact h.current_not_waiting hpoint p ht
    · rintro rfl
      exact h.not_waiting (hmain (lastCreated_of_jump hlast hmain').1) p ht
  | mutexInit hpoint hlt => exact h.mutexInit hcons huse
  | mutexDestroy hpoint => exact huse.elim
  | acquire hpoint hlock =>
    exact h.quiet hcons (fun _ => update_count rfl) rfl rfl rfl rfl rfl (fun _ => rfl)
      (fun _ => by simp) (fun _ => by simp) rfl h.waiters.blocked
  | queue hpoint hlock => exact h.queue hcons hpoint huse
  | unlockFree hpoint hlist =>
    exact h.quiet hcons (fun _ => update_count rfl) rfl rfl rfl rfl rfl (fun _ => rfl)
      (fun _ => by simp) (fun _ => by simp) rfl h.waiters.blocked
  | unlockGrant hpoint hlist => exact h.grant hcons huse hlist rfl
  | barrierRefused hpoint => exact h
  | barrierInit hpoint hcount hlt => exact h.barrierInit hcons huse
  | barrierDestroy hpoint => exact huse.elim
  | arrive hpoint hcount => exact h.arrive hcons hpoint huse
  | complete hpoint hcount => exact h.complete hcons huse (hwakes hcount)
  | proceedSchedule hpoint hswitch =>
    exact h.switch hcons hswitch ⟨rfl, rfl, rfl, rfl, rfl, rfl, rfl⟩ (fun _ => Iff.rfl)
      (fun _ => Iff.rfl) rfl h.waiters.blocked
  | proceedReturn hpoint =>
    exact h.quiet hcons (fun _ => rfl) rfl rfl rfl rfl rfl (fun _ => rfl) (fun _ => by simp)
      (fun _ => by simp) rfl h.waiters.blocked
  | @proceedLeave b round hpoint =>
    refine h.quiet hcons (fun _ => rfl) rfl rfl rfl rfl rfl (fun id => ?_) (fun _ => by simp)
      (fun _ => by simp) rfl h.waiters.blocked
    by_cases hid : id = s.barriers b
    · subst id
      simp
    · simp [Function.update_of_ne hid]

end OSChallenges.Threads
