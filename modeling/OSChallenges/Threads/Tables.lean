import OSChallenges.Library.Runs
import OSChallenges.Threads.Exits

/-!
# The tables of the library

Threads, mutexes and barriers have entries in tables of `MAX_THREADS`, by numbers that are counted up and
never given back. The counter of the threads is raised before the limit is tested and before the stack is
allocated, so that each refusal raises it too, and the last creation that the limit lets through has an
index behind the table.
-/

namespace OSChallenges.Threads

open State Runs

/-- The calls that create and destroy, and those that end a thread or interrupt it. -/
def Manages : Action → Bool
  | .mutexLock _ | .mutexUnlock _ | .barrierWait _ | .proceed => false
  | _ => true

/-- The mutex is initialised and not destroyed. -/
def MutexLive (m : Nat) : List Event → Prop
  | [] => False
  | .mutexInit m' :: rest => m' = m ∨ MutexLive m rest
  | .mutexDestroy m' :: rest => m' ≠ m ∧ MutexLive m rest
  | _ :: rest => MutexLive m rest

def BarrierLive (b : Nat) : List Event → Prop
  | [] => False
  | .barrierInit b' :: rest => b' = b ∨ BarrierLive b rest
  | .barrierDestroy b' :: rest => b' ≠ b ∧ BarrierLive b rest
  | _ :: rest => BarrierLive b rest

/-- The threads that a call looks up are in the table, and no two live objects share a list. -/
structure Tables (s : State) : Prop where
  current : s.currentThreadID < maxThreads
  top : s.topThread < maxThreads
  mutexes : ∀ m m', MutexLive m s.trace → MutexLive m' s.trace →
    (s.mutexes m).count = (s.mutexes m').count → m = m'
  barriers : ∀ b b', BarrierLive b s.trace → BarrierLive b' s.trace → s.barriers b = s.barriers b' → b = b'

/-- A creation that returns -1 leaves the threads as they are. -/
def RefusalClean (s : State) : Action → Prop
  | .create mallocOk regs => s.cpu.point = .user →
    ∀ s', pthreadCreate s mallocOk regs = .ok (-1, s') →
      s'.numOfThreads = s.numOfThreads ∧ s'.tcbList = s.tcbList
  | _ => True

/-- No table is indexed outside, and no refusal has an effect. -/
def Safe (s : State) (a : Action) : Prop := step s a ≠ .error .overrun ∧ RefusalClean s a

/-- What a call needs of the tables. -/
def Room (s : State) : Action → Prop
  | .create mallocOk _ => s.numOfThreads + 1 < maxThreads ∧ mallocOk = true
  | .mutexInit _ => s.mutexId < maxThreads
  | .mutexDestroy m => (s.mutexes m).count < maxThreads
  | .barrierInit _ count => count = 0 ∨ s.barrierId < maxThreads
  | .barrierDestroy b => s.barriers b < maxThreads
  | _ => True

/-- The running thread is inside the library, or the call has the room it needs. -/
def Fits (s : State) (a : Action) : Prop := s.cpu.point = .user → Room s a

instance decidableRoom (s : State) : (a : Action) → Decidable (Room s a)
  | .create _ _ => inferInstanceAs (Decidable (_ ∧ _))
  | .mutexInit _ => inferInstanceAs (Decidable (_ < _))
  | .mutexDestroy _ => inferInstanceAs (Decidable (_ < _))
  | .barrierInit _ _ => inferInstanceAs (Decidable (_ ∨ _))
  | .barrierDestroy _ => inferInstanceAs (Decidable (_ < _))
  | .compute _ | .timer | .exit | .mutexLock _ | .mutexUnlock _ | .barrierWait _ | .proceed =>
    inferInstanceAs (Decidable True)

instance decidableFits (s : State) (a : Action) : Decidable (Fits s a) :=
  inferInstanceAs (Decidable (_ → _))

/-! ### Numbers from a counter -/

/-- The live objects have different numbers, below the counter. -/
structure Numbered (number : Nat → Nat) (next : Nat) (live : Nat → Prop) : Prop where
  lt : ∀ m, live m → number m < next
  distinct : ∀ m m', live m → live m' → number m = number m' → m = m'

section

variable {number number' : Nat → Nat} {next : Nat} {live live' : Nat → Prop} {m : Nat}

theorem Numbered.mono (h : Numbered number next live) (hlive : ∀ m, live' m → live m) :
    Numbered number next live' :=
  ⟨fun m hm => h.lt m (hlive m hm), fun m m' hm hm' => h.distinct m m' (hlive m hm) (hlive m' hm')⟩

theorem Numbered.take (h : Numbered number next live) (hnew : number' m = next)
    (hold : ∀ m', m' ≠ m → number' m' = number m') (hlive : ∀ m', live' m' → m = m' ∨ live m') :
    Numbered number' (next + 1) live' := by
  have hother : ∀ m', live' m' → m' ≠ m → live m' ∧ number' m' < next := by
    intro m' hm' hne
    have hlive' := (hlive m' hm').resolve_left (Ne.symm hne)
    rw [hold m' hne]
    exact ⟨hlive', h.lt m' hlive'⟩
  constructor
  · intro m' hm'
    by_cases hm : m' = m
    · rw [hm, hnew]
      exact Nat.lt_succ_self next
    · exact Nat.lt_succ_of_lt (hother m' hm' hm).2
  · intro a b ha hb heq
    by_cases hma : a = m
    · by_cases hmb : b = m
      · exact hma.trans hmb.symm
      · have hlt := (hother b hb hmb).2
        rw [← heq, hma, hnew] at hlt
        exact absurd hlt (Nat.lt_irrefl next)
    · by_cases hmb : b = m
      · have hlt := (hother a ha hma).2
        rw [heq, hmb, hnew] at hlt
        exact absurd hlt (Nat.lt_irrefl next)
      · rw [hold a hma, hold b hmb] at heq
        exact h.distinct a b (hother a ha hma).1 (hother b hb hmb).1 heq

end

/-! ### The invariant -/

structure TableInv (s : State) : Prop where
  bound : s.numOfThreads < maxThreads
  top_le : s.topThread ≤ s.numOfThreads
  current : s.currentThreadID < maxThreads
  mutexes : Numbered (fun m => (s.mutexes m).count) s.mutexId (MutexLive · s.trace)
  barriers : Numbered s.barriers s.barrierId (BarrierLive · s.trace)

variable {s s' : State} {a : Action}

theorem maxThreads_pos : 0 < maxThreads := by decide

theorem TableInv.tables (h : TableInv s) : Tables s where
  current := h.current
  top := h.top_le.trans_lt h.bound
  mutexes := h.mutexes.distinct
  barriers := h.barriers.distinct

theorem initial_tables (mutexes : Nat → MutexData) (barriers : Nat → Nat) (regs : Nat) :
    TableInv (initial mutexes barriers regs) where
  bound := maxThreads_pos
  top_le := Nat.le_refl 0
  current := maxThreads_pos
  mutexes := ⟨fun _ hm => hm.elim, fun _ _ hm => hm.elim⟩
  barriers := ⟨fun _ hb => hb.elim, fun _ _ hb => hb.elim⟩

theorem TableInv.switch {t : Nat} (h : TableInv s) (hswitch : Switch s s' t) : TableInv s' where
  bound := by
    rw [hswitch.numOfThreads]
    exact h.bound
  top_le := by
    rw [hswitch.top, hswitch.numOfThreads]
    exact hswitch.le h.top_le
  current := by
    rw [hswitch.current]
    exact hswitch.lt
  mutexes := by
    rw [hswitch.mutexes, hswitch.mutexId, hswitch.trace]
    exact h.mutexes
  barriers := by
    rw [hswitch.barriers, hswitch.barrierId, hswitch.trace]
    exact h.barriers

theorem TableInv.markExited (h : TableInv s) : TableInv (markExited s) where
  bound := h.bound
  top_le := h.top_le
  current := h.current
  mutexes := h.mutexes
  barriers := h.barriers

theorem TableInv.step (h : TableInv s) (hmanages : Manages a = true) (hfits : Fits s a)
    (heff : Effect s a s') : TableInv s' := by
  cases heff with
  | compute regs hpoint => exact { h with }
  | timer hfirst hswitch => exact h.switch hswitch
  | createFailed hpoint hfail =>
    obtain ⟨hroom, hmalloc⟩ := hfits hpoint
    obtain hfull | hnone := hfail
    · exact absurd h.bound (Nat.not_lt.mpr hfull)
    · cases hnone.symm.trans hmalloc
  | create hpoint hlt hfirst =>
    exact { h with
      bound := hlt
      top_le := Nat.le_succ_of_le h.top_le
      mutexes := h.mutexes
      barriers := h.barriers }
  | createFirst hpoint hlt hfirst =>
    exact { h with
      bound := hlt
      top_le := Nat.le_succ_of_le h.top_le
      mutexes := h.mutexes
      barriers := h.barriers }
  | exitSwitch hpoint hmore hswitch => exact h.markExited.switch hswitch
  | exitToMain hpoint hlast hmain => exact { h.markExited with current := maxThreads_pos }
  | mutexInit hpoint hlt =>
    refine { h with
      mutexes := h.mutexes.take ?_ ?_ (fun m' hm' => hm')
      barriers := h.barriers }
    · rw [addMutex_mutexes, Function.update_self]
    · intro m' hm'
      rw [addMutex_mutexes, Function.update_of_ne hm']
  | mutexDestroy hpoint => exact { h with
      mutexes := h.mutexes.mono fun m hm => hm.2
      barriers := h.barriers }
  | barrierRefused hpoint => exact h
  | barrierInit hpoint hcount hlt =>
    refine { h with
      mutexes := h.mutexes
      barriers := h.barriers.take ?_ ?_ (fun b' hb' => hb') }
    · rw [addBarrier_barriers, Function.update_self]
    · intro b' hb'
      rw [addBarrier_barriers, Function.update_of_ne hb']
  | barrierDestroy hpoint => exact { h with
      mutexes := h.mutexes
      barriers := h.barriers.mono fun b hb => hb.2 }
  | acquire hpoint hlock => cases hmanages
  | queue hpoint hlock => cases hmanages
  | unlockFree hpoint hlist => cases hmanages
  | unlockGrant hpoint hlist => cases hmanages
  | arrive hpoint hcount => cases hmanages
  | complete hpoint hcount => cases hmanages
  | proceedSchedule hpoint hswitch => cases hmanages
  | proceedReturn hpoint => cases hmanages
  | proceedLeave hpoint => cases hmanages

/-! ### The exact condition -/

theorem schedule_bounded {e : Stop} (htop : s.topThread ≤ s.numOfThreads)
    (hbound : s.numOfThreads < maxThreads) (h : schedule s = .error e) : e = .spin := by
  have hmap : ∀ m : State, m.topThread ≤ m.numOfThreads → m.numOfThreads < maxThreads →
      (search m (m.numOfThreads + 1) m.topThread).map (switchTo m) = .error e → e = .spin := by
    intro m htop hbound hm
    cases hsearch : search m (m.numOfThreads + 1) m.topThread with
    | ok t =>
      rw [hsearch] at hm
      cases hm
    | error e' =>
      rw [hsearch] at hm
      cases hm
      exact search_bounded htop hbound hsearch
  have hframe := markReady_frame (s.log (.stopped s.currentThreadID s.cpu))
  unfold schedule at h
  rw [hframe] at h
  simp only at h
  split at h
  · exact hmap { s with
      tcbList := (markReady (s.log (.stopped s.currentThreadID s.cpu))).tcbList
      trace := (s.log (.stopped s.currentThreadID s.cpu)).trace } htop hbound h
  · exact hmap ({ s with
      tcbList := (markReady (s.log (.stopped s.currentThreadID s.cpu))).tcbList
      trace := (s.log (.stopped s.currentThreadID s.cpu)).trace }.setBuf s.topThread s.cpu)
      htop hbound h

theorem pthreadCreate_room {mallocOk : Bool} {regs : Nat} (hroom : Room s (.create mallocOk regs)) :
    ∃ s', pthreadCreate s mallocOk regs = .ok (0, s') := by
  obtain ⟨hlt, rfl⟩ := hroom
  simp only [pthreadCreate]
  rw [if_neg (by omega), if_neg (by decide), if_neg (by omega)]
  split
  · exact ⟨_, rfl⟩
  · exact ⟨_, rfl⟩

/-- A creation without room is refused, with a larger counter, or leaves the table. -/
theorem pthreadCreate_full {mallocOk : Bool} {regs : Nat} (hroom : ¬ Room s (.create mallocOk regs)) :
    pthreadCreate s mallocOk regs = .ok (-1, { s with numOfThreads := s.numOfThreads + 1 }) ∨
      pthreadCreate s mallocOk regs = .error .overrun := by
  simp only [pthreadCreate]
  by_cases hfull : maxThreads ≤ s.numOfThreads
  · rw [if_pos hfull]
    exact .inl rfl
  · rw [if_neg hfull]
    cases mallocOk with
    | false => exact .inl rfl
    | true =>
      rw [if_neg (by decide), if_pos (Nat.le_of_not_lt fun hlt => hroom ⟨hlt, rfl⟩)]
      exact .inr rfl

theorem safe_create {mallocOk : Bool} {regs : Nat} (hpoint : s.cpu.point = .user) :
    call s (.create mallocOk regs) ≠ .error .overrun ∧ RefusalClean s (.create mallocOk regs) ↔
      Room s (.create mallocOk regs) := by
  by_cases hroom : Room s (.create mallocOk regs)
  · obtain ⟨s', hcreate⟩ := pthreadCreate_room hroom
    refine iff_of_true ⟨?_, fun _ s'' h => ?_⟩ hroom
    · rw [call, hcreate]
      exact fun h => by cases h
    · cases hcreate.symm.trans h
  · refine iff_of_false ?_ hroom
    rintro ⟨hoverrun, hclean⟩
    obtain hcreate | hcreate := pthreadCreate_full hroom
    · exact absurd (hclean hpoint _ hcreate).1 (Nat.succ_ne_self s.numOfThreads)
    · rw [call, hcreate] at hoverrun
      exact hoverrun rfl

theorem index_iff {p : Prop} [Decidable p] {s' : State} :
    (if p then .error .overrun else .ok s' : Except Stop State) ≠ .error .overrun ↔ ¬ p := by
  by_cases hp : p
  · rw [if_pos hp]
    exact iff_of_false (fun h => h rfl) (not_not_intro hp)
  · rw [if_neg hp]
    exact iff_of_true (fun h => by cases h) hp

theorem safe_iff_call (htimer : a ≠ .timer) (hproceed : a ≠ .proceed) : Safe s a ↔
    (s.cpu.point = .user → call s a ≠ .error .overrun ∧ RefusalClean s a) := by
  rw [Safe, step, if_neg htimer, if_neg hproceed]
  by_cases hpoint : s.cpu.point = .user
  · rw [if_pos hpoint]
    exact ⟨fun h _ => h, fun h => h hpoint⟩
  · rw [if_neg hpoint]
    refine iff_of_true ⟨fun h => (by cases h), ?_⟩ fun h => absurd h hpoint
    cases a with
    | create mallocOk regs => exact fun h => absurd h hpoint
    | _ => trivial

/-- The calls that are safe are those that have the room they need. -/
theorem TableInv.safe_iff (h : TableInv s) (hmanages : Manages a = true) : Safe s a ↔ Fits s a := by
  by_cases htimer : a = .timer
  · subst htimer
    refine iff_of_true ⟨fun hstep => ?_, trivial⟩ fun _ => trivial
    change (if !s.alarm then _ else _) = _ at hstep
    split at hstep
    · cases hstep
    · split at hstep
      · cases hstep
      · cases schedule_bounded h.top_le h.bound hstep
  by_cases hproceed : a = .proceed
  · subst hproceed
    cases hmanages
  rw [safe_iff_call htimer hproceed, Fits]
  refine forall_congr' fun hpoint => ?_
  cases a with
  | create mallocOk regs => exact safe_create hpoint
  | compute regs => exact iff_of_true ⟨fun h => (by cases h), trivial⟩ trivial
  | exit =>
    refine iff_of_true ⟨fun hcall => ?_, trivial⟩ trivial
    rw [call, pthreadExit] at hcall
    split at hcall
    · cases schedule_bounded (s := Threads.markExited s) h.top_le h.bound hcall
    · split at hcall
      · cases hcall
      · cases hcall
  | mutexInit m => exact (and_iff_left trivial).trans (index_iff.trans Nat.not_le)
  | mutexDestroy m => exact (and_iff_left trivial).trans (index_iff.trans Nat.not_le)
  | barrierInit b count =>
    refine (and_iff_left trivial).trans ?_
    rw [call, pthreadBarrierInit, Room]
    by_cases hcount : count = 0
    · rw [if_pos hcount]
      exact iff_of_true (fun h => by cases h) (.inl hcount)
    · rw [if_neg hcount, or_iff_right hcount]
      exact index_iff.trans Nat.not_le
  | barrierDestroy b => exact (and_iff_left trivial).trans (index_iff.trans Nat.not_le)
  | timer => exact absurd rfl htimer
  | proceed => exact absurd rfl hproceed
  | mutexLock m => cases hmanages
  | mutexUnlock m => cases hmanages
  | barrierWait b => cases hmanages

/-- Along a run the tables are used properly exactly when every call has the room it needs. -/
theorem safe_iff_fits (mutexes : Nat → MutexData) (barriers : Nat → Nat) (regs : Nat)
    (actions : List Action) (hmanages : ∀ a ∈ actions, Manages a = true) :
    (EachTry step Safe (initial mutexes barriers regs) actions ∧
        Always Tables (initial mutexes barriers regs)
          (trail step (initial mutexes barriers regs) actions)) ↔
      EachTry step Fits (initial mutexes barriers regs) actions := by
  have hinitial := initial_tables mutexes barriers regs
  constructor
  · rintro ⟨hsafe, -⟩
    refine EachTry.of_inv (I := TableInv) ?_ ?_ hinitial hmanages hsafe
    · intro s a s' h ha hsafe hstep
      exact h.step ha ((h.safe_iff ha).mp hsafe) (step_effect hstep)
    · intro s a h ha hsafe
      exact (h.safe_iff ha).mp hsafe
  · intro hfits
    have hstep : ∀ s a s', TableInv s → Manages a = true → Fits s a → step s a = .ok s' → TableInv s' :=
      fun s a s' h ha hfits hstep => h.step ha hfits (step_effect hstep)
    refine ⟨EachTry.of_inv hstep ?_ hinitial hmanages hfits, ?_⟩
    · intro s a h ha hfits
      exact (h.safe_iff ha).mpr hfits
    · exact (EachTry.always hstep hinitial hmanages hfits).mono fun s hs => hs.tables

/-- A program of three threads with two mutexes and a barrier. -/
theorem safe_threeThreads :
    EachTry step Safe (initial (fun _ => ⟨0, 0, 0⟩) (fun _ => 0) 0)
        [.mutexInit 5, .barrierInit 2 3, .create true 7, .create true 8, .mutexInit 6, .timer,
          .mutexDestroy 5, .exit, .mutexInit 5] ∧
      Always Tables (initial (fun _ => ⟨0, 0, 0⟩) (fun _ => 0) 0)
        (trail step (initial (fun _ => ⟨0, 0, 0⟩) (fun _ => 0) 0)
          [.mutexInit 5, .barrierInit 2 3, .create true 7, .create true 8, .mutexInit 6, .timer,
            .mutexDestroy 5, .exit, .mutexInit 5]) :=
  (safe_iff_fits (fun _ => ⟨0, 0, 0⟩) (fun _ => 0) 0 _ (by decide)).mpr (by decide)

/-- A creation without memory is refused and has raised the counter. -/
theorem refused_creation_counted : ¬ ∀ (mutexes : Nat → MutexData) (barriers : Nat → Nat) (regs : Nat)
    (actions : List Action), (∀ a ∈ actions, Manages a = true) →
      EachTry step Safe (initial mutexes barriers regs) actions ∧
        Always Tables (initial mutexes barriers regs)
          (trail step (initial mutexes barriers regs) actions) := by
  intro h
  obtain ⟨⟨⟨-, hclean⟩, -⟩, -⟩ :=
    h (fun _ => ⟨0, 0, 0⟩) (fun _ => 0) 0 [.create false 7] (by decide)
  cases (hclean rfl _ rfl).1

end OSChallenges.Threads
