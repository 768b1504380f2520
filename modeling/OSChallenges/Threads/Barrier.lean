import OSChallenges.Library.Runs
import OSChallenges.Threads.Waiting

/-!
# Barrier rounds

The arrivals at a barrier are cut into rounds by the completions in the trace. `Rounds` holds of a
trace in which every completed round has as many arrivals as the barrier's count and every thread
that has come back belongs to a completed round; `InRound` says that a context inside
`pthread_barrier_wait` is of a completed round or belongs to a thread that still waits. Both survive
every step at which the stale part of the barrier's list wakes nobody (`WakesRound`) and the last
created thread does not jump to a blocked main (`MainAwake`).
-/

namespace OSChallenges.Threads

open State Runs

/-- The threads that have arrived at a barrier in one of its rounds, in order. -/
def arrivals (b round : Nat) : List Event → List Nat
  | [] => []
  | e :: trace =>
    match e with
    | .arrived t i =>
      if i = b ∧ completions b trace = round then arrivals b round trace ++ [t]
      else arrivals b round trace
    | _ => arrivals b round trace

theorem completions_cons (b : Nat) (e : Event) (trace : List Event) :
    completions b (e :: trace) = completions b trace + if e = .completed b then 1 else 0 := by
  rw [completions, completions, List.count_cons]
  congr 1
  by_cases he : e = .completed b <;> simp [he]

@[simp] theorem completions_completed (b : Nat) (trace : List Event) :
    completions b (.completed b :: trace) = completions b trace + 1 := by
  rw [completions_cons, if_pos rfl]

theorem completions_of_ne {b : Nat} {e : Event} {trace : List Event} (h : e ≠ .completed b) :
    completions b (e :: trace) = completions b trace := by
  rw [completions_cons, if_neg h]
  rfl

theorem arrivals_later {b round : Nat} {trace : List Event} (h : completions b trace < round) :
    arrivals b round trace = [] := by
  induction trace with
  | nil => rfl
  | cons e trace ih =>
    have hle : completions b trace ≤ completions b (e :: trace) := by
      rw [completions_cons]
      omega
    have hrest := ih (by omega)
    cases e with
    | arrived t i =>
      rw [arrivals, if_neg (fun hr => ?_), hrest]
      omega
    | _ => exact hrest

theorem arrivals_mono {b round : Nat} {t : Nat} {e : Event} {trace : List Event}
    (h : t ∈ arrivals b round trace) : t ∈ arrivals b round (e :: trace) := by
  cases e with
  | arrived u i =>
    rw [arrivals]
    split
    · exact List.mem_append_left _ h
    · exact h
  | _ => exact h

/-- Events that are not about arrivals and completions. -/
def OffRound (e : Event) : Prop := (∀ t b, e ≠ .arrived t b) ∧ ∀ b, e ≠ .completed b

theorem OffRound.arrivals {e : Event} (h : OffRound e) (b round : Nat) (trace : List Event) :
    arrivals b round (e :: trace) = arrivals b round trace := by
  cases e with
  | arrived t i => exact absurd rfl (h.1 t i)
  | _ => rfl

theorem OffRound.waitingAt {e : Event} (h : OffRound e) (b : Nat) (trace : List Event) :
    waitingAt (.barrier b) (e :: trace) = waitingAt (.barrier b) trace := by
  cases e with
  | arrived t i => exact absurd rfl (h.1 t i)
  | completed i => exact absurd rfl (h.2 i)
  | queued t m => simp [Threads.waitingAt, waiting]
  | granted t m => exact threadsAt_filter_of_forall (fun u => by simp) _
  | _ => rfl

structure Rounds (maxCount : Nat → Int) (trace : List Event) : Prop where
  fresh : ∀ b, .barrierInit b ∉ trace → completions b trace = 0
  completed : ∀ b round, round < completions b trace →
    ((arrivals b round trace).length : Int) = maxCount b
  current : ∀ b, waitingAt (.barrier b) trace = arrivals b (completions b trace) trace
  returned : ∀ t b round serial, .left t b round serial ∈ trace →
    t ∈ arrivals b round trace ∧ round < completions b trace

theorem Rounds.congr {maxCount maxCount' : Nat → Int} {trace : List Event}
    (h : Rounds maxCount trace) (hmax : ∀ b, .barrierInit b ∈ trace → maxCount' b = maxCount b) :
    Rounds maxCount' trace where
  fresh := h.fresh
  completed := by
    intro b round hround
    rw [hmax, h.completed b round hround]
    by_contra hnew
    rw [h.fresh b hnew] at hround
    exact Nat.not_lt_zero _ hround
  current := h.current
  returned := h.returned

theorem Rounds.cons {maxCount : Nat → Int} {e : Event} {trace : List Event}
    (h : Rounds maxCount trace) (he : OffRound e)
    (hleft : ∀ t b round serial, e = .left t b round serial →
      t ∈ arrivals b round trace ∧ round < completions b trace) : Rounds maxCount (e :: trace) := by
  have hcount : ∀ b, completions b (e :: trace) = completions b trace :=
    fun b => completions_of_ne (he.2 b)
  refine ⟨fun b hb => ?_, fun b round hround => ?_, fun b => ?_, fun t b round serial hmem => ?_⟩
  · rw [hcount]
    exact h.fresh b (fun hold => hb (List.mem_cons_of_mem e hold))
  · rw [he.arrivals]
    exact h.completed b round (by rwa [hcount] at hround)
  · rw [he.waitingAt, he.arrivals, hcount]
    exact h.current b
  · rw [he.arrivals, hcount]
    rcases List.mem_cons.mp hmem with heq | hold
    · exact hleft t b round serial heq.symm
    · exact h.returned t b round serial hold

/-- The events that are not about the rounds of a barrier. -/
def Event.besidesRounds : Event → Bool
  | .arrived .. | .completed _ | .left .. => false
  | _ => true

theorem Rounds.cons_other {maxCount : Nat → Int} {e : Event} {trace : List Event}
    (h : Rounds maxCount trace) (he : e.besidesRounds = true) : Rounds maxCount (e :: trace) := by
  refine h.cons ⟨?_, ?_⟩ ?_
  · rintro t b rfl
    cases he
  · rintro b rfl
    cases he
  · rintro t b round serial rfl
    cases he

theorem Rounds.arrived {maxCount : Nat → Int} {t b : Nat} {trace : List Event}
    (h : Rounds maxCount trace) : Rounds maxCount (.arrived t b :: trace) := by
  have hcount : ∀ i, completions i (.arrived t b :: trace) = completions i trace :=
    fun i => completions_of_ne (by simp)
  refine ⟨fun i hi => ?_, fun i round hround => ?_, fun i => ?_, fun u i round serial hmem => ?_⟩
  · rw [hcount]
    exact h.fresh i (fun hold => hi (List.mem_cons_of_mem _ hold))
  · rw [hcount] at hround
    rw [arrivals, if_neg (fun hr => by omega)]
    exact h.completed i round hround
  · have hcurrent : threadsAt (.barrier i) (waiting trace) = _ := h.current i
    rw [waitingAt, waiting, threadsAt_append, threadsAt_single, hcurrent, hcount, arrivals]
    by_cases hi : b = i
    · simp [hi]
    · simp [hi]
  · rw [hcount]
    obtain ⟨hold, hlt⟩ := h.returned u i round serial (by simpa using hmem)
    exact ⟨arrivals_mono hold, hlt⟩

theorem Rounds.complete {maxCount : Nat → Int} {b : Nat} {trace : List Event}
    (h : Rounds maxCount trace) (hinit : .barrierInit b ∈ trace)
    (hfull : ((arrivals b (completions b trace) trace).length : Int) = maxCount b) :
    Rounds maxCount (.completed b :: trace) := by
  refine ⟨fun i hi => ?_, fun i round hround => ?_, fun i => ?_, fun t i round serial hmem => ?_⟩
  · have hne : Event.completed b ≠ .completed i := by
      intro heq
      cases heq
      exact hi (List.mem_cons_of_mem _ hinit)
    rw [completions_of_ne hne]
    exact h.fresh i (fun hold => hi (List.mem_cons_of_mem _ hold))
  · change ((arrivals i round trace).length : Int) = maxCount i
    by_cases hib : b = i
    · subst i
      rw [completions_completed] at hround
      by_cases hlast : round = completions b trace
      · rw [hlast]
        exact hfull
      · exact h.completed b round (by omega)
    · rw [completions_of_ne (by simpa using hib)] at hround
      exact h.completed i round hround
  · change threadsAt (.barrier i) ((waiting trace).filter fun w => w.2 ≠ .barrier b) =
      arrivals i (completions i (.completed b :: trace)) trace
    by_cases hib : b = i
    · subst i
      rw [threadsAt_filter_none, completions_completed, arrivals_later (Nat.lt_succ_self _)]
    · rw [threadsAt_filter_of_forall (fun u => by simpa using Ne.symm hib),
        completions_of_ne (by simpa using hib)]
      exact h.current i
  · obtain ⟨hold, hlt⟩ := h.returned t i round serial (by simpa using hmem)
    refine ⟨arrivals_mono hold, ?_⟩
    rw [completions_cons]
    omega

/-! ### Contexts inside a wait -/

/-- The thread arrived in this round, and the round is complete or the thread still waits. -/
def InRound (t b round : Nat) (trace : List Event) : Prop :=
  t ∈ arrivals b round trace ∧
    (round < completions b trace ∨ round = completions b trace ∧ (t, .barrier b) ∈ waiting trace)

theorem InRound.cons {t b round : Nat} {trace : List Event} (h : InRound t b round trace)
    (e : Event) : InRound t b round (e :: trace) := by
  obtain ⟨hmem, hround⟩ := h
  refine ⟨arrivals_mono hmem, ?_⟩
  by_cases he : e = .completed b
  · subst e
    rw [completions_completed]
    exact .inl (by omega)
  · rw [completions_of_ne he]
    refine hround.imp_right (And.imp_right fun hwaits => ?_)
    cases e with
    | queued u m => exact List.mem_append_left _ hwaits
    | arrived u i => exact List.mem_append_left _ hwaits
    | granted u m => exact List.mem_filter.mpr ⟨hwaits, by simp⟩
    | completed i =>
      have hne : b ≠ i := fun heq => he (congrArg Event.completed heq.symm)
      exact List.mem_filter.mpr ⟨hwaits, by simpa using hne⟩
    | _ => exact hwaits

theorem InRound.append {t b round : Nat} {trace : List Event} (h : InRound t b round trace)
    (events : List Event) : InRound t b round (events ++ trace) := by
  induction events with
  | nil => exact h
  | cons e events ih => exact ih.cons e

def AtBarrier (b round : Nat) (point : Point) : Prop :=
  point = .callSchedule (.barrier b round) ∨ point = .resume (.barrier b round)

theorem not_atBarrier {b round : Nat} {point : Point} (h : point = .user) :
    ¬ AtBarrier b round point := by
  rintro (h' | h') <;> cases h.symm.trans h'

structure BarrierInv (s : State) : Prop where
  waits : WaitingInv s
  rounds : Rounds (fun b => (s.barrierCounts (s.barriers b)).maxCount) s.trace
  cpu : ∀ b round, AtBarrier b round s.cpu.point → InRound s.currentThreadID b round s.trace
  buf : ∀ t b round, AtBarrier b round (s.buf t).point → InRound t b round s.trace

/-- A thread behind its `schedule(14)` has seen its round completed. -/
theorem BarrierInv.returning {s : State} {b round : Nat} (h : BarrierInv s)
    (hpoint : s.cpu.point = .resume (.barrier b round)) :
    s.currentThreadID ∈ arrivals b round s.trace ∧ round < completions b s.trace := by
  obtain ⟨hmem, hlt | ⟨-, hwaits⟩⟩ := h.cpu b round (.inr hpoint)
  · exact ⟨hmem, hlt⟩
  · obtain ⟨w, hw⟩ := h.waits.consistent.awake (h.waits.waiters.blocked _ _ hwaits)
    cases hpoint.symm.trans hw

/-! ### Steps -/

private theorem BarrierInv.update {s s' : State} (h : BarrierInv s) (hwaits : WaitingInv s')
    (hrounds : Rounds (fun b => (s'.barrierCounts (s'.barriers b)).maxCount) s'.trace)
    (hpoint : s'.cpu.point = .user) (events : List Event) (htrace : s'.trace = events ++ s.trace)
    (hbuf : ∀ t, (s'.buf t).point = .user ∨ s'.buf t = s.buf t) : BarrierInv s' := by
  refine ⟨hwaits, hrounds, fun b round hat => absurd hat (not_atBarrier hpoint),
    fun t b round hat => ?_⟩
  rcases hbuf t with huser | hsame
  · exact absurd hat (not_atBarrier huser)
  · rw [htrace]
    exact (h.buf t b round (hsame ▸ hat)).append events

private theorem BarrierInv.switch {s m s' : State} {t : Nat} (h : BarrierInv s)
    (hwaits : WaitingInv s') (hswitch : Switch m s' t)
    (htop : m.topThread = s.currentThreadID ∨ m.status m.topThread = .exited)
    (hbuf : ∀ u, m.buf u = s.buf u)
    (hcounts : m.barrierCounts = s.barrierCounts ∧ m.barriers = s.barriers)
    (htrace : m.trace = s.trace ∨ m.trace = .exited s.currentThreadID :: s.trace)
    (hcpu : m.status s.currentThreadID ≠ .exited →
      ∀ b round, AtBarrier b round m.cpu.point → AtBarrier b round s.cpu.point) :
    BarrierInv s' := by
  have hm : Rounds (fun b => (s.barrierCounts (s.barriers b)).maxCount) m.trace := by
    rcases htrace with htrace | htrace <;> rw [htrace]
    · exact h.rounds
    · exact h.rounds.cons_other rfl
  have hevents : ∃ events, s'.trace = events ++ s.trace := by
    rcases htrace with htrace | htrace <;> rw [hswitch.trace, htrace]
    · exact ⟨[_, _], rfl⟩
    · exact ⟨[_, _, _], rfl⟩
  obtain ⟨events, hevents⟩ := hevents
  have hall : ∀ u b round, AtBarrier b round (s'.buf u).point → InRound u b round s'.trace := by
    intro u b round hat
    rw [hevents]
    rw [hswitch.buf] at hat
    split at hat
    · -- Only the running thread is saved.
      rename_i hu
      have hsame : u = s.currentThreadID := by
        rcases htop with htop | hexited
        · exact hu.1.trans htop
        · exact absurd (hu.1 ▸ hexited) hu.2
      subst u
      exact (h.cpu b round (hcpu hu.2 b round hat)).append events
    · rw [hbuf] at hat
      exact (h.buf u b round hat).append events
  refine ⟨hwaits, ?_, fun b round hat => ?_, hall⟩
  · rw [hswitch.barrierCounts, hswitch.barriers, hcounts.1, hcounts.2, hswitch.trace]
    exact (hm.cons_other rfl).cons_other rfl
  · rw [hswitch.cpu] at hat
    rw [hswitch.current]
    exact hall t b round hat

private theorem update_maxCount {counts : Nat → Counts} {id : Nat} {new : Counts}
    (h : new.maxCount = (counts id).maxCount) (i : Nat) :
    (Function.update counts id new i).maxCount = (counts i).maxCount := by
  by_cases hi : i = id
  · subst i
    rw [Function.update_self, h]
  · rw [Function.update_of_ne hi]

/-- The counter of a barrier says how many threads have arrived in its current round. -/
theorem BarrierInv.round_full {s : State} {b : Nat} (h : BarrierInv s)
    (hinit : .barrierInit b ∈ s.trace)
    (hcount : (s.barrierCounts (s.barriers b)).maxCount =
      (s.barrierCounts (s.barriers b)).currentCount + 1) :
    ((arrivals b (completions b s.trace) s.trace).length : Int) + 1 =
      (s.barrierCounts (s.barriers b)).maxCount := by
  rw [hcount, h.waits.queues.count b hinit, h.rounds.current b]

theorem BarrierInv.step {s s' : State} {a : Action} (h : BarrierInv s) (huse : ProperUse s a)
    (hwakes : WakesRound s a) (hmain : MainAwake s a) (heff : Effect s a s') : BarrierInv s' := by
  have hwaits := h.waits.step huse hwakes hmain heff
  have htop := h.waits.consistent.top
  cases heff with
  | compute regs hpoint => exact h.update hwaits h.rounds rfl [] rfl (fun _ => .inr rfl)
  | timer hfirst hswitch =>
    exact h.switch hwaits hswitch htop (fun _ => rfl) ⟨rfl, rfl⟩ (.inl rfl) (fun _ _ _ => id)
  | createFailed hpoint hfail => exact h.update hwaits h.rounds hpoint [] rfl (fun _ => .inr rfl)
  | create hpoint hlt hfirst =>
    refine h.update hwaits (h.rounds.cons_other rfl) hpoint [_] rfl (fun t => ?_)
    rw [addThread_buf]
    split
    · exact .inl rfl
    · exact .inr rfl
  | createFirst hpoint hlt hfirst =>
    refine h.update hwaits (h.rounds.cons_other rfl) hpoint [_] rfl (fun t => ?_)
    rw [schedulerInit_buf, setFirst_buf, addThread_buf]
    split
    · exact .inl rfl
    · exact .inr rfl
  | exitSwitch hpoint hmore hswitch =>
    refine h.switch hwaits hswitch ?_ (fun u => markExited_buf s u) ⟨rfl, rfl⟩ (.inr rfl)
      (fun halive => ?_)
    · refine htop.imp_right fun hexited => ?_
      rw [markExited_status, markExited_topThread, hexited, ite_self]
    · rw [markExited_status, if_pos rfl] at halive
      exact absurd rfl halive
  | exitToMain hpoint hlast hmain' =>
    have hall : ∀ t b round, AtBarrier b round (s.buf t).point →
        InRound t b round (jumpToMain (markExited s)).trace :=
      fun t b round hat => (h.buf t b round hat).append [_, _, _]
    refine ⟨hwaits, ?_, fun b round hat => ?_, fun t b round hat => ?_⟩
    · exact ((h.rounds.cons_other rfl).cons_other rfl).cons_other rfl
    · rw [jumpToMain_cpu, markExited_buf] at hat
      exact hall 0 b round hat
    · rw [jumpToMain_buf, markExited_buf] at hat
      exact hall t b round hat
  | mutexInit hpoint hlt =>
    exact h.update hwaits (h.rounds.cons_other rfl) hpoint [_] rfl (fun _ => .inr rfl)
  | mutexDestroy hpoint => exact huse.elim
  | acquire hpoint hlock =>
    exact h.update hwaits (h.rounds.cons_other rfl) hpoint [_] rfl (fun _ => .inr rfl)
  | @queue m hpoint hlock =>
    refine ⟨hwaits, h.rounds.cons_other rfl, fun b round hat => ?_,
      fun t b round hat => ?_⟩
    · rcases hat with hat | hat <;> cases hat
    · rw [queueOnMutex_buf] at hat
      exact (h.buf t b round hat).cons _
  | unlockFree hpoint hlist =>
    exact h.update hwaits (h.rounds.cons_other rfl) hpoint [_] rfl (fun _ => .inr rfl)
  | unlockGrant hpoint hlist =>
    refine h.update hwaits ?_ hpoint [_, _] rfl (fun _ => .inr (by simp))
    exact (h.rounds.cons_other rfl).cons_other rfl
  | barrierRefused hpoint => exact h
  | @barrierInit b count hpoint hcount hlt =>
    refine h.update hwaits ?_ hpoint [_] rfl (fun _ => .inr rfl)
    refine (h.rounds.congr fun i hi => ?_).cons_other rfl
    have hne : i ≠ b := by
      rintro rfl
      exact huse hi
    have := h.waits.objects.barrierId i hi
    simp [hne, Function.update_of_ne (show s.barriers i ≠ s.barrierId by omega)]
  | barrierDestroy hpoint => exact huse.elim
  | @arrive b hpoint hcount =>
    have hround : InRound s.currentThreadID b (completions b s.trace) (queueOnBarrier s b).trace := by
      refine ⟨?_, .inr ⟨?_, ?_⟩⟩
      · change _ ∈ arrivals b _ (.arrived s.currentThreadID b :: s.trace)
        rw [arrivals, if_pos ⟨rfl, rfl⟩]
        exact List.mem_append_right _ (List.mem_singleton.mpr rfl)
      · exact (completions_of_ne (by simp)).symm
      · exact List.mem_append_right _ (List.mem_singleton.mpr rfl)
    refine ⟨hwaits, h.rounds.arrived.congr fun i _ => ?_, fun i round hat => ?_,
      fun t i round hat => ?_⟩
    · exact update_maxCount (by rfl) _
    · rcases hat with hat | hat <;> cases hat
      exact hround
    · rw [queueOnBarrier_buf] at hat
      exact (h.buf t i round hat).cons _
  | @complete b hpoint hcount =>
    have hinit : .barrierInit b ∈ s.trace := huse
    have harrivals : arrivals b (completions b s.trace) (.arrived s.currentThreadID b :: s.trace) =
        arrivals b (completions b s.trace) s.trace ++ [s.currentThreadID] := by
      rw [arrivals, if_pos ⟨rfl, rfl⟩]
    have hsame : completions b (.arrived s.currentThreadID b :: s.trace) = completions b s.trace :=
      completions_of_ne (by simp)
    have hrounds : Rounds (fun b => (s.barrierCounts (s.barriers b)).maxCount)
        (.completed b :: .arrived s.currentThreadID b :: s.trace) := by
      refine h.rounds.arrived.complete (List.mem_cons_of_mem _ hinit) ?_
      rw [hsame, harrivals, List.length_append]
      exact h.round_full hinit hcount
    refine h.update hwaits ?_ rfl [_, _, _] rfl (fun _ => .inr (by simp))
    refine (hrounds.cons ⟨by simp, by simp⟩ ?_).congr fun i _ => ?_
    · intro t i r serial heq
      cases heq
      refine ⟨arrivals_mono ?_, ?_⟩
      · rw [harrivals]
        exact List.mem_append_right _ (List.mem_singleton.mpr rfl)
      · rw [completions_completed, hsame]
        exact Nat.lt_succ_self _
    · exact (update_maxCount (by rfl) _).trans (update_maxCount (by rfl) _)
  | proceedSchedule hpoint hswitch =>
    refine h.switch hwaits hswitch htop (fun _ => rfl) ⟨rfl, rfl⟩ (.inl rfl)
      (fun _ b round hat => ?_)
    rcases hat with hat | hat <;> cases hat
    exact .inl hpoint
  | proceedReturn hpoint =>
    exact h.update hwaits (h.rounds.cons_other rfl) rfl [_] rfl (fun _ => .inr rfl)
  | @proceedLeave b round hpoint =>
    refine h.update hwaits ?_ rfl [_] rfl (fun _ => .inr rfl)
    refine (h.rounds.cons ⟨by simp, by simp⟩ ?_).congr fun i _ => ?_
    · intro t i r serial heq
      cases heq
      exact h.returning hpoint
    · exact update_maxCount (by rfl) _

/-! ### The property -/

end OSChallenges.Threads
