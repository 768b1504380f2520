import OSChallenges.Threads.Barrier

/-!
# The serial thread of a round

The arrival that completes a round returns `PTHREAD_BARRIER_SERIAL_THREAD` in the same step, and
clears `printSerialThread`. The other threads of the round come back later, and each of them reads
the same flag, which an arrival of the next round has set again if it came first. So the flag is
what the latest event of the barrier says (`SerialInv.flag`), and a round has one serial thread
exactly as long as no thread comes back after a later arrival.
-/

namespace OSChallenges.Threads

open State Runs

/-- A call that returned `PTHREAD_BARRIER_SERIAL_THREAD` from this round. -/
def isSerial (b round : Nat) : Event → Bool
  | .left _ i r serial => i = b && r = round && serial
  | _ => false

def serials (b round : Nat) (trace : List Event) : Nat := trace.countP (isSerial b round)

/-- A call has returned from the barrier, and no thread has arrived at it since. -/
def lastReturned (b : Nat) : List Event → Bool
  | [] => false
  | e :: trace =>
    match e with
    | .left _ i _ _ => if i = b then true else lastReturned b trace
    | .arrived _ i => if i = b then false else lastReturned b trace
    | _ => lastReturned b trace

/-- The calls of a complete round are `maxCount` arrivals of which one returned as the serial thread;
the round that is not complete has none yet. -/
structure OneSerial (s : State) : Prop where
  calls : ∀ b round, round < completions b s.trace →
    ((arrivals b round s.trace).length : Int) = (s.barrierCounts (s.barriers b)).maxCount
  serial : ∀ b round, serials b round s.trace = if round < completions b s.trace then 1 else 0

/-- The barrier from which the thread at this point is about to return. -/
def returningFrom : Point → Option Nat
  | .resume (.barrier b _) => some b
  | _ => none

/-- A thread that comes back from its wait does so before the next arrival at the barrier: the
latest arrival or return there is a return. -/
def ReturnsFirst (s : State) : Action → Prop
  | .proceed => ∀ b ∈ returningFrom s.cpu.point, lastReturned b s.trace = true
  | _ => True

instance (s : State) : (a : Action) → Decidable (ReturnsFirst s a)
  | .proceed =>
    inferInstanceAs (Decidable (∀ b ∈ returningFrom s.cpu.point, lastReturned b s.trace = true))
  | .compute _ | .timer | .create _ _ | .exit | .mutexInit _ | .mutexDestroy _ | .mutexLock _
  | .mutexUnlock _ | .barrierInit _ _ | .barrierDestroy _ | .barrierWait _ =>
    inferInstanceAs (Decidable True)

/-! ### Events of a barrier -/

/-- Events that are not about the barrier. -/
def OffBarrier (b : Nat) : Event → Bool
  | .arrived _ i | .completed i | .left _ i _ _ | .barrierInit i => i ≠ b
  | _ => true

/-- What the invariant reads off a trace about one barrier. -/
structure SameRounds (b : Nat) (trace trace' : List Event) : Prop where
  init : .barrierInit b ∈ trace' ↔ .barrierInit b ∈ trace
  completions : completions b trace' = completions b trace
  arrivals : ∀ round, arrivals b round trace' = arrivals b round trace
  serials : ∀ round, serials b round trace' = serials b round trace
  lastReturned : lastReturned b trace' = lastReturned b trace

theorem sameRounds_append {b : Nat} {trace : List Event} (events : List Event)
    (h : ∀ e ∈ events, OffBarrier b e = true) : SameRounds b trace (events ++ trace) := by
  induction events with
  | nil => exact ⟨Iff.rfl, rfl, fun _ => rfl, fun _ => rfl, rfl⟩
  | cons e events ih =>
    obtain ⟨he, hrest⟩ := List.forall_mem_cons.mp h
    have hold := ih hrest
    refine ⟨?_, ?_, fun round => ?_, fun round => ?_, ?_⟩
    · rw [List.cons_append, List.mem_cons, hold.init]
      refine or_iff_right ?_
      rintro rfl
      simp [OffBarrier] at he
    · rw [List.cons_append, completions_of_ne, hold.completions]
      rintro rfl
      simp [OffBarrier] at he
    · rw [← hold.arrivals round]
      cases e with
      | arrived t i => exact if_neg (fun hr => of_decide_eq_true he hr.1)
      | _ => rfl
    · rw [← hold.serials round, serials, serials, List.cons_append, List.countP_cons_of_neg]
      cases e with
      | left t i r serial =>
        have hi : i ≠ b := of_decide_eq_true he
        simp [isSerial, hi]
      | _ => exact Bool.false_ne_true
    · rw [← hold.lastReturned]
      cases e with
      | left t i r serial => exact if_neg (of_decide_eq_true he)
      | arrived t i => exact if_neg (of_decide_eq_true he)
      | _ => rfl

theorem serials_cons (b round : Nat) (e : Event) (trace : List Event) :
    serials b round (e :: trace) =
      serials b round trace + if isSerial b round e = true then 1 else 0 :=
  List.countP_cons

/-! ### The invariant -/

/-- The facts about one barrier: its counters are what its events say, and its rounds are as they
should be. -/
structure SerialAt (s : State) (b : Nat) : Prop where
  count : .barrierInit b ∈ s.trace → (s.barrierCounts (s.barriers b)).currentCount =
    (arrivals b (completions b s.trace) s.trace).length
  flag : .barrierInit b ∈ s.trace →
    (s.barrierCounts (s.barriers b)).printSerialThread = !lastReturned b s.trace
  fresh : .barrierInit b ∉ s.trace → completions b s.trace = 0 ∧
    arrivals b 0 s.trace = [] ∧ lastReturned b s.trace = false
  calls : ∀ round, round < completions b s.trace →
    ((arrivals b round s.trace).length : Int) = (s.barrierCounts (s.barriers b)).maxCount
  serial : ∀ round, serials b round s.trace = if round < completions b s.trace then 1 else 0

/-- A context on the processor or in `tcbList`. -/
def Held (s : State) (point : Point) : Prop := point = s.cpu.point ∨ ∃ t, point = (s.buf t).point

structure SerialInv (s : State) : Prop where
  id : ∀ b, .barrierInit b ∈ s.trace → s.barriers b < s.barrierId
  distinct : ∀ b b', .barrierInit b ∈ s.trace → .barrierInit b' ∈ s.trace →
    s.barriers b = s.barriers b' → b = b'
  each : ∀ b, SerialAt s b
  context : ∀ point b round, Held s point → AtBarrier b round point → .barrierInit b ∈ s.trace

theorem SerialInv.one {s : State} (h : SerialInv s) : OneSerial s :=
  ⟨fun b => (h.each b).calls, fun b => (h.each b).serial⟩

theorem initial_serial (mutexes : Nat → MutexData) (barriers : Nat → Nat) (regs : Nat) :
    SerialInv (initial mutexes barriers regs) where
  id := nofun
  distinct := nofun
  each := fun _ => ⟨nofun, nofun, fun _ => ⟨rfl, rfl, rfl⟩, nofun, fun _ => rfl⟩
  context := by
    rintro point b round (rfl | ⟨t, rfl⟩) hat
    · exact absurd hat (not_atBarrier rfl)
    · exact absurd hat (not_atBarrier rfl)

variable {s s' : State} {a : Action}

/-! ### Steps -/

private theorem SerialAt.congr {b : Nat} (h : SerialAt s b)
    (hcounts : .barrierInit b ∈ s.trace →
      s'.barrierCounts (s'.barriers b) = s.barrierCounts (s.barriers b))
    (hsame : SameRounds b s.trace s'.trace) : SerialAt s' b where
  count := by
    intro hb
    rw [hsame.init] at hb
    rw [hcounts hb, hsame.completions, hsame.arrivals]
    exact h.count hb
  flag := by
    intro hb
    rw [hsame.init] at hb
    rw [hcounts hb, hsame.lastReturned]
    exact h.flag hb
  fresh := by
    rw [hsame.init, hsame.completions, hsame.arrivals, hsame.lastReturned]
    exact h.fresh
  calls := by
    intro round hround
    rw [hsame.completions] at hround
    have hb : .barrierInit b ∈ s.trace := by
      by_contra hb
      rw [(h.fresh hb).1] at hround
      exact Nat.not_lt_zero _ hround
    rw [hsame.arrivals, hcounts hb]
    exact h.calls round hround
  serial := by
    intro round
    rw [hsame.completions, hsame.serials]
    exact h.serial round

private theorem SerialInv.change {b : Nat} {counts : Counts} (h : SerialInv s)
    (hinit : .barrierInit b ∈ s.trace) (hbarriers : s'.barriers = s.barriers)
    (hid : s'.barrierId = s.barrierId)
    (hcounts : s'.barrierCounts = Function.update s.barrierCounts (s.barriers b) counts)
    (hmem : ∀ i, .barrierInit i ∈ s'.trace ↔ .barrierInit i ∈ s.trace)
    (hsame : ∀ i, i ≠ b → SameRounds i s.trace s'.trace)
    (hheld : ∀ point i round, Held s' point → AtBarrier i round point → .barrierInit i ∈ s.trace)
    (hat : SerialAt s' b) : SerialInv s' := by
  have hall : ∀ i, SerialAt s' i := by
    intro i
    by_cases hib : i = b
    · subst i
      exact hat
    · refine (h.each i).congr (fun hi => ?_) (hsame i hib)
      rw [hcounts, hbarriers, Function.update_of_ne (fun heq => hib (h.distinct i b hi hinit heq))]
  refine ⟨fun i hi => ?_, fun i j hi hj => ?_, hall, fun point i round hpoint hat' => ?_⟩
  · rw [hbarriers, hid]
    exact h.id i ((hmem i).mp hi)
  · rw [hbarriers]
    exact h.distinct i j ((hmem i).mp hi) ((hmem j).mp hj)
  · exact (hmem i).mpr (hheld point i round hpoint hat')

private theorem SerialInv.quiet (h : SerialInv s) (hbarriers : s'.barriers = s.barriers)
    (hid : s'.barrierId = s.barrierId) (hcounts : s'.barrierCounts = s.barrierCounts)
    (events : List Event) (htrace : s'.trace = events ++ s.trace)
    (hoff : ∀ b, ∀ e ∈ events, OffBarrier b e = true)
    (hheld : ∀ point b round, Held s' point → AtBarrier b round point →
      ∃ old, Held s old ∧ AtBarrier b round old) : SerialInv s' := by
  have hsame : ∀ b, SameRounds b s.trace s'.trace := by
    intro b
    rw [htrace]
    exact sameRounds_append events (hoff b)
  have hall : ∀ b, SerialAt s' b := by
    intro b
    refine (h.each b).congr (fun _ => ?_) (hsame b)
    rw [hcounts, hbarriers]
  refine ⟨fun b hb => ?_, fun b b' hb hb' => ?_, hall, fun point b round hpoint hat => ?_⟩
  · rw [hbarriers, hid]
    exact h.id b ((hsame b).init.mp hb)
  · rw [hbarriers]
    exact h.distinct b b' ((hsame b).init.mp hb) ((hsame b').init.mp hb')
  · obtain ⟨old, hold, hat'⟩ := hheld point b round hpoint hat
    exact (hsame b).init.mpr (h.context old b round hold hat')

private theorem Held.of_switch {t : Nat} {point : Point} (hswitch : Switch s s' t)
    (h : Held s' point) : Held s point := by
  have hbuf : ∀ u, Held s (s'.buf u).point := by
    intro u
    rw [hswitch.buf]
    split
    · exact .inl rfl
    · exact .inr ⟨u, rfl⟩
  rcases h with rfl | ⟨u, rfl⟩
  · rw [hswitch.cpu]
    exact hbuf t
  · exact hbuf u

private theorem SerialInv.barrierInit {b : Nat} {maxCount : Int} (h : SerialInv s)
    (hnew : .barrierInit b ∉ s.trace) : SerialInv (addBarrier s b maxCount) := by
  obtain ⟨hnone, hempty, hquiet⟩ := (h.each b).fresh hnew
  have hinit : ∀ i, .barrierInit i ∈ (addBarrier s b maxCount).trace ↔
      i = b ∨ .barrierInit i ∈ s.trace := by
    simp
  have hold : ∀ i, .barrierInit i ∈ s.trace → i ≠ b := by
    rintro i hi rfl
    exact hnew hi
  have hcompl : completions b (addBarrier s b maxCount).trace = 0 :=
    (completions_of_ne (by simp)).trans hnone
  have hall : ∀ i, SerialAt (addBarrier s b maxCount) i := by
    intro i
    by_cases hib : i = b
    · subst i
      refine ⟨fun _ => ?_, fun _ => ?_, fun hb => ?_, fun round hround => ?_, fun round => ?_⟩
      · have harrivals : arrivals b 0 (addBarrier s b maxCount).trace = [] := hempty
        rw [hcompl, harrivals]
        simp
      · have hflag : lastReturned b (addBarrier s b maxCount).trace = false := hquiet
        rw [hflag]
        simp
      · exact absurd ((hinit b).mpr (.inl rfl)) hb
      · rw [hcompl] at hround
        exact absurd hround (Nat.not_lt_zero _)
      · rw [hcompl, addBarrier_trace, serials_cons, (h.each b).serial, hnone]
        rfl
    · refine (h.each i).congr (fun hi => ?_)
        (sameRounds_append [.barrierInit b] (by simp [OffBarrier, Ne.symm hib]))
      have hlt := h.id i hi
      rw [addBarrier_barriers, Function.update_of_ne hib, addBarrier_barrierCounts,
        Function.update_of_ne (by omega)]
  refine ⟨fun i hi => ?_, fun i j hi hj heq => ?_, hall, fun point i round hpoint hat => ?_⟩
  · rw [addBarrier_barrierId]
    rcases (hinit i).mp hi with rfl | hi
    · simp
    · have := h.id i hi
      simp only [addBarrier_barriers, Function.update_of_ne (hold i hi)]
      omega
  · simp only [addBarrier_barriers] at heq
    rcases (hinit i).mp hi with rfl | hi' <;> rcases (hinit j).mp hj with rfl | hj'
    · rfl
    · have := h.id j hj'
      rw [Function.update_self, Function.update_of_ne (hold j hj')] at heq
      omega
    · have := h.id i hi'
      rw [Function.update_self, Function.update_of_ne (hold i hi')] at heq
      omega
    · rw [Function.update_of_ne (hold i hi'), Function.update_of_ne (hold j hj')] at heq
      exact h.distinct i j hi' hj' heq
  · exact (hinit i).mpr (.inr (h.context point i round hpoint hat))

/-- The running thread waits: one more arrival in the current round, and the flag is set. -/
private theorem SerialInv.arrive {b : Nat} (h : SerialInv s) (hinit : .barrierInit b ∈ s.trace) :
    SerialInv (queueOnBarrier s b) := by
  have hcounts : (queueOnBarrier s b).barrierCounts =
      Function.update s.barrierCounts (s.barriers b) (s.barrierCounts (s.barriers b)).arrival := rfl
  have hentry : (queueOnBarrier s b).barrierCounts ((queueOnBarrier s b).barriers b) =
      (s.barrierCounts (s.barriers b)).arrival :=
    Function.update_self _ _ _
  have htrace : (queueOnBarrier s b).trace = .arrived s.currentThreadID b :: s.trace := rfl
  have hcompl : completions b (queueOnBarrier s b).trace = completions b s.trace :=
    completions_of_ne (by simp)
  refine h.change hinit rfl rfl hcounts (by simp)
    (fun i hi => sameRounds_append [.arrived s.currentThreadID b] (by simp [OffBarrier, Ne.symm hi]))
    (fun point i round hpoint hat => ?_)
    ⟨fun _ => ?_, fun _ => ?_, fun hb => ?_, fun round hround => ?_, fun round => ?_⟩
  · rcases hpoint with rfl | ⟨t, rfl⟩
    · rcases hat with hat | hat <;> cases hat
      exact hinit
    · rw [queueOnBarrier_buf] at hat
      exact h.context _ i round (.inr ⟨t, rfl⟩) hat
  · rw [hentry, hcompl, htrace, arrivals, if_pos ⟨rfl, rfl⟩, List.length_append, Int.natCast_add,
      ← (h.each b).count hinit]
    rfl
  · rw [hentry, htrace, lastReturned, if_pos rfl]
    rfl
  · exact absurd (List.mem_cons_of_mem _ hinit) hb
  · rw [hcompl] at hround
    rw [hentry, htrace, arrivals, if_neg (fun hr => by omega)]
    exact (h.each b).calls round hround
  · rw [hcompl, htrace, serials_cons, (h.each b).serial]
    rfl

/-- The round is complete: this call is the serial one, and leaves the flag cleared. -/
private theorem SerialInv.complete {b : Nat} (h : SerialInv s) (hinit : .barrierInit b ∈ s.trace)
    (hcount : (s.barrierCounts (s.barriers b)).maxCount =
      (s.barrierCounts (s.barriers b)).currentCount + 1) : SerialInv (completeRound s b) := by
  have hcounts : (completeRound s b).barrierCounts = Function.update s.barrierCounts (s.barriers b)
      { (s.barrierCounts (s.barriers b)).arrival with
        currentCount := 0, printSerialThread := false } := by
    refine (Function.update_idem _ _ _).trans ?_
    simp [Counts.arrival]
  have hentry : (completeRound s b).barrierCounts ((completeRound s b).barriers b) =
      { (s.barrierCounts (s.barriers b)).arrival with
        currentCount := 0, printSerialThread := false } := by
    rw [hcounts]
    exact Function.update_self _ _ _
  have htrace : (completeRound s b).trace =
      .left s.currentThreadID b (completions b s.trace) true :: .completed b ::
        .arrived s.currentThreadID b :: s.trace := by
    simp [Counts.arrival]
  have hcompl : completions b (completeRound s b).trace = completions b s.trace + 1 := by
    rw [htrace, completions_of_ne (by simp), completions_completed, completions_of_ne (by simp)]
  have harrivals : ∀ round, arrivals b round (completeRound s b).trace =
      arrivals b round (.arrived s.currentThreadID b :: s.trace) := by
    intro round
    rw [htrace]
    rfl
  refine h.change hinit rfl rfl hcounts (by simp) (fun i hi => ?_)
    (fun point i round hpoint hat => ?_)
    ⟨fun _ => ?_, fun _ => ?_, fun hb => ?_, fun round hround => ?_, fun round => ?_⟩
  · rw [htrace]
    exact sameRounds_append [_, _, _] (by simp [OffBarrier, Ne.symm hi])
  · rcases hpoint with rfl | ⟨t, rfl⟩
    · exact absurd hat (not_atBarrier rfl)
    · rw [completeRound_buf] at hat
      exact h.context _ i round (.inr ⟨t, rfl⟩) hat
  · rw [hentry, hcompl, harrivals, arrivals_later]
    · rfl
    · rw [completions_of_ne (by simp)]
      exact Nat.lt_succ_self _
  · rw [hentry, htrace, lastReturned, if_pos rfl]
    rfl
  · exact absurd (htrace ▸ by simp [hinit]) hb
  · rw [hcompl] at hround
    rw [hentry, harrivals, arrivals]
    by_cases hlast : completions b s.trace = round
    · -- The calls of the round that is complete now: those that wait, and this one.
      rw [if_pos ⟨rfl, hlast⟩, List.length_append, Int.natCast_add, ← hlast,
        ← (h.each b).count hinit]
      exact hcount.symm
    · rw [if_neg (fun hr => hlast hr.2)]
      exact (h.each b).calls round (by omega)
  · rw [hcompl, htrace, serials_cons, serials_cons, serials_cons, (h.each b).serial]
    by_cases hlast : round = completions b s.trace
    · simp [isSerial, hlast]
    · have hle : round < completions b s.trace + 1 ↔ round < completions b s.trace := by omega
      simp [isSerial, Ne.symm hlast, hle]

/-- A thread comes back from its wait after the last arrival was answered: the flag is clear. -/
private theorem SerialInv.leave {b round : Nat} (h : SerialInv s)
    (hpoint : s.cpu.point = .resume (.barrier b round)) (hlast : lastReturned b s.trace = true) :
    SerialInv (leaveBarrier s b round) := by
  have hinit := h.context s.cpu.point b round (.inl rfl) (.inr hpoint)
  have hflag : (s.barrierCounts (s.barriers b)).printSerialThread = false := by
    rw [(h.each b).flag hinit, hlast]
    rfl
  have hentry : (leaveBarrier s b round).barrierCounts ((leaveBarrier s b round).barriers b) =
      { s.barrierCounts (s.barriers b) with printSerialThread := false } :=
    Function.update_self _ _ _
  have htrace : (leaveBarrier s b round).trace =
      .left s.currentThreadID b round false :: s.trace := by
    rw [leaveBarrier_trace, hflag]
  have hcompl : completions b (leaveBarrier s b round).trace = completions b s.trace :=
    completions_of_ne (by simp)
  have harrivals : ∀ r, arrivals b r (leaveBarrier s b round).trace = arrivals b r s.trace :=
    fun r => rfl
  refine h.change hinit rfl rfl rfl (by simp) (fun i hi => ?_) (fun point i r hheld hat => ?_)
    ⟨fun _ => ?_, fun _ => ?_, fun hb => ?_, fun r hr => ?_, fun r => ?_⟩
  · rw [htrace]
    exact sameRounds_append [_] (by simp [OffBarrier, Ne.symm hi])
  · rcases hheld with rfl | ⟨t, rfl⟩
    · exact absurd hat (not_atBarrier rfl)
    · exact h.context _ i r (.inr ⟨t, rfl⟩) hat
  · rw [hentry, hcompl, harrivals]
    exact (h.each b).count hinit
  · rw [hentry, htrace, lastReturned, if_pos rfl]
    rfl
  · exact absurd (List.mem_cons_of_mem _ hinit) hb
  · rw [hcompl] at hr
    rw [hentry, harrivals]
    exact (h.each b).calls r hr
  · rw [hcompl, htrace, serials_cons, (h.each b).serial]
    simp [isSerial]

private theorem held_update (hpoint : s'.cpu.point = .user)
    (hbuf : ∀ t, (s'.buf t).point = .user ∨ s'.buf t = s.buf t) (point : Point) (b round : Nat)
    (h : Held s' point) (hat : AtBarrier b round point) :
    ∃ old, Held s old ∧ AtBarrier b round old := by
  rcases h with rfl | ⟨t, rfl⟩
  · exact absurd hat (not_atBarrier hpoint)
  · rcases hbuf t with huser | hsame
    · exact absurd hat (not_atBarrier huser)
    · exact ⟨_, .inr ⟨t, congrArg Context.point hsame⟩, hat⟩

theorem SerialInv.step (h : SerialInv s) (huse : ProperUse s a) (hreturns : ReturnsFirst s a)
    (heff : Effect s a s') : SerialInv s' := by
  cases heff with
  | compute regs hpoint =>
    exact h.quiet rfl rfl rfl [] rfl (by simp) (held_update rfl fun _ => .inr rfl)
  | timer hfirst hswitch =>
    exact h.quiet hswitch.barriers hswitch.barrierId hswitch.barrierCounts [_, _] hswitch.trace
      (by simp [OffBarrier]) (fun point b round hpoint hat => ⟨point, hpoint.of_switch hswitch, hat⟩)
  | createFailed hpoint hfail =>
    exact h.quiet rfl rfl rfl [] rfl (by simp) (held_update hpoint fun _ => .inr rfl)
  | create hpoint hlt hfirst =>
    refine h.quiet rfl rfl rfl [_] rfl (by simp [OffBarrier]) (held_update hpoint fun t => ?_)
    rw [addThread_buf]
    split
    · exact .inl rfl
    · exact .inr rfl
  | createFirst hpoint hlt hfirst =>
    refine h.quiet rfl rfl rfl [_] rfl (by simp [OffBarrier]) (held_update hpoint fun t => ?_)
    rw [schedulerInit_buf, setFirst_buf, addThread_buf]
    split
    · exact .inl rfl
    · exact .inr rfl
  | exitSwitch hpoint hmore hswitch =>
    refine h.quiet hswitch.barriers hswitch.barrierId hswitch.barrierCounts [_, _, _] hswitch.trace
      (by simp [OffBarrier]) (fun point b round hheld hat => ?_)
    rcases hheld.of_switch hswitch with rfl | ⟨t, rfl⟩
    · rcases hat with hat | hat <;> cases hat
    · rw [markExited_buf] at hat
      exact ⟨_, .inr ⟨t, rfl⟩, hat⟩
  | exitToMain hpoint hlast hmain =>
    refine h.quiet rfl rfl rfl [_, _, _] rfl (by simp [OffBarrier])
      (fun point b round hheld hat => ?_)
    rcases hheld with rfl | ⟨t, rfl⟩
    · rw [jumpToMain_cpu, markExited_buf] at hat
      exact ⟨_, .inr ⟨0, rfl⟩, hat⟩
    · rw [jumpToMain_buf, markExited_buf] at hat
      exact ⟨_, .inr ⟨t, rfl⟩, hat⟩
  | mutexInit hpoint hlt =>
    exact h.quiet rfl rfl rfl [_] rfl (by simp [OffBarrier]) (held_update hpoint fun _ => .inr rfl)
  | mutexDestroy hpoint => exact huse.elim
  | acquire hpoint hlock =>
    exact h.quiet rfl rfl rfl [_] rfl (by simp [OffBarrier]) (held_update hpoint fun _ => .inr rfl)
  | queue hpoint hlock =>
    refine h.quiet rfl rfl rfl [_] rfl (by simp [OffBarrier]) (fun point b round hheld hat => ?_)
    rcases hheld with rfl | ⟨t, rfl⟩
    · rcases hat with hat | hat <;> cases hat
    · rw [queueOnMutex_buf] at hat
      exact ⟨_, .inr ⟨t, rfl⟩, hat⟩
  | unlockFree hpoint hlist =>
    exact h.quiet rfl rfl rfl [_] rfl (by simp [OffBarrier]) (held_update hpoint fun _ => .inr rfl)
  | unlockGrant hpoint hlist =>
    exact h.quiet rfl rfl rfl [_, _] rfl (by simp [OffBarrier])
      (held_update hpoint fun _ => .inr (by simp))
  | barrierRefused hpoint => exact h
  | barrierInit hpoint hcount hlt => exact h.barrierInit huse
  | barrierDestroy hpoint => exact huse.elim
  | arrive hpoint hcount => exact h.arrive huse
  | complete hpoint hcount => exact h.complete huse hcount
  | @proceedSchedule w _ t hpoint hswitch =>
    refine h.quiet hswitch.barriers hswitch.barrierId hswitch.barrierCounts [_, _] hswitch.trace
      (by simp [OffBarrier]) (fun point b round hheld hat => ?_)
    rcases hheld.of_switch hswitch with rfl | ⟨u, rfl⟩
    · refine ⟨s.cpu.point, .inl rfl, .inl ?_⟩
      rcases hat with hat | hat <;> cases hat
      exact hpoint
    · exact ⟨_, .inr ⟨u, rfl⟩, hat⟩
  | proceedReturn hpoint =>
    exact h.quiet rfl rfl rfl [_] rfl (by simp [OffBarrier]) (held_update rfl fun _ => .inr rfl)
  | @proceedLeave b round hpoint => exact h.leave hpoint (hreturns b (by rw [hpoint]; rfl))

/-- A thread that comes back after the next arrival reads the flag that this arrival has set. -/
theorem SerialInv.second_serial (h : SerialInv s) (hlate : ¬ ReturnsFirst s a)
    (heff : Effect s a s') : ¬ OneSerial s' := by
  cases heff with
  | proceedSchedule hpoint hswitch =>
    exact absurd (by simp [ReturnsFirst, hpoint, returningFrom]) hlate
  | proceedReturn hpoint => exact absurd (by simp [ReturnsFirst, hpoint, returningFrom]) hlate
  | @proceedLeave b round hpoint =>
    have hlast : lastReturned b s.trace = false := by
      simpa [ReturnsFirst, hpoint, returningFrom] using hlate
    have hinit := h.context s.cpu.point b round (.inl rfl) (.inr hpoint)
    have htrace : (leaveBarrier s b round).trace =
        .left s.currentThreadID b round true :: s.trace := by
      rw [leaveBarrier_trace, (h.each b).flag hinit, hlast]
      rfl
    have hcompl : completions b (leaveBarrier s b round).trace = completions b s.trace :=
      completions_of_ne (by simp)
    intro hone
    have hnew := hone.serial b round
    rw [hcompl, htrace, serials_cons, (h.each b).serial] at hnew
    simp [isSerial] at hnew
  | _ => exact absurd trivial hlate

/-- **One serial thread per round**: among the `maxCount` calls of a complete round exactly one has
returned `PTHREAD_BARRIER_SERIAL_THREAD`, and none of a round that is not complete, in the runs in
which every thread that waited returns before the next arrival at its barrier, and in no others. -/
theorem one_serial_iff (mutexes : Nat → MutexData) (barriers : Nat → Nat) (regs : Nat)
    (actions : List Action)
    (huse : EachStep (fun s a _ => ProperUse s a) (initial mutexes barriers regs)
      (trail step (initial mutexes barriers regs) actions)) :
    Always OneSerial (initial mutexes barriers regs)
        (trail step (initial mutexes barriers regs) actions) ↔
      EachStep (fun s a _ => ReturnsFirst s a) (initial mutexes barriers regs)
        (trail step (initial mutexes barriers regs) actions) :=
  always_iff_eachStep (I := SerialInv) (fun _ h => h.one)
    (fun _ _ _ hs hreturns hstep => hs.step hstep.2 hreturns (step_effect hstep.1))
    (fun _ _ _ hs hlate hstep => hs.second_serial hlate (step_effect hstep.1))
    (initial_serial mutexes barriers regs)
    ((eachStep_trail step (initial mutexes barriers regs) actions).and huse)

/-- Two rounds of main and one thread on a barrier for two, one after the other. -/
theorem one_serial_twice :
    Always OneSerial (initial (fun _ => ⟨0, 0, 0⟩) (fun _ => 0) 0)
      (trail step (initial (fun _ => ⟨0, 0, 0⟩) (fun _ => 0) 0)
        [.barrierInit 3 2, .create true 7, .timer, .barrierWait 3, .proceed, .barrierWait 3, .timer,
          .proceed, .barrierWait 3, .proceed, .barrierWait 3, .timer, .proceed]) :=
  (one_serial_iff (fun _ => ⟨0, 0, 0⟩) (fun _ => 0) 0 _ (by decide +kernel)).mpr (by decide +kernel)

/-- Thread 1 completes the round in which main waits and arrives for the next one before main runs:
main returns as a second serial thread of the first round. -/
theorem two_serial_threads :
    EachStep (fun s a _ => ProperUse s a) (initial (fun _ => ⟨0, 0, 0⟩) (fun _ => 0) 0)
        (trail step (initial (fun _ => ⟨0, 0, 0⟩) (fun _ => 0) 0)
          [.barrierInit 3 2, .create true 7, .barrierWait 3, .proceed, .barrierWait 3,
            .barrierWait 3, .proceed, .proceed]) ∧
      ¬ Always OneSerial (initial (fun _ => ⟨0, 0, 0⟩) (fun _ => 0) 0)
        (trail step (initial (fun _ => ⟨0, 0, 0⟩) (fun _ => 0) 0)
          [.barrierInit 3 2, .create true 7, .barrierWait 3, .proceed, .barrierWait 3,
            .barrierWait 3, .proceed, .proceed]) := by
  refine ⟨by decide +kernel, fun h => ?_⟩
  have hround := h.mono (fun s hs => hs.serial 3 0)
  revert hround
  decide +kernel

end OSChallenges.Threads
