import OSChallenges.Library.RoundRobin
import OSChallenges.Library.Runs
import OSChallenges.Threads.Steps

/-!
# Taking turns

From the thread that ran last `schedule` goes on to the first one after it, in cyclic order, that has
neither exited nor is blocked. So as long as these threads stay the same they take turns.
-/

namespace OSChallenges.Threads

open State Runs RoundRobin

/-- The thread `k + 1` places after `x`, in cyclic order over 0 to `n`. -/
def turn (n x k : Nat) : Nat := (x + 1 + k) % (n + 1)

/-- The first element strictly after `x` in cyclic order over 0 to `n`, `x` itself coming last. -/
def nextAfter (n : Nat) (R : Finset Nat) (x : Nat) : Nat :=
  (((List.range (n + 1)).map (turn n x)).find? (· ∈ R)).getD x

/-- The threads of `R` are ready or running, the others up to `n` have exited or are blocked. -/
structure Ready (n : Nat) (R : Finset Nat) (s : State) : Prop where
  threads : s.numOfThreads = n
  top : s.topThread ≤ n
  member : ∀ t ∈ R, s.status t = .ready ∨ s.status t = .running
  other : ∀ t, t ≤ n → t ∉ R → s.status t = .exited ∨ s.status t = .blocked

/-- A call of `schedule` in the state `a`, some time after the call before. -/
def Call (n : Nat) (R : Finset Nat) (s a s' : State) : Prop :=
  a.topThread = s.topThread ∧ Ready n R a ∧ schedule a = .ok s'

/-- What a call selects, and how. -/
structure SelectsNext (n : Nat) (R : Finset Nat) (s s' : State) (t : Nat) : Prop where
  next : t = nextAfter n R s.topThread
  search : search s (n + 1) s.topThread = .ok t
  running : s'.status t = .running
  current : s'.currentThreadID = t
  top : s'.topThread = t
  ready : Ready n R s'

variable {n k j x y t rounds top : Nat} {R : Finset Nat} {s m s' : State}

/-! ### Cyclic order -/

theorem turn_le : turn n x k ≤ n := Nat.le_of_lt_succ (Nat.mod_lt _ (Nat.succ_pos n))

theorem turn_turn : turn n (turn n x 0) k = turn n x (k + 1) := by
  unfold turn
  rw [Nat.add_assoc, Nat.mod_add_mod]
  congr 1
  omega

theorem turn_eq (hx : x ≤ n) (hk : k ≤ n) :
    turn n x k = if x + 1 + k ≤ n then x + 1 + k else x + k - n := by
  unfold turn
  split
  · rw [Nat.mod_eq_of_lt (by omega)]
  · rw [Nat.mod_eq_sub_mod (by omega), Nat.mod_eq_of_lt (by omega)]
    omega

theorem exists_turn (hx : x ≤ n) (hy : y ≤ n) : ∃ k, k ≤ n ∧ turn n x k = y := by
  by_cases h : x < y
  · refine ⟨y - x - 1, by omega, ?_⟩
    rw [turn_eq hx (by omega), if_pos (by omega)]
    omega
  · refine ⟨y + n - x, by omega, ?_⟩
    rw [turn_eq hx (by omega), if_neg (by omega)]
    omega

theorem nextAfter_spec (hne : R.Nonempty) (hle : ∀ t ∈ R, t ≤ n) (x : Nat) :
    ∃ k, k ≤ n ∧ nextAfter n R x = turn n x k ∧ turn n x k ∈ R ∧ ∀ j, j < k → turn n x j ∉ R := by
  obtain ⟨t, ht⟩ := hne
  obtain ⟨i, hi, hturn⟩ := exists_turn (Nat.le_of_lt_succ (Nat.mod_lt x (Nat.succ_pos n))) (hle t ht)
  have hshift : turn n x i = t := by
    rw [← hturn, turn, turn, Nat.add_assoc, ← Nat.mod_add_mod, ← Nat.add_assoc]
  obtain ⟨k, hfind⟩ : ∃ k, (List.range (n + 1)).find? (fun k => decide (turn n x k ∈ R)) = some k := by
    rw [← Option.isSome_iff_exists, List.find?_isSome]
    exact ⟨i, List.mem_range.mpr (by omega), decide_eq_true (hshift ▸ ht)⟩
  obtain ⟨hmem, hk, hfirst⟩ := List.find?_range_eq_some.mp hfind
  refine ⟨k, Nat.le_of_lt_succ (List.mem_range.mp hk), ?_, of_decide_eq_true hmem, fun j hj hj' => ?_⟩
  · rw [nextAfter, List.find?_map]
    show (Option.map (turn n x) ((List.range (n + 1)).find? fun k => decide (turn n x k ∈ R))).getD x = _
    rw [hfind]
    rfl
  · simpa [hj'] using hfirst j hj

theorem nextAfter_mem (hne : R.Nonempty) (hle : ∀ t ∈ R, t ≤ n) (x : Nat) : nextAfter n R x ∈ R := by
  obtain ⟨k, -, heq, hmem, -⟩ := nextAfter_spec hne hle x
  rw [heq]
  exact hmem

/-- How many places `y` is after `x`. -/
def ahead (n y x : Nat) : Nat := if x ≤ y then y - x else y + (n + 1) - x

/-- The selection does not go past an element. -/
theorem ahead_nextAfter (hne : R.Nonempty) (hle : ∀ t ∈ R, t ≤ n) (hx : x ≤ n) (hy : y ∈ R)
    (hxy : x ≠ y) : ahead n y (nextAfter n R x) < ahead n y x := by
  obtain ⟨k, hk, heq, -, hfirst⟩ := nextAfter_spec hne hle x
  have hyn := hle y hy
  obtain ⟨j, hj, hturn⟩ := exists_turn hx hyn
  have hkj : k ≤ j := by
    by_contra hlt
    exact hfirst j (Nat.lt_of_not_le hlt) (hturn ▸ hy)
  rw [turn_eq hx hj] at hturn
  rw [heq, turn_eq hx hk]
  unfold ahead
  split at hturn <;> split <;> split <;> split <;> omega

theorem reaches_nextAfter (hne : R.Nonempty) (hle : ∀ t ∈ R, t ≤ n) :
    ∀ x ∈ R, ∀ y ∈ R, ∃ k, (nextAfter n R)^[k] x = y := by
  intro x hx y hy
  refine reaches_of_closer (ahead n y) (fun x _ => nextAfter_mem hne hle x) ?_ hx
  intro z hz hzy
  exact ahead_nextAfter hne hle (hle z hz) hy hzy

/-! ### The search -/

theorem turn_zero (h : top ≤ s.numOfThreads) : advance s top = turn s.numOfThreads top 0 :=
  advance_eq h

/-- The search ends at the first thread that can run. -/
theorem search_turn (hn : s.numOfThreads < maxThreads) (htop : top ≤ s.numOfThreads)
    (hfirst : ∀ j, j < k → ¬ s.Runnable (turn s.numOfThreads top j))
    (hrun : s.Runnable (turn s.numOfThreads top k)) (hk : k < rounds) :
    search s rounds top = .ok (turn s.numOfThreads top k) := by
  induction rounds generalizing top k with
  | zero => omega
  | succ rounds ih =>
    have hle := advance_le htop
    rw [search, if_neg (by omega)]
    rw [turn_zero htop] at hle ⊢
    cases k with
    | zero => rw [if_pos hrun]
    | succ k =>
      rw [if_neg (hfirst 0 (Nat.succ_pos k)), ← turn_turn]
      apply ih hle
      · intro j hj
        rw [turn_turn]
        exact hfirst (j + 1) (Nat.succ_lt_succ hj)
      · rwa [turn_turn]
      · exact Nat.lt_of_succ_lt_succ hk

theorem search_congr (hthreads : m.numOfThreads = s.numOfThreads)
    (hrun : ∀ t, m.Runnable t ↔ s.Runnable t) : search m rounds top = search s rounds top := by
  induction rounds generalizing top with
  | zero => rfl
  | succ rounds ih =>
    have hadvance : advance m top = advance s top := by
      unfold advance
      rw [hthreads]
    rw [search, search, hadvance, ih]
    simp only [hrun]

theorem schedule_of_search (h : search s (s.numOfThreads + 1) s.topThread = .ok t) :
    ∃ m, schedule s = .ok (switchTo m t) := by
  have hframe := markReady_frame (s.log (.stopped s.currentThreadID s.cpu))
  have hsame := markReady_runnable (s.log (.stopped s.currentThreadID s.cpu))
  unfold schedule
  generalize markReady (s.log (.stopped s.currentThreadID s.cpu)) = m at hframe hsame ⊢
  have htop : m.topThread = s.topThread := by
    rw [hframe]
    rfl
  have hthreads : m.numOfThreads = s.numOfThreads := by
    rw [hframe]
    rfl
  have hrun : ∀ u, m.Runnable u ↔ s.Runnable u := hsame
  simp only [htop]
  by_cases hexited : m.status s.topThread = .exited
  · rw [if_pos hexited, hthreads, search_congr hthreads hrun, h]
    exact ⟨_, rfl⟩
  · rw [if_neg hexited]
    have hsaved : search (m.setBuf s.topThread m.cpu) (s.numOfThreads + 1) s.topThread = .ok t := by
      rw [← h]
      refine search_congr hthreads fun u => ?_
      rw [State.Runnable, setBuf_status]
      exact hrun u
    refine ⟨m.setBuf s.topThread m.cpu, ?_⟩
    rw [show (m.setBuf s.topThread m.cpu).numOfThreads = s.numOfThreads from hthreads,
      show (m.setBuf s.topThread m.cpu).topThread = s.topThread from htop, hsaved]
    rfl

theorem Ready.runnable_iff (h : Ready n R s) (ht : t ≤ n) : s.Runnable t ↔ t ∈ R := by
  unfold State.Runnable
  constructor
  · intro hrun
    by_contra hnot
    obtain hexited | hblocked := h.other t ht hnot
    · exact hrun.1 hexited
    · exact hrun.2 hblocked
  · intro hmem
    obtain hready | hrunning := h.member t hmem
    · rw [hready]
      decide
    · rw [hrunning]
      decide

theorem Ready.search_eq (h : Ready n R s) (hn : n < maxThreads) (hne : R.Nonempty)
    (hle : ∀ t ∈ R, t ≤ n) : search s (n + 1) s.topThread = .ok (nextAfter n R s.topThread) := by
  obtain ⟨k, hk, heq, hmem, hfirst⟩ := nextAfter_spec hne hle s.topThread
  have hthreads := h.threads
  subst hthreads
  rw [heq]
  refine search_turn hn h.top (fun j hj hrun => ?_) ((h.runnable_iff turn_le).mpr hmem) (by omega)
  exact hfirst j hj ((h.runnable_iff turn_le).mp hrun)

/-! ### One call -/

theorem Ready.schedule (h : Ready n R s) (hn : n < maxThreads) (hne : R.Nonempty)
    (hle : ∀ t ∈ R, t ≤ n) : ∃ s', schedule s = .ok s' ∧
      SelectsNext n R s s' (nextAfter n R s.topThread) := by
  have hthreads := h.threads
  subst hthreads
  have hsearch := h.search_eq hn hne hle
  obtain ⟨m, hschedule⟩ := schedule_of_search hsearch
  obtain ⟨t, hswitch⟩ := schedule_switch hschedule
  obtain rfl : nextAfter s.numOfThreads R s.topThread = t := hswitch.current
  refine ⟨_, hschedule, ⟨rfl, hsearch, ?_, hswitch.current, hswitch.top, ?_⟩⟩
  · rw [hswitch.status, if_pos rfl]
  · have hmem := nextAfter_mem hne hle s.topThread
    refine ⟨hswitch.numOfThreads, ?_, ?_, ?_⟩
    · rw [hswitch.top]
      exact hle _ hmem
    · intro u hu
      rw [hswitch.status]
      split
      · exact .inr rfl
      · split
        · exact .inl rfl
        · exact h.member u hu
    · intro u hun hu
      obtain hexited | hblocked := h.other u hun hu
      · exact .inl (hswitch.exited.mpr hexited)
      · exact .inr (hswitch.blocked.mpr hblocked)

/-! ### Many calls -/

/-- The threads that the calls of a run have selected. -/
def selected (run : List (State × State)) : List Nat := run.map fun e => e.2.currentThreadID

theorem selects_of_calls (hn : n < maxThreads) (hne : R.Nonempty) (hle : ∀ t ∈ R, t ≤ n)
    {run : List (State × State)} (h : EachStep (Call n R) s run) :
    Selects (nextAfter n R) s.topThread (selected run) := by
  induction run generalizing s with
  | nil => trivial
  | cons entry rest ih =>
    obtain ⟨a, s₁⟩ := entry
    obtain ⟨⟨htop, hready, hcall⟩, hrest⟩ := h
    obtain ⟨s₂, hcall', hselects⟩ := hready.schedule hn hne hle
    obtain rfl : s₁ = s₂ := Except.ok.inj (hcall.symm.trans hcall')
    have hcurrent := hselects.current
    rw [htop] at hcurrent
    refine ⟨hcurrent, ?_⟩
    have hnext := ih hrest
    rwa [hselects.top, ← hselects.current] at hnext

/-- `schedule` is round robin: each call selects the next thread that can run, and any stretch of calls as
long as there are such threads selects each of them once. -/
theorem schedule_round_robin (hn : n ≤ 127) (hne : R.Nonempty) (hle : ∀ t ∈ R, t ≤ n) :
    (∀ s, Ready n R s → ∃ s', schedule s = .ok s' ∧
      SelectsNext n R s s' (nextAfter n R s.topThread)) ∧
    ∀ s (before window after : List (State × State)),
      EachStep (Call n R) s (before ++ window ++ after) → window.length = R.card →
        (selected window).Perm R.toList := by
  have hlt : n < maxThreads := Nat.lt_succ_of_le hn
  constructor
  · intro s h
    exact h.schedule hlt hne hle
  · intro s before window after h hlen
    have hselects := selects_of_calls hlt hne hle h
    rw [selected, List.map_append, List.map_append] at hselects
    refine hselects.perm ?_ (fun x => nextAfter_mem hne hle x) (reaches_nextAfter hne hle)
    rw [List.length_map, hlen]

/-- Main has created two threads. -/
def twoThreads : State :=
  last (initial (fun _ => ⟨0, 0, 0⟩) (fun _ => 0) 0) (trail step
    (initial (fun _ => ⟨0, 0, 0⟩) (fun _ => 0) 0) [.create true 1, .create true 2])

theorem schedule_round_robin_two : ∃ s₁ s₂ s₃, schedule twoThreads = .ok s₁ ∧ schedule s₁ = .ok s₂ ∧
    schedule s₂ = .ok s₃ ∧ (selected [(twoThreads, s₁), (s₁, s₂), (s₂, s₃)]).Perm [0, 1, 2] := by
  have hready : Ready 2 {0, 1, 2} twoThreads :=
    ⟨by decide +kernel, by decide +kernel, by decide +kernel, by decide +kernel⟩
  obtain ⟨hone, hmany⟩ := schedule_round_robin (n := 2) (R := {0, 1, 2}) (by decide) (by decide)
    (by decide)
  obtain ⟨s₁, hcall₁, hnext₁⟩ := hone twoThreads hready
  obtain ⟨s₂, hcall₂, hnext₂⟩ := hone s₁ hnext₁.ready
  obtain ⟨s₃, hcall₃, hnext₃⟩ := hone s₂ hnext₂.ready
  refine ⟨s₁, s₂, s₃, hcall₁, hcall₂, hcall₃, ?_⟩
  have hperm := hmany twoThreads [] [(twoThreads, s₁), (s₁, s₂), (s₂, s₃)] []
    ⟨⟨rfl, hready, hcall₁⟩, ⟨rfl, hnext₁.ready, hcall₂⟩, ⟨rfl, hnext₂.ready, hcall₃⟩, trivial⟩ rfl
  refine hperm.trans ?_
  rw [List.perm_ext_iff_of_nodup (Finset.nodup_toList _) (by decide)]
  simp

end OSChallenges.Threads
