import Mathlib.Data.Finset.Card
import OSChallenges.Library.Outcomes
import OSChallenges.Library.Runs
import OSChallenges.Storage.Interleaved

/-!
# Failed calls and the registry

Every call looks its threads up before its own checks, and a look-up that finds nothing hands out an
entry. So a call that fails leaves the registry as it is exactly if the threads it names are in it, and
a run in which all failing calls do so needs no more entries than it has threads.
-/

namespace OSChallenges.Storage

open Program Words Runs Outcomes

/-- Where `findIndex` looks for a thread and what it leaves, without a bound on the array. -/
def State.slot (s : State) (tid : Nat) : Nat × State :=
  match s.started.lookUp tid with
  | some i => (i, s.started)
  | none => (s.started.maxIndex, s.started.handOut)

/-- The other threads that a call looks up. -/
def Call.others : Call → List Nat
  | .clone tid => [tid]
  | _ => []

/-- The call fails because its size is 0, or because a storage is missing or already there. -/
def Refuses (s : State) (a : Nat × Call) : Prop :=
  match a.2 with
  | .create size => size = 0 ∨ ((s.slot a.1).2.ttpArray (s.slot a.1).1).tls.isSome
  | .clone tid =>
    (((s.slot a.1).2.slot tid).2.ttpArray (s.slot a.1).1).tls.isSome ∨
      (((s.slot a.1).2.slot tid).2.ttpArray ((s.slot a.1).2.slot tid).1).tls = none
  | .read _ _ | .write _ _ _ => ((s.slot a.1).2.ttpArray (s.slot a.1).1).tls = none

/-- A call that fails returns -1 and leaves `ttpArray` and `maxIndex` as they are. -/
def RegistryKept (frame : Nat → Nat) (s : State) (a : Nat × Call) : Prop :=
  Refuses s a → ∃ s', call frame s a.1 a.2 = .ok (⟨-1, []⟩, s') ∧ s'.ttpArray = s.ttpArray ∧
    s'.maxIndex = s.maxIndex

/-- It is not the first call, and `ttpArray` has an entry with each of the ids. -/
def Known (s : State) (tids : List Nat) : Prop :=
  s.firstCall = false ∧ ∀ tid ∈ tids, (s.lookUp tid).isSome

/-- A call that fails has an entry for its caller and for the thread it names. -/
def NamesKnown (s : State) (a : Nat × Call) : Prop :=
  Refuses s a → Known s (a.1 :: a.2.others)

instance Refuses.decidable (s : State) : (a : Nat × Call) → Decidable (Refuses s a)
  | (_, .create _) => inferInstanceAs (Decidable (_ ∨ _))
  | (_, .clone _) => inferInstanceAs (Decidable (_ ∨ _))
  | (_, .read _ _) => inferInstanceAs (Decidable (_ = _))
  | (_, .write _ _ _) => inferInstanceAs (Decidable (_ = _))

instance (s : State) (tids : List Nat) : Decidable (Known s tids) := inferInstanceAs (Decidable (_ ∧ _))

instance (s : State) (a : Nat × Call) : Decidable (NamesKnown s a) :=
  inferInstanceAs (Decidable (_ → _))

/-- The searches of a call, one after the other. -/
def State.searches (s : State) : List Nat → Except Fault State
  | [] => .ok s
  | tid :: rest =>
    match s.findIndex tid with
    | .ok (_, s') => s'.searches rest
    | .error e => .error e

section

variable {frame : Nat → Nat} {s s' s₁ s₂ : State} {self tid i j : Nat} {tids : List Nat}

/-! ### Searches -/

theorem findIndex_of_slot (h : s.started.lookUp tid = none → s.maxIndex + 1 < maxThreads) :
    s.findIndex tid = .ok (s.slot tid) := by
  unfold State.slot
  cases hlook : s.started.lookUp tid with
  | some i => rw [findIndex_known hlook]
  | none =>
    have hroom := h hlook
    rw [← s.maxIndex_started] at hroom
    rw [findIndex_new hlook, if_neg (Nat.not_le.mpr hroom)]

theorem slot_of_findIndex (h : s.findIndex tid = .ok (i, s')) : s.slot tid = (i, s') := by
  unfold State.slot
  obtain ⟨hlook, rfl⟩ | ⟨hlook, -, rfl, rfl⟩ := findIndex_cases h
  · rw [hlook]
  · rw [hlook]

theorem full_of_findIndex_error {e : Fault} (h : s.findIndex tid = .error e) :
    s.started.lookUp tid = none ∧ maxThreads ≤ s.maxIndex + 1 := by
  by_contra hnot
  have hroom : s.started.lookUp tid = none → s.maxIndex + 1 < maxThreads := by
    intro hlook
    by_contra hfull
    exact hnot ⟨hlook, Nat.le_of_not_lt hfull⟩
  rw [findIndex_of_slot hroom] at h
  cases h

theorem State.started_of_not_first (h : s.firstCall = false) : s.started = s := by
  unfold State.started
  rw [h]
  rfl

theorem findIndex_of_known (h : Known s (tid :: tids)) : ∃ i, s.findIndex tid = .ok (i, s) := by
  obtain ⟨hfirst, hall⟩ := h
  have hstarted := State.started_of_not_first hfirst
  obtain ⟨i, hi⟩ := Option.isSome_iff_exists.mp (hall tid List.mem_cons_self)
  refine ⟨i, ?_⟩
  have hslot : s.slot tid = (i, s) := by
    unfold State.slot
    rw [hstarted, hi]
  rw [findIndex_of_slot (fun hnone => ?_), hslot]
  rw [hstarted, hi] at hnone
  cases hnone

theorem searches_of_known (h : Known s tids) : s.searches tids = .ok s := by
  induction tids with
  | nil => rfl
  | cons tid rest ih =>
    obtain ⟨i, hi⟩ := findIndex_of_known h
    rw [State.searches, hi]
    exact ih ⟨h.1, fun other hother => h.2 other (List.mem_cons_of_mem _ hother)⟩

theorem sameStore_searches (h : s.searches tids = .ok s') :
    SameStore s s' ∧ s.maxIndex ≤ s'.maxIndex := by
  induction tids generalizing s with
  | nil =>
    cases h
    exact ⟨SameStore.refl _, Nat.le_refl _⟩
  | cons tid rest ih =>
    rw [State.searches] at h
    cases hfind : s.findIndex tid with
    | error e =>
      rw [hfind] at h
      cases h
    | ok found =>
      rw [hfind] at h
      obtain ⟨hstore, hle⟩ := ih h
      exact ⟨(SameStore.findIndex hfind).trans hstore, (maxIndex_findIndex_le hfind).trans hle⟩

/-- The first call is the one to initialise the first entry. -/
def Fresh (s : State) : Prop := s.firstCall = true → s.maxIndex = 0 ∧ s.ttpArray 0 = ⟨0, none⟩

theorem found_of_maxIndex (h : s.findIndex tid = .ok (i, s₁)) (hmax : s₁.maxIndex ≤ s.maxIndex) :
    s.started.lookUp tid = some i ∧ s₁ = s.started := by
  obtain ⟨hlook, hs⟩ | ⟨-, -, -, hs⟩ := findIndex_cases h
  · exact ⟨hlook, hs⟩
  · have hmore : s₁.maxIndex = s.maxIndex + 1 := by rw [hs, ← s.maxIndex_started]; rfl
    omega

theorem lookUp_of_searches (hfirst : s.firstCall = false) (h : s.searches tids = .ok s')
    (hmax : s'.maxIndex = s.maxIndex) : ∀ tid ∈ tids, (s.lookUp tid).isSome := by
  induction tids with
  | nil => simp
  | cons tid rest ih =>
    rw [State.searches] at h
    cases hfind : s.findIndex tid with
    | error e =>
      rw [hfind] at h
      cases h
    | ok found =>
      obtain ⟨i, s₁⟩ := found
      rw [hfind] at h
      obtain ⟨-, hle⟩ := sameStore_searches h
      obtain ⟨hlook, hs₁⟩ := found_of_maxIndex hfind (by omega)
      rw [State.started_of_not_first hfirst] at hlook hs₁
      rw [hs₁] at h
      exact List.forall_mem_cons.mpr ⟨by rw [hlook]; rfl, ih h⟩

theorem known_of_searches (hfresh : Fresh s) (h : s.searches (tid :: tids) = .ok s')
    (hsame : s'.ttpArray = s.ttpArray) (hmax : s'.maxIndex = s.maxIndex) :
    Known s (tid :: tids) := by
  have hfirst : s.firstCall = false := by
    by_contra htrue
    rw [Bool.not_eq_false] at htrue
    obtain ⟨-, hzero⟩ := hfresh htrue
    rw [State.searches] at h
    cases hfind : s.findIndex tid with
    | error e =>
      rw [hfind] at h
      cases h
    | ok found =>
      obtain ⟨i, s₁⟩ := found
      rw [hfind] at h
      obtain ⟨hstore, hle⟩ := sameStore_searches h
      obtain ⟨-, hs₁⟩ := found_of_maxIndex hfind (by omega)
      have hempty : s₁.ttpArray 0 = emptyTLS := by
        rw [hs₁, State.started, if_pos htrue]
        exact Function.update_self (f := s.ttpArray) 0 emptyTLS
      -- The first entry has been zero, and nothing writes zeros.
      have hstill : s'.ttpArray 0 = emptyTLS := by
        obtain hkept | hkept := hstore.entry 0
        · rw [hkept, hempty]
        · exact hkept
      rw [hsame, hzero] at hstill
      exact absurd hstill (by decide)
  exact ⟨hfirst, lookUp_of_searches hfirst h hmax⟩

/-! ### Calls that fail -/

theorem tlsClone_refused (hi : s.findIndex self = .ok (i, s₁)) (hj : s₁.findIndex tid = .ok (j, s₂))
    (hfail : (s₂.ttpArray i).tls.isSome ∨ (s₂.ttpArray j).tls = none) :
    tlsClone s self tid = .ok (-1, s₂) := by
  unfold tlsClone
  rw [hi]
  simp only [bind, Except.bind]
  rw [hj]
  simp only
  by_cases howned : (s₂.ttpArray i).tls.isSome
  · rw [if_pos howned]
    rfl
  · obtain hsome | hnone := hfail
    · exact absurd hsome howned
    · rw [if_neg howned, hnone]
      rfl

theorem guarded_refused {length : Nat} {rest : Nat → Nat → Code Result}
    (hi : s.findIndex self = .ok (i, s₁)) (hnone : (s₁.ttpArray i).tls = none) :
    (guarded self length rest).run (exec frame) s = .ok (⟨-1, []⟩, s₁) := by
  have hwp : (guarded self length rest).wp (total (exec frame))
      (fun r s' => r = ⟨-1, []⟩ ∧ s' = s₁) s := by
    refine wp_guarded_rejected hi ?_ ⟨rfl, rfl⟩
    intro tls htls
    rw [hnone] at htls
    cases htls
  obtain ⟨r, s', hrun, rfl, rfl⟩ := Prog.wp_total_iff.mp hwp
  exact hrun

theorem call_of_refuses {c : Call} (h : Refuses s (self, c)) :
    call frame s self c =
      (s.searches (self :: c.others)).map fun s' => ((⟨-1, []⟩ : Result), s') := by
  cases hfind : s.findIndex self with
  | error e =>
    rw [call_of_findIndex_error hfind, State.searches, hfind, findIndex_error hfind]
    rfl
  | ok found =>
    obtain ⟨i, s₁⟩ := found
    have hslot := slot_of_findIndex hfind
    cases c with
    | create size =>
      obtain ⟨n, -, -, -, hcreate⟩ := exists_tlsCreate frame size hfind
      unfold Refuses at h
      simp only [hslot] at h
      rw [call, hcreate, if_pos h]
      simp only [Call.others, State.searches, hfind]
      rfl
    | clone tid =>
      simp only [Call.others, State.searches, hfind]
      cases hother : s₁.findIndex tid with
      | error e =>
        rw [clone_of_findIndex_error hfind hother, findIndex_error hother]
        rfl
      | ok found =>
        obtain ⟨j, s₂⟩ := found
        unfold Refuses at h
        simp only [hslot, slot_of_findIndex hother] at h
        rw [call, tlsClone_refused hfind hother h]
        rfl
    | read offset length =>
      simp only [Call.others, State.searches, hfind]
      unfold Refuses at h
      simp only [hslot] at h
      exact guarded_refused hfind h
    | write offset length buffer =>
      simp only [Call.others, State.searches, hfind]
      unfold Refuses at h
      simp only [hslot] at h
      exact guarded_refused hfind h

/-- A failing call keeps the registry exactly if it finds the threads it names. -/
theorem registryKept_iff {a : Nat × Call} (hfresh : Fresh s) :
    RegistryKept frame s a ↔ NamesKnown s a := by
  constructor
  · intro hkept hfail
    obtain ⟨s', hcall, hsame, hmax⟩ := hkept hfail
    rw [call_of_refuses hfail] at hcall
    obtain ⟨s₁, hsearch, heq⟩ := ok_of_map hcall
    cases heq
    exact known_of_searches hfresh hsearch hsame hmax
  · intro hnames hfail
    refine ⟨s, ?_, rfl, rfl⟩
    rw [call_of_refuses hfail, searches_of_known (hnames hfail)]
    rfl

/-! ### Calls that do not fail -/

/-- The entries below `maxIndex` have storages of different threads, and so has the one at `maxIndex`
if it has one. -/
structure Tight (threads : Finset Nat) (s : State) : Prop where
  bound : s.maxIndex < maxThreads
  fresh : Fresh s
  taken : ∀ i, i < s.maxIndex → (s.ttpArray i).tls.isSome
  owner : ∀ i, i ≤ s.maxIndex → (s.ttpArray i).tls.isSome → (s.ttpArray i).tid ∈ threads
  distinct : ∀ i j, i < j → j ≤ s.maxIndex → (s.ttpArray i).tls.isSome →
    (s.ttpArray j).tls.isSome → (s.ttpArray i).tid ≠ (s.ttpArray j).tid

variable {threads : Finset Nat}

theorem Tight.initial (threads : Finset Nat) (memory : Nat → UInt8) :
    Tight threads (initial memory) where
  bound := by
    show 0 < maxThreads
    decide
  fresh _ := ⟨rfl, rfl⟩
  taken _ hi := absurd hi (Nat.not_lt_zero _)
  owner _ _ hsome := by cases hsome
  distinct _ _ _ _ hsome := by cases hsome

theorem Tight.of_same (h : Tight threads s) (hmax : s'.maxIndex = s.maxIndex)
    (hfirst : s'.firstCall = false) (htid : ∀ i, (s'.ttpArray i).tid = (s.ttpArray i).tid)
    (hsome : ∀ i, (s'.ttpArray i).tls.isSome = (s.ttpArray i).tls.isSome) : Tight threads s' where
  bound := hmax ▸ h.bound
  fresh htrue := by
    rw [hfirst] at htrue
    cases htrue
  taken i hi := by
    rw [hsome]
    exact h.taken i (hmax ▸ hi)
  owner i hi hi' := by
    rw [hsome] at hi'
    rw [htid]
    exact h.owner i (hmax ▸ hi) hi'
  distinct i j hij hj hi' hj' := by
    rw [hsome] at hi' hj'
    rw [htid, htid]
    exact h.distinct i j hij (hmax ▸ hj) hi' hj'

theorem Tight.started (h : Tight threads s) : Tight threads s.started := by
  unfold State.started
  split
  · rename_i htrue
    obtain ⟨hmax, hzero⟩ := h.fresh htrue
    refine ⟨h.bound, nofun, ?_, ?_, ?_⟩
    · intro i hi
      exact absurd (hmax ▸ hi : i < 0) (Nat.not_lt_zero i)
    · intro i hi hsome
      have hi0 : i = 0 := Nat.le_zero.mp (hmax ▸ hi)
      rw [hi0] at hsome
      cases hsome
    · intro i j hij hj
      exact absurd (hij.trans_le (hmax ▸ hj : j ≤ 0)) (Nat.not_lt_zero i)
  · exact h

theorem State.ttpArray_handOut : s.handOut.ttpArray (s.maxIndex + 1) = emptyTLS :=
  Function.update_self ..

theorem State.ttpArray_handOut_of_ne (hi : i ≠ s.maxIndex + 1) :
    s.handOut.ttpArray i = s.ttpArray i :=
  Function.update_of_ne hi ..

theorem Tight.take {tls : ThreadLocalStorage} (h : Tight threads s) (hself : self ∈ threads)
    (hnone : (s.ttpArray i).tls = none)
    (hother : ∀ k, k < i → (s.ttpArray k).tls.isSome → (s.ttpArray k).tid ≠ self)
    (harray : s'.ttpArray = Function.update s.ttpArray i ⟨self, some tls⟩)
    (hmax : s'.maxIndex = s.maxIndex) (hfirst : s'.firstCall = false) : Tight threads s' := by
  have hi : s.maxIndex ≤ i := by
    by_contra hlt
    have hsome := h.taken i (Nat.lt_of_not_le hlt)
    rw [hnone] at hsome
    cases hsome
  have hentry : s'.ttpArray i = ⟨self, some tls⟩ := by rw [harray, Function.update_self]
  have hsame : ∀ k, k ≠ i → s'.ttpArray k = s.ttpArray k := fun k hk => by
    rw [harray, Function.update_of_ne hk]
  refine ⟨hmax ▸ h.bound, ?_, ?_, ?_, ?_⟩
  · intro htrue
    rw [hfirst] at htrue
    cases htrue
  · intro k hk
    rw [hmax] at hk
    rw [hsame k (by omega)]
    exact h.taken k hk
  · intro k hk hsome
    by_cases hki : k = i
    · rw [hki, hentry]
      exact hself
    · rw [hsame k hki] at hsome ⊢
      exact h.owner k (hmax ▸ hk) hsome
  · intro k l hkl hl hk' hl'
    rw [hmax] at hl
    rw [hsame k (by omega)] at hk' ⊢
    by_cases hli : l = i
    · rw [hli, hentry]
      exact hother k (hli ▸ hkl) hk'
    · rw [hsame l hli] at hl' ⊢
      exact h.distinct k l hkl hl hk' hl'

theorem Tight.advance (h : Tight threads s) (hroom : s.maxIndex + 1 < maxThreads)
    (entry : TidTlsPair) (hsome : entry.tls.isSome) (hmem : entry.tid ∈ threads)
    (hother : ∀ k, k < s.maxIndex → (s.ttpArray k).tid ≠ entry.tid)
    (harray : s'.ttpArray = Function.update s.handOut.ttpArray s.maxIndex entry)
    (hmax : s'.maxIndex = s.maxIndex + 1) (hfirst : s'.firstCall = false) : Tight threads s' := by
  have hentry : s'.ttpArray s.maxIndex = entry := by rw [harray, Function.update_self]
  have hnext : s'.ttpArray (s.maxIndex + 1) = emptyTLS := by
    rw [harray, Function.update_of_ne (by omega), State.ttpArray_handOut]
  have hsame : ∀ k, k < s.maxIndex → s'.ttpArray k = s.ttpArray k := by
    intro k hk
    rw [harray, Function.update_of_ne (by omega), State.ttpArray_handOut_of_ne (by omega)]
  refine ⟨hmax ▸ hroom, ?_, ?_, ?_, ?_⟩
  · intro htrue
    rw [hfirst] at htrue
    cases htrue
  · intro k hk
    rw [hmax] at hk
    by_cases hlast : k = s.maxIndex
    · rw [hlast, hentry]
      exact hsome
    · rw [hsame k (by omega)]
      exact h.taken k (by omega)
  · intro k hk hsome'
    obtain hlt | rfl | rfl : k < s.maxIndex ∨ k = s.maxIndex ∨ k = s.maxIndex + 1 := by omega
    · rw [hsame k hlt] at hsome' ⊢
      exact h.owner k (Nat.le_of_lt hlt) hsome'
    · rw [hentry]
      exact hmem
    · rw [hnext] at hsome'
      cases hsome'
  · intro k l hkl hl hk' hl'
    obtain hlt | rfl | rfl : l < s.maxIndex ∨ l = s.maxIndex ∨ l = s.maxIndex + 1 := by omega
    · rw [hsame l hlt] at hl' ⊢
      rw [hsame k (by omega)] at hk' ⊢
      exact h.distinct k l hkl (Nat.le_of_lt hlt) hk' hl'
    · rw [hentry, hsame k hkl]
      exact hother k hkl
    · rw [hnext] at hl'
      cases hl'

theorem Tight.handOut (h : Tight threads s) (hfirst : s.firstCall = false)
    (hroom : s.maxIndex + 1 < maxThreads) (hsome : (s.ttpArray s.maxIndex).tls.isSome) :
    Tight threads s.handOut := by
  have hkept : s.handOut.ttpArray s.maxIndex = s.ttpArray s.maxIndex :=
    State.ttpArray_handOut_of_ne (by omega)
  refine h.advance hroom (s.ttpArray s.maxIndex) hsome (h.owner _ (Nat.le_refl _) hsome) ?_ ?_ rfl
    hfirst
  · intro k hk
    exact h.distinct k _ hk (Nat.le_refl _) (h.taken k hk) hsome
  · rw [← hkept, Function.update_eq_self]

theorem not_of_lookUp_none (h : s.lookUp tid = none) {k : Nat} (hk : k < maxThreads) :
    (s.ttpArray k).tid ≠ tid := by
  simpa using List.find?_eq_none.mp h k (List.mem_range.mpr hk)

theorem first_of_lookUp (h : s.lookUp tid = some i) {k : Nat} (hk : k < i) :
    (s.ttpArray k).tid ≠ tid := by
  obtain ⟨-, -, hfirst⟩ := List.find?_range_eq_some.mp h
  simpa using hfirst k hk

/-- A search that comes to a storage. -/
theorem Tight.search (h : Tight threads s) (hfind : s.findIndex tid = .ok (i, s₁))
    (hsome : (s₁.ttpArray i).tls.isSome) : Tight threads s₁ := by
  obtain ⟨-, rfl⟩ | ⟨-, hroom, rfl, rfl⟩ := findIndex_cases hfind
  · exact h.started
  · apply h.started.handOut s.firstCall_started hroom
    rwa [State.ttpArray_handOut_of_ne (by omega)] at hsome

theorem Tight.take_found {tls : ThreadLocalStorage} (h : Tight threads s) (hself : self ∈ threads)
    (hfind : s.findIndex self = .ok (i, s₁)) (hnone : (s₁.ttpArray i).tls = none)
    (harray : s'.ttpArray = Function.update s₁.ttpArray i ⟨self, some tls⟩)
    (hmax : s'.maxIndex = s₁.maxIndex) (hfirst : s'.firstCall = false) : Tight threads s' := by
  obtain ⟨hlook, rfl⟩ | ⟨hlook, hroom, rfl, rfl⟩ := findIndex_cases hfind
  · exact h.started.take hself hnone (fun k hk _ => first_of_lookUp hlook hk) harray hmax hfirst
  · refine h.started.advance hroom ⟨self, some tls⟩ rfl hself ?_ harray hmax hfirst
    intro k hk
    exact not_of_lookUp_none hlook (hk.trans h.started.bound)

theorem Tight.of_shape (h : Tight threads s) (hfirst : s.firstCall = false)
    (hshape : SameShape s s') : Tight threads s' := by
  refine h.of_same hshape.maxIndex (hshape.firstCall.trans hfirst) hshape.tid ?_
  intro i
  rw [← Option.isSome_map (f := ThreadLocalStorage.shape), hshape.shape, Option.isSome_map]

theorem Tight.create {size : Nat} {r : Result} (h : Tight threads s) (hself : self ∈ threads)
    (hgood : ¬ Refuses s (self, .create size))
    (hcall : call frame s self (.create size) = .ok (r, s')) : Tight threads s' := by
  obtain ⟨made, hmade, heq⟩ := ok_of_map hcall
  cases heq
  obtain ⟨i, s₁, hfind, hr⟩ := tlsCreate_cases hmade
  unfold Refuses at hgood
  simp only [slot_of_findIndex hfind] at hgood
  obtain ⟨-, hfail⟩ | ⟨n, -, -, hnone, rfl⟩ := hr
  · exact absurd hfail hgood
  · have hpages := created frame s₁ n.toNat
    exact h.take_found hself hfind hnone (State.ttpArray_newStorage ..) hpages.maxIndex
      (hpages.firstCall.trans (firstCall_findIndex hfind))

theorem Tight.clone {r : Result} (h : Tight threads s) (hself : self ∈ threads)
    (hgood : ¬ Refuses s (self, .clone tid))
    (hcall : call frame s self (.clone tid) = .ok (r, s')) : Tight threads s' := by
  obtain ⟨made, hmade, heq⟩ := ok_of_map hcall
  cases heq
  obtain ⟨i, s₁, j, s₂, hi, hj, hr⟩ := tlsClone_cases hmade
  have hfirst₁ := firstCall_findIndex hi
  have hstarted₁ := State.started_of_not_first hfirst₁
  unfold Refuses at hgood
  simp only [slot_of_findIndex hi, slot_of_findIndex hj] at hgood
  obtain ⟨-, hfail⟩ | ⟨tls, hnone, htls, rfl⟩ := hr
  · exact absurd hfail hgood
  obtain ⟨-, hs₂⟩ | ⟨-, hroom, hjmax, hs₂⟩ := findIndex_cases hj
  · rw [hstarted₁] at hs₂
    subst hs₂
    exact h.take_found hself hi hnone rfl rfl hfirst₁
  · rw [hstarted₁] at hroom hjmax hs₂
    subst hjmax hs₂
    have hsome : (s₁.ttpArray s₁.maxIndex).tls.isSome := by
      rw [State.ttpArray_handOut_of_ne (by omega)] at htls
      rw [htls]
      rfl
    -- The caller has found its entry: the one it would have been handed out has no storage.
    obtain ⟨hlook, rfl⟩ | ⟨-, -, -, rfl⟩ := findIndex_cases hi
    · have htight := h.started.handOut s.firstCall_started hroom hsome
      refine htight.take hself hnone ?_ rfl rfl hfirst₁
      intro k hk hstored
      by_cases hempty : k = s.started.maxIndex + 1
      · rw [hempty, State.ttpArray_handOut] at hstored
        cases hstored
      · rw [State.ttpArray_handOut_of_ne hempty]
        exact first_of_lookUp hlook hk
    · rw [show s.started.handOut.maxIndex = s.started.maxIndex + 1 from rfl,
        State.ttpArray_handOut] at hsome
      cases hsome

theorem Tight.found_shape (h : Tight threads s) (hfind : s.findIndex self = .ok (i, s₁))
    (hsome : ((s.slot self).2.ttpArray (s.slot self).1).tls ≠ none) (hshape : SameShape s₁ s') :
    Tight threads s' := by
  rw [slot_of_findIndex hfind] at hsome
  exact (h.search hfind (Option.isSome_iff_ne_none.mpr hsome)).of_shape
    (firstCall_findIndex hfind) hshape

theorem Tight.of_call {c : Call} {r : Result} (h : Tight threads s) (hframe : Function.Injective frame)
    (hwell : Wellformed frame s) (hself : self ∈ threads) (hnames : NamesKnown s (self, c))
    (hcall : call frame s self c = .ok (r, s')) : Tight threads s' := by
  by_cases hfail : Refuses s (self, c)
  · rw [call_of_refuses hfail, searches_of_known (hnames hfail)] at hcall
    cases hcall
    exact h
  · cases c with
    | create size => exact h.create hself hfail hcall
    | clone tid => exact h.clone hself hfail hcall
    | read offset length =>
      obtain ⟨-, i, s₁, hfind, hshape⟩ := shape_tlsRead hwell hcall
      exact h.found_shape hfind hfail hshape
    | write offset length buffer =>
      obtain ⟨-, i, s₁, hfind, hshape⟩ := shape_tlsWrite hframe hwell hcall
      exact h.found_shape hfind hfail hshape

/-! ### The end of the array -/

/-- There are more threads than entries handed out: one that is in none of them. -/
theorem Tight.card (h : Tight threads s) {t : Nat} (ht : t ∈ threads)
    (hother : ∀ k, k < s.maxIndex → (s.ttpArray k).tid ≠ t) : s.maxIndex < threads.card := by
  let owners := (Finset.range s.maxIndex).image fun k => (s.ttpArray k).tid
  have howners : owners.card = s.maxIndex := by
    rw [Finset.card_image_of_injOn, Finset.card_range]
    intro k hk l hl heq
    have hk' := Finset.mem_range.mp hk
    have hl' := Finset.mem_range.mp hl
    obtain hlt | hsame | hlt := Nat.lt_trichotomy k l
    · exact absurd heq (h.distinct k l hlt (Nat.le_of_lt hl') (h.taken k hk') (h.taken l hl'))
    · exact hsame
    · exact absurd heq.symm (h.distinct l k hlt (Nat.le_of_lt hk') (h.taken l hl') (h.taken k hk'))
  have hnot : t ∉ owners := by
    intro hmem
    obtain ⟨k, hk, heq⟩ := Finset.mem_image.mp hmem
    exact hother k (Finset.mem_range.mp hk) heq
  have hsub : insert t owners ⊆ threads := by
    intro u hu
    obtain rfl | hu := Finset.mem_insert.mp hu
    · exact ht
    · obtain ⟨k, hk, rfl⟩ := Finset.mem_image.mp hu
      have hk' := Finset.mem_range.mp hk
      exact h.owner k (Nat.le_of_lt hk') (h.taken k hk')
  have hcard := Finset.card_le_card hsub
  rw [Finset.card_insert_of_notMem hnot, howners] at hcard
  exact hcard

theorem guarded_overrun {length : Nat} {rest : Nat → Nat → Code Result}
    (h : (guarded self length rest).run (exec frame) s = .error .overrun) :
    (∃ e, s.findIndex self = .error e) ∨ ∃ i s₁ tls, s.findIndex self = .ok (i, s₁) ∧
      (s₁.ttpArray i).tls = some tls ∧ length ≤ tls.pageNum * pageSize % 2 ^ 32 ∧
      tls.mutex = false ∧
      (rest i tls.pageNum).run (exec frame) (s₁.setMutex i true) = .error .overrun := by
  obtain hfind | ⟨i, s₁, hfind, h⟩ := Prog.error_of_run_bind h
  · exact .inl ⟨_, hfind⟩
  obtain hnum | ⟨num, s₂, hnum, h⟩ := Prog.error_of_run_bind h
  · cases hnum
  cases hnum
  cases htls : (s₁.ttpArray i).tls with
  | none =>
    rw [htls] at h
    cases h
  | some tls =>
    rw [htls] at h
    simp only [Option.map_some] at h
    by_cases hlength : tls.pageNum * pageSize % 2 ^ 32 < length
    · rw [if_pos hlength] at h
      cases h
    · rw [if_neg hlength] at h
      obtain hlock | ⟨done, s₂, hlock, h⟩ := Prog.error_of_run_bind h
      · simp only [exec, State.tlsAt, htls, bind, Except.bind] at hlock
        split at hlock
        · cases hlock
        · cases hlock
      · simp only [exec, State.tlsAt, htls, bind, Except.bind] at hlock
        cases hfree : tls.mutex with
        | true =>
          rw [if_pos hfree] at hlock
          cases hlock
        | false =>
          rw [if_neg (by rw [hfree]; decide)] at hlock
          cases hlock
          refine .inr ⟨i, s₁, tls, hfind, htls, Nat.le_of_not_lt hlength, hfree, ?_⟩
          rw [State.setMutex_of_tls htls]
          exact h

theorem page_of_reached {α : Type} {next : Nat → α × State} {P : α → State → Prop}
    (h : (s.pageAt i j >>= fun p => Except.ok (next p)) = .error .overrun ∨
      ∃ r t, (s.pageAt i j >>= fun p => Except.ok (next p)) = .ok (r, t) ∧ P r t) :
    ∃ p, (s.pages i)[j]? = some p := by
  obtain herror | ⟨r, t, hok, -⟩ := h
  · obtain hpage | ⟨p, -, hnext⟩ := error_of_bind herror
    · cases error_of_pageAt hpage
    · cases hnext
  · exact pageAt_of_bind (o := (i, j)) hok

theorem overrun_cases {c : Call} (hframe : Function.Injective frame) (hwell : Wellformed frame s)
    (h : call frame s self c = .error .overrun) :
    (∃ e, s.findIndex self = .error e) ∨ ∃ tid i s₁ e, c = .clone tid ∧
      s.findIndex self = .ok (i, s₁) ∧ s₁.findIndex tid = .error e := by
  cases c with
  | create size =>
    cases hfind : s.findIndex self with
    | error e => exact .inl ⟨e, rfl⟩
    | ok found =>
      obtain ⟨n, -, -, -, hcreate⟩ := exists_tlsCreate frame size hfind
      rw [call, hcreate] at h
      cases h
  | clone tid =>
    cases hfind : s.findIndex self with
    | error e => exact .inl ⟨e, rfl⟩
    | ok found =>
      obtain ⟨i, s₁⟩ := found
      cases hother : s₁.findIndex tid with
      | error e => exact .inr ⟨tid, i, s₁, e, rfl, rfl, hother⟩
      | ok found =>
        obtain ⟨j, s₂⟩ := found
        rw [call, tlsClone, hfind] at h
        simp only [bind, Except.bind] at h
        rw [hother] at h
        simp only at h
        split at h
        · cases h
        · split at h
          · cases h
          · split at h
            · cases h
            · cases h
  | read offset length =>
    obtain hfind | ⟨i, s₁, tls, hfind, htls, hlength, hfree, hrest⟩ := guarded_overrun h
    · exact .inl hfind
    · obtain ⟨p, hp⟩ := page_of_reached (i := i) (j := offset / pageSize)
        (Prog.error_of_run_bind hrest)
      rw [State.pages_setMutex] at hp
      have hacc : Access s s₁ self offset length i p tls := ⟨hfind, htls, hlength, hfree, hp⟩
      have hends : (tlsRead self offset length).wp (total (exec frame)) (fun _ _ => True) s := by
        refine wp_tlsRead hacc ((SameStore.findIndex hfind).wellformed hwell) rfl rfl rfl rfl ?_
        split
        · trivial
        · trivial
      obtain ⟨r, s', hrun, -⟩ := Prog.wp_total_iff.mp hends
      rw [call, hrun] at h
      cases h
  | write offset length buffer =>
    obtain hfind | ⟨i, s₁, tls, hfind, htls, hlength, hfree, hrest⟩ := guarded_overrun h
    · exact .inl hfind
    · obtain ⟨p, hp⟩ := page_of_reached (i := i) (j := offset / pageSize)
        (Prog.error_of_run_bind hrest)
      rw [State.pages_setMutex] at hp
      have hacc : Access s s₁ self offset length i p tls := ⟨hfind, htls, hlength, hfree, hp⟩
      have hends : (tlsWrite self offset length buffer).wp (total (exec frame)) (fun _ _ => True) s := by
        refine wp_tlsWrite hacc ((SameStore.findIndex hfind).wellformed hwell) hframe rfl rfl rfl rfl ?_
        split
        · trivial
        · trivial
      obtain ⟨r, s', hrun, -⟩ := Prog.wp_total_iff.mp hends
      rw [call, hrun] at h
      cases h

/-- As long as failing calls find their threads, fewer threads than entries do not need the last one. -/
theorem Tight.no_overrun {c : Call} (h : Tight threads s) (hframe : Function.Injective frame)
    (hwell : Wellformed frame s) (hself : self ∈ threads) (hnames : NamesKnown s (self, c))
    (hcard : threads.card < maxThreads) : call frame s self c ≠ .error .overrun := by
  intro hover
  obtain ⟨e, hfind⟩ | ⟨tid, i, s₁, e, rfl, hfind, hother⟩ := overrun_cases hframe hwell hover
  · obtain ⟨hlook, hfull⟩ := full_of_findIndex_error hfind
    have hlt := h.started.card hself fun k hk => not_of_lookUp_none hlook (hk.trans h.started.bound)
    rw [s.maxIndex_started] at hlt
    omega
  · obtain ⟨hlook, hfull⟩ := full_of_findIndex_error hother
    have hfirst₁ := firstCall_findIndex hfind
    rw [State.started_of_not_first hfirst₁] at hlook
    by_cases hsome : (s₁.ttpArray s₁.maxIndex).tls.isSome
    · -- The last entry has a storage, so the caller has been found.
      have htight : Tight threads s₁ := by
        obtain ⟨-, rfl⟩ | ⟨-, -, -, rfl⟩ := findIndex_cases hfind
        · exact h.started
        · rw [show s.started.handOut.maxIndex = s.started.maxIndex + 1 from rfl,
            State.ttpArray_handOut] at hsome
          cases hsome
      have hlt := htight.card (htight.owner _ (Nat.le_refl _) hsome) fun k hk =>
        htight.distinct k _ hk (Nat.le_refl _) (htight.taken k hk) hsome
      omega
    · -- It has none, so the call fails and has to find both its threads.
      have hslot : s₁.slot tid = (s₁.maxIndex, s₁.handOut) := by
        unfold State.slot
        rw [State.started_of_not_first hfirst₁, hlook]
      have hfail : Refuses s (self, .clone tid) := by
        unfold Refuses
        simp only [slot_of_findIndex hfind, hslot]
        rw [State.ttpArray_handOut_of_ne (Nat.ne_of_lt (Nat.lt_succ_self s₁.maxIndex))]
        exact .inr (by simpa using hsome)
      have hknown := hnames hfail
      obtain ⟨k, hk⟩ := findIndex_of_known hknown
      rw [hfind] at hk
      cases hk
      have hfound := hknown.2 tid (by simp [Call.others])
      rw [hlook] at hfound
      cases hfound

end

/-! ### Runs -/

/-- What whole calls keep as long as the failing ones find their threads. -/
def Kept (frame : Nat → Nat) (threads : Finset Nat) (s : State) : Prop :=
  Wellformed frame s ∧ Tight threads s

theorem Kept.step {frame : Nat → Nat} {threads : Finset Nat} {s s' : State} {a : Nat × Call}
    (hframe : Function.Injective frame) (h : Kept frame threads s) (hself : a.1 ∈ threads)
    (hnames : NamesKnown s a) (hstep : step frame s a = .ok s') : Kept frame threads s' := by
  obtain ⟨⟨r, s₁⟩, hcall, rfl⟩ := ok_of_map hstep
  exact ⟨wellformed_call hframe h.1 hcall, h.2.of_call hframe h.1 hself hnames hcall⟩

/-- In a run of calls the failing ones keep the registry exactly if they find the threads they name.
If they do, and fewer threads than entries call, then the array is not overrun. -/
theorem failures_keep_iff {frame : Nat → Nat} (hframe : Function.Injective frame)
    (memory : Nat → UInt8) (actions : List (Nat × Call)) :
    (EachTry (step frame) (RegistryKept frame) (initial memory) actions ↔
      EachTry (step frame) NamesKnown (initial memory) actions) ∧
    ((actions.map Prod.fst).toFinset.card ≤ 127 →
      EachTry (step frame) NamesKnown (initial memory) actions →
      EachTry (step frame) (fun s a => step frame s a ≠ .error .overrun) (initial memory)
        actions) := by
  let threads := (actions.map Prod.fst).toFinset
  have hcallers : ∀ a ∈ actions, a.1 ∈ threads := fun a ha =>
    List.mem_toFinset.mpr (List.mem_map_of_mem ha)
  have hinitial : Kept frame threads (initial memory) :=
    ⟨Wellformed.initial frame memory, Tight.initial threads memory⟩
  refine ⟨⟨fun hkept => ?_, fun hnames => ?_⟩, fun hcard hnames => ?_⟩
  · exact EachTry.of_inv
      (fun s a s' hs ha hC => hs.step hframe ha ((registryKept_iff hs.2.fresh).mp hC))
      (fun s a hs _ hC => (registryKept_iff hs.2.fresh).mp hC) hinitial hcallers hkept
  · exact EachTry.of_inv (fun s a s' hs ha hC => hs.step hframe ha hC)
      (fun s a hs _ hC => (registryKept_iff hs.2.fresh).mpr hC) hinitial hcallers hnames
  · refine EachTry.of_inv (fun s a s' hs ha hC => hs.step hframe ha hC) ?_ hinitial hcallers hnames
    intro s a hs ha hC hover
    have hcall : call frame s a.1 a.2 = .error .overrun := by
      obtain ⟨self, c⟩ := a
      cases hcall : call frame s self c with
      | error e =>
        rw [step, hcall] at hover
        cases hover
        rfl
      | ok r =>
        rw [step, hcall] at hover
        cases hover
    exact hs.2.no_overrun hframe hs.1 ha hC (Nat.lt_succ_of_le hcard) hcall

/-- A second `tls_create` and a clone of a thread's own storage fail, and take no entry. -/
theorem failures_keep_known : EachTry (step id) (fun s a => step id s a ≠ .error .overrun)
    (initial fun _ => 0) [(1, .create 4096), (1, .create 4096), (2, .clone 1), (2, .clone 2)] :=
  (failures_keep_iff Function.injective_id _ _).2 (by decide) (by decide +kernel)

/-- A read before `tls_create` takes an entry. -/
theorem failure_takes_entry :
    ¬ EachTry (step id) (RegistryKept id) (initial fun _ => 0) [(5, .read 100 26)] := by
  intro h
  have hnames := (registryKept_iff (fun _ => ⟨rfl, rfl⟩)).mp h.1
  revert hnames
  decide +kernel

end OSChallenges.Storage
