import OSChallenges.Storage.Failures

/-!
# The entries of all threads, thread 0 included

An entry that has never been handed out has the id 0, so `findIndex` gives thread 0 the first of them:
the one behind `maxIndex`. The next entry to be handed out empties it. So every thread has one entry,
and keeps it in the calls of the others unless it is thread 0 and one of them is handed an entry.
-/

namespace OSChallenges.Storage

open Program Words Runs Outcomes

/-- At most one entry has the id of a thread together with a storage. -/
def OneSeat (s : State) : Prop :=
  ∀ i j tls tls', (s.ttpArray i).tls = some tls → (s.ttpArray j).tls = some tls' →
    (s.ttpArray i).tid = (s.ttpArray j).tid → i = j

/-- The storages of the threads other than the caller stay as they are, in their entries. -/
def OthersStay (s : State) (a : Nat × Call) (s' : State) : Prop :=
  ∀ i tls, (s.ttpArray i).tls = some tls → (s.ttpArray i).tid ≠ a.1 → s'.ttpArray i = s.ttpArray i

/-- While thread 0 has a storage, the calls of other threads find the threads they name. -/
def SparesZero (s : State) (a : Nat × Call) : Prop :=
  ∀ i tls, s.ttpArray i = ⟨0, some tls⟩ → a.1 ≠ 0 → ∀ t ∈ a.1 :: a.2.others, (s.lookUp t).isSome

/-- Storages are in the entries that have been handed out, and the one of thread 0 is in the first
entry that has not. -/
structure Seated (s : State) : Prop where
  bound : s.maxIndex < maxThreads
  first : s.firstCall = true → s.maxIndex = 0 ∧ ∀ i, (s.ttpArray i).tls = none
  below : s.firstCall = false → ∀ i, i ≤ s.maxIndex → (s.ttpArray i).tid ≠ 0
  above : ∀ i, s.maxIndex < i → (s.ttpArray i).tid = 0
  last : (s.ttpArray s.maxIndex).tls = none
  far : ∀ i, s.maxIndex + 1 < i → (s.ttpArray i).tls = none
  vacant : ∀ i, (s.ttpArray i).tls = none → ¬ ValidThread (s.ttpArray i).tid
  unique : OneSeat s

/-- What a search finds for a thread. -/
structure Place (s : State) (tid i : Nat) : Prop where
  seat : (i < s.maxIndex ∧ tid ≠ 0) ∨ (i = s.maxIndex + 1 ∧ tid = 0)
  entry : (∃ tls, s.ttpArray i = ⟨tid, some tls⟩) ∨
    ((s.ttpArray i).tls = none ∧
      ∀ j tls, (s.ttpArray j).tls = some tls → (s.ttpArray j).tid ≠ tid)

/-- The entries but one are the same. -/
def SameElse (index : Nat) (s s' : State) : Prop :=
  ∀ i, i ≠ index → s'.ttpArray i = s.ttpArray i

/-- What a call does to the entries: its searches, and then a change of the caller's own. -/
structure Effect (s : State) (caller : Nat) (c : Call) (i : Nat) (s₁ s₂ s' : State) : Prop where
  found : s.findIndex caller = .ok (i, s₁)
  searched : s.searches (caller :: c.others) = .ok s₂
  place : Place s₁ caller i
  others : SameElse i s₂ s'
  own : s'.ttpArray i = s₂.ttpArray i ∨ (s₂.ttpArray i).tls = none ∨
    (s₂.ttpArray i).tid = caller

section

variable {frame : Nat → Nat} {s s' s₁ s₂ : State} {self tid i j k : Nat} {tids : List Nat}
  {tls : ThreadLocalStorage}

/-! ### Searches -/

theorem Seated.initial (memory : Nat → UInt8) : Seated (initial memory) where
  bound := by
    show 0 < maxThreads
    decide
  first _ := ⟨rfl, fun _ => rfl⟩
  below hfalse := by cases hfalse
  above _ _ := rfl
  last := rfl
  far _ _ := rfl
  vacant _ _ hvalid := hvalid.1 rfl
  unique _ _ _ _ htls := by cases htls

theorem Seated.not_first (h : Seated s) (htls : (s.ttpArray i).tls = some tls) :
    s.firstCall = false := by
  by_contra htrue
  have hnone := (h.first (by simpa using htrue)).2 i
  rw [htls] at hnone
  cases hnone

theorem Seated.started (h : Seated s) : Seated s.started := by
  unfold State.started
  split
  · rename_i htrue
    obtain ⟨hmax, hnone⟩ := h.first htrue
    have hzero : Function.update s.ttpArray 0 emptyTLS 0 = emptyTLS := Function.update_self ..
    have hothers : ∀ i, i ≠ 0 → Function.update s.ttpArray 0 emptyTLS i = s.ttpArray i :=
      fun i hi => Function.update_of_ne hi ..
    have hempty : ∀ i, (Function.update s.ttpArray 0 emptyTLS i).tls = none := by
      intro i
      by_cases hi : i = 0
      · rw [hi, hzero]
        rfl
      · rw [hothers i hi]
        exact hnone i
    refine ⟨h.bound, nofun, ?_, ?_, hempty _, fun i _ => hempty i, ?_, ?_⟩
    · intro _ i hi
      have hi0 : i = 0 := Nat.le_zero.mp (hmax ▸ hi)
      show (Function.update s.ttpArray 0 emptyTLS i).tid ≠ 0
      rw [hi0, hzero]
      decide
    · intro i hi
      show (Function.update s.ttpArray 0 emptyTLS i).tid = 0
      rw [hothers i (Nat.ne_of_gt (Nat.zero_lt_of_lt hi))]
      exact h.above i hi
    · intro i _
      show ¬ ValidThread (Function.update s.ttpArray 0 emptyTLS i).tid
      by_cases hi : i = 0
      · rw [hi, hzero]
        decide
      · rw [hothers i hi]
        exact h.vacant i (hnone i)
    · intro i j tls tls' hi
      have hi' : (Function.update s.ttpArray 0 emptyTLS i).tls = some tls := hi
      rw [hempty] at hi'
      cases hi'
  · exact h

/-- The entry that is handed out has no storage; the one behind it loses that of thread 0. -/
theorem Seated.handOut (h : Seated s) (hstarted : s.firstCall = false)
    (hroom : s.maxIndex + 1 < maxThreads) : Seated s.handOut := by
  have htls : ∀ i tls, (s.handOut.ttpArray i).tls = some tls → i ≠ s.maxIndex + 1 := by
    intro i tls hi heq
    rw [heq, State.ttpArray_handOut] at hi
    cases hi
  refine ⟨hroom, ?_, ?_, ?_, ?_, ?_, ?_, ?_⟩
  · intro htrue
    rw [show s.handOut.firstCall = s.firstCall from rfl, hstarted] at htrue
    cases htrue
  · intro _ i hi
    by_cases hnext : i = s.maxIndex + 1
    · rw [hnext, State.ttpArray_handOut]
      decide
    · rw [State.ttpArray_handOut_of_ne hnext]
      exact h.below hstarted i (Nat.le_of_lt_succ (Nat.lt_of_le_of_ne hi hnext))
  · intro i hi
    have hlt : s.maxIndex + 1 < i := hi
    rw [State.ttpArray_handOut_of_ne (Nat.ne_of_gt hlt)]
    exact h.above i (Nat.lt_of_succ_lt hlt)
  · rw [show s.handOut.maxIndex = s.maxIndex + 1 from rfl, State.ttpArray_handOut]
    rfl
  · intro i hi
    have hlt : s.maxIndex + 1 + 1 < i := hi
    rw [State.ttpArray_handOut_of_ne (by omega)]
    exact h.far i (by omega)
  · intro i hi
    by_cases hnext : i = s.maxIndex + 1
    · rw [hnext, State.ttpArray_handOut]
      decide
    · rw [State.ttpArray_handOut_of_ne hnext] at hi ⊢
      exact h.vacant i hi
  · intro i j tls tls' hi hj
    have hi' := htls i tls hi
    have hj' := htls j tls' hj
    rw [State.ttpArray_handOut_of_ne hi'] at hi ⊢
    rw [State.ttpArray_handOut_of_ne hj'] at hj ⊢
    exact h.unique i j tls tls' hi hj

theorem Seated.search (h : Seated s) (hfind : s.findIndex tid = .ok (i, s')) : Seated s' := by
  obtain ⟨-, rfl⟩ | ⟨-, hroom, -, rfl⟩ := findIndex_cases hfind
  · exact h.started
  · exact h.started.handOut s.firstCall_started hroom

theorem tid_of_lookUp (h : s.lookUp tid = some i) : (s.ttpArray i).tid = tid := by
  simpa using List.find?_some h

theorem Seated.place (h : Seated s) (htid : tid ≠ noThread)
    (hfind : s.findIndex tid = .ok (i, s')) : Place s' tid i := by
  have hs := h.started
  have hstarted := s.firstCall_started
  obtain ⟨hlook, rfl⟩ | ⟨hlook, hroom, rfl, rfl⟩ := findIndex_cases hfind
  · have hid := tid_of_lookUp hlook
    by_cases hzero : tid = 0
    · -- The first entry with the id 0 is the one behind `maxIndex`.
      have hlow : s.started.maxIndex < i := by
        by_contra hnot
        exact hs.below hstarted i (Nat.le_of_not_lt hnot) (hid.trans hzero)
      have hi : i = s.started.maxIndex + 1 := by
        by_contra hne
        have hmid := hs.above (s.started.maxIndex + 1) (Nat.lt_succ_self _)
        exact first_of_lookUp hlook (by omega) (hmid.trans hzero.symm)
      refine ⟨.inr ⟨hi, hzero⟩, ?_⟩
      cases htls : (s.started.ttpArray i).tls with
      | some tls => exact .inl ⟨tls, by rw [← hid, ← htls]⟩
      | none =>
        refine .inr ⟨rfl, ?_⟩
        intro j tls hj hidj
        have hjlow : s.started.maxIndex < j := by
          by_contra hnot
          exact hs.below hstarted j (Nat.le_of_not_lt hnot) (hidj.trans hzero)
        have hjhigh : j ≤ s.started.maxIndex + 1 := by
          by_contra hnot
          rw [hs.far j (Nat.lt_of_not_le hnot)] at hj
          cases hj
        have hji : j = i := by omega
        rw [hji, htls] at hj
        cases hj
    · have hle : i ≤ s.started.maxIndex := by
        by_contra hnot
        exact hzero (hid.symm.trans (hs.above i (Nat.lt_of_not_le hnot)))
      cases htls : (s.started.ttpArray i).tls with
      | none => exact absurd (hid ▸ ⟨hzero, htid⟩) (hs.vacant i htls)
      | some tls =>
        have hne : i ≠ s.started.maxIndex := by
          intro heq
          rw [heq, hs.last] at htls
          cases htls
        exact ⟨.inl ⟨Nat.lt_of_le_of_ne hle hne, hzero⟩, .inl ⟨tls, by rw [← hid, ← htls]⟩⟩
  · have hzero : tid ≠ 0 := by
      intro heq
      exact not_of_lookUp_none hlook hroom ((hs.above _ (Nat.lt_succ_self _)).trans heq.symm)
    refine ⟨.inl ⟨Nat.lt_succ_self _, hzero⟩, .inr ⟨?_, ?_⟩⟩
    · rw [State.ttpArray_handOut_of_ne (by omega)]
      exact hs.last
    · intro j tls hj
      by_cases hnext : j = s.started.maxIndex + 1
      · rw [hnext, State.ttpArray_handOut] at hj
        cases hj
      · rw [State.ttpArray_handOut_of_ne hnext] at hj ⊢
        have hjlt : j < maxThreads := by
          by_contra hnot
          rw [hs.far j (by omega)] at hj
          cases hj
        exact not_of_lookUp_none hlook hjlt

theorem Seated.take (h : Seated s) (hplace : Place s tid i) (hnone : (s.ttpArray i).tls = none)
    (harray : s'.ttpArray = Function.update s.ttpArray i ⟨tid, some tls⟩)
    (hmax : s'.maxIndex = s.maxIndex) (hstarted : s.firstCall = false)
    (hfirst : s'.firstCall = false) : Seated s' := by
  have hother : ∀ j tls, (s.ttpArray j).tls = some tls → (s.ttpArray j).tid ≠ tid := by
    obtain ⟨tls, hentry⟩ | ⟨-, hother⟩ := hplace.entry
    · rw [hentry] at hnone
      cases hnone
    · exact hother
  have hself : s'.ttpArray i = ⟨tid, some tls⟩ := by rw [harray, Function.update_self]
  have hsame : ∀ j, j ≠ i → s'.ttpArray j = s.ttpArray j := fun j hj => by
    rw [harray, Function.update_of_ne hj]
  have hseat := hplace.seat
  refine ⟨hmax ▸ h.bound, ?_, ?_, ?_, ?_, ?_, ?_, ?_⟩
  · intro htrue
    rw [hfirst] at htrue
    cases htrue
  · intro _ j hj
    rw [hmax] at hj
    by_cases hji : j = i
    · rw [hji, hself]
      show tid ≠ 0
      omega
    · rw [hsame j hji]
      exact h.below hstarted j hj
  · intro j hj
    rw [hmax] at hj
    by_cases hji : j = i
    · rw [hji, hself]
      show tid = 0
      omega
    · rw [hsame j hji]
      exact h.above j hj
  · rw [hmax, hsame _ (by omega)]
    exact h.last
  · intro j hj
    rw [hmax] at hj
    rw [hsame j (by omega)]
    exact h.far j hj
  · intro j hj
    by_cases hji : j = i
    · rw [hji, hself] at hj
      cases hj
    · rw [hsame j hji] at hj ⊢
      exact h.vacant j hj
  · intro j k tls₁ tls₂ hj hk hid
    by_cases hji : j = i
    · by_cases hki : k = i
      · rw [hji, hki]
      · rw [hji, hself, hsame k hki] at hid
        rw [hsame k hki] at hk
        exact absurd hid.symm (hother k tls₂ hk)
    · rw [hsame j hji] at hj hid
      by_cases hki : k = i
      · rw [hki, hself] at hid
        exact absurd hid (hother j tls₁ hj)
      · rw [hsame k hki] at hk hid
        exact h.unique j k tls₁ tls₂ hj hk hid

theorem Seated.of_shape (h : Seated s) (hshape : SameShape s s') : Seated s' := by
  have hsame : ∀ i, (s'.ttpArray i).tls = none ↔ (s.ttpArray i).tls = none := by
    intro i
    rw [← Option.map_eq_none_iff (f := ThreadLocalStorage.shape), hshape.shape,
      Option.map_eq_none_iff]
  have hsome : ∀ i tls, (s'.ttpArray i).tls = some tls → ∃ old, (s.ttpArray i).tls = some old :=
    fun i tls htls => Option.ne_none_iff_exists'.mp fun hold => by
      rw [(hsame i).mpr hold] at htls
      cases htls
  have hmax := hshape.maxIndex
  refine ⟨hmax ▸ h.bound, ?_, ?_, ?_, ?_, ?_, ?_, ?_⟩
  · intro htrue
    obtain ⟨hzero, hnone⟩ := h.first (hshape.firstCall ▸ htrue)
    exact ⟨hmax.trans hzero, fun i => (hsame i).mpr (hnone i)⟩
  · intro hfalse i hi
    rw [hshape.tid]
    exact h.below (hshape.firstCall ▸ hfalse) i (hmax ▸ hi)
  · intro i hi
    rw [hshape.tid]
    exact h.above i (hmax ▸ hi)
  · rw [hmax]
    exact (hsame _).mpr h.last
  · intro i hi
    exact (hsame i).mpr (h.far i (hmax ▸ hi))
  · intro i hi
    rw [hshape.tid]
    exact h.vacant i ((hsame i).mp hi)
  · intro i j tls tls' hi hj hid
    obtain ⟨old, hold⟩ := hsome i tls hi
    obtain ⟨old', hold'⟩ := hsome j tls' hj
    rw [hshape.tid, hshape.tid] at hid
    exact h.unique i j old old' hold hold' hid

/-! ### One entry changes -/

variable {index page o n : Nat}

theorem SameElse.trans (h : SameElse index s s₁) (h' : SameElse index s₁ s') :
    SameElse index s s' :=
  fun i hi => (h' i hi).trans (h i hi)

theorem SameElse.setMutex (s : State) (index : Nat) (mutex : Bool) :
    SameElse index s (s.setMutex index mutex) :=
  fun _ hi => Function.update_of_ne hi ..

theorem SameElse.mprotect (index : Nat) (s : State) (addr len : Nat) (prot : Prot) :
    SameElse index s (s.mprotect addr len prot) := by
  unfold State.mprotect
  split
  · exact fun _ _ => rfl
  · exact fun _ _ => rfl

theorem SameElse.openWrite (frame : Nat → Nat) (s : State) (index page : Nat) :
    SameElse index s (s.openWrite frame index page) := by
  obtain ⟨-, hsame⟩ | ⟨tls, p, -, -, ⟨-, hshared⟩ | ⟨-, hown⟩⟩ :=
    State.openWrite_cases frame s index page
  · rw [hsame]
    exact fun _ _ => rfl
  · rw [hshared]
    exact fun _ hi => Function.update_of_ne hi ..
  · rw [hown]
    exact .mprotect _ _ _ _ _

theorem SameElse.getPages (s : State) (index n page o : Nat) :
    SameElse index s (s.getPages index n page o) := by
  induction n generalizing s page o with
  | zero => exact .mprotect _ _ _ _ _
  | succ n ih =>
    rw [State.getPages]
    split
    · exact ih s page (o + 1)
    · have hclosed : SameElse index s (s.protect index page .none) := .mprotect _ _ _ _ _
      exact hclosed.trans ((SameElse.mprotect _ _ _ _ _).trans (ih _ (page + 1) 1))

theorem SameElse.putBytes (frame : Nat → Nat) (s : State) (index : Nat) (bytes : List UInt8)
    (page o : Nat) : SameElse index s (s.putBytes frame index bytes page o) := by
  induction bytes generalizing s page o with
  | nil => exact .mprotect _ _ _ _ _
  | cons byte rest ih =>
    rw [State.putBytes]
    split
    · exact ih (s.putByte index page o byte) page (o + 1)
    · have hclosed : SameElse index s (s.protect index page .none) := .mprotect _ _ _ _ _
      have hopen := hclosed.trans (.openWrite frame _ index (page + 1))
      exact hopen.trans (ih (State.putByte _ index (page + 1) 0 byte) (page + 1) 1)

theorem sameElse_tlsRead {offset length : Nat} {r : Result} (hwell : Wellformed frame s)
    (hcall : (tlsRead self offset length).run (exec frame) s = .ok (r, s')) :
    ∃ index s₁, s.findIndex self = .ok (index, s₁) ∧ SameElse index s₁ s' := by
  obtain ⟨-, index, hindex, -⟩ | ⟨s₁, index, p, tls, hacc⟩ := tlsRead_cases hcall
  · exact ⟨index, s', hindex, fun _ _ => rfl⟩
  · refine ⟨index, s₁, hacc.found, ?_⟩
    have hs₁ : Wellformed frame s₁ := (SameStore.findIndex hacc.found).wellformed hwell
    refine Prog.of_wp_total (Q := fun _ s' => SameElse index s₁ s')
      (wp_tlsRead hacc hs₁ rfl rfl rfl rfl ?_) hcall
    have hopen : SameElse index s₁ ((s₁.setMutex index true).setProt (frame p) .read) :=
      .setMutex s₁ index true
    split
    · exact (hopen.trans (.getPages _ _ _ _ _)).trans (.setMutex _ _ _)
    · exact hopen.trans (.setMutex _ _ _)

theorem sameElse_tlsWrite {offset length : Nat} {buffer : List UInt8} {r : Result}
    (hframe : Function.Injective frame) (hwell : Wellformed frame s)
    (hcall : (tlsWrite self offset length buffer).run (exec frame) s = .ok (r, s')) :
    ∃ index s₁, s.findIndex self = .ok (index, s₁) ∧ SameElse index s₁ s' := by
  obtain ⟨-, index, hindex, -⟩ | ⟨s₁, index, p, tls, hacc⟩ := tlsWrite_cases hcall
  · exact ⟨index, s', hindex, fun _ _ => rfl⟩
  · refine ⟨index, s₁, hacc.found, ?_⟩
    have hs₁ : Wellformed frame s₁ := (SameStore.findIndex hacc.found).wellformed hwell
    refine Prog.of_wp_total (Q := fun _ s' => SameElse index s₁ s')
      (wp_tlsWrite hacc hs₁ hframe rfl rfl rfl rfl ?_) hcall
    have hopen := (SameElse.setMutex s₁ index true).trans
      (.openWrite frame _ index (offset / pageSize))
    split
    · exact (hopen.trans (.putBytes _ _ _ _ _ _)).trans (.setMutex _ _ _)
    · exact hopen.trans (.setMutex _ _ _)

/-! ### Whole calls -/

theorem Place.own (h : Place s tid i) : (s.ttpArray i).tls = none ∨ (s.ttpArray i).tid = tid := by
  obtain ⟨tls, hentry⟩ | ⟨hnone, -⟩ := h.entry
  · exact .inr (by rw [hentry])
  · exact .inl hnone

theorem Seated.of_call {c : Call} {r : Result} (h : Seated s) (hframe : Function.Injective frame)
    (hwell : Wellformed frame s) (hself : self ≠ noThread)
    (hcall : call frame s self c = .ok (r, s')) :
    Seated s' ∧ ∃ i s₁ s₂, Effect s self c i s₁ s₂ s' := by
  cases c with
  | create size =>
    obtain ⟨made, hmade, heq⟩ := ok_of_map hcall
    cases heq
    obtain ⟨i, s₁, hfind, hr⟩ := tlsCreate_cases hmade
    have hplace := h.place hself hfind
    have hsearch : s.searches (self :: (Call.create size).others) = .ok s₁ := by
      simp only [Call.others, State.searches, hfind]
    obtain ⟨rfl, -⟩ | ⟨n, -, -, hnone, rfl⟩ := hr
    · exact ⟨h.search hfind, i, s₁, s₁, hfind, hsearch, hplace, fun _ _ => rfl, .inl rfl⟩
    · have hpages := created frame s₁ n.toNat
      have hfirst := firstCall_findIndex hfind
      exact ⟨(h.search hfind).take hplace hnone (State.ttpArray_newStorage ..) hpages.maxIndex
        hfirst (hpages.firstCall.trans hfirst), i, s₁, s₁, hfind, hsearch, hplace,
        fun _ hi => State.ttpArray_newStorage_of_ne hi, .inr (.inl hnone)⟩
  | clone tid =>
    obtain ⟨made, hmade, heq⟩ := ok_of_map hcall
    cases heq
    obtain ⟨i, s₁, j, s₂, hi, hj, hr⟩ := tlsClone_cases hmade
    have hplace := h.place hself hi
    have hs₁ := h.search hi
    have hfirst := firstCall_findIndex hi
    have hsearch : s.searches (self :: (Call.clone tid).others) = .ok s₂ := by
      simp only [Call.others, State.searches, hi, hj]
    obtain ⟨rfl, -⟩ | ⟨tls, hnone, htls, rfl⟩ := hr
    · exact ⟨hs₁.search hj, i, s₁, s₂, hi, hsearch, hplace, fun _ _ => rfl, .inl rfl⟩
    · -- An entry that has just been handed out has no storage to be cloned.
      obtain ⟨-, hs₂⟩ | ⟨-, -, hjmax, hs₂⟩ := findIndex_cases hj
      · rw [State.started_of_not_first hfirst] at hs₂
        subst hs₂
        exact ⟨hs₁.take hplace hnone rfl rfl hfirst hfirst, i, s₂, s₂, hi, hsearch, hplace,
          fun _ hk => State.ttpArray_cloneStorage_of_ne hk, .inr (.inl hnone)⟩
      · rw [State.started_of_not_first hfirst] at hjmax hs₂
        rw [hs₂, State.ttpArray_handOut_of_ne (by omega), hjmax, hs₁.last] at htls
        cases htls
  | read offset length =>
    obtain ⟨-, i, s₁, hfind, hshape⟩ := shape_tlsRead hwell hcall
    obtain ⟨i', s₁', hfind', hothers⟩ := sameElse_tlsRead hwell hcall
    rw [hfind] at hfind'
    cases hfind'
    have hplace := h.place hself hfind
    exact ⟨(h.search hfind).of_shape hshape, i, s₁, s₁, hfind,
      by simp only [Call.others, State.searches, hfind], hplace, hothers, .inr hplace.own⟩
  | write offset length buffer =>
    obtain ⟨-, i, s₁, hfind, hshape⟩ := shape_tlsWrite hframe hwell hcall
    obtain ⟨i', s₁', hfind', hothers⟩ := sameElse_tlsWrite hframe hwell hcall
    rw [hfind] at hfind'
    cases hfind'
    have hplace := h.place hself hfind
    exact ⟨(h.search hfind).of_shape hshape, i, s₁, s₁, hfind,
      by simp only [Call.others, State.searches, hfind], hplace, hothers, .inr hplace.own⟩

/-- A search that finds nothing empties the entry behind `maxIndex`. -/
theorem emptied_of_searches (hfirst : s.firstCall = false) (h : s.searches tids = .ok s')
    (hmissing : ∃ t ∈ tids, s.lookUp t = none) :
    s'.ttpArray (s.maxIndex + 1) = emptyTLS := by
  induction tids with
  | nil => simp at hmissing
  | cons tid rest ih =>
    rw [State.searches] at h
    cases hfind : s.findIndex tid with
    | error e =>
      rw [hfind] at h
      cases h
    | ok found =>
      obtain ⟨i, s₁⟩ := found
      rw [hfind] at h
      obtain ⟨hlook, hs₁⟩ | ⟨-, -, -, hs₁⟩ := findIndex_cases hfind
      · rw [State.started_of_not_first hfirst] at hlook hs₁
        subst hs₁
        obtain ⟨t, ht, hnone⟩ := hmissing
        obtain rfl | ht := List.mem_cons.mp ht
        · rw [hlook] at hnone
          cases hnone
        · exact ih h ⟨t, ht, hnone⟩
      · rw [State.started_of_not_first hfirst] at hs₁
        subst hs₁
        obtain hkept | hkept := (sameStore_searches h).1.entry (s.maxIndex + 1)
        · rw [hkept, State.ttpArray_handOut]
        · exact hkept

theorem kept_of_searches (hfirst : s.firstCall = false) (h : s.searches tids = .ok s')
    (hk : k ≤ s.maxIndex) : s'.ttpArray k = s.ttpArray k := by
  induction tids generalizing s with
  | nil =>
    cases h
    rfl
  | cons tid rest ih =>
    rw [State.searches] at h
    cases hfind : s.findIndex tid with
    | error e =>
      rw [hfind] at h
      cases h
    | ok found =>
      obtain ⟨i, s₁⟩ := found
      rw [hfind] at h
      rw [ih (firstCall_findIndex hfind) h (hk.trans (maxIndex_findIndex_le hfind))]
      obtain ⟨-, hs₁⟩ | ⟨-, -, -, hs₁⟩ := findIndex_cases hfind
      · rw [hs₁, State.started_of_not_first hfirst]
      · rw [hs₁, State.started_of_not_first hfirst]
        exact State.ttpArray_handOut_of_ne (by omega)

theorem Seated.zero (h : Seated s) (hentry : s.ttpArray i = ⟨0, some tls⟩) :
    i = s.maxIndex + 1 := by
  have htls : (s.ttpArray i).tls = some tls := by rw [hentry]
  have hlow : s.maxIndex < i := by
    by_contra hnot
    exact h.below (h.not_first htls) i (Nat.le_of_not_lt hnot) (by rw [hentry])
  have hhigh : i ≤ s.maxIndex + 1 := by
    by_contra hnot
    rw [h.far i (Nat.lt_of_not_le hnot)] at htls
    cases htls
  omega

theorem maxIndex_findIndex_le_succ (hfind : s.findIndex tid = .ok (i, s₁)) :
    s₁.maxIndex ≤ s.maxIndex + 1 := by
  rw [← s.maxIndex_started]
  obtain ⟨-, rfl⟩ | ⟨-, -, -, rfl⟩ := findIndex_cases hfind
  · exact Nat.le_succ _
  · exact Nat.le_refl _

/-- The caller of another id does not touch the entry behind `maxIndex`. -/
theorem Effect.ne_zero_entry {c : Call} (h : Effect s self c i s₁ s₂ s') (hself : self ≠ 0) :
    i ≠ s.maxIndex + 1 := by
  have hmax := maxIndex_findIndex_le_succ h.found
  obtain ⟨hlt, -⟩ | ⟨-, hzero⟩ := h.place.seat
  · omega
  · exact absurd hzero hself

/-- A call takes the storage of thread 0 exactly if another thread is handed an entry. -/
theorem othersStay_iff {c : Call} (h : Seated s) (heffect : Effect s self c i s₁ s₂ s') :
    OthersStay s (self, c) s' ↔ SparesZero s (self, c) := by
  constructor
  · intro hstay k tls hentry hself
    have htls : (s.ttpArray k).tls = some tls := by rw [hentry]
    have hfirst := h.not_first htls
    have hk := h.zero hentry
    by_contra hnot
    have hmissing : ∃ t ∈ self :: c.others, s.lookUp t = none := by
      by_contra hall
      apply hnot
      intro t ht
      rw [Option.isSome_iff_ne_none]
      exact fun hnone => hall ⟨t, ht, hnone⟩
    have hempty := emptied_of_searches hfirst heffect.searched hmissing
    have hlost : s'.ttpArray k = emptyTLS := by
      rw [hk, heffect.others _ (heffect.ne_zero_entry hself).symm, hempty]
    have hkept := hstay k tls htls (by rw [hentry]; exact Ne.symm hself)
    rw [hlost, hentry] at hkept
    exact absurd (congrArg TidTlsPair.tls hkept) (by simp [emptyTLS])
  · intro hspares k tls htls hother
    have hfirst := h.not_first htls
    have hsearched : s₂.ttpArray k = s.ttpArray k := by
      by_cases hzero : (s.ttpArray k).tid = 0
      · have hentry : s.ttpArray k = ⟨0, some tls⟩ := by rw [← hzero, ← htls]
        have hknown : Known s (self :: c.others) :=
          ⟨hfirst, hspares k tls hentry fun heq => hother (hzero.trans heq.symm)⟩
        have hsame := heffect.searched
        rw [searches_of_known hknown] at hsame
        cases hsame
        rfl
      · apply kept_of_searches hfirst heffect.searched
        by_contra hnot
        exact hzero (h.above k (Nat.lt_of_not_le hnot))
    by_cases hk : k = i
    · obtain hsame | hnone | hown := heffect.own
      · rw [hk, hsame, ← hk, hsearched]
      · rw [← hk, hsearched, htls] at hnone
        cases hnone
      · rw [← hk, hsearched] at hown
        exact absurd hown hother
    · rw [heffect.others k hk, hsearched]

/-! ### Runs -/

/-- Every thread has at most one storage. The calls of the other threads leave it in its entry exactly
if none of them looks up an id that has no entry while thread 0 has a storage. -/
theorem storage_stays_iff (hframe : Function.Injective frame) (memory : Nat → UInt8)
    {run : List ((Nat × Call) × State)}
    (h : EachStep (fun s a s' => a.1 ≠ noThread ∧ step frame s a = .ok s') (initial memory) run) :
    Always OneSeat (initial memory) run ∧
      (EachStep OthersStay (initial memory) run ↔
        EachStep (fun s a _ => SparesZero s a) (initial memory) run) := by
  have hinitial : Wellformed frame (initial memory) ∧ Seated (initial memory) :=
    ⟨Wellformed.initial frame memory, Seated.initial memory⟩
  have hcall : ∀ s a s', Wellformed frame s ∧ Seated s → a.1 ≠ noThread ∧ step frame s a = .ok s' →
      (Wellformed frame s' ∧ Seated s') ∧ (OthersStay s a s' ↔ SparesZero s a) := by
    intro s a s' hs ha
    obtain ⟨⟨r, s₁⟩, hcall, rfl⟩ := ok_of_map ha.2
    obtain ⟨hseated, i, t₁, t₂, heffect⟩ := hs.2.of_call hframe hs.1 ha.1 hcall
    exact ⟨⟨wellformed_call hframe hs.1 hcall, hseated⟩, othersStay_iff hs.2 heffect⟩
  have hkeep : ∀ s a s', Wellformed frame s ∧ Seated s →
      a.1 ≠ noThread ∧ step frame s a = .ok s' → Wellformed frame s' ∧ Seated s' :=
    fun s a s' hs ha => (hcall s a s' hs ha).1
  refine ⟨?_, fun hstay => ?_, fun hspares => ?_⟩
  · exact (EachStep.always hkeep hinitial h).mono fun s hs => hs.2.unique
  · exact EachStep.of_inv (fun s a s' hs _ ha => hkeep s a s' hs ha)
      (fun s a s' hs hC ha => (hcall s a s' hs ha).2.mp hC) hinitial h hstay
  · exact EachStep.of_inv (fun s a s' hs _ ha => hkeep s a s' hs ha)
      (fun s a s' hs hC ha => (hcall s a s' hs ha).2.mpr hC) hinitial h hspares

/-- Thread 0 comes last. -/
theorem storage_stays_zero : Always OneSeat (initial fun _ => 0)
      (trail (step id) (initial fun _ => 0)
        [(7, .create 5000), (8, .clone 7), (0, .clone 8), (7, .write 0 1 [65])]) ∧
    (EachStep OthersStay (initial fun _ => 0)
        (trail (step id) (initial fun _ => 0)
          [(7, .create 5000), (8, .clone 7), (0, .clone 8), (7, .write 0 1 [65])]) ↔
      EachStep (fun s a _ => SparesZero s a) (initial fun _ => 0)
        (trail (step id) (initial fun _ => 0)
          [(7, .create 5000), (8, .clone 7), (0, .clone 8), (7, .write 0 1 [65])])) :=
  storage_stays_iff Function.injective_id _ (eachStep_trail_forall (by decide))

/-- The first call of another thread takes the storage of thread 0. -/
theorem storage_lost : ¬ EachStep OthersStay (initial fun _ => 0)
    (trail (step id) (initial fun _ => 0) [(0, .create 5000), (7, .create 5000)]) := by
  intro hstay
  have hkept := hstay.mono (Q := fun s a s' => (s.ttpArray 1).tls.isSome →
      (s.ttpArray 1).tid ≠ a.1 → (s'.ttpArray 1).tls.isSome) <| by
    intro s a s' hs hsome hother
    obtain ⟨tls, htls⟩ := Option.isSome_iff_exists.mp hsome
    rw [hs 1 tls htls hother]
    exact hsome
  revert hkept
  decide +kernel

end

end OSChallenges.Storage
