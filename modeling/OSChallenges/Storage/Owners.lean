import OSChallenges.Storage.Registry

/-!
# Entries and their owners

For thread ids other than the two that stand for a free entry, `findIndex` finds the entry of a thread
that owns a storage, and otherwise an entry that nobody owns.
-/

namespace OSChallenges.Storage

open Program Words

/-- An id that does not stand for a free entry. -/
def ValidThread (tid : Nat) : Prop := tid ≠ 0 ∧ tid ≠ noThread

instance (tid : Nat) : Decidable (ValidThread tid) := inferInstanceAs (Decidable (_ ∧ _))

/-- Storages are in the entries that have been handed out, each under the id of its owner. -/
structure Registered (s : State) : Prop where
  bound : s.maxIndex < maxThreads
  first : s.firstCall = true → (s.ttpArray 0).tls = none
  free : ∀ i, s.maxIndex ≤ i → (s.ttpArray i).tls = none
  owner : ∀ i tls, (s.ttpArray i).tls = some tls → ValidThread (s.ttpArray i).tid
  vacant : ∀ i, (s.ttpArray i).tls = none → ¬ ValidThread (s.ttpArray i).tid
  unique : ∀ i j tls tls', (s.ttpArray i).tls = some tls → (s.ttpArray j).tls = some tls' →
    (s.ttpArray i).tid = (s.ttpArray j).tid → i = j

/-- What `findIndex` finds for a thread: its entry, or one to be taken. -/
structure Found (s : State) (tid i : Nat) : Prop where
  started : s.firstCall = false
  lt : i < s.maxIndex
  entry : (∃ tls, s.ttpArray i = ⟨tid, some tls⟩) ∨
    ((s.ttpArray i).tls = none ∧
      ∀ j tls, (s.ttpArray j).tls = some tls → (s.ttpArray j).tid ≠ tid)

/-- The storages are in the same entries. -/
structure SameOwners (s s' : State) : Prop where
  tls : ∀ i, (s'.ttpArray i).tls = (s.ttpArray i).tls
  tid : ∀ i tls, (s.ttpArray i).tls = some tls → (s'.ttpArray i).tid = (s.ttpArray i).tid

section

variable {s s' s'' : State} {tid i j : Nat} {tls : ThreadLocalStorage}

theorem SameOwners.refl (s : State) : SameOwners s s := ⟨fun _ => rfl, fun _ _ _ => rfl⟩

theorem SameOwners.trans (h : SameOwners s s') (h' : SameOwners s' s'') : SameOwners s s'' where
  tls i := (h'.tls i).trans (h.tls i)
  tid i tls htls := (h'.tid i tls (by rw [h.tls, htls])).trans (h.tid i tls htls)

theorem SameOwners.pages (h : SameOwners s s') (i : Nat) : s'.pages i = s.pages i := by
  rw [State.pages, State.pages, h.tls]

theorem SameOwners.update (hj : (s.ttpArray j).tls = none) (maxIndex : Nat) (firstCall : Bool) :
    SameOwners s { s with
      ttpArray := Function.update s.ttpArray j emptyTLS
      maxIndex := maxIndex
      firstCall := firstCall } where
  tls i := by
    show (Function.update s.ttpArray j emptyTLS i).tls = _
    by_cases hi : i = j
    · rw [hi, Function.update_self, hj]
      rfl
    · rw [Function.update_of_ne hi]
  tid i tls htls := by
    show (Function.update s.ttpArray j emptyTLS i).tid = _
    have hi : i ≠ j := by
      intro hij
      rw [hij, hj] at htls
      cases htls
    rw [Function.update_of_ne hi]

theorem Registered.update (h : Registered s) (hj : (s.ttpArray j).tls = none) {maxIndex : Nat}
    (hmax : s.maxIndex ≤ maxIndex) (hbound : maxIndex < maxThreads) :
    Registered { s with
      ttpArray := Function.update s.ttpArray j emptyTLS
      maxIndex := maxIndex
      firstCall := false } := by
  have hsame := SameOwners.update hj maxIndex false
  refine ⟨hbound, nofun, ?_, ?_, ?_, ?_⟩
  · intro i hi
    rw [hsame.tls]
    exact h.free i (hmax.trans hi)
  · intro i tls htls
    rw [hsame.tls] at htls
    rw [hsame.tid i tls htls]
    exact h.owner i tls htls
  · intro i htls
    rw [hsame.tls] at htls
    show ¬ ValidThread (Function.update s.ttpArray j emptyTLS i).tid
    by_cases hi : i = j
    · rw [hi, Function.update_self]
      exact fun hvalid => hvalid.2 rfl
    · rw [Function.update_of_ne hi]
      exact h.vacant i htls
  · intro i k tls tls' hi hk htid
    rw [hsame.tls] at hi hk
    rw [hsame.tid i tls hi, hsame.tid k tls' hk] at htid
    exact h.unique i k tls tls' hi hk htid

/-- The state in which a search looks: the first call has made its initialisation. -/
def State.started (s : State) : State :=
  if s.firstCall then { s.tlsInit with firstCall := false } else s

theorem State.firstCall_started (s : State) : s.started.firstCall = false := by
  unfold started
  split
  · rfl
  · rename_i hfirst
    simpa using hfirst

theorem State.maxIndex_started (s : State) : s.started.maxIndex = s.maxIndex := by
  unfold started
  split
  · rfl
  · rfl

/-- A search finds an entry with the id, or hands out the next one. -/
theorem findIndex_known (h : s.started.lookUp tid = some i) :
    s.findIndex tid = .ok (i, s.started) := by
  unfold State.started at h ⊢
  unfold State.findIndex
  simp only
  rw [h]

theorem findIndex_new (h : s.started.lookUp tid = none) :
    s.findIndex tid = if maxThreads ≤ s.started.maxIndex + 1 then .error .overrun
      else .ok (s.started.maxIndex, s.started.handOut) := by
  unfold State.started at h ⊢
  unfold State.findIndex
  simp only
  rw [h]

theorem findIndex_cases (hfind : s.findIndex tid = .ok (i, s')) :
    (s.started.lookUp tid = some i ∧ s' = s.started) ∨
      (s.started.lookUp tid = none ∧ s.started.maxIndex + 1 < maxThreads ∧
        i = s.started.maxIndex ∧ s' = s.started.handOut) := by
  cases hlook : s.started.lookUp tid with
  | some j =>
    rw [findIndex_known hlook] at hfind
    cases hfind
    exact .inl ⟨rfl, rfl⟩
  | none =>
    rw [findIndex_new hlook] at hfind
    by_cases hfull : maxThreads ≤ s.started.maxIndex + 1
    · rw [if_pos hfull] at hfind
      cases hfind
    · rw [if_neg hfull] at hfind
      cases hfind
      exact .inr ⟨rfl, Nat.lt_of_not_le hfull, rfl, rfl⟩

theorem Registered.started (h : Registered s) :
    Registered s.started ∧ SameOwners s s.started := by
  unfold State.started
  cases hfirst : s.firstCall with
  | true =>
    have hnone := h.first hfirst
    exact ⟨h.update hnone (Nat.le_refl _) h.bound, SameOwners.update hnone s.maxIndex false⟩
  | false => exact ⟨h, SameOwners.refl s⟩

theorem State.handOut_eq (h : s.firstCall = false) : s.handOut = { s with
    ttpArray := Function.update s.ttpArray (s.maxIndex + 1) emptyTLS
    maxIndex := s.maxIndex + 1
    firstCall := false } := by
  rw [State.handOut, ← h]

theorem Registered.handOut (h : Registered s) (hstarted : s.firstCall = false)
    (hroom : s.maxIndex + 1 < maxThreads) : Registered s.handOut ∧ SameOwners s s.handOut := by
  have hnone := h.free (s.maxIndex + 1) (Nat.le_succ _)
  rw [State.handOut_eq hstarted]
  exact ⟨h.update hnone (Nat.le_succ _) hroom, SameOwners.update hnone _ _⟩

theorem Registered.search (h : Registered s) (hfind : s.findIndex tid = .ok (i, s')) :
    Registered s' ∧ SameOwners s s' := by
  obtain ⟨hreg, hsame⟩ := h.started
  obtain ⟨-, rfl⟩ | ⟨-, hroom, -, rfl⟩ := findIndex_cases hfind
  · exact ⟨hreg, hsame⟩
  · obtain ⟨hreg', hsame'⟩ := hreg.handOut s.firstCall_started hroom
    exact ⟨hreg', hsame.trans hsame'⟩

theorem Registered.found (h : Registered s) (htid : ValidThread tid)
    (hfind : s.findIndex tid = .ok (i, s')) : Found s' tid i := by
  obtain ⟨hreg, -⟩ := h.started
  obtain ⟨hlook, rfl⟩ | ⟨hlook, hroom, rfl, rfl⟩ := findIndex_cases hfind
  · have hid : (s.started.ttpArray i).tid = tid := by simpa using List.find?_some hlook
    cases htls : (s.started.ttpArray i).tls with
    | none => exact absurd (hid ▸ htid) (hreg.vacant i htls)
    | some tls =>
      refine ⟨s.firstCall_started, ?_, .inl ⟨tls, ?_⟩⟩
      · by_contra hnot
        rw [hreg.free i (Nat.le_of_not_lt hnot)] at htls
        cases htls
      · rw [← hid, ← htls]
  · obtain ⟨hreg', hsame⟩ := hreg.handOut s.firstCall_started hroom
    refine ⟨s.firstCall_started, Nat.lt_succ_self _, .inr ⟨?_, ?_⟩⟩
    · rw [hsame.tls]
      exact hreg.free _ (Nat.le_refl _)
    · intro j tls htls
      rw [hsame.tls] at htls
      rw [hsame.tid j tls htls]
      have hj : j < s.started.maxIndex := by
        by_contra hnot
        rw [hreg.free j (Nat.le_of_not_lt hnot)] at htls
        cases htls
      have hnot := List.find?_eq_none.mp hlook j (List.mem_range.mpr (hj.trans hreg.bound))
      simpa using hnot

theorem Registered.findIndex (h : Registered s) (htid : ValidThread tid)
    (hfind : s.findIndex tid = .ok (i, s')) : Registered s' ∧ SameOwners s s' ∧ Found s' tid i :=
  ⟨(h.search hfind).1, (h.search hfind).2, h.found htid hfind⟩

theorem maxIndex_findIndex_le (hfind : s.findIndex tid = .ok (i, s')) : s.maxIndex ≤ s'.maxIndex := by
  rw [← s.maxIndex_started]
  obtain ⟨-, rfl⟩ | ⟨-, -, -, rfl⟩ := findIndex_cases hfind
  · exact Nat.le_refl _
  · exact Nat.le_succ _

theorem firstCall_findIndex (hfind : s.findIndex tid = .ok (i, s')) : s'.firstCall = false := by
  obtain ⟨-, rfl⟩ | ⟨-, -, -, rfl⟩ := findIndex_cases hfind
  · exact s.firstCall_started
  · exact s.firstCall_started

theorem Found.findIndex {other : Nat} (h : Found s tid i) (hreg : Registered s)
    (hfind : s.findIndex other = .ok (j, s')) : Found s' tid i := by
  obtain ⟨-, howners⟩ := hreg.search hfind
  refine ⟨firstCall_findIndex hfind, h.lt.trans_le (maxIndex_findIndex_le hfind), ?_⟩
  obtain ⟨tls, hentry⟩ | ⟨hnone, hfree⟩ := h.entry
  · refine .inl ⟨tls, ?_⟩
    calc s'.ttpArray i = ⟨(s'.ttpArray i).tid, (s'.ttpArray i).tls⟩ := rfl
      _ = ⟨tid, some tls⟩ := by rw [howners.tid i tls (by rw [hentry]), howners.tls, hentry]
  · refine .inr ⟨by rw [howners.tls, hnone], ?_⟩
    intro k tls htls
    rw [howners.tls] at htls
    rw [howners.tid k tls htls]
    exact hfree k tls htls

theorem Registered.take (h : Registered s) (htid : ValidThread tid) (hfound : Found s tid i)
    (hnone : (s.ttpArray i).tls = none)
    (harray : s'.ttpArray = Function.update s.ttpArray i ⟨tid, some tls⟩)
    (hmax : s'.maxIndex = s.maxIndex) (hfirst : s'.firstCall = s.firstCall) : Registered s' := by
  have hother : ∀ j tls, (s.ttpArray j).tls = some tls → (s.ttpArray j).tid ≠ tid := by
    obtain ⟨tls, hentry⟩ | ⟨-, hother⟩ := hfound.entry
    · rw [hentry] at hnone
      cases hnone
    · exact hother
  have hself : s'.ttpArray i = ⟨tid, some tls⟩ := by rw [harray, Function.update_self]
  have hsame : ∀ j, j ≠ i → s'.ttpArray j = s.ttpArray j := fun j hj => by
    rw [harray, Function.update_of_ne hj]
  refine ⟨by rw [hmax]; exact h.bound, ?_, ?_, ?_, ?_, ?_⟩
  · intro htrue
    rw [hfirst, hfound.started] at htrue
    cases htrue
  · intro j hj
    rw [hmax] at hj
    have hlt := hfound.lt
    rw [hsame j (by omega)]
    exact h.free j hj
  · intro j tls' htls'
    by_cases hj : j = i
    · rw [hj, hself]
      exact htid
    · rw [hsame j hj] at htls' ⊢
      exact h.owner j tls' htls'
  · intro j htls'
    by_cases hj : j = i
    · rw [hj, hself] at htls'
      cases htls'
    · rw [hsame j hj] at htls' ⊢
      exact h.vacant j htls'
  · intro j k tls₁ tls₂ hj hk hid
    by_cases hji : j = i
    · by_cases hki : k = i
      · rw [hji, hki]
      · rw [hji, hself, hsame k hki] at hid
        rw [hsame k hki] at hk
        exact absurd hid.symm (hother k tls₂ hk)
    · rw [hsame j hji] at hj hid
      by_cases hki : k = i
      · rw [hki, hself] at hid
        exact absurd hid (hother j tls₁ hj)
      · rw [hsame k hki] at hk hid
        exact h.unique j k tls₁ tls₂ hj hk hid

/-- Only who owns a storage counts, not what is in it. -/
theorem Registered.of_tid (h : Registered s) (htid : ∀ i, (s'.ttpArray i).tid = (s.ttpArray i).tid)
    (hnone : ∀ i, (s'.ttpArray i).tls = none ↔ (s.ttpArray i).tls = none)
    (hmax : s'.maxIndex = s.maxIndex) (hfirst : s'.firstCall = s.firstCall) : Registered s' := by
  have hsome : ∀ i tls, (s'.ttpArray i).tls = some tls → ∃ old, (s.ttpArray i).tls = some old := by
    intro i tls htls
    apply Option.ne_none_iff_exists'.mp
    intro hold
    rw [(hnone i).mpr hold] at htls
    cases htls
  refine ⟨hmax ▸ h.bound, ?_, ?_, ?_, ?_, ?_⟩
  · intro htrue
    exact (hnone 0).mpr (h.first (hfirst ▸ htrue))
  · intro i hi
    exact (hnone i).mpr (h.free i (hmax ▸ hi))
  · intro i tls htls
    obtain ⟨old, hold⟩ := hsome i tls htls
    rw [htid]
    exact h.owner i old hold
  · intro i htls
    rw [htid]
    exact h.vacant i ((hnone i).mp htls)
  · intro i j tls tls' hi hj hid
    obtain ⟨old, hold⟩ := hsome i tls hi
    obtain ⟨old', hold'⟩ := hsome j tls' hj
    rw [htid, htid] at hid
    exact h.unique i j old old' hold hold' hid

theorem Registered.of_shape (h : Registered s) (hshape : SameShape s s') : Registered s' := by
  apply h.of_tid hshape.tid _ hshape.maxIndex hshape.firstCall
  intro i
  have hmap := hshape.shape i
  constructor
  · intro hnone
    rw [hnone] at hmap
    exact Option.map_eq_none_iff.mp hmap.symm
  · intro hnone
    rw [hnone] at hmap
    exact Option.map_eq_none_iff.mp hmap

theorem Registered.initial (memory : Nat → UInt8) : Registered (initial memory) where
  bound := by
    show 0 < maxThreads
    decide
  first _ := rfl
  free _ _ := rfl
  owner _ _ htls := by cases htls
  vacant _ _ hvalid := hvalid.1 rfl
  unique _ _ _ _ htls := by cases htls

end

end OSChallenges.Storage
