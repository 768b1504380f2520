import OSChallenges.Storage.Seats
import OSChallenges.Storage.Sharing

/-!
# The states that any threads reach

Thread 0 can lose its storage to a call of another thread, and with it the entries that point to its
pages. The reference counts are not lowered then, so that a page may count more references than it has.
It is copied once too often, and no storage sees a difference.
-/

namespace OSChallenges.Storage

open Program Words References Outcomes

/-- The states between whole calls, of threads with any ids but that of no thread. -/
inductive Reached (frame : Nat → Nat) : State → Prop
  | initial (memory : Nat → UInt8) : Reached frame (initial memory)
  | call {s s' : State} {self : Nat} {c : Call} {r : Result} (h : Reached frame s)
    (hself : self ≠ noThread) (hcall : call frame s self c = .ok (r, s')) : Reached frame s'

/-- The storages between calls: nobody has locked them, and none is larger than half the addresses of an
`unsigned`. -/
def Resting (s : State) : Prop :=
  ∀ i tls, (s.ttpArray i).tls = some tls →
    i < maxThreads ∧ tls.mutex = false ∧ tls.pageNum < 2 ^ 32 ∧ tls.pages.length ≤ 2 ^ 19

/-- What whole calls of any threads keep. -/
structure Settled (frame : Nat → Nat) (s : State) : Prop where
  wellformed : Wellformed frame s
  referenced : Referenced s
  seated : Seated s
  resting : Resting s

section

variable {frame : Nat → Nat} {s s' s₀ : State} {self tid index i offset length : Nat}
  {tls : ThreadLocalStorage} {r : Result}

/-! ### Searches -/

theorem CountsBy.search (h : Referenced s) (hs : SameStore s s') : Referenced s' := by
  have hpages : ∀ i, s'.pages i = s.pages i ∨ s'.pages i = [] := by
    intro i
    obtain hsame | hempty := hs.entry i
    · rw [State.pages, State.pages, hsame]
      exact .inl rfl
    · rw [State.pages, hempty]
      exact .inr rfl
  refine ⟨fun p hp => ?_, fun i hi => ?_⟩
  · rw [hs.heapSize] at hp
    rw [hs.heap]
    refine ge_trans (h.count p hp) (Int.ofNat_le.mpr (pointers_le fun i => ?_))
    obtain hsame | hempty := hpages i
    · rw [hsame]
    · rw [hempty]
      exact Nat.zero_le _
  · obtain hsame | hempty := hpages i
    · rw [hsame, h.beyond i hi]
    · exact hempty

theorem Resting.search (h : Resting s) (hs : SameStore s s') : Resting s' :=
  fun i tls htls => h i tls (hs.tls htls)

theorem Settled.search (h : Settled frame s) (hfind : s.findIndex tid = .ok (i, s')) :
    Settled frame s' :=
  have hs := SameStore.findIndex hfind
  ⟨hs.wellformed h.wellformed, CountsBy.search h.referenced hs, h.seated.search hfind,
    h.resting.search hs⟩

theorem findIndex_lt (hfind : s.findIndex tid = .ok (i, s')) : i < maxThreads := by
  obtain ⟨hlook, -⟩ | ⟨-, hroom, rfl, -⟩ := findIndex_cases hfind
  · exact List.mem_range.mp (List.mem_of_find?_eq_some hlook)
  · exact Nat.lt_of_succ_lt hroom

theorem Settled.own (h : Settled frame s) (hself : self ≠ noThread)
    (hentry : s.ttpArray index = ⟨self, some tls⟩) : s.findIndex self = .ok (index, s) := by
  have htls : (s.ttpArray index).tls = some tls := by rw [hentry]
  have hstarted : s.started = s := State.started_of_not_first (h.seated.not_first htls)
  have hindex := (h.resting index tls htls).1
  cases hlook : s.started.lookUp self with
  | none =>
    rw [hstarted] at hlook
    exact absurd (by rw [hentry]) (not_of_lookUp_none hlook hindex)
  | some j =>
    have hfind := findIndex_known hlook
    rw [hstarted] at hfind
    obtain ⟨tls', hentry'⟩ | ⟨-, hother⟩ := (h.seated.place hself hfind).entry
    · have hsame := h.seated.unique j index tls' tls (by rw [hentry']) htls (by rw [hentry', hentry])
      rw [← hsame]
      exact hfind
    · exact absurd (by rw [hentry]) (hother index tls htls)

/-! ### Reads and writes -/

theorem Resting.of_shape (h : Resting s) (hshape : SameShape s s') : Resting s' := by
  intro i tls htls
  obtain ⟨old, hold, hsame⟩ := hshape.symm.tls htls
  unfold ThreadLocalStorage.shape at hsame
  simp only [Prod.mk.injEq] at hsame
  rw [← hsame.2.1, ← hsame.2.2.1, ← hsame.2.2.2]
  exact h i old hold

theorem Settled.read (h : Settled frame s₀)
    (hcall : (tlsRead self offset length).run (exec frame) s₀ = .ok (r, s')) : Settled frame s' := by
  obtain ⟨hwell, index, s, hfind, hshape⟩ := shape_tlsRead h.wellformed hcall
  have hs := h.search hfind
  refine ⟨hwell, ?_, hs.seated.of_shape hshape, hs.resting.of_shape hshape⟩
  obtain ⟨-, index', hindex, -⟩ | ⟨s₁, index', p, tls, hacc⟩ := tlsRead_cases hcall
  · exact (h.search hindex).referenced
  · have hs₁ := h.search hacc.found
    exact CountsBy.read hs₁.referenced hs₁.wellformed hacc hcall

theorem Settled.write {buffer : List UInt8} (h : Settled frame s₀) (hframe : Function.Injective frame)
    (hcall : (tlsWrite self offset length buffer).run (exec frame) s₀ = .ok (r, s')) :
    Settled frame s' := by
  obtain ⟨hwell, index, s, hfind, hshape⟩ := shape_tlsWrite hframe h.wellformed hcall
  have hs := h.search hfind
  refine ⟨hwell, ?_, hs.seated.of_shape hshape, hs.resting.of_shape hshape⟩
  obtain ⟨-, index', hindex, -⟩ | ⟨s₁, index', p, tls, hacc⟩ := tlsWrite_cases hcall
  · exact (h.search hindex).referenced
  · have hs₁ := h.search hacc.found
    exact CountsBy.write hs₁.referenced balanced_ge hframe hs₁.wellformed hacc hcall

/-! ### Creation and cloning -/

theorem Resting.take (h : Resting s) {new : TidTlsPair}
    (harray : s'.ttpArray = Function.update s.ttpArray index new) (hindex : index < maxThreads)
    (hnew : ∀ tls, new.tls = some tls →
      tls.mutex = false ∧ tls.pageNum < 2 ^ 32 ∧ tls.pages.length ≤ 2 ^ 19) : Resting s' := by
  intro i tls htls
  rw [harray] at htls
  by_cases hi : i = index
  · rw [hi, Function.update_self] at htls
    exact ⟨hi ▸ hindex, hnew tls htls⟩
  · rw [Function.update_of_ne hi] at htls
    exact h i tls htls

theorem Settled.create {size : Nat} {made : Int × State} (h : Settled frame s)
    (hmade : tlsCreate frame s self size = .ok made) (hseated : Seated made.2) :
    Settled frame made.2 := by
  obtain ⟨index, s₁, hfind⟩ := findIndex_of_tlsCreate hmade
  have hs := h.search hfind
  have hhigh := roundUp_le size
  obtain ⟨hlow, hbound⟩ := roundUp_bounds size
  rw [tlsCreate_of_findIndex hfind] at hmade
  generalize roundUp (toInt32 size) pageSize = n at hmade hlow hhigh hbound
  split at hmade
  · cases hmade
    exact hs
  · rename_i hnew
    cases hmade
    have hnone : (s₁.ttpArray index).tls = none := by simpa using (not_or.mp hnew).2
    have hindex := findIndex_lt hfind
    refine ⟨hs.wellformed.newStorage hlow hbound,
      CountsBy.newStorage hs.referenced balanced_ge hs.wellformed hnone hindex, hseated,
      hs.resting.take (State.ttpArray_newStorage ..) hindex ?_⟩
    intro tls htls
    cases htls
    refine ⟨rfl, ?_, ?_⟩
    · show toUInt32 n < 2 ^ 32
      unfold toUInt32
      omega
    · show (List.range' s₁.heapSize n.toNat).length ≤ 2 ^ 19
      rw [List.length_range']
      omega

theorem Settled.clone {made : Int × State} (h : Settled frame s)
    (hmade : tlsClone s self tid = .ok made) (hseated : Seated made.2) : Settled frame made.2 := by
  obtain ⟨i, s₁, j, s₂, hi, hj, hr⟩ := tlsClone_cases hmade
  have hs := (h.search hi).search hj
  obtain ⟨rfl, -⟩ | ⟨tls, hnone, htls, rfl⟩ := hr
  · exact hs
  · have hindex := findIndex_lt hi
    refine ⟨hs.wellformed.cloneStorage htls,
      CountsBy.cloneStorage hs.referenced balanced_ge hs.wellformed htls hnone hindex, hseated,
      hs.resting.take (State.ttpArray_cloneStorage hs.wellformed htls i self) hindex ?_⟩
    intro tls' htls'
    cases htls'
    obtain ⟨-, -, hnum, hlength⟩ := hs.resting j tls htls
    exact ⟨rfl, hnum, hlength⟩

theorem Settled.initial (frame : Nat → Nat) (memory : Nat → UInt8) :
    Settled frame (initial memory) where
  wellformed := Wellformed.initial frame memory
  referenced := ⟨fun _ hp => absurd hp (Nat.not_lt_zero _), fun _ _ => rfl⟩
  seated := Seated.initial memory
  resting _ _ htls := by cases htls

theorem Settled.call {c : Call} (h : Settled frame s) (hframe : Function.Injective frame)
    (hself : self ≠ noThread) (hcall : call frame s self c = .ok (r, s')) : Settled frame s' := by
  obtain ⟨hseated, -⟩ := h.seated.of_call hframe h.wellformed hself hcall
  cases c with
  | create size =>
    obtain ⟨made, hmade, heq⟩ := ok_of_map hcall
    cases heq
    exact h.create hmade hseated
  | clone tid =>
    obtain ⟨made, hmade, heq⟩ := ok_of_map hcall
    cases heq
    exact h.clone hmade hseated
  | read offset length => exact h.read hcall
  | write offset length buffer => exact h.write hframe hcall

theorem Reached.settled (h : Reached frame s) (hframe : Function.Injective frame) :
    Settled frame s := by
  induction h with
  | initial memory => exact Settled.initial frame memory
  | call h hself hcall ih => exact ih.call hframe hself hcall

end

end OSChallenges.Storage
