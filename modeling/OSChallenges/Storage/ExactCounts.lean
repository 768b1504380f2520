import OSChallenges.Library.Runs
import OSChallenges.Storage.Interleaved
import OSChallenges.Storage.Sharing

/-!
# Exact reference counts

The reference count of a page is the number of places at which it is, between any whole calls. All
these places have one page index: a clone copies the table of its original, and a new page is at the
one place it has been made for.
-/

namespace OSChallenges.Storage

open Program Words References Runs Outcomes

/-- A page is at one index of the tables, whichever storages have it. -/
def SameIndex (s : State) : Prop :=
  ∀ (i i' j j' p : Nat), (s.pages i)[j]? = some p → (s.pages i')[j']? = some p → j = j'

/-- The references to the pages of the storages are counted exactly; no storage has a page twice, and
storages that share a page have it at the same index. -/
structure ExactCounts (s : State) : Prop where
  count : ∀ i p, p ∈ s.pages i → (s.heap p).refCount = pointers maxThreads s.pages p
  beyond : ∀ i, maxThreads ≤ i → s.pages i = []
  once : ∀ i p, (s.pages i).count p ≤ 1
  index : SameIndex s

/-- What whole calls keep. -/
structure Shared (frame : Nat → Nat) (s : State) : Prop where
  wellformed : Wellformed frame s
  registered : Registered s
  counted : Counted s
  index : SameIndex s

section

variable {frame : Nat → Nat} {s s' s₀ : State} {index page o : Nat} {tls : ThreadLocalStorage}

theorem SameIndex.of_same (h : SameIndex s) (hpages : ∀ i, s'.pages i = s.pages i) :
    SameIndex s' := by
  intro i i' j j' p hj hj'
  rw [hpages] at hj hj'
  exact h i i' j j' p hj hj'

theorem SameIndex.mprotect (h : SameIndex s) (addr len : Nat) (prot : Prot) :
    SameIndex (s.mprotect addr len prot) := by
  unfold State.mprotect
  split
  · exact h
  · exact h

theorem SameIndex.setMutex (h : SameIndex s) (index : Nat) (mutex : Bool) :
    SameIndex (s.setMutex index mutex) :=
  h.of_same fun _ => State.pages_setMutex

/-- One table changes: each of its entries has been at this index before, or is a new page, and the
new pages are numbered in the order of their entries. -/
theorem SameIndex.change (h : SameIndex s) (index page : Nat)
    (hothers : ∀ i, i ≠ index → s'.pages i = s.pages i)
    (hnew : ∀ j p, (s'.pages index)[j]? = some p →
      (∃ i, (s.pages i)[j]? = some p) ∨ (s.heapSize ≤ p ∧ j = p - s.heapSize + page))
    (hold : ∀ i p, p ∈ s.pages i → p < s.heapSize) : SameIndex s' := by
  have hplace : ∀ i j p, (s'.pages i)[j]? = some p →
      (∃ i, (s.pages i)[j]? = some p) ∨ (s.heapSize ≤ p ∧ j = p - s.heapSize + page) := by
    intro i j p hp
    by_cases hi : i = index
    · rw [hi] at hp
      exact hnew j p hp
    · rw [hothers i hi] at hp
      exact .inl ⟨i, hp⟩
  intro i i' j j' p hj hj'
  obtain ⟨k, hk⟩ | ⟨hfresh, hindex⟩ := hplace i j p hj
  · obtain ⟨k', hk'⟩ | ⟨hfresh', -⟩ := hplace i' j' p hj'
    · exact h k k' j j' p hk hk'
    · exact absurd (hold k p (List.mem_of_getElem? hk)) (Nat.not_lt.mpr hfresh')
  · obtain ⟨k', hk'⟩ | ⟨-, hindex'⟩ := hplace i' j' p hj'
    · exact absurd (hold k' p (List.mem_of_getElem? hk')) (Nat.not_lt.mpr hfresh)
    · rw [hindex, hindex']

theorem SameIndex.copyOnWrite {p : Nat} (h : SameIndex s) (hwell : Wellformed frame s)
    (htls : (s.ttpArray index).tls = some tls) :
    SameIndex (s.copyOnWrite frame index page p tls) := by
  refine h.change index page ?_ ?_ hwell.pages_lt
  · intro i hi
    rw [State.pages_copyOnWrite, if_neg hi]
  · intro j q hq
    rw [State.pages_copyOnWrite, if_pos rfl, List.getElem?_set] at hq
    by_cases hj : page = j
    · rw [if_pos hj] at hq
      split at hq
      · cases hq
        exact .inr ⟨Nat.le_refl _, by omega⟩
      · cases hq
    · rw [if_neg hj, ← State.pages_of_tls htls] at hq
      exact .inl ⟨index, hq⟩

theorem SameIndex.openWrite (h : SameIndex s) (hwell : Wellformed frame s) (index page : Nat) :
    SameIndex (s.openWrite frame index page) := by
  obtain ⟨-, hsame⟩ | ⟨tls, p, htls, -, ⟨-, hshared⟩ | ⟨-, hown⟩⟩ :=
    State.openWrite_cases frame s index page
  · rw [hsame]
    exact h
  · rw [hshared]
    exact h.copyOnWrite hwell htls
  · rw [hown]
    exact h.mprotect _ _ _

theorem SameIndex.getPages (h : SameIndex s) (n page o : Nat) :
    SameIndex (s.getPages index n page o) := by
  induction n generalizing s page o with
  | zero => exact h.mprotect _ _ _
  | succ n ih =>
    rw [State.getPages]
    split
    · exact ih h page (o + 1)
    · exact ih ((h.mprotect _ _ _).mprotect _ _ _) (page + 1) 1

theorem SameIndex.putBytes {bytes : List UInt8} (h : SameIndex s) (hwell : Wellformed frame s) :
    SameIndex (s.putBytes frame index bytes page o) := by
  induction bytes generalizing s page o with
  | nil => exact h.mprotect _ _ _
  | cons byte rest ih =>
    rw [State.putBytes]
    split
    · exact ih (s := s.putByte index page o byte) h (hwell.writeMemory _ _)
    · have hwell' : Wellformed frame (s.protect index page .none) := hwell.mprotect _ _ _
      have hindex : SameIndex (s.protect index page .none) := h.mprotect _ _ _
      exact ih (s := (State.openWrite frame _ index (page + 1)).putByte index (page + 1) 0 byte)
        (hindex.openWrite hwell' _ _) ((hwell'.openWrite _ _).writeMemory _ _)

theorem SameIndex.newStorage {self size : Nat} {n : Int} (h : SameIndex s)
    (hwell : Wellformed frame s) : SameIndex (s.newStorage frame index self size n) := by
  refine h.change index 0 ?_ ?_ hwell.pages_lt
  · intro i hi
    rw [State.pages_newStorage, if_neg hi]
  · intro j p hp
    rw [State.pages_newStorage, if_pos rfl] at hp
    obtain ⟨hj, heq⟩ := List.getElem?_eq_some_iff.mp hp
    rw [List.getElem_range'] at heq
    exact .inr ⟨by omega, by omega⟩

theorem SameIndex.cloneStorage {self k : Nat} (h : SameIndex s) (hwell : Wellformed frame s)
    (htls : (s.ttpArray k).tls = some tls) : SameIndex (s.cloneStorage index self tls) := by
  refine h.change index 0 ?_ ?_ hwell.pages_lt
  · intro i hi
    rw [State.pages_cloneStorage hwell htls, if_neg hi]
  · intro j p hp
    rw [State.pages_cloneStorage hwell htls, if_pos rfl, ← State.pages_of_tls htls] at hp
    exact .inl ⟨k, hp⟩

/-! ### Whole calls -/

theorem Shared.initial (frame : Nat → Nat) (memory : Nat → UInt8) :
    Shared frame (initial memory) where
  wellformed := Wellformed.initial frame memory
  registered := Registered.initial memory
  counted := ⟨fun _ hp => absurd hp (Nat.not_lt_zero _), fun _ _ => rfl⟩
  index _ _ _ _ _ hj := by cases hj

theorem Shared.findIndex {tid : Nat} (h : Shared frame s)
    (hfind : s.findIndex tid = .ok (index, s')) : Shared frame s' := by
  have hstore := SameStore.findIndex hfind
  obtain ⟨hreg, howners⟩ := h.registered.search hfind
  exact ⟨hstore.wellformed h.wellformed, hreg,
    h.counted.of_same howners.pages hstore.heap hstore.heapSize, h.index.of_same howners.pages⟩

theorem counted_tlsRead {self offset length : Nat} {r : Result} (h : Shared frame s₀)
    (hcall : (tlsRead self offset length).run (exec frame) s₀ = .ok (r, s')) :
    Counted s' ∧ SameIndex s' := by
  obtain ⟨-, index, hindex, -⟩ | ⟨s, index, p, tls, hacc⟩ := tlsRead_cases hcall
  · exact ⟨(h.findIndex hindex).counted, (h.findIndex hindex).index⟩
  · have hs : Shared frame s := h.findIndex hacc.found
    refine ⟨(hs.counted.by_eq.read hs.wellformed hacc hcall).counted, ?_⟩
    refine Prog.of_wp_total (Q := fun _ s' => SameIndex s')
      (wp_tlsRead hacc hs.wellformed rfl rfl rfl rfl ?_) hcall
    have hshared : SameIndex ((s.setMutex index true).setProt (frame p) .read) :=
      hs.index.setMutex index true
    split
    · exact (hshared.getPages _ _ _).setMutex index false
    · exact hshared.setMutex index false

theorem counted_tlsWrite {self offset length : Nat} {buffer : List UInt8} {r : Result}
    (hframe : Function.Injective frame) (h : Shared frame s₀)
    (hcall : (tlsWrite self offset length buffer).run (exec frame) s₀ = .ok (r, s')) :
    Counted s' ∧ SameIndex s' := by
  obtain ⟨-, index, hindex, -⟩ | ⟨s, index, p, tls, hacc⟩ := tlsWrite_cases hcall
  · exact ⟨(h.findIndex hindex).counted, (h.findIndex hindex).index⟩
  · have hs : Shared frame s := h.findIndex hacc.found
    refine ⟨(hs.counted.by_eq.write balanced_eq hframe hs.wellformed hacc hcall).counted, ?_⟩
    refine Prog.of_wp_total (Q := fun _ s' => SameIndex s')
      (wp_tlsWrite hacc hs.wellformed hframe rfl rfl rfl rfl ?_) hcall
    have hwell := hs.wellformed.setMutex index true
    have hshared := (hs.index.setMutex index true).openWrite hwell index (offset / pageSize)
    split
    · exact (hshared.putBytes (hwell.openWrite index (offset / pageSize))).setMutex index false
    · exact hshared.setMutex index false

/-- The counts stay exact: a clone adds one reference to each page of its original, and a copy takes
one from the page it replaces. -/
theorem counted_call {self : Nat} {c : Call} {r : Result} (hframe : Function.Injective frame)
    (h : Shared frame s) (hself : ValidThread self) (hcall : call frame s self c = .ok (r, s')) :
    Counted s' ∧ SameIndex s' := by
  cases c with
  | create size =>
    obtain ⟨made, hmade, heq⟩ := ok_of_map hcall
    cases heq
    obtain ⟨index, s₁, hindex, ⟨rfl, -⟩ | ⟨n, -, -, hnone, rfl⟩⟩ := tlsCreate_cases hmade
    · exact ⟨(h.findIndex hindex).counted, (h.findIndex hindex).index⟩
    · have hs := h.findIndex hindex
      have hlt := (h.registered.found hself hindex).lt.trans hs.registered.bound
      exact ⟨hs.counted.newStorage hs.wellformed hnone hlt, hs.index.newStorage hs.wellformed⟩
  | clone tid =>
    obtain ⟨made, hmade, heq⟩ := ok_of_map hcall
    cases heq
    obtain ⟨i, s₁, j, s₂, hi, hj, hr⟩ := tlsClone_cases hmade
    have hs₁ := h.findIndex hi
    have hs := hs₁.findIndex hj
    obtain ⟨rfl, -⟩ | ⟨tls, hnone, htls, rfl⟩ := hr
    · exact ⟨hs.counted, hs.index⟩
    · have hfound := (h.registered.found hself hi).findIndex hs₁.registered hj
      have hlt := hfound.lt.trans hs.registered.bound
      exact ⟨hs.counted.cloneStorage hs.wellformed htls hnone hlt,
        hs.index.cloneStorage hs.wellformed htls⟩
  | read offset length => exact counted_tlsRead h hcall
  | write offset length buffer => exact counted_tlsWrite hframe h hcall

theorem Shared.step {a : Nat × Call} (hframe : Function.Injective frame) (h : Shared frame s)
    (hself : ValidThread a.1) (hstep : step frame s a = .ok s') : Shared frame s' := by
  obtain ⟨⟨r, s₁⟩, hcall, rfl⟩ := ok_of_map hstep
  obtain ⟨hwell, hreg⟩ := registered_call hframe h.wellformed h.registered hself hcall
  obtain ⟨hcounted, hindex⟩ := counted_call hframe h hself hcall
  exact ⟨hwell, hreg, hcounted, hindex⟩

theorem Shared.exactCounts (h : Shared frame s) : ExactCounts s where
  count i p hp := h.counted.count p (h.wellformed.pages_lt i p hp)
  beyond := h.counted.beyond
  once i p := by
    by_contra hnot
    obtain ⟨j, j', hlt, hj, hj'⟩ := List.duplicate_iff_exists_distinct_get.mp
      (List.duplicate_iff_two_le_count.mpr (Nat.lt_of_not_le hnot))
    have hsame := h.index i i j j' p (by rw [hj]; exact List.getElem?_eq_getElem j.2)
      (by rw [hj']; exact List.getElem?_eq_getElem j'.2)
    exact absurd hsame (Nat.ne_of_lt hlt)
  index := h.index

end

/-! ### Runs -/

/-- The counts are exact in every state of a run of whole calls, failed writes included. -/
theorem counts_exact {frame : Nat → Nat} (hframe : Function.Injective frame) (memory : Nat → UInt8)
    {run : List ((Nat × Call) × State)}
    (h : EachStep (fun s a s' => ValidThread a.1 ∧ step frame s a = .ok s') (initial memory) run) :
    Always ExactCounts (initial memory) run := by
  have hshared : Always (Shared frame) (initial memory) run :=
    EachStep.always (fun s a s' hs ha => hs.step hframe ha.1 ha.2) (Shared.initial frame memory) h
  exact hshared.mono fun s hs => hs.exactCounts

/-- A clone writes to a page it shares, and then past the end of its storage. -/
theorem counts_exact_clone : Always ExactCounts (initial fun _ => 0)
    (trail (step id) (initial fun _ => 0)
      [(7, .create 5000), (8, .clone 7), (8, .write 10 2 [65, 66]),
        (8, .write 8190 5 [65, 66, 67, 68, 69])]) :=
  counts_exact Function.injective_id _
    (eachStep_trail_forall fun a ha => by
      revert a
      decide)

end OSChallenges.Storage
