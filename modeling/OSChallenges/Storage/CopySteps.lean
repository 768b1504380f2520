import OSChallenges.Storage.Callers

/-!
# The steps of a copy

Each step keeps the invariant of the shared pages and leaves the storages of the other threads as they are:
looking and locking change nothing that is shared, the decrement takes away the reference of an entry that is
no longer held, and the entry is held again when the copy is done.
-/

namespace OSChallenges.Storage

open Program Words References Function

/-! ### Steps without a copy -/

/-- The tables of pages stay as they are. -/
structure Quiet (t : Nat) (s s' : State) : Prop where
  other : ∀ u, u ≠ t → ∀ i tls, s'.ttpArray i = ⟨u, some tls⟩ ↔ s.ttpArray i = ⟨u, some tls⟩
  own : ∀ i tls, s.ttpArray i = ⟨t, some tls⟩ → ∃ tls', s'.ttpArray i = ⟨t, some tls'⟩ ∧
    tls'.pages = tls.pages ∧ tls'.pageNum = tls.pageNum
  back : ∀ i tls, s'.ttpArray i = ⟨t, some tls⟩ → ∃ old, s.ttpArray i = ⟨t, some old⟩
  heap : s'.heap = s.heap
  heapSize : s'.heapSize = s.heapSize
  mapped : s.mapped ≤ s'.mapped

section

variable {frame : Nat → Nat} {s s' : State} {notes : Nat → Note} {t i : Nat} {n : Note}
  {tls : ThreadLocalStorage}

theorem entry_eq (h : (s.ttpArray i).tls = some tls) : s.ttpArray i = ⟨(s.ttpArray i).tid, some tls⟩ := by
  rw [← h]

theorem Quiet.back_entry (h : Quiet t s s') {u : Nat} (hentry : s'.ttpArray i = ⟨u, some tls⟩) :
    ∃ old, s.ttpArray i = ⟨u, some old⟩ ∧ tls.pages = old.pages ∧ tls.pageNum = old.pageNum := by
  by_cases hu : u = t
  · subst hu
    obtain ⟨old, hold⟩ := h.back i tls hentry
    obtain ⟨tls', hentry', hpages, hnum⟩ := h.own i old hold
    cases hentry.symm.trans hentry'
    exact ⟨old, hold, hpages, hnum⟩
  · exact ⟨tls, (h.other u hu i tls).mp hentry, rfl, rfl⟩

theorem Quiet.to_entry (h : Quiet t s s') {u : Nat} (hentry : s.ttpArray i = ⟨u, some tls⟩) :
    ∃ tls', s'.ttpArray i = ⟨u, some tls'⟩ ∧ tls'.pages = tls.pages ∧ tls'.pageNum = tls.pageNum := by
  by_cases hu : u = t
  · subst hu
    exact h.own i tls hentry
  · exact ⟨tls, (h.other u hu i tls).mpr hentry, rfl, rfl⟩

theorem Quiet.pages (h : Quiet t s s') (i : Nat) : s'.pages i = s.pages i := by
  cases htls : (s.ttpArray i).tls with
  | some tls =>
    obtain ⟨tls', hentry, hpages, -⟩ := h.to_entry (entry_eq htls)
    rw [pages_of_entry hentry, hpages, State.pages_of_tls htls]
  | none =>
    cases htls' : (s'.ttpArray i).tls with
    | some tls' =>
      obtain ⟨old, hold, -⟩ := h.back_entry (entry_eq htls')
      rw [hold] at htls
      cases htls
    | none => rw [State.pages_of_none htls, State.pages_of_none htls']

theorem Quiet.table (h : Quiet t s s') (i : Nat) : s'.table i = s.table i := by
  rw [State.table, State.table, h.pages, h.heap]

theorem Quiet.shares (h : Quiet t s s') (hleaves : n.stage.leaves = (notes t).stage.leaves) (i : Nat) :
    origin s' (update notes t n) i = origin s notes i ∧ held s' (update notes t n) i = held s notes i := by
  cases htls : (s.ttpArray i).tls with
  | none =>
    have hnil := State.pages_of_none htls
    have hnil' : s'.pages i = [] := by rw [h.pages, hnil]
    rw [origin_of_nil hnil, origin_of_nil hnil', held_of_nil hnil, held_of_nil hnil']
    exact ⟨rfl, rfl⟩
  | some tls =>
    have hentry := entry_eq htls
    obtain ⟨tls', hentry', -⟩ := h.to_entry hentry
    have hsame : leaving s' (update notes t n) i = leaving s notes i := by
      rw [leaving_of_entry hentry', leaving_of_entry hentry]
      by_cases hu : (s.ttpArray i).tid = t
      · rw [hu, update_self, hleaves]
      · rw [update_of_ne hu]
    exact ⟨origin_congr (h.table i) hsame, held_congr (h.table i) hsame⟩

theorem Quiet.beside (h : Quiet t s s') (hleaves : n.stage.leaves = (notes t).stage.leaves)
    (hfresh : ∀ u, u ≠ t → ∀ f, (notes u).stage.fresh = some f → n.stage.fresh ≠ some f) :
    Beside t s s' notes (update notes t n) where
  note u hu := update_of_ne hu ..
  owned := h.other
  addr p _ := by rw [h.heap]
  mapped := h.mapped
  fresh u hu f hf := by
    rw [update_self]
    refine ⟨hfresh u hu f hf, ?_, ?_⟩
    · intro i hi
      rw [(h.shares hleaves i).1] at hi
      exact ⟨i, hi⟩
    · intro p hlow hhigh
      rw [h.heapSize] at hhigh
      omega
  counts p _ := .inl (by rw [h.heap])
  holds i k a ha := by
    rw [(h.shares hleaves i).2] at ha
    exact .inl ha

theorem Sharing.quiet (h : Sharing frame s notes) (hq : Quiet t s s') (hreg : Registered s')
    (hleaves : n.stage.leaves = (notes t).stage.leaves)
    (hfresh : ∀ u, u ≠ t → ∀ f, (notes u).stage.fresh = some f → n.stage.fresh ≠ some f)
    (hown : Noted frame s' (update notes t n) t) : Sharing frame s' (update notes t n) := by
  apply h.of_beside (hq.beside hleaves hfresh) _ _ _ _ hown
  · refine ⟨hreg, ?_, ?_⟩
    · intro i p hp
      rw [hq.pages] at hp
      rw [hq.heapSize]
      exact h.pool.pages_lt i p hp
    · intro p hp
      rw [hq.heapSize] at hp
      obtain ⟨k, hk, heq⟩ := h.pool.addr p hp
      rw [hq.heap]
      exact ⟨k, hk.trans_le hq.mapped, heq⟩
  · rw [hq.heap, hq.heapSize]
    exact h.distinct
  · intro i tls htls
    obtain ⟨old, hold, hpages, hnum⟩ := hq.back_entry (entry_eq htls)
    rw [hpages, hnum]
    exact h.sizes i old (by rw [hold])
  · have hheld : held s' (update notes t n) = held s notes := funext fun i => (hq.shares hleaves i).2
    rw [hheld, hq.heap, hq.heapSize]
    exact h.counted

theorem Sole.of_shares {notes' : Nat → Note} {page : Nat} (h : Sole s notes i page)
    (hheld : ∀ j, held s' notes' j = held s notes j) : Sole s' notes' i page := by
  obtain ⟨a, ha, hsole⟩ := h
  refine ⟨a, by rw [hheld, ha], ?_⟩
  intro j k hj
  rw [hheld] at hj
  exact hsole j k hj

theorem Stage.Valid.quiet {pages : List Nat} {stage : Stage} (h : stage.Valid frame s notes t pages)
    (hq : Quiet t s s') (horigin : ∀ i, origin s' (update notes t n) i = origin s notes i) :
    stage.Valid frame s' (update notes t n) t pages := by
  have hunused : ∀ f, Unused frame s notes t f → Unused frame s' (update notes t n) t f := by
    intro f hf
    refine ⟨?_, ?_, ?_⟩
    · obtain ⟨k, hk, heq⟩ := hf.mapped
      exact ⟨k, hk.trans_le hq.mapped, heq⟩
    · intro i
      rw [horigin]
      exact hf.origins i
    · intro u hu
      rw [update_of_ne hu]
      exact hf.others u hu
  cases stage with
  | none => trivial
  | left page source =>
    unfold Stage.Valid at h ⊢
    rw [hq.heap]
    exact h
  | mapped page source fresh =>
    unfold Stage.Valid at h ⊢
    rw [hq.heap, hq.heapSize]
    exact ⟨h.1, hunused fresh h.2.1, h.2.2⟩
  | replaced page source fresh =>
    unfold Stage.Valid at h ⊢
    obtain ⟨hp, hf, k, hk, hsource⟩ := h
    rw [hq.heap]
    exact ⟨hp, hunused fresh hf, k, hk.trans_le hq.mapped, hsource⟩

theorem Noted.quiet (h : Noted frame s notes t) (hq : Quiet t s s') (hstage : n.stage = (notes t).stage)
    (halone : ∀ page, page ∈ n.alone → page ∈ (notes t).alone ∨ ∃ i tls,
      s'.ttpArray i = ⟨t, some tls⟩ ∧ tls.mutex = true ∧ Sole s notes i page)
    (hmutex : ∀ i tls tls', s.ttpArray i = ⟨t, some tls⟩ → s'.ttpArray i = ⟨t, some tls'⟩ →
      tls.mutex = true → tls'.mutex = true) : Noted frame s' (update notes t n) t := by
  have hleaves : n.stage.leaves = (notes t).stage.leaves := by rw [hstage]
  have hshares := hq.shares hleaves
  refine ⟨?_, ?_⟩
  · rw [update_self, hstage]
    intro hne
    obtain ⟨i, tls, hentry, hlocked, hvalid⟩ := h.stage hne
    obtain ⟨tls', hentry', hpages, -⟩ := hq.to_entry hentry
    refine ⟨i, tls', hentry', hmutex i tls tls' hentry hentry' hlocked, ?_⟩
    rw [hpages]
    exact hvalid.quiet hq fun i => (hshares i).1
  · rw [update_self]
    intro page hpage
    obtain hold | ⟨i, tls, hentry, hlocked, hsole⟩ := halone page hpage
    · obtain ⟨i, tls, hentry, hlocked, hsole⟩ := h.alone page hold
      obtain ⟨tls', hentry', -⟩ := hq.to_entry hentry
      exact ⟨i, tls', hentry', hmutex i tls tls' hentry hentry' hlocked,
        hsole.of_shares fun j => (hshares j).2⟩
    · exact ⟨i, tls, hentry, hlocked, hsole.of_shares fun j => (hshares j).2⟩

/-! ### The pages of all storages -/

theorem set_of_getElem? {α : Type} {l : List α} {k : Nat} {x : α} (h : l[k]? = some x) : l.set k x = l := by
  obtain ⟨hlt, hx⟩ := List.getElem?_eq_some_iff.mp h
  rw [← hx]
  exact List.set_getElem_self hlt

theorem mem_origin {a : Nat} (h : a ∈ origin s notes i) :
    a ∈ s.table i ∨ ∃ page, leaving s notes i = some (page, a) := by
  cases hleaving : leaving s notes i with
  | none =>
    rw [origin_of_none hleaving] at h
    exact .inl h
  | some e =>
    rw [origin_of_leaving hleaving] at h
    obtain hmem | heq := List.mem_or_eq_of_mem_set h
    · exact .inl hmem
    · rw [heq]
      exact .inr ⟨e.1, rfl⟩

/-- The pages with bytes are pages that `mmap` has returned. -/
theorem Sharing.origin_addr (h : Sharing frame s notes) {a : Nat} (ha : a ∈ origin s notes i) :
    ∃ k, k < s.mapped ∧ a = frame k * pageSize := by
  obtain hmem | ⟨page, hleaving⟩ := mem_origin ha
  · obtain ⟨p, hp, rfl⟩ := List.mem_map.mp hmem
    exact h.pool.addr p (h.pool.pages_lt i p hp)
  · have hnoted := (h.noted (s.ttpArray i).tid).stage
    unfold leaving at hleaving
    generalize (s.ttpArray i).tid = u at *
    have hlt : ∀ (j : Nat) tls (k p : Nat), s.ttpArray j = ⟨u, some tls⟩ → tls.pages[k]? = some p →
        p < s.heapSize := by
      intro j tls k p hentry hp
      apply h.pool.pages_lt j
      rw [pages_of_entry hentry]
      exact List.mem_of_getElem? hp
    cases hstage : (notes u).stage with
    | none =>
      rw [hstage] at hleaving
      cases hleaving
    | left k source =>
      rw [hstage] at hleaving hnoted
      cases hleaving
      obtain ⟨j, tls, hentry, -, p, hp, haddr⟩ := hnoted (by rintro ⟨⟩)
      rw [← haddr]
      exact h.pool.addr p (hlt j tls page p hentry hp)
    | mapped k source fresh =>
      rw [hstage] at hleaving hnoted
      cases hleaving
      obtain ⟨j, tls, hentry, -, ⟨p, hp, haddr⟩, -⟩ := hnoted (by rintro ⟨⟩)
      rw [← haddr]
      exact h.pool.addr p (hlt j tls page p hentry hp)
    | replaced k source fresh =>
      rw [hstage] at hleaving hnoted
      cases hleaving
      obtain ⟨j, tls, -, -, -, -, hsource⟩ := hnoted (by rintro ⟨⟩)
      exact hsource

/-- The page that a thread has mapped for its copy is in nobody's origins. -/
theorem Sharing.unused (h : Sharing frame s notes) {f : Nat} (hf : (notes t).stage.fresh = some f) :
    Unused frame s notes t f := by
  have hnoted := (h.noted t).stage
  cases hstage : (notes t).stage with
  | none =>
    rw [hstage] at hf
    cases hf
  | left page source =>
    rw [hstage] at hf
    cases hf
  | mapped page source fresh =>
    rw [hstage] at hf hnoted
    cases hf
    obtain ⟨i, tls, -, -, -, hunused, -⟩ := hnoted (by rintro ⟨⟩)
    exact hunused
  | replaced page source fresh =>
    rw [hstage] at hf hnoted
    cases hf
    obtain ⟨i, tls, -, -, -, hunused, -⟩ := hnoted (by rintro ⟨⟩)
    exact hunused

theorem Pool.index_lt (h : Pool frame s) (hentry : s.ttpArray i = ⟨t, some tls⟩) : i < maxThreads := by
  by_contra hnot
  have hfree := h.registered.free i (h.registered.bound.le.trans (Nat.le_of_not_lt hnot))
  rw [hentry] at hfree
  cases hfree

theorem Pool.index_unique (h : Pool frame s) {j : Nat} {tls' : ThreadLocalStorage}
    (hentry : s.ttpArray i = ⟨t, some tls⟩) (hentry' : s.ttpArray j = ⟨t, some tls'⟩) : j = i :=
  h.registered.unique j i tls' tls (by rw [hentry']) (by rw [hentry]) (by rw [hentry, hentry'])

theorem shares_of_ne (h : Pool frame s) {index : Nat} (hentry : s.ttpArray index = ⟨t, some tls⟩)
    (hi : i ≠ index) (hsame : s'.ttpArray i = s.ttpArray i)
    (haddr : ∀ p, p < s.heapSize → (s'.heap p).addr = (s.heap p).addr) :
    origin s' (update notes t n) i = origin s notes i ∧ held s' (update notes t n) i = held s notes i := by
  have hpages : s'.pages i = s.pages i := by rw [State.pages, State.pages, hsame]
  have htable : s'.table i = s.table i := by
    rw [State.table, State.table, hpages]
    apply List.map_congr_left
    intro p hp
    exact haddr p (h.pages_lt i p hp)
  cases htls : (s.ttpArray i).tls with
  | none =>
    have hnil := State.pages_of_none htls
    have hnil' : s'.pages i = [] := by rw [hpages, hnil]
    rw [origin_of_nil hnil, origin_of_nil hnil', held_of_nil hnil, held_of_nil hnil']
    exact ⟨rfl, rfl⟩
  | some other =>
    have hne : (s.ttpArray i).tid ≠ t := by
      intro heq
      exact hi (h.index_unique hentry (heq ▸ entry_eq htls))
    have hleaving : leaving s' (update notes t n) i = leaving s notes i := by
      rw [leaving, leaving, hsame, update_of_ne hne]
    exact ⟨origin_congr htable hleaving, held_congr htable hleaving⟩

/-! ### The own storage changes -/

theorem setTLS_self (hentry : s.ttpArray i = ⟨t, some tls⟩) (new : ThreadLocalStorage) :
    (s.setTLS i new).ttpArray i = ⟨t, some new⟩ := by
  show update s.ttpArray i _ i = _
  rw [update_self]
  show (⟨(s.ttpArray i).tid, _⟩ : TidTlsPair) = _
  rw [hentry]

theorem setTLS_other {u j : Nat} {other : ThreadLocalStorage} (hentry : s.ttpArray i = ⟨t, some tls⟩)
    (new : ThreadLocalStorage) (hu : u ≠ t) :
    (s.setTLS i new).ttpArray j = ⟨u, some other⟩ ↔ s.ttpArray j = ⟨u, some other⟩ := by
  by_cases hj : j = i
  · rw [hj, setTLS_self hentry, hentry]
    constructor
    · intro heq
      exact absurd (congrArg TidTlsPair.tid heq).symm hu
    · intro heq
      exact absurd (congrArg TidTlsPair.tid heq).symm hu
  · rw [State.ttpArray_setTLS_of_ne s _ hj]

theorem setTLS_none {j : Nat} (hentry : s.ttpArray i = ⟨t, some tls⟩) (new : ThreadLocalStorage) :
    ((s.setTLS i new).ttpArray j).tls = none ↔ (s.ttpArray j).tls = none := by
  by_cases hj : j = i
  · rw [hj, setTLS_self hentry, hentry]
    exact ⟨(by rintro ⟨⟩), (by rintro ⟨⟩)⟩
  · rw [State.ttpArray_setTLS_of_ne s _ hj]

theorem held_cases {held₁ held₂ : Nat → List (Option Nat)} {x : Option Nat} {page j k a : Nat}
    (hothers : ∀ j, j ≠ i → held₂ j = held₁ j) (hset : held₂ i = (held₁ i).set page x)
    (ha : (held₂ j)[k]? = some (some a)) :
    (held₁ j)[k]? = some (some a) ∨ j = i ∧ k = page ∧ x = some a := by
  by_cases hj : j = i
  · subst hj
    rw [hset, List.getElem?_set] at ha
    split at ha
    · rename_i hk
      split at ha
      · exact .inr ⟨rfl, hk.symm, Option.some.inj ha⟩
      · cases ha
    · exact .inl ha
  · rw [hothers j hj] at ha
    exact .inl ha

/-! ### The reference is taken away -/

/-- The note of a thread that has left an entry. -/
def Note.leave (n : Note) (page : Nat) : Note :=
  { n with stage := .left page n.seen, alone := n.alone.filter (· ≠ page) }

theorem sharing_decRef {page p : Nat} (h : Sharing frame s notes)
    (hentry : s.ttpArray i = ⟨t, some tls⟩) (hmutex : tls.mutex = true) (hstage : (notes t).stage = .none)
    (hp : tls.pages[page]? = some p) (haddr : (s.heap p).addr = (notes t).seen) :
    Beside t s (s.setRefCount p ((s.heap p).refCount - 1)) notes (update notes t ((notes t).leave page)) ∧
    Sharing frame (s.setRefCount p ((s.heap p).refCount - 1)) (update notes t ((notes t).leave page)) ∧
    origin (s.setRefCount p ((s.heap p).refCount - 1)) (update notes t ((notes t).leave page)) =
      origin s notes := by
  let s' := s.setRefCount p ((s.heap p).refCount - 1)
  let notes' := update notes t ((notes t).leave page)
  have hpages := pages_of_entry hentry
  have hplt : p < s.heapSize := by
    apply h.pool.pages_lt i
    rw [hpages]
    exact List.mem_of_getElem? hp
  have hheap : ∀ q, (s'.heap q).addr = (s.heap q).addr := by
    intro q
    show (update s.heap p _ q).addr = _
    by_cases hq : q = p
    · rw [hq, update_self]
    · rw [update_of_ne hq]
  have hcount : ∀ q, (s'.heap q).refCount = (s.heap q).refCount - (if q = p then 1 else 0) := by
    intro q
    show (update s.heap p _ q).refCount = _
    by_cases hq : q = p
    · rw [hq, update_self, if_pos rfl]
    · rw [update_of_ne hq, if_neg hq, Int.sub_zero]
  have htable : s'.table i = s.table i := List.map_congr_left fun q _ => hheap q
  have hsource : (s.table i)[page]? = some (notes t).seen := by
    rw [State.table, hpages, List.getElem?_map, hp, ← haddr]
    rfl
  have hbefore : leaving s notes i = none := by
    rw [leaving_of_entry hentry, hstage]
    rfl
  have hafter : leaving s' notes' i = some (page, (notes t).seen) := by
    show leaving s notes' i = _
    rw [leaving_of_entry hentry]
    show (update notes t _ t).stage.leaves = _
    rw [update_self]
    rfl
  have hothers : ∀ j, j ≠ i → origin s' notes' j = origin s notes j ∧ held s' notes' j = held s notes j :=
    fun j hj => shares_of_ne h.pool hentry hj rfl fun q _ => hheap q
  have horigin : origin s' notes' i = origin s notes i := by
    rw [origin_of_leaving hafter, origin_of_none hbefore, htable, set_of_getElem? hsource]
  have hheld : held s' notes' i = (held s notes i).set page none := by
    rw [held_of_leaving hafter, held_of_none hbefore, horigin]
  have horigins : origin s' notes' = origin s notes := by
    funext j
    by_cases hj : j = i
    · rw [hj, horigin]
    · exact (hothers j hj).1
  have hown : (held s notes i)[page]? = some (some (notes t).seen) := by
    rw [held_of_none hbefore, origin_of_none hbefore, List.getElem?_map, hsource]
    rfl
  have hholds : ∀ j k a : Nat, (held s' notes' j)[k]? = some (some a) →
      (held s notes j)[k]? = some (some a) := by
    intro j k a ha
    obtain hold | ⟨-, -, hnone⟩ := held_cases (fun j hj => (hothers j hj).2) hheld ha
    · exact hold
    · cases hnone
  have hbeside : Beside t s s' notes notes' := by
    refine ⟨fun u hu => update_of_ne hu .., fun _ _ _ _ => Iff.rfl, fun q _ => hheap q, Nat.le_refl _, ?_, ?_,
      fun j k a ha => .inl (hholds j k a ha)⟩
    · intro u hu f hf
      refine ⟨?_, ?_, ?_⟩
      · show (update notes t _ t).stage.fresh ≠ _
        rw [update_self]
        rintro ⟨⟩
      · intro j hj
        rw [horigins] at hj
        exact ⟨j, hj⟩
      · intro q hlow hhigh
        exact absurd hhigh (Nat.not_lt.mpr hlow)
    · intro q _
      by_cases hq : q = p
      · refine .inr ⟨i, ?_⟩
        rw [hq, haddr, origin_of_none hbefore]
        exact List.mem_of_getElem? hsource
      · refine .inl ?_
        rw [hcount, if_neg hq, Int.sub_zero]
  refine ⟨hbeside, ?_, horigins⟩
  apply h.of_beside hbeside
  · refine ⟨h.pool.registered.of_tid (fun _ => rfl) (fun _ => Iff.rfl) rfl rfl, h.pool.pages_lt, ?_⟩
    intro q hq
    rw [hheap]
    exact h.pool.addr q hq
  · intro q r hq hr heq
    rw [hheap, hheap] at heq
    exact h.distinct q r hq hr heq
  · exact h.sizes
  · intro q hq
    have hchange := pointers_set (h.pool.index_lt hentry) (fun j hj => (hothers j hj).2) hheld hown
      (some (s.heap q).addr)
    have hold := h.counted q hq
    rw [hheap, hcount]
    simp only [reduceCtorEq, if_false, Option.some.injEq, Nat.add_zero] at hchange
    by_cases hqp : q = p
    · rw [if_pos hqp]
      rw [if_pos (by rw [hqp, haddr])] at hchange
      omega
    · rw [if_neg hqp]
      omega
  · refine ⟨?_, ?_⟩
    · intro _
      refine ⟨i, tls, hentry, hmutex, ?_⟩
      show (update notes t _ t).stage.Valid _ _ _ _ _
      rw [update_self]
      exact ⟨p, hp, (hheap p).trans haddr⟩
    · intro k hk
      change k ∈ (update notes t _ t).alone at hk
      rw [update_self] at hk
      obtain ⟨hk, hne⟩ := List.mem_filter.mp hk
      have hne' : page ≠ k := fun heq => by simp [heq] at hne
      obtain ⟨j, other, hother, hlocked, a, ha, hsole⟩ := (h.noted t).alone k hk
      obtain rfl := h.pool.index_unique hentry hother
      refine ⟨j, other, hother, hlocked, a, ?_, fun r x hr => hsole r x (hholds r x a hr)⟩
      rw [hheld, List.getElem?_set_ne hne']
      exact ha

/-! ### A fresh page -/

theorem Quiet.of_same (harray : s'.ttpArray = s.ttpArray) (hheap : s'.heap = s.heap)
    (hsize : s'.heapSize = s.heapSize) (hmapped : s.mapped ≤ s'.mapped) : Quiet t s s' where
  other u _ i tls := by rw [harray]
  own i tls hentry := ⟨tls, by rw [harray, hentry], rfl, rfl⟩
  back i tls hentry := ⟨tls, by rw [← harray, hentry]⟩
  heap := hheap
  heapSize := hsize
  mapped := hmapped

theorem Quiet.mutex_same (harray : s'.ttpArray = s.ttpArray) : ∀ i tls tls',
    s.ttpArray i = ⟨t, some tls⟩ → s'.ttpArray i = ⟨t, some tls'⟩ → tls.mutex = true → tls'.mutex = true := by
  intro i tls tls' hentry hentry' hlocked
  rw [harray, hentry] at hentry'
  cases hentry'
  exact hlocked

theorem sharing_mmap {page source : Nat} (h : Sharing frame s notes) (hframe : Injective frame)
    (hstage : (notes t).stage = .left page source) (prot : Prot) :
    Quiet t s (s.mmap frame prot).2 ∧
    Beside t s (s.mmap frame prot).2 notes
      (update notes t { notes t with stage := .mapped page source (frame s.mapped * pageSize) }) ∧
    Sharing frame (s.mmap frame prot).2
      (update notes t { notes t with stage := .mapped page source (frame s.mapped * pageSize) }) := by
  let n' : Note := { notes t with stage := .mapped page source (frame s.mapped * pageSize) }
  have hq : Quiet t s (s.mmap frame prot).2 := Quiet.of_same rfl rfl rfl (Nat.le_succ _)
  have hleaves : n'.stage.leaves = (notes t).stage.leaves := by
    rw [hstage]
    rfl
  have hfar : ∀ k, k < s.mapped → frame k * pageSize ≠ frame s.mapped * pageSize := by
    intro k hk heq
    have hsame := hframe (Nat.eq_of_mul_eq_mul_right (by decide) heq)
    omega
  have hothers : ∀ u, u ≠ t → (notes u).stage.fresh ≠ some (frame s.mapped * pageSize) := by
    intro u _ hf
    obtain ⟨m, hm, heq⟩ := (h.unused hf).mapped
    exact hfar m hm heq.symm
  have hfresh : ∀ u, u ≠ t → ∀ f, (notes u).stage.fresh = some f → n'.stage.fresh ≠ some f := by
    intro u hu f hf heq
    cases heq
    exact hothers u hu hf
  refine ⟨hq, hq.beside hleaves hfresh, h.quiet hq ?_ hleaves hfresh ?_⟩
  · exact h.pool.registered.of_tid (fun _ => rfl) (fun _ => Iff.rfl) rfl rfl
  · refine ⟨?_, ?_⟩
    · intro _
      have hnoted := (h.noted t).stage
      rw [hstage] at hnoted
      obtain ⟨i, tls, hentry, hlocked, p, hp, haddr⟩ := hnoted (by rintro ⟨⟩)
      refine ⟨i, tls, hentry, hlocked, ?_⟩
      show (update notes t n' t).stage.Valid _ _ _ _ _
      rw [update_self]
      refine ⟨⟨p, hp, haddr⟩, ⟨⟨s.mapped, Nat.lt_succ_self _, rfl⟩, ?_, ?_⟩, ?_⟩
      · intro j hj
        rw [(hq.shares hleaves j).1] at hj
        obtain ⟨k, hk, heq⟩ := h.origin_addr hj
        exact hfar k hk heq.symm
      · intro u hu
        rw [update_of_ne hu]
        exact hothers u hu
      · intro q hq' heq
        obtain ⟨k, hk, haddr'⟩ := h.pool.addr q hq'
        exact hfar k hk (haddr'.symm.trans heq)
    · intro k hk
      change k ∈ (update notes t n' t).alone at hk
      rw [update_self] at hk
      obtain ⟨j, other, hother, hlocked, hsole⟩ := (h.noted t).alone k hk
      exact ⟨j, other, hother, hlocked, hsole.of_shares fun r => (hq.shares hleaves r).2⟩

/-- The fresh page is put into the entry, whose bytes are still in the old one. -/
theorem sharing_replacePage {page source fresh p : Nat} (h : Sharing frame s notes)
    (hentry : s.ttpArray i = ⟨t, some tls⟩) (hmutex : tls.mutex = true)
    (hstage : (notes t).stage = .mapped page source fresh) (hp : tls.pages[page]? = some p) :
    let s' := (s.newPage fresh).2.setTLS i { tls with pages := tls.pages.set page s.heapSize }
    let notes' := update notes t { notes t with stage := .replaced page source fresh }
    Beside t s s' notes notes' ∧ Sharing frame s' notes' ∧ origin s' notes' = origin s notes ∧
      s'.ttpArray i = ⟨t, some { tls with pages := tls.pages.set page s.heapSize }⟩ := by
  intro s' notes'
  have hnoted := (h.noted t).stage
  rw [hstage] at hnoted
  obtain ⟨j, tls₁, hentry₁, -, ⟨p₁, hp₁, haddr₁⟩, hunused, hnew⟩ := hnoted (by rintro ⟨⟩)
  obtain rfl := h.pool.index_unique hentry hentry₁
  cases hentry.symm.trans hentry₁
  cases hp.symm.trans hp₁
  have hlt := (List.getElem?_eq_some_iff.mp hp).1
  have hpages := pages_of_entry hentry
  have hentry' : (s.newPage fresh).2.ttpArray j = ⟨t, some tls⟩ := hentry
  have hself : s'.ttpArray j = ⟨t, some { tls with pages := tls.pages.set page s.heapSize }⟩ :=
    setTLS_self hentry' _
  have hsame : ∀ k, k ≠ j → s'.ttpArray k = s.ttpArray k := fun k hk => State.ttpArray_setTLS_of_ne _ _ hk
  have hfresh : s'.heap s.heapSize = ⟨fresh, 1⟩ := update_self ..
  have hheap : ∀ q, q < s.heapSize → s'.heap q = s.heap q := fun q hq => update_of_ne (Nat.ne_of_lt hq) ..
  have haddr : ∀ q, q < s.heapSize → (s'.heap q).addr = (s.heap q).addr := fun q hq => by rw [hheap q hq]
  have hold : ∀ q, q ∈ tls.pages → q < s.heapSize := by
    intro q hq
    apply h.pool.pages_lt j
    rwa [hpages]
  have htable : s'.table j = (s.table j).set page fresh := by
    rw [State.table, State.table, pages_of_entry hself, hpages, List.map_set, hfresh]
    congr 1
    exact List.map_congr_left fun q hq => haddr q (hold q hq)
  have hbefore : leaving s notes j = some (page, source) := by
    rw [leaving_of_entry hentry, hstage]
    rfl
  have hafter : leaving s' notes' j = some (page, source) := by
    rw [leaving_of_entry hself]
    show (update notes t _ t).stage.leaves = _
    rw [update_self]
    rfl
  have horigin : origin s' notes' j = origin s notes j := by
    rw [origin_of_leaving hafter, origin_of_leaving hbefore, htable, List.set_set]
  have hshares : ∀ k, origin s' notes' k = origin s notes k ∧ held s' notes' k = held s notes k := by
    intro k
    by_cases hk : k = j
    · rw [hk]
      exact ⟨horigin, by rw [held_of_leaving hafter, held_of_leaving hbefore, horigin]⟩
    · exact shares_of_ne h.pool hentry hk (hsame k hk) haddr
  have horigins : origin s' notes' = origin s notes := funext fun k => (hshares k).1
  have hheld : held s' notes' = held s notes := funext fun k => (hshares k).2
  have hlast : ∀ q, q < s'.heapSize → q < s.heapSize ∨ q = s.heapSize := by
    intro q hq
    have hle : q < s.heapSize + 1 := hq
    omega
  have hown : (notes' t).stage = .replaced page source fresh := by
    show (update notes t _ t).stage = _
    rw [update_self]
  have hbeside : Beside t s s' notes notes' := by
    refine ⟨fun u hu => update_of_ne hu .., fun u hu k other => setTLS_other hentry' _ hu, haddr,
      Nat.le_refl _, ?_, ?_, ?_⟩
    · intro u hu f hf
      have hne : fresh ≠ f := fun heq => hunused.others u hu (heq ▸ hf)
      refine ⟨?_, ?_, ?_⟩
      · rw [hown]
        intro heq
        cases heq
        exact hne rfl
      · intro k hk
        rw [horigins] at hk
        exact ⟨k, hk⟩
      · intro q hlow hq
        obtain hlt' | rfl := hlast q hq
        · omega
        · rw [hfresh]
          exact hne
    · intro q hq
      exact .inl (by rw [hheap q hq])
    · intro k m a ha
      rw [hheld] at ha
      exact .inl ha
  refine ⟨hbeside, ?_, horigins, hself⟩
  apply h.of_beside hbeside
  · refine ⟨?_, ?_, ?_⟩
    · have hreg : Registered (s.newPage fresh).2 :=
        h.pool.registered.of_tid (fun _ => rfl) (fun _ => Iff.rfl) rfl rfl
      exact hreg.setTLS hentry' _ rfl rfl rfl
    · intro k q hq
      show q < s.heapSize + 1
      by_cases hk : k = j
      · rw [hk, pages_of_entry hself] at hq
        obtain hmem | rfl := List.mem_or_eq_of_mem_set hq
        · exact Nat.lt_succ_of_lt (hold q hmem)
        · exact Nat.lt_succ_self _
      · rw [State.pages, hsame k hk] at hq
        exact Nat.lt_succ_of_lt (h.pool.pages_lt k q hq)
    · intro q hq
      obtain hlt' | rfl := hlast q hq
      · rw [haddr q hlt']
        exact h.pool.addr q hlt'
      · rw [hfresh]
        exact hunused.mapped
  · intro q r hq hr heq
    obtain hlq | rfl := hlast q hq
    · obtain hlr | rfl := hlast r hr
      · rw [haddr q hlq, haddr r hlr] at heq
        exact h.distinct q r hlq hlr heq
      · rw [haddr q hlq, hfresh] at heq
        exact absurd heq (hnew q hlq)
    · obtain hlr | rfl := hlast r hr
      · rw [haddr r hlr, hfresh] at heq
        exact absurd heq.symm (hnew r hlr)
      · rfl
  · intro k other htls
    by_cases hk : k = j
    · rw [hk, hself] at htls
      cases htls
      simp only [List.length_set]
      exact h.sizes j tls (by rw [hentry])
    · rw [hsame k hk] at htls
      exact h.sizes k other htls
  · intro q hq
    rw [hheld]
    obtain hlt' | rfl := hlast q hq
    · rw [hheap q hlt']
      exact h.counted q hlt'
    · rw [hfresh]
      have hzero : pointers maxThreads (held s notes) (some fresh) = 0 := by
        apply pointers_eq_zero
        intro k hmem
        obtain ⟨m, hm⟩ := List.mem_iff_getElem?.mp hmem
        exact hunused.origins k (List.mem_of_getElem? (origin_of_held hm))
      rw [hzero]
      show (0 : Int) ≤ 1
      decide
  · refine ⟨?_, ?_⟩
    · intro _
      refine ⟨j, _, hself, hmutex, ?_⟩
      rw [hown]
      refine ⟨⟨s.heapSize, List.getElem?_set_self hlt, ?_, ?_⟩, ⟨hunused.mapped, ?_, ?_⟩, ?_⟩
      · rw [hfresh]
      · rw [hfresh]
      · rw [horigins]
        exact hunused.origins
      · intro u hu
        show (update notes t _ u).stage.fresh ≠ _
        rw [update_of_ne hu]
        exact hunused.others u hu
      · rw [← haddr₁]
        exact h.pool.addr p (hold p (List.mem_of_getElem? hp))
    · intro k hk
      change k ∈ (update notes t _ t).alone at hk
      rw [update_self] at hk
      obtain ⟨r, other, hother, hlocked, hsole⟩ := (h.noted t).alone k hk
      obtain rfl := h.pool.index_unique hentry hother
      exact ⟨r, _, hself, hmutex, hsole.of_shares fun m => (hshares m).2⟩

/-! ### The end of a copy -/

/-- The note of a thread whose copy of an entry is done. -/
def Note.copied (n : Note) (page : Nat) : Note :=
  { n with stage := .none, alone := page :: n.alone }

/-- The entry has its bytes in the fresh page, which nobody else has. -/
theorem sharing_copyPage {page source fresh : Nat} (h : Sharing frame s notes)
    (hstage : (notes t).stage = .replaced page source fresh) (bytes : List UInt8) :
    Beside t s (s.writeMemory fresh bytes) notes (update notes t ((notes t).copied page)) ∧
    Sharing frame (s.writeMemory fresh bytes) (update notes t ((notes t).copied page)) ∧
    (∀ i, fresh ∉ origin s notes i) ∧
    ∃ i tls, s.ttpArray i = ⟨t, some tls⟩ ∧ (origin s notes i)[page]? = some source ∧
      origin (s.writeMemory fresh bytes) (update notes t ((notes t).copied page)) i =
        (origin s notes i).set page fresh := by
  let s' := s.writeMemory fresh bytes
  let notes' := update notes t ((notes t).copied page)
  have hnoted := (h.noted t).stage
  rw [hstage] at hnoted
  obtain ⟨i, tls, hentry, hmutex, ⟨p, hp, haddr, hcount⟩, hunused, hsource⟩ := hnoted (by rintro ⟨⟩)
  have hpages := pages_of_entry hentry
  have hplt : p < s.heapSize := by
    apply h.pool.pages_lt i
    rw [hpages]
    exact List.mem_of_getElem? hp
  have hfresh : (s.table i)[page]? = some fresh := by
    rw [State.table, hpages, List.getElem?_map, hp, ← haddr]
    rfl
  have hlt := (List.getElem?_eq_some_iff.mp hfresh).1
  have hbefore : leaving s notes i = some (page, source) := by
    rw [leaving_of_entry hentry, hstage]
    rfl
  have hown : (notes' t) = (notes t).copied page := update_self ..
  have hafter : leaving s' notes' i = none := by
    show leaving s notes' i = _
    rw [leaving_of_entry hentry, hown]
    rfl
  have hothers : ∀ j, j ≠ i → origin s' notes' j = origin s notes j ∧ held s' notes' j = held s notes j :=
    fun j hj => shares_of_ne h.pool hentry hj rfl fun q _ => rfl
  have hold : (origin s notes i)[page]? = some source := by
    rw [origin_of_leaving hbefore, List.getElem?_set_self hlt]
  have horigin : origin s' notes' i = (origin s notes i).set page fresh := by
    rw [origin_of_none hafter, origin_of_leaving hbefore, List.set_set]
    exact (set_of_getElem? hfresh).symm
  have hheld : held s' notes' i = (held s notes i).set page (some fresh) := by
    rw [held_of_none hafter, held_of_leaving hbefore, horigin, List.map_set, List.set_set]
  have hleft : (held s notes i)[page]? = some none := by
    rw [held_of_leaving hbefore, List.getElem?_set_self]
    rw [List.length_map]
    exact (List.getElem?_eq_some_iff.mp hold).1
  have hnone : ∀ j k : Nat, (held s notes j)[k]? ≠ some (some fresh) := by
    intro j k hk
    exact hunused.origins j (List.mem_of_getElem? (origin_of_held hk))
  have hholds : ∀ j k a : Nat, (held s' notes' j)[k]? = some (some a) →
      (held s notes j)[k]? = some (some a) ∨ j = i ∧ k = page ∧ a = fresh := by
    intro j k a ha
    obtain hold' | ⟨hj, hk, heq⟩ := held_cases (fun j hj => (hothers j hj).2) hheld ha
    · exact .inl hold'
    · exact .inr ⟨hj, hk, (Option.some.inj heq).symm⟩
  have hbeside : Beside t s s' notes notes' := by
    refine ⟨fun u hu => update_of_ne hu .., fun _ _ _ _ => Iff.rfl, fun _ _ => rfl, Nat.le_refl _, ?_,
      fun _ _ => .inl rfl, ?_⟩
    · intro u hu f hf
      refine ⟨?_, ?_, ?_⟩
      · rw [hown]
        rintro ⟨⟩
      · intro j hj
        by_cases hji : j = i
        · rw [hji, horigin] at hj
          obtain hmem | rfl := List.mem_or_eq_of_mem_set hj
          · exact ⟨i, hmem⟩
          · exact absurd hf (hunused.others u hu)
        · rw [(hothers j hji).1] at hj
          exact ⟨j, hj⟩
      · intro q hlow hhigh
        exact absurd hhigh (Nat.not_lt.mpr hlow)
    · intro j k a ha
      obtain hold' | ⟨-, -, rfl⟩ := hholds j k a ha
      · exact .inl hold'
      · refine .inr ?_
        rintro u - ⟨r, tls', k', -, -, hclaim⟩
        exact hnone r k' hclaim
  refine ⟨hbeside, ?_, hunused.origins, i, tls, hentry, hold, horigin⟩
  apply h.of_beside hbeside
  · exact ⟨h.pool.registered.of_tid (fun _ => rfl) (fun _ => Iff.rfl) rfl rfl, h.pool.pages_lt, h.pool.addr⟩
  · exact h.distinct
  · exact h.sizes
  · intro q hq
    have hchange := pointers_set (h.pool.index_lt hentry) (fun j hj => (hothers j hj).2) hheld hleft
      (some (s.heap q).addr)
    have hbound := h.counted q hq
    simp only [reduceCtorEq, if_false, Option.some.injEq, Nat.add_zero] at hchange
    show (pointers maxThreads (held s' notes') (some (s.heap q).addr) : Int) ≤ (s.heap q).refCount
    by_cases hqp : fresh = (s.heap q).addr
    · have hsame : q = p := h.distinct q p hq hplt (by rw [← hqp, haddr])
      have hzero : pointers maxThreads (held s notes) (some fresh) = 0 := by
        apply pointers_eq_zero
        intro k hmem
        obtain ⟨m, hm⟩ := List.mem_iff_getElem?.mp hmem
        exact hnone k m hm
      rw [if_pos hqp, ← hqp, hzero] at hchange
      rw [← hqp, hsame]
      omega
    · rw [if_neg hqp] at hchange
      omega
  · refine ⟨?_, ?_⟩
    · rw [hown]
      exact fun hne => absurd rfl hne
    · intro k hk
      rw [hown] at hk
      obtain rfl | hk := List.mem_cons.mp hk
      · refine ⟨i, tls, hentry, hmutex, fresh, ?_, ?_⟩
        · rw [hheld, List.getElem?_set_self (List.getElem?_eq_some_iff.mp hleft).1]
        · intro j m hm
          obtain hold' | ⟨hj, hk, -⟩ := hholds j m fresh hm
          · exact absurd hold' (hnone j m)
          · exact ⟨hj, hk⟩
      · obtain ⟨j, other, hother, hlocked, a, ha, hsole⟩ := (h.noted t).alone k hk
        obtain rfl := h.pool.index_unique hentry hother
        have hne : page ≠ k := by
          rintro rfl
          cases hleft.symm.trans ha
        refine ⟨j, other, hother, hlocked, a, ?_, ?_⟩
        · rw [hheld, List.getElem?_set_ne hne]
          exact ha
        · intro r m hm
          obtain hold' | ⟨-, -, rfl⟩ := hholds r m a hm
          · exact hsole r m hold'
          · exact absurd ha (hnone j k)

/-! ### Looking and locking -/

/-- A page with one reference is held by one entry. -/
theorem Sharing.sole {page p : Nat} (h : Sharing frame s notes) (hentry : s.ttpArray i = ⟨t, some tls⟩)
    (hstage : (notes t).stage = .none) (hp : tls.pages[page]? = some p)
    (hcount : ¬ 1 < (s.heap p).refCount) : Sole s notes i page := by
  have hleaving : leaving s notes i = none := by
    rw [leaving_of_entry hentry, hstage]
    rfl
  have hplt : p < s.heapSize := by
    apply h.pool.pages_lt i
    rw [pages_of_entry hentry]
    exact List.mem_of_getElem? hp
  have hheld : (held s notes i)[page]? = some (some (s.heap p).addr) := by
    rw [held_of_none hleaving, origin_of_none hleaving, List.getElem?_map, State.table,
      pages_of_entry hentry, List.getElem?_map, hp]
    rfl
  refine ⟨(s.heap p).addr, hheld, ?_⟩
  intro j k hk
  have hj : j < maxThreads := by
    by_contra hnot
    have hfree := h.pool.registered.free j (h.pool.registered.bound.le.trans (Nat.le_of_not_lt hnot))
    rw [held_of_nil (State.pages_of_none hfree)] at hk
    cases hk
  have hone : pointers maxThreads (held s notes) (some (s.heap p).addr) ≤ 1 := by
    have hbound := h.counted p hplt
    omega
  exact position_unique hone hj (h.pool.index_lt hentry) hk hheld

theorem Sharing.look (h : Sharing frame s notes) (hstage : n.stage = (notes t).stage)
    (halone : ∀ page, page ∈ n.alone → page ∈ (notes t).alone ∨ ∃ i tls,
      s.ttpArray i = ⟨t, some tls⟩ ∧ tls.mutex = true ∧ Sole s notes i page) :
    Beside t s s notes (update notes t n) ∧ Sharing frame s (update notes t n) := by
  have hq : Quiet t s s := Quiet.of_same rfl rfl rfl (Nat.le_refl _)
  have hleaves : n.stage.leaves = (notes t).stage.leaves := by rw [hstage]
  have hfresh : ∀ u, u ≠ t → ∀ f, (notes u).stage.fresh = some f → n.stage.fresh ≠ some f := by
    intro u hu f hf heq
    rw [hstage] at heq
    exact (h.unused heq).others u hu hf
  exact ⟨hq.beside hleaves hfresh, h.quiet hq h.pool.registered hleaves hfresh
    ((h.noted t).quiet hq hstage halone (Quiet.mutex_same rfl))⟩

theorem Sharing.keep (h : Sharing frame s notes) (hq : Quiet t s s') (hreg : Registered s')
    (hmutex : ∀ i tls tls', s.ttpArray i = ⟨t, some tls⟩ → s'.ttpArray i = ⟨t, some tls'⟩ →
      tls.mutex = true → tls'.mutex = true) : Beside t s s' notes notes ∧ Sharing frame s' notes := by
  obtain ⟨hbeside, -⟩ := h.look (t := t) (n := notes t) rfl fun page hpage => .inl hpage
  have hfresh : ∀ u, u ≠ t → ∀ f, (notes u).stage.fresh = some f → (notes t).stage.fresh ≠ some f := by
    intro u hu f hf
    have hnot := (hbeside.fresh u hu f hf).1
    rwa [update_self] at hnot
  have hb := hq.beside rfl hfresh
  have hs := h.quiet hq hreg rfl hfresh
    ((h.noted t).quiet hq rfl (fun page hpage => .inl hpage) hmutex)
  rw [update_eq_self] at hb hs
  exact ⟨hb, hs⟩

theorem Sharing.release (h : Sharing frame s notes) (hq : Quiet t s s') (hreg : Registered s')
    (hstage : (notes t).stage = .none) (hn : n.stage = .none) (halone : n.alone = []) :
    Beside t s s' notes (update notes t n) ∧ Sharing frame s' (update notes t n) := by
  have hleaves : n.stage.leaves = (notes t).stage.leaves := by rw [hn, hstage]
  have hfresh : ∀ u, u ≠ t → ∀ f, (notes u).stage.fresh = some f → n.stage.fresh ≠ some f := by
    intro u _ f _
    rw [hn]
    rintro ⟨⟩
  refine ⟨hq.beside hleaves hfresh, h.quiet hq hreg hleaves hfresh ⟨?_, ?_⟩⟩
  · rw [update_self, hn]
    exact fun hne => absurd rfl hne
  · rw [update_self, halone]
    rintro page ⟨⟩

theorem Quiet.setMutex (hentry : s.ttpArray i = ⟨t, some tls⟩) (locked : Bool) :
    Quiet t s (s.setTLS i { tls with mutex := locked }) := by
  have hself := setTLS_self hentry { tls with mutex := locked }
  refine ⟨fun u hu j other => setTLS_other hentry _ hu, ?_, ?_, rfl, rfl, Nat.le_refl _⟩
  · intro j other hother
    by_cases hj : j = i
    · subst hj
      cases hentry.symm.trans hother
      exact ⟨_, hself, rfl, rfl⟩
    · exact ⟨other, by rw [State.ttpArray_setTLS_of_ne s _ hj, hother], rfl, rfl⟩
  · intro j other hother
    by_cases hj : j = i
    · exact ⟨tls, hj ▸ hentry⟩
    · exact ⟨other, by rw [← State.ttpArray_setTLS_of_ne s { tls with mutex := locked } hj, hother]⟩

theorem Quiet.search {tid : Nat} (hreg : Registered s) (hfind : s.findIndex tid = .ok (i, s')) :
    Quiet t s s' := by
  obtain ⟨-, hsame⟩ := hreg.search hfind
  have hstore := SameStore.findIndex hfind
  have hiff : ∀ u j tls, s'.ttpArray j = ⟨u, some tls⟩ ↔ s.ttpArray j = ⟨u, some tls⟩ := by
    intro u j tls
    constructor
    · intro hentry
      obtain heq | heq := hstore.entry j
      · rw [← heq, hentry]
      · rw [hentry] at heq
        cases heq
    · intro hentry
      have htls : (s.ttpArray j).tls = some tls := by rw [hentry]
      calc s'.ttpArray j = ⟨(s'.ttpArray j).tid, (s'.ttpArray j).tls⟩ := rfl
        _ = ⟨u, some tls⟩ := by rw [hsame.tid j tls htls, hsame.tls, hentry]
  exact ⟨fun u _ j tls => hiff u j tls, fun j tls hentry => ⟨tls, (hiff t j tls).mpr hentry, rfl, rfl⟩,
    fun j tls hentry => ⟨tls, (hiff t j tls).mp hentry⟩, hstore.heap, hstore.heapSize,
    Nat.le_of_eq hstore.mapped.symm⟩

end

end OSChallenges.Storage
