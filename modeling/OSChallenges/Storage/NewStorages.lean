import OSChallenges.Storage.CopySteps

/-!
# New storages among copies in progress

`tls_create` and `tls_clone` take a free entry. The pages of a creation are in use nowhere, and those of a
clone are the pages of a storage that is not locked, so no thread has one of them for itself or is leaving
it.
-/

namespace OSChallenges.Storage

open Program Words References Function

/-- A free entry becomes the storage of a thread. -/
structure Takes (t i : Nat) (tls : ThreadLocalStorage) (s s' : State) : Prop where
  found : Found s t i
  vacant : (s.ttpArray i).tls = none
  array : s'.ttpArray = update s.ttpArray i ⟨t, some tls⟩
  maxIndex : s'.maxIndex = s.maxIndex
  firstCall : s'.firstCall = s.firstCall
  addr : ∀ p, p < s.heapSize → (s'.heap p).addr = (s.heap p).addr
  heapSize : s.heapSize ≤ s'.heapSize
  mapped : s.mapped ≤ s'.mapped

section

variable {frame : Nat → Nat} {s s' : State} {notes : Nat → Note} {t i j : Nat}
  {tls : ThreadLocalStorage}

theorem Takes.entry (h : Takes t i tls s s') : s'.ttpArray i = ⟨t, some tls⟩ := by
  rw [h.array, update_self]

theorem Takes.entry_of_ne (h : Takes t i tls s s') (hj : j ≠ i) : s'.ttpArray j = s.ttpArray j := by
  rw [h.array, update_of_ne hj]

theorem Takes.pages (h : Takes t i tls s s') : s'.pages i = tls.pages := pages_of_entry h.entry

theorem Takes.pages_of_ne (h : Takes t i tls s s') (hj : j ≠ i) : s'.pages j = s.pages j := by
  rw [State.pages, State.pages, h.entry_of_ne hj]

theorem Takes.shares (h : Takes t i tls s s') (hpool : Pool frame s) (hj : j ≠ i) :
    origin s' notes j = origin s notes j ∧ held s' notes j = held s notes j := by
  have htable : s'.table j = s.table j := by
    rw [State.table, State.table, h.pages_of_ne hj]
    exact List.map_congr_left fun p hp => h.addr p (hpool.pages_lt j p hp)
  have hleaving : leaving s' notes j = leaving s notes j := by rw [leaving, leaving, h.entry_of_ne hj]
  exact ⟨origin_congr htable hleaving, held_congr htable hleaving⟩

theorem Takes.own (h : Takes t i tls s s') (hstage : (notes t).stage = .none) :
    origin s' notes i = s'.table i ∧ held s' notes i = (s'.table i).map some := by
  have hleaving : leaving s' notes i = none := by
    rw [leaving_of_entry h.entry, hstage]
    rfl
  rw [held_of_none hleaving, origin_of_none hleaving]
  exact ⟨rfl, rfl⟩

theorem Takes.beside (h : Takes t i tls s s') (hs : Sharing frame s notes)
    (hstage : (notes t).stage = .none)
    (htable : ∀ a, a ∈ s'.table i →
      (∃ j, a ∈ origin s notes j) ∨ ∀ k, k < s.mapped → a ≠ frame k * pageSize)
    (hobjects : ∀ p, s.heapSize ≤ p → p < s'.heapSize → ∀ k, k < s.mapped →
      (s'.heap p).addr ≠ frame k * pageSize)
    (hcounts : ∀ p, p < s.heapSize → (s'.heap p).refCount = (s.heap p).refCount ∨
      ∃ j, (s.heap p).addr ∈ origin s notes j)
    (hclaims : ∀ a, a ∈ s'.table i → ∀ u, u ≠ t → ¬ Claims s notes u a) : Beside t s s' notes notes := by
  refine ⟨fun _ _ => rfl, ?_, h.addr, h.mapped, ?_, hcounts, ?_⟩
  · intro u hu j other
    by_cases hj : j = i
    · rw [hj, h.entry]
      constructor
      · intro heq
        exact absurd (congrArg TidTlsPair.tid heq).symm hu
      · intro heq
        have hvacant := h.vacant
        rw [heq] at hvacant
        cases hvacant
    · rw [h.entry_of_ne hj]
  · intro u hu f hf
    obtain ⟨k, hk, rfl⟩ := (hs.unused hf).mapped
    refine ⟨?_, ?_, fun p hlow hhigh => hobjects p hlow hhigh k hk⟩
    · rw [hstage]
      rintro ⟨⟩
    · intro j hj
      by_cases hji : j = i
      · rw [hji, (h.own hstage).1] at hj
        obtain hold | hnew := htable _ hj
        · exact hold
        · exact absurd rfl (hnew k hk)
      · rw [(h.shares hs.pool hji).1] at hj
        exact ⟨j, hj⟩
  · intro j k a ha
    by_cases hj : j = i
    · rw [hj, (h.own hstage).2] at ha
      obtain ⟨b, hb, hba⟩ := List.mem_map.mp (List.mem_of_getElem? ha)
      cases hba
      exact .inr (hclaims _ hb)
    · rw [(h.shares hs.pool hj).2] at ha
      exact .inl ha

theorem count_map_some (l : List Nat) (a : Nat) :
    @List.count (Option Nat) instBEqOfDecidableEq (some a) (l.map some) = l.count a :=
  @List.count_map_of_injective _ _ _ _ instBEqOfDecidableEq _ l some (Option.some_injective _) a

theorem Takes.sharing (h : Takes t i tls s s') (hs : Sharing frame s notes) (ht : ValidThread t)
    (hstage : (notes t).stage = .none) (halone : (notes t).alone = [])
    (hbeside : Beside t s s' notes notes) (hlt : ∀ p, p ∈ tls.pages → p < s'.heapSize)
    (haddr : ∀ p, p < s'.heapSize → ∃ k, k < s'.mapped ∧ (s'.heap p).addr = frame k * pageSize)
    (hdistinct : ∀ p q, p < s'.heapSize → q < s'.heapSize → (s'.heap p).addr = (s'.heap q).addr → p = q)
    (hsizes : tls.pageNum = tls.pages.length ∧ tls.pageNum ≤ 2 ^ 12)
    (hcounted : ∀ p, p < s'.heapSize →
      (pointers maxThreads (held s notes) (some (s'.heap p).addr) +
        (s'.table i).count (s'.heap p).addr : Int) ≤ (s'.heap p).refCount) :
    Sharing frame s' notes := by
  apply hs.of_beside hbeside _ hdistinct
  · intro j other hother
    by_cases hj : j = i
    · rw [hj, h.entry] at hother
      cases hother
      exact hsizes
    · rw [h.entry_of_ne hj] at hother
      exact hs.sizes j other hother
  · intro p hp
    have hsame : ∀ j, j ≠ i → held s' notes j = held s notes j := fun j hj => (h.shares hs.pool hj).2
    have hchange := pointers_change (h.found.index_lt hs.pool.registered) hsame
      (some (s'.heap p).addr)
    have hempty : @List.count (Option Nat) instBEqOfDecidableEq (some (s'.heap p).addr) [] = 0 := rfl
    rw [held_of_nil (State.pages_of_none h.vacant), hempty, (h.own hstage).2, count_map_some] at hchange
    have hbound := hcounted p hp
    omega
  · refine ⟨fun hne => absurd hstage hne, ?_⟩
    rw [halone]
    rintro page ⟨⟩
  · refine ⟨hs.pool.registered.take ht h.found h.vacant h.array h.maxIndex h.firstCall, ?_, haddr⟩
    intro j p hp
    by_cases hj : j = i
    · rw [hj, h.pages] at hp
      exact hlt p hp
    · rw [h.pages_of_ne hj] at hp
      exact (hs.pool.pages_lt j p hp).trans_le h.heapSize

/-! ### `tls_create` -/

theorem State.takes_newStorage {n : Int} (hfound : Found s t i) (hnone : (s.ttpArray i).tls = none)
    (size : Nat) : Takes t i ⟨size, toUInt32 n, false, List.range' s.heapSize n.toNat⟩ s
      (s.newStorage frame i t size n) := by
  have hmade := created frame s n.toNat
  refine ⟨hfound, hnone, State.ttpArray_newStorage .., hmade.maxIndex, hmade.firstCall, ?_, ?_, ?_⟩
  · intro p hp
    exact congrArg Page.addr (hmade.heap_old p hp)
  · exact (Nat.le_add_right _ _).trans_eq hmade.heapSize.symm
  · exact (Nat.le_add_right _ _).trans_eq hmade.mapped.symm

theorem sharing_create {n : Int} {size : Nat} (hs : Sharing frame s notes) (hframe : Injective frame)
    (ht : ValidThread t) (hstage : (notes t).stage = .none) (halone : (notes t).alone = [])
    (hfound : Found s t i) (hnone : (s.ttpArray i).tls = none) (hpos : 0 ≤ n) (hsmall : n ≤ 2 ^ 12) :
    Beside t s (s.newStorage frame i t size n) notes notes ∧
      Sharing frame (s.newStorage frame i t size n) notes := by
  let s' := s.newStorage frame i t size n
  have hmade := created frame s n.toNat
  have htakes : Takes t i _ s s' := State.takes_newStorage hfound hnone size
  have hnew : ∀ k, k < n.toNat → s'.heap (s.heapSize + k) = ⟨frame (s.mapped + k) * pageSize, 1⟩ :=
    hmade.heap_new
  have hsize : s'.heapSize = s.heapSize + n.toNat := hmade.heapSize
  have hcases : ∀ p, p < s'.heapSize → p < s.heapSize ∨ ∃ k, k < n.toNat ∧ p = s.heapSize + k := by
    intro p hp
    rw [hsize] at hp
    by_cases hlt : p < s.heapSize
    · exact .inl hlt
    · exact .inr ⟨p - s.heapSize, by omega, by omega⟩
  have hsame : ∀ k m, frame k * pageSize = frame m * pageSize → k = m := fun k m heq =>
    hframe (Nat.eq_of_mul_eq_mul_right (by decide) heq)
  have hfar : ∀ k, k < s.mapped → ∀ m, frame (s.mapped + m) * pageSize ≠ frame k * pageSize := by
    intro k hk m heq
    have hkm := hsame _ _ heq
    omega
  have htable : ∀ a, a ∈ s'.table i → ∃ m, m < n.toNat ∧ a = frame (s.mapped + m) * pageSize := by
    intro a ha
    rw [State.table, htakes.pages] at ha
    obtain ⟨p, hp, rfl⟩ := List.mem_map.mp ha
    obtain ⟨m, hm, rfl⟩ : ∃ m, m < n.toNat ∧ p = s.heapSize + m := by
      have hrange := List.mem_range'_1.mp hp
      exact ⟨p - s.heapSize, by omega, by omega⟩
    exact ⟨m, hm, congrArg Page.addr (hnew m hm)⟩
  have hbeside : Beside t s s' notes notes := by
    apply htakes.beside hs hstage
    · intro a ha
      obtain ⟨m, -, rfl⟩ := htable a ha
      exact .inr fun k hk => hfar k hk m
    · intro p hlow hhigh k hk
      obtain hlt | ⟨m, hm, rfl⟩ := hcases p hhigh
      · omega
      · rw [hnew m hm]
        exact hfar k hk m
    · intro p hp
      exact .inl (congrArg Page.refCount (hmade.heap_old p hp))
    · rintro a ha u - ⟨j, other, page, -, -, hclaim⟩
      obtain ⟨m, -, rfl⟩ := htable a ha
      obtain ⟨k, hk, heq⟩ := hs.origin_addr (List.mem_of_getElem? (origin_of_held hclaim))
      exact hfar k hk m heq
  refine ⟨hbeside, ?_⟩
  have haddr : ∀ p, p < s'.heapSize → ∃ k, k < s'.mapped ∧ (s'.heap p).addr = frame k * pageSize := by
    intro p hp
    have hmapped : s'.mapped = s.mapped + n.toNat := hmade.mapped
    obtain hlt | ⟨m, hm, rfl⟩ := hcases p hp
    · obtain ⟨k, hk, heq⟩ := hs.pool.addr p hlt
      rw [htakes.addr p hlt]
      exact ⟨k, by omega, heq⟩
    · rw [hnew m hm]
      exact ⟨s.mapped + m, by omega, rfl⟩
  have hdistinct : ∀ p q, p < s'.heapSize → q < s'.heapSize → (s'.heap p).addr = (s'.heap q).addr →
      p = q := by
    intro p q hp hq heq
    obtain hlp | ⟨m, hm, rfl⟩ := hcases p hp
    · obtain hlq | ⟨r, hr, rfl⟩ := hcases q hq
      · rw [htakes.addr p hlp, htakes.addr q hlq] at heq
        exact hs.distinct p q hlp hlq heq
      · obtain ⟨k, hk, hpk⟩ := hs.pool.addr p hlp
        rw [htakes.addr p hlp, hpk, hnew r hr] at heq
        exact absurd heq.symm (hfar k hk r)
    · obtain hlq | ⟨r, hr, rfl⟩ := hcases q hq
      · obtain ⟨k, hk, hqk⟩ := hs.pool.addr q hlq
        rw [htakes.addr q hlq, hqk, hnew m hm] at heq
        exact absurd heq (hfar k hk m)
      · rw [hnew m hm, hnew r hr] at heq
        have hmr := hsame _ _ heq
        omega
  apply htakes.sharing hs ht hstage halone hbeside _ haddr hdistinct
  · simp only [List.length_range', toUInt32]
    omega
  · intro p hp
    obtain hlt | ⟨m, hm, rfl⟩ := hcases p hp
    · have hzero : (s'.table i).count (s'.heap p).addr = 0 := by
        apply List.count_eq_zero.mpr
        intro ha
        obtain ⟨r, -, hr⟩ := htable _ ha
        obtain ⟨k, hk, hpk⟩ := hs.pool.addr p hlt
        rw [htakes.addr p hlt, hpk] at hr
        exact hfar k hk r hr.symm
      rw [hzero, htakes.addr p hlt]
      have hcount : (s'.heap p).refCount = (s.heap p).refCount :=
        congrArg Page.refCount (hmade.heap_old p hlt)
      have hbound := hs.counted p hlt
      omega
    · have hnone : pointers maxThreads (held s notes) (some (s'.heap (s.heapSize + m)).addr) = 0 := by
        apply pointers_eq_zero
        intro j hmem
        obtain ⟨x, hx⟩ := List.mem_iff_getElem?.mp hmem
        obtain ⟨k, hk, heq⟩ := hs.origin_addr (List.mem_of_getElem? (origin_of_held hx))
        rw [hnew m hm] at heq
        exact hfar k hk m heq
      have hone : (s'.table i).count (s'.heap (s.heapSize + m)).addr ≤ 1 := by
        apply List.nodup_iff_count_le_one.mp
        rw [State.table, htakes.pages]
        apply List.Nodup.map_on _ List.nodup_range'
        intro p hp q hq heq
        have hrange := List.mem_range'_1.mp hp
        have hrange' := List.mem_range'_1.mp hq
        exact hdistinct p q (by omega) (by omega) heq
      have hcount : (s'.heap (s.heapSize + m)).refCount = 1 := congrArg Page.refCount (hnew m hm)
      rw [hnone, hcount]
      omega
  · intro p hp
    have hrange := List.mem_range'_1.mp hp
    omega

/-! ### `tls_clone` -/

theorem count_map_of_injOn {l : List Nat} {f : Nat → Nat} {q : Nat}
    (h : ∀ p, p ∈ l → f p = f q → p = q) : (l.map f).count (f q) = l.count q := by
  induction l with
  | nil => rfl
  | cons p l ih =>
    have hrest := ih fun r hr => h r (List.mem_cons_of_mem p hr)
    rw [List.map_cons, List.count_cons, List.count_cons, hrest]
    congr 1
    by_cases hp : p = q
    · simp [hp]
    · have hf : f p ≠ f q := fun heq => hp (h p (List.mem_cons_self ..) heq)
      simp [hp, hf]

/-- The pages of a storage that is not locked. -/
structure Original (frame : Nat → Nat) (s : State) (notes : Nat → Note) (j : Nat)
    (tls : ThreadLocalStorage) : Prop where
  entry : (s.ttpArray j).tls = some tls
  free : tls.mutex = false

/-- Nobody is leaving a page of a storage that is not locked. -/
theorem Original.leaving (h : Original frame s notes j tls) (hs : Sharing frame s notes) :
    leaving s notes j = none := by
  have hentry := entry_eq h.entry
  rw [leaving_of_entry hentry]
  by_cases hstage : (notes (s.ttpArray j).tid).stage = .none
  · rw [hstage]
    rfl
  · obtain ⟨k, other, hother, hlocked, -⟩ := (hs.noted (s.ttpArray j).tid).stage hstage
    obtain rfl := hs.pool.index_unique hentry hother
    rw [hother] at hentry
    cases hentry
    cases h.free.symm.trans hlocked

theorem Original.unclaimed (h : Original frame s notes j tls) (hs : Sharing frame s notes) {a : Nat}
    (ha : a ∈ s.table j) (u : Nat) : ¬ Claims s notes u a := by
  rintro ⟨i, own, page, hown, hpage, hclaim⟩
  obtain ⟨k, other, hother, hlocked, b, hb, hsole⟩ := (hs.noted u).alone page hpage
  obtain rfl := hs.pool.index_unique hown hother
  cases hb.symm.trans hclaim
  obtain ⟨x, hx⟩ := List.mem_iff_getElem?.mp ha
  have hheld : (held s notes j)[x]? = some (some a) := by
    rw [held_of_none (h.leaving hs), origin_of_none (h.leaving hs), List.getElem?_map, hx]
    rfl
  obtain ⟨rfl, -⟩ := hsole j x hheld
  have hentry := h.entry
  rw [hother] at hentry
  cases hentry
  cases h.free.symm.trans hlocked

theorem Sharing.take_pages (hs : Sharing frame s notes) (htls : (s.ttpArray j).tls = some tls) :
    tls.pages.take (toInt32 tls.pageNum).toNat = tls.pages := by
  obtain ⟨hnum, hle⟩ := hs.sizes j tls htls
  rw [toInt32_of_lt (by omega), hnum, Int.toNat_natCast, List.take_length]

theorem sharing_clone (hs : Sharing frame s notes) (ht : ValidThread t)
    (hstage : (notes t).stage = .none) (halone : (notes t).alone = []) (hfound : Found s t i)
    (hnone : (s.ttpArray i).tls = none) (ho : Original frame s notes j tls) :
    Takes t i ⟨tls.size, tls.pageNum, false, tls.pages⟩ s (s.cloneStorage i t tls) ∧
      Beside t s (s.cloneStorage i t tls) notes notes ∧ Sharing frame (s.cloneStorage i t tls) notes ∧
      (s.cloneStorage i t tls).table i = s.table j := by
  let s' := s.cloneStorage i t tls
  have hall := hs.take_pages ho.entry
  have hpages : s.pages j = tls.pages := State.pages_of_tls ho.entry
  have harray : s'.ttpArray = update s.ttpArray i ⟨t, some ⟨tls.size, tls.pageNum, false, tls.pages⟩⟩ := by
    show (s.cloneStorage i t tls).ttpArray = _
    unfold State.cloneStorage
    rw [hall]
  have hheap : s'.heap = addRefs s.heap tls.pages := by
    show (s.cloneStorage i t tls).heap = _
    unfold State.cloneStorage
    rw [hall]
  have haddr : ∀ p, (s'.heap p).addr = (s.heap p).addr := by
    intro p
    rw [hheap, addr_addRefs]
  have hcount : ∀ p, (s'.heap p).refCount = (s.heap p).refCount + tls.pages.count p := by
    intro p
    rw [hheap, refCount_addRefs]
  have htakes : Takes t i ⟨tls.size, tls.pageNum, false, tls.pages⟩ s s' :=
    ⟨hfound, hnone, harray, rfl, rfl, fun p _ => haddr p, Nat.le_refl _, Nat.le_refl _⟩
  have hlt : ∀ p, p ∈ tls.pages → p < s.heapSize := by
    intro p hp
    apply hs.pool.pages_lt j
    rwa [hpages]
  have htable : s'.table i = s.table j := by
    rw [State.table, State.table, htakes.pages, hpages]
    exact List.map_congr_left fun p _ => haddr p
  have horigin : origin s notes j = s.table j := origin_of_none (ho.leaving hs)
  have hbeside : Beside t s s' notes notes := by
    apply htakes.beside hs hstage
    · intro a ha
      rw [htable, ← horigin] at ha
      exact .inl ⟨j, ha⟩
    · intro p hlow hhigh
      exact absurd hhigh (Nat.not_lt.mpr hlow)
    · intro p _
      by_cases hp : p ∈ tls.pages
      · refine .inr ⟨j, ?_⟩
        rw [horigin, State.table, hpages]
        exact List.mem_map_of_mem hp
      · refine .inl ?_
        rw [hcount, List.count_eq_zero.mpr hp]
        exact Int.add_zero _
    · intro a ha u _
      rw [htable] at ha
      exact ho.unclaimed hs ha u
  refine ⟨htakes, hbeside, ?_, htable⟩
  apply htakes.sharing hs ht hstage halone hbeside hlt
  · intro p hp
    rw [haddr]
    exact hs.pool.addr p hp
  · intro p q hp hq heq
    rw [haddr, haddr] at heq
    exact hs.distinct p q hp hq heq
  · exact hs.sizes j tls ho.entry
  · intro p hp
    have hinj : ∀ q, q ∈ tls.pages → (s.heap q).addr = (s.heap p).addr → q = p :=
      fun q hq heq => hs.distinct q p (hlt q hq) hp heq
    have hmap : (s'.table i).count (s'.heap p).addr = tls.pages.count p := by
      rw [htable, State.table, hpages, haddr]
      exact count_map_of_injOn hinj
    rw [hmap, haddr, hcount]
    have hbound := hs.counted p hp
    omega

end

end OSChallenges.Storage
