import OSChallenges.Storage.Interleaved

/-!
# Copies find their pages open

The view that a thread has of the shared state survives the operations of the other threads: they
change neither its entries nor the addresses of its pages, and not the protections it has asked for
either, as long as they spare the pages it has opened.
-/

namespace OSChallenges.Storage

open Program Words Runs Interleaving

/-! ### The shared state and the view of a thread -/

/-- Each page object describes a page that `mmap` has returned. -/
structure Pool (frame : Nat → Nat) (s : State) : Prop where
  registered : Registered s
  pages_lt : ∀ i p, p ∈ s.pages i → p < s.heapSize
  addr : ∀ p, p < s.heapSize → ∃ k, k < s.mapped ∧ (s.heap p).addr = frame k * pageSize

/-- The local state of a thread describes its own storage, and the protections that it has asked for
are still there. -/
structure View (frame : Nat → Nat) (t : Nat) (l : Local) (opened : Nat → Prot) (s : State) :
    Prop where
  asked : l.opened = opened
  absent : l.table = none → (s.ttpArray l.index).tls = none
  owned : ∀ table, l.table = some table → ∃ tls, s.ttpArray l.index = ⟨t, some tls⟩ ∧
    tls.pages.map (fun p => (s.heap p).addr) = table
  mapped : ∀ addr, l.mapped = some addr → ∃ k, k < s.mapped ∧ addr = frame k * pageSize
  held : ∀ f, (opened f).within (s.prot f)

/-- What an operation leaves to a thread that does not make it. -/
structure Untouched (t : Nat) (opened : Nat → Prot) (s s' : State) : Prop where
  owned : ∀ i tls, s.ttpArray i = ⟨t, some tls⟩ → s'.ttpArray i = ⟨t, some tls⟩
  absent : ∀ i, (s.ttpArray i).tls = none → (s'.ttpArray i).tls = none
  addr : ∀ p, p < s.heapSize → (s'.heap p).addr = (s.heap p).addr
  mapped : s.mapped ≤ s'.mapped
  held : (∀ f, (opened f).within (s.prot f)) → ∀ f, (opened f).within (s'.prot f)

section

variable {frame : Nat → Nat} {s s' : State} {t u index page addr : Nat} {l : Local}
  {opened : Nat → Prot} {tls : ThreadLocalStorage}

theorem Prot.within_refl (a : Prot) : a.within a := ⟨id, id⟩

theorem Prot.within_readWrite (a : Prot) : a.within .readWrite := ⟨fun _ => rfl, fun _ => rfl⟩

theorem Untouched.same (harray : s'.ttpArray = s.ttpArray) (hheap : s'.heap = s.heap)
    (hmapped : s'.mapped = s.mapped) (hprot : s'.prot = s.prot) : Untouched u opened s s' where
  owned i tls hi := by rw [harray, hi]
  absent i hi := by rw [harray, hi]
  addr p _ := by rw [hheap]
  mapped := Nat.le_of_eq hmapped.symm
  held h := by rwa [hprot]

theorem View.untouched (h : View frame u l opened s) (hpool : Pool frame s)
    (hkept : Untouched u opened s s') : View frame u l opened s' where
  asked := h.asked
  absent hnone := hkept.absent _ (h.absent hnone)
  owned table htable := by
    obtain ⟨tls, hentry, htls⟩ := h.owned table htable
    refine ⟨tls, hkept.owned _ tls hentry, ?_⟩
    rw [← htls]
    apply List.map_congr_left
    intro p hp
    apply hkept.addr
    apply hpool.pages_lt l.index
    rw [State.pages_of_tls (by rw [hentry])]
    exact hp
  mapped a ha := by
    obtain ⟨k, hk, heq⟩ := h.mapped a ha
    exact ⟨k, hk.trans_le hkept.mapped, heq⟩
  held := hkept.held h.held

theorem Pool.same (h : Pool frame s) (harray : s'.ttpArray = s.ttpArray)
    (hmax : s'.maxIndex = s.maxIndex) (hfirst : s'.firstCall = s.firstCall)
    (hheap : s'.heap = s.heap) (hsize : s'.heapSize = s.heapSize) (hmapped : s.mapped ≤ s'.mapped) :
    Pool frame s' := by
  refine ⟨?_, ?_, ?_⟩
  · apply h.registered.of_shape
    exact ⟨fun i => by rw [harray], fun i => by rw [harray], hmax, hfirst⟩
  · intro i p hp
    rw [State.pages, harray] at hp
    rw [hsize]
    exact h.pages_lt i p hp
  · intro p hp
    rw [hsize] at hp
    obtain ⟨k, hk, heq⟩ := h.addr p hp
    rw [hheap]
    exact ⟨k, hk.trans_le hmapped, heq⟩

/-! ### Each operation -/

/-- The operation of a thread keeps the shared state in order, goes on in its own view, and leaves the
views of the others. -/
structure Moves (frame : Nat → Nat) (m : Threads) (t : Nat) (o : Op) (note : Nat → Prot)
    (Q : o.Res → Local → Prop) (r : o.Res) (s' : State) : Prop where
  pool : Pool frame s'
  view : ∃ l', View frame t l' (openedAfter o r note) s' ∧ Q r l'
  others : ∀ u, u ≠ t → ∀ thread, m.running u = some thread →
    Untouched u thread.note m.store s'

theorem moves_same {m : Threads} {o : Op} {Q : o.Res → Local → Prop} {r : o.Res}
    (hpool : Pool frame m.store) (hview : View frame t l opened m.store)
    (hopened : openedAfter o r opened = opened) (hQ : Q r l) :
    Moves frame m t o opened Q r m.store := by
  refine ⟨hpool, ⟨l, ?_, hQ⟩, fun u _ _ _ => .same rfl rfl rfl rfl⟩
  rw [hopened]
  exact hview

theorem moves_write {m : Threads} {o : Op} {Q : o.Res → Local → Prop} {r : o.Res}
    (hpool : Pool frame m.store) (hview : View frame t l opened m.store) (a : Nat)
    (bytes : List UInt8) (hopened : openedAfter o r opened = opened) (hQ : Q r l) :
    Moves frame m t o opened Q r (m.store.writeMemory a bytes) := by
  refine ⟨hpool.same rfl rfl rfl rfl rfl (Nat.le_refl _), ⟨l, ?_, hQ⟩,
    fun u _ _ _ => .same rfl rfl rfl rfl⟩
  rw [hopened]
  exact hview.untouched hpool (.same rfl rfl rfl rfl)

theorem moves_findIndex {m : Threads} {i : Nat} {Q : Nat → Local → Prop}
    (hpool : Pool frame m.store) (hview : View frame t l opened m.store) (ht : ValidThread t)
    (hfind : m.store.findIndex t = .ok (i, s'))
    (hQ : ∀ index table, Q index { l with index := index, table := table }) :
    Moves frame m t (.findIndex t) opened Q i s' := by
  have hstore := SameStore.findIndex hfind
  obtain ⟨hreg, howners⟩ := hpool.registered.search hfind
  have hkept : ∀ u opened, Untouched u opened m.store s' := by
    intro u opened
    refine ⟨?_, ?_, ?_, ?_, ?_⟩
    · intro j tls hentry
      have htls : (m.store.ttpArray j).tls = some tls := by rw [hentry]
      calc s'.ttpArray j = ⟨(s'.ttpArray j).tid, (s'.ttpArray j).tls⟩ := rfl
        _ = ⟨u, some tls⟩ := by rw [howners.tid j tls htls, howners.tls, hentry]
    · intro j hnone
      rw [howners.tls, hnone]
    · intro p _
      rw [hstore.heap]
    · rw [hstore.mapped]
    · intro hheld
      rwa [hstore.prot]
  have hpool' : Pool frame s' := by
    refine ⟨hreg, ?_, ?_⟩
    · intro j p hp
      rw [howners.pages] at hp
      rw [hstore.heapSize]
      exact hpool.pages_lt j p hp
    · intro p hp
      rw [hstore.heapSize] at hp
      rw [hstore.heap, hstore.mapped]
      exact hpool.addr p hp
  have hold := hview.untouched hpool (hkept t opened)
  refine ⟨hpool', ?_, fun u _ thread _ => hkept u thread.note⟩
  obtain ⟨tls, hentry⟩ | ⟨hnone, -⟩ := (hpool.registered.found ht hfind).entry
  · refine ⟨⟨i, some (tls.pages.map fun p => (s'.heap p).addr), l.mapped, l.opened⟩, ?_, hQ _ _⟩
    refine ⟨hold.asked, nofun, ?_, hold.mapped, hold.held⟩
    rintro table ⟨rfl⟩
    exact ⟨tls, hentry, rfl⟩
  · refine ⟨⟨i, none, l.mapped, l.opened⟩, ?_, hQ _ _⟩
    exact ⟨hold.asked, fun _ => hnone, nofun, hold.mapped, hold.held⟩

theorem Untouched.setTLS (hentry : s.ttpArray index = ⟨t, some tls⟩) (hu : u ≠ t)
    (tls' : ThreadLocalStorage) (harray : s'.ttpArray = (s.setTLS index tls').ttpArray)
    (haddr : ∀ p, p < s.heapSize → (s'.heap p).addr = (s.heap p).addr) (hmapped : s'.mapped = s.mapped)
    (hprot : s'.prot = s.prot) : Untouched u opened s s' := by
  refine ⟨?_, ?_, haddr, Nat.le_of_eq hmapped.symm, fun h => by rwa [hprot]⟩
  · intro i tls₁ hi
    have hne : i ≠ index := by
      intro heq
      rw [heq, hentry] at hi
      cases hi
      exact hu rfl
    rw [harray, State.ttpArray_setTLS_of_ne s tls' hne, hi]
  · intro i hi
    have hne : i ≠ index := by
      intro heq
      rw [heq, hentry] at hi
      cases hi
    rw [harray, State.ttpArray_setTLS_of_ne s tls' hne, hi]

theorem Registered.setTLS (h : Registered s) (hentry : s.ttpArray index = ⟨t, some tls⟩)
    (tls' : ThreadLocalStorage) (harray : s'.ttpArray = (s.setTLS index tls').ttpArray)
    (hmax : s'.maxIndex = s.maxIndex) (hfirst : s'.firstCall = s.firstCall) : Registered s' := by
  have hother : ∀ i, i ≠ index → s'.ttpArray i = s.ttpArray i := fun i hi => by
    rw [harray, State.ttpArray_setTLS_of_ne s tls' hi]
  have hself : s'.ttpArray index = ⟨t, some tls'⟩ := by
    rw [harray]
    show Function.update s.ttpArray index _ index = _
    rw [Function.update_self, hentry]
  apply h.of_tid _ _ hmax hfirst
  · intro i
    by_cases hi : i = index
    · rw [hi, hself, hentry]
    · rw [hother i hi]
  · intro i
    by_cases hi : i = index
    · rw [hi, hself, hentry]
      simp
    · rw [hother i hi]

theorem View.entry {table : List Nat} (hview : View frame t l opened s)
    (howns : l.Owns index table) : ∃ tls, s.ttpArray index = ⟨t, some tls⟩ ∧
      tls.pages.map (fun p => (s.heap p).addr) = table := by
  rw [← howns.1]
  exact hview.owned table howns.2

theorem moves_mutex {m : Threads} {o : Op} {Q : o.Res → Local → Prop} {r : o.Res}
    (hpool : Pool frame m.store) (hview : View frame t l opened m.store)
    (hindex : l.index = index) (hentry : m.store.ttpArray index = ⟨t, some tls⟩) (mutex : Bool)
    (hopened : openedAfter o r opened = opened) (hQ : Q r l) :
    Moves frame m t o opened Q r (m.store.setTLS index { tls with mutex := mutex }) := by
  have htls : (m.store.ttpArray index).tls = some tls := by rw [hentry]
  let s₁ := m.store.setTLS index { tls with mutex := mutex }
  have hself : s₁.ttpArray index = ⟨t, some { tls with mutex := mutex }⟩ := by
    show Function.update m.store.ttpArray index _ index = _
    rw [Function.update_self, hentry]
  have hpages : ∀ i, s₁.pages i = m.store.pages i := by
    intro i
    show (m.store.setTLS index { tls with mutex := mutex }).pages i = _
    rw [← State.setMutex_of_tls htls, State.pages_setMutex]
  refine ⟨⟨hpool.registered.setTLS hentry _ rfl rfl rfl, ?_, hpool.addr⟩, ⟨l, ?_, hQ⟩,
    fun u hu _ _ => .setTLS hentry hu _ rfl (fun _ _ => rfl) rfl rfl⟩
  · intro i p hp
    rw [hpages] at hp
    exact hpool.pages_lt i p hp
  · rw [hopened]
    refine ⟨hview.asked, ?_, ?_, hview.mapped, hview.held⟩
    · intro hnone
      have habsent := hview.absent hnone
      rw [hindex, hentry] at habsent
      cases habsent
    · intro table htable
      obtain ⟨tls₁, hentry₁, htable₁⟩ := hview.owned table htable
      rw [hindex, hentry] at hentry₁
      cases hentry₁
      rw [hindex]
      exact ⟨_, hself, htable₁⟩

theorem moves_setRefCount {m : Threads} {o : Op} {Q : o.Res → Local → Prop} {r : o.Res} {p : Nat}
    (hpool : Pool frame m.store) (hview : View frame t l opened m.store) (count : Int)
    (hopened : openedAfter o r opened = opened) (hQ : Q r l) :
    Moves frame m t o opened Q r (m.store.setRefCount p count) := by
  have haddr : ∀ q, ((m.store.setRefCount p count).heap q).addr = (m.store.heap q).addr := by
    intro q
    show (Function.update m.store.heap p _ q).addr = _
    by_cases hq : q = p
    · rw [hq, Function.update_self]
    · rw [Function.update_of_ne hq]
  have hkept : ∀ u opened, Untouched u opened m.store (m.store.setRefCount p count) := fun _ _ =>
    ⟨fun _ _ h => h, fun _ h => h, fun q _ => haddr q, Nat.le_refl _, id⟩
  refine ⟨⟨?_, hpool.pages_lt, ?_⟩, ⟨l, ?_, hQ⟩, fun u _ thread _ => hkept u thread.note⟩
  · exact hpool.registered.of_tid (fun _ => rfl) (fun _ => Iff.rfl) rfl rfl
  · intro q hq
    rw [haddr]
    exact hpool.addr q hq
  · rw [hopened]
    exact hview.untouched hpool (hkept t opened)

theorem moves_mprotect {m : Threads} {Q : Unit → Local → Prop} {len : Nat} {prot : Prot}
    (hpool : Pool frame m.store) (hview : View frame t l opened m.store)
    (hspares : ∀ u, u ≠ t → ∀ thread, m.running u = some thread → ∀ f, addr % pageSize = 0 →
      addr ≤ f * pageSize → f * pageSize < addr + len → (thread.note f).within prot)
    (hQ : Q () { l with opened := openedAfter (.mprotect addr len prot) () opened }) :
    Moves frame m t (.mprotect addr len prot) opened Q () (m.store.mprotect addr len prot) := by
  unfold State.mprotect
  by_cases haddr : addr % pageSize = 0
  · rw [if_pos haddr]
    refine ⟨hpool.same rfl rfl rfl rfl rfl (Nat.le_refl _), ⟨_, ?_, hQ⟩, ?_⟩
    · refine ⟨rfl, hview.absent, hview.owned, hview.mapped, ?_⟩
      intro f
      show Prot.within (if _ then _ else _) (if _ then _ else _)
      by_cases hin : addr ≤ f * pageSize ∧ f * pageSize < addr + len
      · rw [if_pos ⟨haddr, hin.1, hin.2⟩, if_pos hin]
        exact Prot.within_refl prot
      · rw [if_neg (fun h => hin h.2), if_neg hin]
        exact hview.held f
    · intro u hu thread hrun
      refine ⟨fun _ _ h => h, fun _ h => h, fun _ _ => rfl, Nat.le_refl _, ?_⟩
      intro hheld f
      show Prot.within _ (if _ then _ else _)
      by_cases hin : addr ≤ f * pageSize ∧ f * pageSize < addr + len
      · rw [if_pos hin]
        exact hspares u hu thread hrun f haddr hin.1 hin.2
      · rw [if_neg hin]
        exact hheld f
  · rw [if_neg haddr]
    have hsame : openedAfter (.mprotect addr len prot) () opened = opened := by
      funext f
      exact if_neg fun h => haddr h.1
    rw [hsame] at hQ
    apply moves_same hpool hview hsame
    rw [← hview.asked] at hQ
    exact hQ

/-- A page that has just been mapped is open, and no page of the storage. -/
theorem moves_mmap {m : Threads} {Q : Nat → Local → Prop} (hframe : Function.Injective frame)
    (hpool : Pool frame m.store) (hview : View frame t l opened m.store)
    (hQ : ∀ addr, addr % pageSize = 0 → (∀ table, l.table = some table → addr ∉ table) →
      Q addr { l with mapped := some addr, opened := openedAfter (.mmap .readWrite) addr l.opened }) :
    Moves frame m t (.mmap .readWrite) opened Q (m.store.mmap frame .readWrite).1
      (m.store.mmap frame .readWrite).2 := by
  have hheld : ∀ opened : Nat → Prot, (∀ f, (opened f).within (m.store.prot f)) →
      ∀ f, (opened f).within ((m.store.mmap frame .readWrite).2.prot f) := by
    intro opened hold f
    show (opened f).within (Function.update m.store.prot (frame m.store.mapped) .readWrite f)
    by_cases hf : f = frame m.store.mapped
    · rw [hf, Function.update_self]
      exact Prot.within_readWrite _
    · rw [Function.update_of_ne hf]
      exact hold f
  have hkept : ∀ u opened, Untouched u opened m.store (m.store.mmap frame .readWrite).2 :=
    fun _ opened => ⟨fun _ _ h => h, fun _ h => h, fun _ _ => rfl, Nat.le_succ _, hheld opened⟩
  have hold := hview.untouched hpool (hkept t opened)
  refine ⟨hpool.same rfl rfl rfl rfl rfl (Nat.le_succ _), ⟨_, ?_, hQ _ ?_ ?_⟩,
    fun u _ thread _ => hkept u thread.note⟩
  · refine ⟨by rw [hview.asked], hold.absent, hold.owned, ?_, ?_⟩
    · rintro a ⟨rfl⟩
      exact ⟨m.store.mapped, Nat.lt_succ_self _, rfl⟩
    · intro f
      show Prot.within (Function.update opened _ _ f) (Function.update m.store.prot _ _ f)
      rw [show State.frameOf (m.store.mmap frame .readWrite).1 = frame m.store.mapped from
        State.frameOf_page _]
      by_cases hf : f = frame m.store.mapped
      · rw [hf, Function.update_self, Function.update_self]
        exact Prot.within_refl _
      · rw [Function.update_of_ne hf, Function.update_of_ne hf]
        exact hview.held f
  · exact Nat.mul_mod_left _ _
  · intro table htable hmem
    obtain ⟨tls, hentry, hmap⟩ := hview.owned table htable
    rw [← hmap] at hmem
    obtain ⟨p, hp, heq⟩ := List.mem_map.mp hmem
    have hlt : p < m.store.heapSize := by
      apply hpool.pages_lt l.index
      rw [State.pages_of_tls (by rw [hentry])]
      exact hp
    obtain ⟨k, hk, haddr⟩ := hpool.addr p hlt
    have hsame : frame k * pageSize = frame m.store.mapped * pageSize := by
      rw [← haddr, heq]
      rfl
    have hframes := hframe (Nat.eq_of_mul_eq_mul_right (by decide) hsame)
    omega

theorem moves_replacePage {m : Threads} {Q : Unit → Local → Prop} {table : List Nat} {p : Nat}
    (hpool : Pool frame m.store) (hview : View frame t l opened m.store)
    (howns : l.Owns index table) (hmapped : l.mapped = some addr)
    (htls : (m.store.ttpArray index).tls = some tls) (hpage : tls.pages[page]? = some p)
    (hQ : page < table.length → Q () { l with table := some (table.set page addr) }) :
    Moves frame m t (.replacePage index page addr) opened Q ()
      ((m.store.newPage addr).2.setTLS index
        { tls with pages := tls.pages.set page m.store.heapSize }) := by
  obtain ⟨tls₁, hentry, hmap⟩ := hview.entry howns
  have hsame : tls₁ = tls := by
    rw [hentry] at htls
    exact Option.some.inj htls
  subst hsame
  have hlt := (List.getElem?_eq_some_iff.mp hpage).1
  let s₁ := (m.store.newPage addr).2.setTLS index
    { tls₁ with pages := tls₁.pages.set page m.store.heapSize }
  have hself : s₁.ttpArray index =
      ⟨t, some { tls₁ with pages := tls₁.pages.set page m.store.heapSize }⟩ := by
    show Function.update m.store.ttpArray index _ index = _
    rw [Function.update_self]
    show (⟨(m.store.ttpArray index).tid, _⟩ : TidTlsPair) = _
    rw [hentry]
  have hfresh : s₁.heap m.store.heapSize = ⟨addr, 1⟩ := Function.update_self ..
  have hheap : ∀ q, q ≠ m.store.heapSize → s₁.heap q = m.store.heap q := fun q hq =>
    Function.update_of_ne hq ..
  have hold : ∀ q, q ∈ tls₁.pages → q < m.store.heapSize := by
    intro q hq
    apply hpool.pages_lt index
    rw [State.pages_of_tls htls]
    exact hq
  refine ⟨⟨?_, ?_, ?_⟩, ⟨{ l with table := some (table.set page addr) }, ?_, hQ ?_⟩, ?_⟩
  · exact hpool.registered.setTLS hentry _ rfl rfl rfl
  · intro i q hq
    show q < m.store.heapSize + 1
    by_cases hi : i = index
    · subst hi
      rw [State.pages_of_tls (show (s₁.ttpArray i).tls = _ by rw [hself])] at hq
      obtain hmem | hnew := List.mem_or_eq_of_mem_set hq
      · exact Nat.lt_succ_of_lt (hold q hmem)
      · omega
    · rw [State.pages, show s₁.ttpArray i = m.store.ttpArray i from Function.update_of_ne hi ..]
        at hq
      exact Nat.lt_succ_of_lt (hpool.pages_lt i q hq)
  · intro q hq
    by_cases hnew : q = m.store.heapSize
    · rw [hnew, hfresh]
      exact hview.mapped addr hmapped
    · rw [hheap q hnew]
      apply hpool.addr
      have hle : q < m.store.heapSize + 1 := hq
      omega
  · refine ⟨hview.asked, (fun hnone => by cases hnone), ?_, hview.mapped, hview.held⟩
    rintro table' ⟨rfl⟩
    show ∃ tls, s₁.ttpArray l.index = _ ∧ _
    rw [howns.1]
    refine ⟨_, hself, ?_⟩
    rw [List.map_set, hfresh, ← hmap]
    congr 1
    apply List.map_congr_left
    intro q hq
    rw [hheap q (Nat.ne_of_lt (hold q hq))]
  · rw [← hmap, List.length_map]
    exact hlt
  · intro u hu thread _
    refine Untouched.setTLS hentry hu { tls₁ with pages := tls₁.pages.set page m.store.heapSize } rfl
      ?_ rfl rfl
    intro q hq
    show (s₁.heap q).addr = _
    rw [hheap q (Nat.ne_of_lt hq)]

/-! ### Every operation -/

theorem tlsAt_ok {next : ThreadLocalStorage → Except Fault (Unit × State)} {result : Unit × State}
    (hentry : s.ttpArray index = ⟨t, some tls⟩) (h : (s.tlsAt index >>= next) = .ok result) :
    next tls = .ok result := by
  unfold State.tlsAt at h
  rw [hentry] at h
  exact h

theorem pageAt_ok {α : Type} {next : Nat → Except Fault α} {result : α}
    (h : (s.pageAt index page >>= next) = .ok result) :
    ∃ p, (s.pages index)[page]? = some p ∧ next p = .ok result := by
  cases hp : s.pageAt index page with
  | error e =>
    rw [hp] at h
    cases h
  | ok p =>
    rw [hp] at h
    exact ⟨p, State.page_of_pageAt hp, h⟩

theorem store_of_ite {α : Type} {c : Prop} [Decidable c] {a b : α} {s₁ : State}
    (h : (if c then .ok (a, s₁) else .error Fault.segv) = Except.ok (b, s')) : s' = s₁ := by
  split at h
  · cases h
    rfl
  · cases h

theorem View.none_iff (hview : View frame t l opened s) :
    (s.ttpArray l.index).tls = none ↔ l.table = none := by
  constructor
  · intro hnone
    cases htable : l.table with
    | none => rfl
    | some table =>
      obtain ⟨tls, hentry, -⟩ := hview.owned table htable
      rw [hentry] at hnone
      cases hnone
  · exact hview.absent

theorem moves_of_rule {m : Threads} {o : Op} {k : o.Res → Code Result} {r : o.Res}
    {Q : o.Res → Local → Prop} (hframe : Function.Injective frame) (ht : ValidThread t)
    (hspares : Spares m (t, .advance)) (hrun : m.running t = some ⟨.op o k, opened⟩)
    (hpool : Pool frame m.store) (hview : View frame t l opened m.store)
    (hrule : localRule t o Q l) (hexec : exec frame o m.store = .ok (r, s')) :
    Moves frame m t o opened Q r s' := by
  cases o with
  | findIndex tid =>
    obtain ⟨rfl, hQ⟩ := hrule
    exact moves_findIndex hpool hview ht hexec hQ
  | pageNum index =>
    obtain ⟨rfl, hQ⟩ := hrule
    cases hexec
    apply moves_same hpool hview rfl
    apply hQ
    rw [Option.map_eq_none_iff]
    exact hview.none_iff
  | lock index =>
    obtain ⟨⟨table, howns⟩, hQ⟩ := hrule
    obtain ⟨tls, hentry, -⟩ := hview.entry howns
    have hlock := tlsAt_ok hentry hexec
    cases hfree : tls.mutex with
    | true =>
      rw [if_pos hfree] at hlock
      cases hlock
    | false =>
      rw [if_neg (by rw [hfree]; decide)] at hlock
      cases hlock
      exact moves_mutex hpool hview howns.1 hentry true rfl hQ
  | unlock index =>
    obtain ⟨⟨table, howns⟩, hQ⟩ := hrule
    obtain ⟨tls, hentry, -⟩ := hview.entry howns
    cases tlsAt_ok hentry hexec
    exact moves_mutex hpool hview howns.1 hentry false rfl hQ
  | pageAddr index page =>
    obtain ⟨table, howns, hQ⟩ := hrule
    obtain ⟨tls, hentry, hmap⟩ := hview.entry howns
    obtain ⟨p, hp, hret⟩ := pageAt_ok hexec
    cases hret
    apply moves_same hpool hview rfl
    obtain ⟨k, -, haddr⟩ := hpool.addr p (hpool.pages_lt index p (List.mem_of_getElem? hp))
    rw [State.pages_of_tls (by rw [hentry])] at hp
    apply hQ
    · rw [← hmap, List.getElem?_map, hp]
      rfl
    · rw [haddr]
      exact Nat.mul_mod_left _ _
  | refCount index page =>
    obtain ⟨-, hQ⟩ := hrule
    obtain ⟨p, hp, hret⟩ := pageAt_ok hexec
    cases hret
    exact moves_same hpool hview rfl (hQ _)
  | decRef index page =>
    obtain ⟨-, hQ⟩ := hrule
    obtain ⟨p, hp, hret⟩ := pageAt_ok hexec
    cases hret
    exact moves_setRefCount hpool hview _ rfl hQ
  | replacePage index page addr =>
    obtain ⟨table, howns, hmapped, hQ⟩ := hrule
    obtain ⟨tls, hentry, -⟩ := hview.entry howns
    have hreplace := tlsAt_ok hentry hexec
    obtain ⟨p, hp, hret⟩ := pageAt_ok hreplace
    cases hret
    have htls : (m.store.ttpArray index).tls = some tls := by rw [hentry]
    rw [State.pages_of_tls htls] at hp
    exact moves_replacePage hpool hview howns hmapped htls hp hQ
  | mprotect addr len prot =>
    cases hexec
    unfold Spares at hspares
    simp only [hrun] at hspares
    apply moves_mprotect hpool hview hspares
    rw [← hview.asked]
    exact hrule
  | mmap prot =>
    obtain ⟨rfl, hQ⟩ := hrule
    cases hexec
    exact moves_mmap hframe hpool hview hQ
  | copyOut addr len =>
    obtain ⟨-, hQ⟩ := hrule
    obtain rfl : s' = m.store := store_of_ite hexec
    exact moves_same hpool hview rfl (hQ _)
  | copyIn addr bytes =>
    obtain ⟨-, hQ⟩ := hrule
    obtain rfl : s' = m.store.writeMemory addr bytes := store_of_ite hexec
    exact moves_write hpool hview addr bytes rfl hQ
  | copyPage dst src =>
    obtain ⟨-, -, hQ⟩ := hrule
    rw [exec] at hexec
    rw [store_of_ite hexec]
    exact moves_write hpool hview dst _ rfl hQ

/-- What a thread has opened itself, it may access. -/
theorem View.accessible {allows : Prot → Bool} {len : Nat} (hview : View frame t l opened s)
    (hallows : ∀ a b : Prot, a.within b → allows a = true → allows b = true)
    (h : Opened l.opened allows addr len) : s.accessible allows addr len = true := by
  rw [State.accessible, List.all_eq_true]
  intro k hk
  have hopen := h k (List.mem_range.mp hk)
  rw [hview.asked] at hopen
  exact hallows _ _ (hview.held _) hopen

theorem readable_of_within (a b : Prot) (h : a.within b) : a.readable = true → b.readable = true :=
  h.1

theorem writable_of_within (a b : Prot) (h : a.within b) : a.writable = true → b.writable = true :=
  h.2

theorem bind_ne_segv {α β : Type} {x : Except Fault α} {next : α → Except Fault β}
    (hx : x ≠ .error .segv) (hnext : ∀ a, next a ≠ .error .segv) : (x >>= next) ≠ .error .segv := by
  cases x with
  | error e => exact fun h => hx (by cases h; rfl)
  | ok a => exact hnext a

theorem ok_ne_segv {α : Type} (a : α) : (Except.ok a : Except Fault α) ≠ .error .segv := by
  intro h
  cases h

theorem pageAt_ne_segv : s.pageAt index page ≠ .error .segv := by
  intro h
  cases error_of_pageAt h

theorem tlsAt_ne_segv : s.tlsAt index ≠ .error .segv := by
  unfold State.tlsAt
  intro h
  split at h
  · cases h
  · cases h

/-- An operation that meets the rule does not fault. -/
theorem exec_ne_segv {o : Op} {Q : o.Res → Local → Prop} (hview : View frame t l opened s)
    (hrule : localRule t o Q l) : exec frame o s ≠ .error .segv := by
  cases o with
  | findIndex tid =>
    intro hfault
    have hover := findIndex_error (s := s) hfault
    cases hover
  | lock index =>
    apply bind_ne_segv tlsAt_ne_segv
    intro tls h
    split at h
    · cases h
    · cases h
  | unlock index => exact bind_ne_segv tlsAt_ne_segv fun _ => ok_ne_segv _
  | pageAddr index page => exact bind_ne_segv pageAt_ne_segv fun _ => ok_ne_segv _
  | refCount index page => exact bind_ne_segv pageAt_ne_segv fun _ => ok_ne_segv _
  | decRef index page => exact bind_ne_segv pageAt_ne_segv fun _ => ok_ne_segv _
  | replacePage index page addr =>
    exact bind_ne_segv tlsAt_ne_segv fun _ => bind_ne_segv pageAt_ne_segv fun _ => ok_ne_segv _
  | pageNum index => exact ok_ne_segv _
  | mprotect addr len prot => exact ok_ne_segv _
  | mmap prot => exact ok_ne_segv _
  | copyOut addr len =>
    obtain ⟨hopen, -⟩ := hrule
    rw [exec, if_pos (hview.accessible readable_of_within hopen)]
    exact ok_ne_segv _
  | copyIn addr bytes =>
    obtain ⟨hopen, -⟩ := hrule
    rw [exec, if_pos (hview.accessible writable_of_within hopen)]
    exact ok_ne_segv _
  | copyPage dst src =>
    obtain ⟨hsrc, hdst, -⟩ := hrule
    rw [exec, hview.accessible readable_of_within hsrc, hview.accessible writable_of_within hdst]
    exact ok_ne_segv _

end

/-! ### Runs -/

section

variable {frame : Nat → Nat} {m m' : Threads} {a : Nat × Move}

theorem sound_advance {t : Nat} (hframe : Function.Injective frame) (ht : ValidThread t)
    (hspares : Spares m (t, .advance)) :
    Sound (exec frame) asked localRule (View frame) (Pool frame) m t := by
  intro o k note l r s' hrun hpool hview hrule hexec
  have hmoves := moves_of_rule hframe ht hspares hrun hpool hview hrule hexec
  refine ⟨hmoves.pool, hmoves.view, ?_⟩
  intro u code note' l' hu hrunu hviewu
  exact hviewu.untouched hpool (hmoves.others u hu ⟨code, note'⟩ hrunu)

/-- The programs of all threads are verified by their local rules. -/
abbrev Verified (frame : Nat → Nat) (m : Threads) : Prop :=
  Covered localRule (View frame) (Pool frame) m

theorem view_fresh (hpool : Pool frame m.store) (t : Nat) :
    View frame t ⟨m.store.maxIndex, none, none, fun _ => .none⟩ asked.fresh m.store where
  asked := rfl
  absent _ := hpool.registered.free _ (Nat.le_refl _)
  owned _ htable := by cases htable
  mapped _ haddr := by cases haddr
  held _ := ⟨nofun, nofun⟩

theorem verified_move (hframe : Function.Injective frame) (h : Verified frame m)
    (ht : ValidThread a.1) (hspares : Spares m a) (hmove : move frame m a = .ok m') :
    Verified frame m' := by
  obtain ⟨t, c⟩ := a
  cases c with
  | read offset length =>
    exact h.start ⟨_, view_fresh h.inv t, local_tlsRead t offset length _⟩ hmove
  | write offset length buffer =>
    exact h.start ⟨_, view_fresh h.inv t, local_tlsWrite t offset length buffer _⟩ hmove
  | advance => exact h.advance (sound_advance hframe ht hspares) hmove

theorem Verified.not_faults (h : Verified frame m) (t : Nat) : faults frame m t = false := by
  unfold faults
  split
  · rename_i o k note hrun
    obtain ⟨l, hview, hwp⟩ := h.threads t _ note hrun
    have hallowed : exec frame o m.store ≠ .error .segv := exec_ne_segv hview hwp
    unfold isSegv
    split
    · rename_i hfault
      exact absurd hfault hallowed
    · rfl
  · rfl

theorem Reachable.verified {s : State} (h : Reachable frame s) (hframe : Function.Injective frame) :
    Verified frame (idle s) := by
  obtain ⟨hwell, hreg⟩ := h.registered hframe
  refine ⟨⟨hreg, hwell.pages_lt, ?_⟩, nofun⟩
  intro p hp
  exact ⟨p, hwell.objects ▸ hp, hwell.addr p hp⟩

end

theorem Move.action_cases (t : Nat) (c : Move) :
    c.action t = .advance t ∨ ∃ p, c.action t = .start t p := by
  cases c with
  | read offset length => exact .inr ⟨_, rfl⟩
  | write offset length buffer => exact .inr ⟨_, rfl⟩
  | advance => exact .inl rfl

/-- A thread alone spares all pages. -/
theorem spares_alone {frame : Nat → Nat} {t : Nat} {m : Threads} {moves : List (Nat × Move)}
    (hmoves : ∀ a ∈ moves, a.1 = t) (halone : ∀ u, u ≠ t → m.running u = none) :
    EachStep (fun m a _ => Spares m a) m (trail (move frame) m moves) := by
  induction moves generalizing m with
  | nil => trivial
  | cons a rest ih =>
    obtain ⟨rfl, hrest⟩ := List.forall_mem_cons.mp hmoves
    rw [trail]
    split
    · rename_i m' hmove
      refine ⟨?_, ih hrest ?_⟩
      · show Spares m a
        unfold Spares
        split
        · intro u hu thread hrun
          rw [halone u hu] at hrun
          cases hrun
        · trivial
      · intro u hu
        rw [← halone u hu]
        exact running_of_step hu (Move.action_cases a.1 a.2) hmove
    · trivial

/-- In every interleaving whose steps spare the pages that other threads have opened, no access
faults. -/
theorem copies_find_permission {frame : Nat → Nat} (hframe : Function.Injective frame) {s : State}
    (hs : Reachable frame s) {run : List ((Nat × Move) × Threads)}
    (hrun : EachStep (fun m a m' => ValidThread a.1 ∧ move frame m a = .ok m') (idle s) run)
    (hspares : EachStep (fun m a _ => Spares m a) (idle s) run) :
    Always (fun m => ∀ t, faults frame m t = false) (idle s) run := by
  have hall := EachStep.always (I := Verified frame)
    (fun m a m' hm hstep => verified_move hframe hm hstep.1.1 hstep.2 hstep.1.2)
    (hs.verified hframe) (hrun.and hspares)
  exact hall.mono fun m hm t => Verified.not_faults hm t

/-- Two threads share the page of the first one. -/
def sharedPage : State := afterCalls id (initial fun _ => 0) [(1, .create 4096), (2, .clone 1)]

theorem reachable_sharedPage : Reachable id sharedPage :=
  reachable_afterCalls (.initial _) (by decide)

theorem copies_find_permission_alone :
    Always (fun m => ∀ t, faults id m t = false) (idle sharedPage)
      (trail (move id) (idle sharedPage)
        ((2, .write 10 3 [97, 98, 99]) :: List.replicate 20 (2, .advance))) :=
  copies_find_permission Function.injective_id reachable_sharedPage
    (eachStep_trail_forall (by decide)) (spares_alone (t := 2) (by decide) fun _ _ => rfl)

/-- One thread closes the page between the opening and the copy of the other one. -/
theorem copy_faults : ¬ Always (fun m => ∀ t, faults id m t = false) (idle sharedPage)
    (trail (move id) (idle sharedPage)
      ((1, .read 0 1) :: (2, .read 0 1) ::
        (List.replicate 7 (1, .advance) ++ List.replicate 10 (2, .advance)))) := by
  intro halways
  have hfirst := halways.mono (I := fun m => faults id m 1 = false) fun m hm => hm 1
  revert hfirst
  decide +kernel

end OSChallenges.Storage
