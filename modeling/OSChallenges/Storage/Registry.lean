import OSChallenges.Library.Outcomes
import OSChallenges.Storage.Effects

/-!
# Creation and cloning

`findIndex` may hand out an entry, which touches nothing but the registry; `tls_create` then makes
pages that no table holds yet and `tls_clone` counts one more reference to each page of the original.
-/

namespace OSChallenges.Storage

open Program Words

/-! ### `findIndex` -/

/-- The pages are the same, and so is each entry, if it has not been emptied. -/
structure SameStore (s s' : State) : Prop where
  entry : ∀ i, s'.ttpArray i = s.ttpArray i ∨ s'.ttpArray i = emptyTLS
  heap : s'.heap = s.heap
  heapSize : s'.heapSize = s.heapSize
  memory : s'.memory = s.memory
  prot : s'.prot = s.prot
  mapped : s'.mapped = s.mapped

namespace SameStore

variable {frame : Nat → Nat} {s s' s'' : State}

theorem refl (s : State) : SameStore s s := ⟨fun _ => .inl rfl, rfl, rfl, rfl, rfl, rfl⟩

theorem trans (h : SameStore s s') (h' : SameStore s' s'') : SameStore s s'' where
  entry i := by
    obtain hsame | hempty := h'.entry i
    · rw [hsame]
      exact h.entry i
    · exact .inr hempty
  heap := h'.heap.trans h.heap
  heapSize := h'.heapSize.trans h.heapSize
  memory := h'.memory.trans h.memory
  prot := h'.prot.trans h.prot
  mapped := h'.mapped.trans h.mapped

theorem update (s : State) (j maxIndex : Nat) (firstCall : Bool) :
    SameStore s { s with
      ttpArray := Function.update s.ttpArray j emptyTLS
      maxIndex := maxIndex
      firstCall := firstCall } where
  entry i := by
    show Function.update s.ttpArray j emptyTLS i = _ ∨ Function.update s.ttpArray j emptyTLS i = _
    by_cases hi : i = j
    · subst i
      rw [Function.update_self]
      exact .inr rfl
    · rw [Function.update_of_ne hi]
      exact .inl rfl
  heap := rfl
  heapSize := rfl
  memory := rfl
  prot := rfl
  mapped := rfl

theorem findIndex {tid i : Nat} (h : s.findIndex tid = .ok (i, s')) : SameStore s s' := by
  have hfirst : SameStore s (if s.firstCall then { s.tlsInit with firstCall := false } else s) := by
    split
    · exact update s 0 s.maxIndex false
    · exact refl s
  unfold State.findIndex at h
  simp only at h
  generalize (if s.firstCall then { s.tlsInit with firstCall := false } else s) = s₁ at h hfirst
  split at h
  · cases h
    exact hfirst
  · split at h
    · cases h
    · cases h
      exact hfirst.trans (update s₁ (s₁.maxIndex + 1) (s₁.maxIndex + 1) s₁.firstCall)

theorem tls {i : Nat} {tls : ThreadLocalStorage} (h : SameStore s s')
    (htls : (s'.ttpArray i).tls = some tls) : (s.ttpArray i).tls = some tls := by
  obtain hsame | hempty := h.entry i
  · rwa [hsame] at htls
  · rw [hempty] at htls
    cases htls

theorem mem_pages {i p : Nat} (h : SameStore s s') (hp : p ∈ s'.pages i) : p ∈ s.pages i := by
  cases htls : (s'.ttpArray i).tls with
  | none => simp [State.pages, htls] at hp
  | some tls =>
    rw [State.pages_of_tls htls] at hp
    rwa [State.pages_of_tls (h.tls htls)]

theorem wellformed (hs : SameStore s s') (h : Wellformed frame s) : Wellformed frame s' where
  objects := by rw [hs.heapSize, hs.mapped, h.objects]
  addr p hp := by
    rw [hs.heapSize] at hp
    rw [hs.heap, h.addr p hp]
  pages_lt i p hp := by
    rw [hs.heapSize]
    exact h.pages_lt i p (hs.mem_pages hp)
  length i tls htls := h.length i tls (hs.tls htls)

end SameStore

theorem Wellformed.initial (frame : Nat → Nat) (memory : Nat → UInt8) :
    Wellformed frame (initial memory) where
  objects := rfl
  addr _ hp := absurd hp (Nat.not_lt_zero _)
  pages_lt _ _ hp := by cases hp
  length _ _ htls := by cases htls

/-! ### `tls_create` -/

/-- What the loop of `tls_create` does: `n` new pages, which are closed and cleared. -/
structure Created (frame : Nat → Nat) (s : State) (n : Nat) (pages : List Nat) (s' : State) : Prop where
  pages_eq : pages = List.range' s.heapSize n
  ttpArray : s'.ttpArray = s.ttpArray
  maxIndex : s'.maxIndex = s.maxIndex
  firstCall : s'.firstCall = s.firstCall
  heapSize : s'.heapSize = s.heapSize + n
  mapped : s'.mapped = s.mapped + n
  heap_old : ∀ q, q < s.heapSize → s'.heap q = s.heap q
  heap_new : ∀ k, k < n → s'.heap (s.heapSize + k) = ⟨frame (s.mapped + k) * pageSize, 1⟩
  prot : ∀ f, s.prot f = .none → s'.prot f = .none
  memory_old : ∀ a, (∀ k, k < n → State.frameOf a ≠ frame (s.mapped + k)) →
    s'.memory a = s.memory a
  memory_new : ∀ k, k < n → ∀ o, o < pageSize → s'.memory (frame (s.mapped + k) * pageSize + o) = 0

namespace Created

variable {frame : Nat → Nat} {s s₁ s₂ : State} {n : Nat} {pages : List Nat}

theorem nil (frame : Nat → Nat) (s : State) : Created frame s 0 [] s where
  pages_eq := rfl
  ttpArray := rfl
  maxIndex := rfl
  firstCall := rfl
  heapSize := rfl
  mapped := rfl
  heap_old _ _ := rfl
  heap_new _ hk := absurd hk (Nat.not_lt_zero _)
  prot _ hf := hf
  memory_old _ _ := rfl
  memory_new _ hk := absurd hk (Nat.not_lt_zero _)

/-- The page that one turn makes. -/
def turn (frame : Nat → Nat) (s : State) : State :=
  ((s.mmap frame .none).2.newPage (frame s.mapped * pageSize)).2

theorem frameOf_of_page {f a : Nat} (h : f * pageSize ≤ a ∧ a < f * pageSize + pageSize) :
    State.frameOf a = f := by
  have hoffset := State.frameOf_mul f (a - f * pageSize) (by omega)
  rwa [Nat.add_sub_cancel' h.1] at hoffset

theorem cons (h : Created frame (turn frame s) n pages s₂) :
    Created frame s (n + 1) (s.heapSize :: pages) s₂ where
  pages_eq := by
    rw [h.pages_eq]
    rfl
  ttpArray := h.ttpArray
  maxIndex := h.maxIndex
  firstCall := h.firstCall
  heapSize := by
    rw [h.heapSize]
    show s.heapSize + 1 + n = _
    omega
  mapped := by
    rw [h.mapped]
    show s.mapped + 1 + n = _
    omega
  heap_old q hq := by
    rw [h.heap_old q (Nat.lt_succ_of_lt hq)]
    show Function.update s.heap s.heapSize _ q = _
    rw [Function.update_of_ne (Nat.ne_of_lt hq)]
  heap_new k hk := by
    cases k with
    | zero =>
      rw [Nat.add_zero, h.heap_old s.heapSize (Nat.lt_succ_self _)]
      exact Function.update_self ..
    | succ k =>
      have hnew := h.heap_new k (by omega)
      rw [show s.heapSize + (k + 1) = s.heapSize + 1 + k by omega,
        show s.mapped + (k + 1) = s.mapped + 1 + k by omega]
      exact hnew
  prot f hf := by
    apply h.prot
    show Function.update s.prot (frame s.mapped) .none f = .none
    by_cases hnew : f = frame s.mapped
    · subst f
      rw [Function.update_self]
    · rw [Function.update_of_ne hnew, hf]
  memory_old a ha := by
    rw [h.memory_old a]
    · apply State.zeroPage_of_not
      intro hin
      exact ha 0 (by omega) (frameOf_of_page hin)
    · intro k hk
      have hother := ha (k + 1) (by omega)
      rwa [show s.mapped + (k + 1) = s.mapped + 1 + k by omega] at hother
  memory_new k hk o ho := by
    cases k with
    | zero =>
      rw [Nat.add_zero]
      by_cases hagain : ∃ k, k < n ∧ frame s.mapped = frame (s.mapped + 1 + k)
      · obtain ⟨k, hk, heq⟩ := hagain
        rw [heq]
        exact h.memory_new k hk o ho
      · rw [h.memory_old]
        · exact State.zeroPage_of (by omega)
        · intro k hk heq
          rw [State.frameOf_mul _ _ ho] at heq
          exact hagain ⟨k, hk, heq⟩
    | succ k =>
      rw [show s.mapped + (k + 1) = s.mapped + 1 + k by omega]
      exact h.memory_new k (by omega) o ho

end Created

theorem created (frame : Nat → Nat) (s : State) (n : Nat) :
    Created frame s n (createPages frame s n).1 (createPages frame s n).2 := by
  induction n generalizing s with
  | zero => exact Created.nil frame s
  | succ n ih => exact (ih (Created.turn frame s)).cons

theorem roundUp_bounds (size : Nat) :
    -2 ^ 31 ≤ roundUp (toInt32 size) pageSize ∧ roundUp (toInt32 size) pageSize < 2 ^ 31 := by
  have hsize := le_toInt32 size
  have hfloat := natAbs_toFloat_le (toInt32 size)
  unfold roundUp pageSize
  simp only
  generalize toFloat (toInt32 size) = sz at *
  have hquot : (sz.tdiv (4096 : Nat)).natAbs * 4096 ≤ sz.natAbs := by
    rw [Int.natAbs_tdiv]
    exact Nat.div_mul_le_self ..
  split
  · omega
  · omega

/-- A storage has at most the pages of half the addresses of an `unsigned`. -/
theorem roundUp_le (size : Nat) : roundUp (toInt32 size) pageSize ≤ 2 ^ 19 := by
  have hfloat := toFloat_le (le_toInt32 size).2
  unfold roundUp pageSize
  simp only
  generalize toFloat (toInt32 size) = sz at *
  have hpage : (0 : Int) < (4096 : Nat) := by omega
  have hmod := Int.mul_tdiv_add_tmod sz (4096 : Nat)
  have hlow := Int.lt_tmod_of_pos sz hpage
  have hhigh := Int.tmod_lt_of_pos sz hpage
  split
  · omega
  · omega

namespace State

/-- The registry after a `tls_create` that succeeds. -/
def newStorage (frame : Nat → Nat) (s : State) (index self size : Nat) (numOfPages : Int) :
    State :=
  let made := createPages frame s numOfPages.toNat
  { made.2 with
    ttpArray := Function.update made.2.ttpArray index
      ⟨self, some ⟨size, toUInt32 numOfPages, false, made.1⟩⟩ }

/-- The registry after a `tls_clone` that succeeds. -/
def cloneStorage (s : State) (index self : Nat) (tls : ThreadLocalStorage) : State :=
  let pages := tls.pages.take (toInt32 tls.pageNum).toNat
  { s with
    heap := addRefs s.heap pages
    ttpArray := Function.update s.ttpArray index
      ⟨self, some ⟨tls.size, tls.pageNum, false, pages⟩⟩ }

end State

section

variable {frame : Nat → Nat} {s s₁ s₂ : State} {self size tid index i j : Nat} {r : Int × State}

theorem tlsCreate_of_findIndex (h : s.findIndex self = .ok (index, s₁)) :
    tlsCreate frame s self size =
      .ok (if size = 0 ∨ (s₁.ttpArray index).tls.isSome then (-1, s₁)
        else (0, s₁.newStorage frame index self size (roundUp (toInt32 size) pageSize))) := by
  rw [tlsCreate, h]
  generalize roundUp (toInt32 size) pageSize = numOfPages
  show (if size = 0 then _ else if _ then _ else _ : Except Fault (Int × State)) = _
  by_cases hsize : size = 0
  · rw [if_pos hsize, if_pos (.inl hsize)]
    rfl
  · by_cases howned : (s₁.ttpArray index).tls.isSome
    · rw [if_neg hsize, if_pos howned, if_pos (.inr howned)]
      rfl
    · rw [if_neg hsize, if_neg howned, if_neg (not_or.mpr ⟨hsize, howned⟩), State.newStorage]
      generalize createPages frame s₁ numOfPages.toNat = made
      obtain ⟨pages, s₂⟩ := made
      rfl

theorem exists_tlsCreate (frame : Nat → Nat) (size : Nat) (h : s.findIndex self = .ok (index, s₁)) :
    ∃ n, n = roundUp (toInt32 size) pageSize ∧ -2 ^ 31 ≤ n ∧ n < 2 ^ 31 ∧
      tlsCreate frame s self size =
        .ok (if size = 0 ∨ (s₁.ttpArray index).tls.isSome then (-1, s₁)
          else (0, s₁.newStorage frame index self size n)) :=
  ⟨_, rfl, (roundUp_bounds size).1, (roundUp_bounds size).2, tlsCreate_of_findIndex h⟩

theorem findIndex_of_tlsCreate (h : tlsCreate frame s self size = .ok r) :
    ∃ index s₁, s.findIndex self = .ok (index, s₁) := by
  unfold tlsCreate at h
  cases hindex : s.findIndex self with
  | error e =>
    rw [hindex] at h
    cases h
  | ok found => exact ⟨found.1, found.2, rfl⟩

theorem tlsCreate_cases (h : tlsCreate frame s self size = .ok r) :
    ∃ index s₁, s.findIndex self = .ok (index, s₁) ∧
      (r = (-1, s₁) ∧ (size = 0 ∨ (s₁.ttpArray index).tls.isSome) ∨
        ∃ n, -2 ^ 31 ≤ n ∧ n < 2 ^ 31 ∧ (s₁.ttpArray index).tls = none ∧
          r = (0, s₁.newStorage frame index self size n)) := by
  obtain ⟨index, s₁, hindex⟩ := findIndex_of_tlsCreate h
  refine ⟨index, s₁, hindex, ?_⟩
  rw [tlsCreate_of_findIndex hindex] at h
  have hr := Except.ok.inj h
  by_cases hfail : size = 0 ∨ (s₁.ttpArray index).tls.isSome
  · rw [if_pos hfail] at hr
    exact .inl ⟨hr.symm, hfail⟩
  · rw [if_neg hfail] at hr
    obtain ⟨hlow, hhigh⟩ := roundUp_bounds size
    refine .inr ⟨_, hlow, hhigh, ?_, hr.symm⟩
    simpa using (not_or.mp hfail).2

theorem tlsClone_cases (h : tlsClone s self tid = .ok r) :
    ∃ i s₁ j s₂, s.findIndex self = .ok (i, s₁) ∧ s₁.findIndex tid = .ok (j, s₂) ∧
      (r = (-1, s₂) ∧ ((s₂.ttpArray i).tls.isSome ∨ (s₂.ttpArray j).tls = none) ∨
        ∃ tls, (s₂.ttpArray i).tls = none ∧ (s₂.ttpArray j).tls = some tls ∧
          r = (0, s₂.cloneStorage i self tls)) := by
  unfold tlsClone at h
  cases hi : s.findIndex self with
  | error e =>
    rw [hi] at h
    cases h
  | ok cloner =>
    obtain ⟨i, s₁⟩ := cloner
    rw [hi] at h
    simp only [bind, Except.bind] at h
    cases hj : s₁.findIndex tid with
    | error e =>
      rw [hj] at h
      cases h
    | ok clonee =>
      obtain ⟨j, s₂⟩ := clonee
      rw [hj] at h
      simp only at h
      refine ⟨i, s₁, j, s₂, rfl, hj, ?_⟩
      by_cases howned : (s₂.ttpArray i).tls.isSome
      · rw [if_pos howned] at h
        cases h
        exact .inl ⟨rfl, .inl howned⟩
      · rw [if_neg howned] at h
        split at h
        · rename_i hnone
          cases h
          exact .inl ⟨rfl, .inr hnone⟩
        · rename_i tls htls
          split at h
          · cases h
          · cases h
            exact .inr ⟨tls, by simpa using howned, htls, rfl⟩

theorem tlsClone_of_findIndex (hi : s.findIndex self = .ok (i, s₁))
    (hj : s₁.findIndex tid = .ok (j, s₂))
    (hfree : ∀ tls, (s₂.ttpArray j).tls = some tls → tls.mutex = false) :
    tlsClone s self tid = .ok (match (s₂.ttpArray i).tls, (s₂.ttpArray j).tls with
      | none, some tls => (0, s₂.cloneStorage i self tls)
      | _, _ => (-1, s₂)) := by
  unfold tlsClone
  rw [hi]
  simp only [bind, Except.bind]
  rw [hj]
  simp only
  cases howned : (s₂.ttpArray i).tls with
  | some own => rfl
  | none =>
    rw [if_neg (by simp)]
    cases htls : (s₂.ttpArray j).tls with
    | none => rfl
    | some tls =>
      simp only
      rw [if_neg (by rw [hfree tls htls]; decide)]
      rfl

theorem findIndex_error {e : Fault} (h : s.findIndex tid = .error e) : e = .overrun := by
  unfold State.findIndex at h
  simp only at h
  generalize (if s.firstCall then { s.tlsInit with firstCall := false } else s) = s₁ at h
  split at h
  · cases h
  · split at h
    · cases h
      rfl
    · cases h

theorem error_of_pageAt {i j : Nat} {e : Fault} (h : s.pageAt i j = .error e) : e = .outOfBounds := by
  unfold State.pageAt at h
  split at h
  · cases h
    rfl
  · split at h
    · cases h
      rfl
    · cases h

theorem call_of_findIndex_error {c : Call} {e : Fault} (h : s.findIndex self = .error e) :
    call frame s self c = .error .overrun := by
  have he := findIndex_error h
  subst he
  cases c with
  | create size =>
    rw [call, tlsCreate, h]
    rfl
  | clone tid =>
    rw [call, tlsClone, h]
    rfl
  | read offset length =>
    show Prog.run (exec frame) (.op (.findIndex self) _) s = _
    rw [Prog.run, show exec frame (.findIndex self) s = _ from h]
  | write offset length buffer =>
    show Prog.run (exec frame) (.op (.findIndex self) _) s = _
    rw [Prog.run, show exec frame (.findIndex self) s = _ from h]

theorem clone_of_findIndex_error {e : Fault} (hi : s.findIndex self = .ok (i, s₁))
    (hj : s₁.findIndex tid = .error e) : call frame s self (.clone tid) = .error .overrun := by
  have he := findIndex_error hj
  subst he
  rw [call, tlsClone, hi]
  show Except.map _ (s₁.findIndex tid >>= _) = _
  rw [hj]
  rfl

/-- Single precision holds the sizes up to `2 ^ 24`. -/
theorem roundUp_of_le (h : size ≤ 2 ^ 24) :
    roundUp (toInt32 size) pageSize = ((size + (pageSize - 1)) / pageSize : Nat) := by
  rw [toInt32_of_lt (by omega)]
  unfold roundUp
  rw [toFloat_of_le h]
  unfold pageSize
  simp only
  rw [← Int.ofNat_tdiv]
  split
  · omega
  · omega

/-! ### What both do to the pages -/

theorem State.ttpArray_newStorage (frame : Nat → Nat) (s : State) (index self size : Nat) (n : Int) :
    (s.newStorage frame index self size n).ttpArray = Function.update s.ttpArray index
      ⟨self, some ⟨size, toUInt32 n, false, List.range' s.heapSize n.toNat⟩⟩ := by
  have hmade := created frame s n.toNat
  rw [← hmade.pages_eq, ← hmade.ttpArray]
  rfl

theorem State.tls_newStorage {n : Int} : (s.newStorage frame index self size n).ttpArray index =
    ⟨self, some ⟨size, toUInt32 n, false, List.range' s.heapSize n.toNat⟩⟩ := by
  rw [State.ttpArray_newStorage, Function.update_self]

theorem State.ttpArray_newStorage_of_ne {n : Int} (hi : i ≠ index) :
    (s.newStorage frame index self size n).ttpArray i = s.ttpArray i := by
  rw [State.ttpArray_newStorage, Function.update_of_ne hi]

theorem State.pages_newStorage {n : Int} (i : Nat) :
    (s.newStorage frame index self size n).pages i =
      if i = index then List.range' s.heapSize n.toNat else s.pages i := by
  by_cases hi : i = index
  · subst i
    rw [if_pos rfl]
    exact State.pages_of_tls (congrArg TidTlsPair.tls State.tls_newStorage)
  · rw [if_neg hi, State.pages, State.ttpArray_newStorage_of_ne hi, State.pages]

theorem Wellformed.newStorage (h : Wellformed frame s) {n : Int} (hn : -2 ^ 31 ≤ n)
    (hn' : n < 2 ^ 31) : Wellformed frame (s.newStorage frame index self size n) := by
  have hmade := created frame s n.toNat
  have hobjects := h.objects
  have hsize : (s.newStorage frame index self size n).heapSize = s.heapSize + n.toNat :=
    hmade.heapSize
  refine ⟨?_, ?_, ?_, ?_⟩
  · rw [hsize, hobjects]
    exact hmade.mapped.symm
  · intro p hp
    rw [hsize] at hp
    by_cases hold : p < s.heapSize
    · rw [← h.addr p hold]
      exact congrArg Page.addr (hmade.heap_old p hold)
    · obtain ⟨k, hk⟩ : ∃ k, p = s.heapSize + k := ⟨p - s.heapSize, by omega⟩
      subst p
      rw [hobjects, ← hobjects]
      have hnew := congrArg Page.addr (hmade.heap_new k (by omega))
      rw [← hobjects] at hnew
      exact hnew
  · intro i p hp
    rw [hsize]
    rw [State.pages_newStorage] at hp
    split at hp
    · have hrange := List.mem_range'_1.mp hp
      omega
    · have hlt := h.pages_lt i p hp
      omega
  · intro i tls htls
    by_cases hi : i = index
    · subst i
      rw [State.tls_newStorage] at htls
      cases htls
      rw [List.length_range', toInt32_toUInt32 hn hn']
    · rw [State.ttpArray_newStorage_of_ne hi] at htls
      exact h.length i tls htls

theorem addr_addRefs (heap : Nat → Page) (l : List Nat) (q : Nat) :
    (addRefs heap l q).addr = (heap q).addr := by
  induction l generalizing heap with
  | nil => rfl
  | cons p rest ih =>
    rw [addRefs, ih]
    by_cases hq : q = p
    · subst q
      rw [Function.update_self]
    · rw [Function.update_of_ne hq]

theorem refCount_addRefs (heap : Nat → Page) (l : List Nat) (q : Nat) :
    (addRefs heap l q).refCount = (heap q).refCount + l.count q := by
  induction l generalizing heap with
  | nil => simp [addRefs]
  | cons p rest ih =>
    rw [addRefs, ih]
    by_cases hq : q = p
    · subst q
      rw [Function.update_self, List.count_cons_self]
      show (heap p).refCount + 1 + _ = _
      omega
    · rw [Function.update_of_ne hq, List.count_cons_of_ne (Ne.symm hq)]

theorem Wellformed.take_pages {tls : ThreadLocalStorage} (h : Wellformed frame s)
    (htls : (s.ttpArray j).tls = some tls) :
    tls.pages.take (toInt32 tls.pageNum).toNat = tls.pages := by
  rw [← h.length j tls htls, List.take_length]

theorem State.ttpArray_cloneStorage {tls : ThreadLocalStorage} (h : Wellformed frame s)
    (htls : (s.ttpArray j).tls = some tls) (index self : Nat) :
    (s.cloneStorage index self tls).ttpArray = Function.update s.ttpArray index
      ⟨self, some ⟨tls.size, tls.pageNum, false, tls.pages⟩⟩ := by
  unfold State.cloneStorage
  rw [h.take_pages htls]

theorem State.heap_cloneStorage {tls : ThreadLocalStorage} (h : Wellformed frame s)
    (htls : (s.ttpArray j).tls = some tls) :
    (s.cloneStorage index self tls).heap = addRefs s.heap tls.pages := by
  unfold State.cloneStorage
  rw [h.take_pages htls]

theorem State.ttpArray_cloneStorage_of_ne {tls : ThreadLocalStorage} (hi : i ≠ index) :
    (s.cloneStorage index self tls).ttpArray i = s.ttpArray i :=
  Function.update_of_ne hi ..

theorem State.pages_cloneStorage {tls : ThreadLocalStorage} (h : Wellformed frame s)
    (htls : (s.ttpArray j).tls = some tls) (i : Nat) :
    (s.cloneStorage index self tls).pages i = if i = index then tls.pages else s.pages i := by
  by_cases hi : i = index
  · subst i
    rw [if_pos rfl]
    rw [State.pages, State.ttpArray_cloneStorage h htls, Function.update_self]
    rfl
  · rw [if_neg hi, State.pages, State.ttpArray_cloneStorage_of_ne hi, State.pages]

theorem Wellformed.cloneStorage {tls : ThreadLocalStorage} (h : Wellformed frame s)
    (htls : (s.ttpArray j).tls = some tls) : Wellformed frame (s.cloneStorage index self tls) where
  objects := h.objects
  addr p hp := (addr_addRefs ..).trans (h.addr p hp)
  pages_lt i p hp := by
    show p < s.heapSize
    rw [State.pages_cloneStorage h htls] at hp
    split at hp
    · rw [← State.pages_of_tls htls] at hp
      exact h.pages_lt j p hp
    · exact h.pages_lt i p hp
  length i tls' htls' := by
    by_cases hi : i = index
    · subst i
      rw [State.ttpArray_cloneStorage h htls, Function.update_self] at htls'
      cases htls'
      exact h.length j tls htls
    · rw [State.ttpArray_cloneStorage_of_ne hi] at htls'
      exact h.length i tls' htls'

end

end OSChallenges.Storage
