import OSChallenges.Storage.Pages

/-!
# What reads and writes do

The loops of `boundaryRead` and `boundaryWrite` go over the bytes of a storage with a position in some
page; here they are functions of the state (`getPages`, `putBytes`) that go over page numbers and
offsets. A call of `tls_read` or `tls_write` by the owner of a storage then has one outcome, which is
stated with them.
-/

namespace OSChallenges.Storage

open Program Words

namespace State

/-- The address of a page of a storage. -/
def addrAt (s : State) (index page : Nat) : Nat :=
  match (s.pages index)[page]? with
  | none => 0
  | some p => (s.heap p).addr

/-- The byte at an offset of a storage. -/
def byteAt (s : State) (index k : Nat) : UInt8 :=
  s.memory (s.addrAt index (k / pageSize) + k % pageSize)

/-- The bytes of a storage from an offset on. -/
def bytesFrom (s : State) (index k n : Nat) : List UInt8 :=
  (List.range n).map fun i => s.byteAt index (k + i)

def setMutex (s : State) (index : Nat) (mutex : Bool) : State :=
  { s with
    ttpArray := Function.update s.ttpArray index
      { s.ttpArray index with
        tls := (s.ttpArray index).tls.map fun tls => { tls with mutex := mutex } } }

/-- `mprotect` of a page of a storage. -/
def protect (s : State) (index page : Nat) (prot : Prot) : State :=
  s.mprotect (s.addrAt index page) pageSize prot

def putByte (s : State) (index page o : Nat) (byte : UInt8) : State :=
  s.writeMemory (s.addrAt index page + o) [byte]

/-- The pages of the bytes to read are opened and closed one by one; `page` is open. -/
def getPages (s : State) (index : Nat) : Nat → Nat → Nat → State
  | 0, page, _ => s.protect index page .none
  | n + 1, page, o =>
    if o < pageSize then s.getPages index n page (o + 1)
    else ((s.protect index page .none).protect index (page + 1) .read).getPages index n (page + 1) 1

/-- The bytes are written from offset `o` of `page` on, which is open. -/
def putBytes (frame : Nat → Nat) (s : State) (index : Nat) : List UInt8 → Nat → Nat → State
  | [], page, _ => s.protect index page .none
  | byte :: rest, page, o =>
    if o < pageSize then (s.putByte index page o byte).putBytes frame index rest page (o + 1)
    else (((s.protect index page .none).openWrite frame index (page + 1)).putByte index (page + 1) 0
      byte).putBytes frame index rest (page + 1) 1

theorem byteAt_page {s : State} {index page o : Nat} (ho : o < pageSize) :
    s.byteAt index (page * pageSize + o) = s.memory (s.addrAt index page + o) := by
  have hdiv : (page * pageSize + o) / pageSize = page := frameOf_mul page o ho
  have hmod : (page * pageSize + o) % pageSize = o := by
    unfold pageSize at *
    omega
  rw [byteAt, hdiv, hmod]

theorem bytesFrom_succ (s : State) (index k n : Nat) :
    s.bytesFrom index k (n + 1) = s.byteAt index k :: s.bytesFrom index (k + 1) n := by
  unfold bytesFrom
  rw [List.range_succ_eq_map, List.map_cons, List.map_map]
  congr 1
  apply List.map_congr_left
  intro i _
  show s.byteAt index (k + (i + 1)) = s.byteAt index (k + 1 + i)
  rw [Nat.add_assoc, Nat.add_comm 1 i]

theorem bytesFrom_page {s : State} {index page o n : Nat} (hn : o + n ≤ pageSize) :
    s.bytesFrom index (page * pageSize + o) n = s.readMemory (s.addrAt index page + o) n := by
  apply List.map_congr_left
  intro i hi
  have hlt := List.mem_range.mp hi
  rw [Nat.add_assoc, byteAt_page (by omega), Nat.add_assoc]

theorem getPages_page {s : State} {index page o n : Nat} (hn : o + n ≤ pageSize) :
    s.getPages index n page o = s.protect index page .none := by
  induction n generalizing o with
  | zero => rfl
  | succ n ih =>
    rw [getPages, if_pos (by omega)]
    exact ih (by omega)

theorem writeMemory_nil (s : State) (addr : Nat) : s.writeMemory addr [] = s := by
  unfold writeMemory
  congr 1
  funext a
  rw [List.length_nil, if_neg (by omega)]

theorem writeMemory_cons (s : State) (addr : Nat) (byte : UInt8) (rest : List UInt8) :
    s.writeMemory addr (byte :: rest) = (s.writeMemory addr [byte]).writeMemory (addr + 1) rest := by
  unfold writeMemory
  congr 1
  funext a
  simp only [List.length_cons, List.length_nil]
  by_cases hfirst : a = addr
  · subst a
    rw [if_pos (by omega), if_neg (by omega), if_pos (by omega), Nat.sub_self]
    rfl
  · by_cases hrest : addr + 1 ≤ a ∧ a < addr + 1 + rest.length
    · obtain ⟨k, hk⟩ : ∃ k, a = addr + 1 + k := ⟨a - (addr + 1), by omega⟩
      rw [if_pos (by omega), if_pos hrest, hk, Nat.add_sub_cancel_left, Nat.add_assoc,
        Nat.add_sub_cancel_left, Nat.add_comm 1 k, List.getD_cons_succ]
    · rw [if_neg (by omega), if_neg hrest, if_neg (by omega)]

theorem putBytes_page {frame : Nat → Nat} {s : State} {index page o : Nat} {bytes : List UInt8}
    (hn : o + bytes.length ≤ pageSize) :
    s.putBytes frame index bytes page o =
      (s.writeMemory (s.addrAt index page + o) bytes).protect index page .none := by
  induction bytes generalizing s o with
  | nil =>
    rw [putBytes, writeMemory_nil]
  | cons byte rest ih =>
    rw [List.length_cons] at hn
    rw [putBytes, if_pos (by omega), ih (by omega), writeMemory_cons]
    rfl

theorem addrAt_of_page {s : State} {index page p : Nat} (h : (s.pages index)[page]? = some p) :
    s.addrAt index page = (s.heap p).addr := by
  rw [addrAt, h]

/-! ### The mutex -/

section

variable {s : State} {index i : Nat} {mutex : Bool} {tls : ThreadLocalStorage}

theorem setMutex_of_tls (htls : (s.ttpArray index).tls = some tls) :
    s.setMutex index mutex = s.setTLS index { tls with mutex := mutex } := by
  rw [setMutex, htls]
  rfl

theorem ttpArray_setMutex (i : Nat) :
    (s.setMutex index mutex).ttpArray i = ⟨(s.ttpArray i).tid, (s.ttpArray i).tls.map fun tls =>
      if i = index then { tls with mutex := mutex } else tls⟩ := by
  show Function.update s.ttpArray index _ i = _
  by_cases hi : i = index
  · subst i
    rw [Function.update_self]
    simp
  · rw [Function.update_of_ne hi]
    simp [hi]

theorem tls_setMutex (htls : (s.ttpArray index).tls = some tls) :
    ((s.setMutex index mutex).ttpArray index).tls = some { tls with mutex := mutex } := by
  rw [ttpArray_setMutex, htls]
  simp

@[simp] theorem pages_setMutex : (s.setMutex index mutex).pages i = s.pages i := by
  unfold pages
  rw [ttpArray_setMutex, Option.map_map]
  congr 2
  funext tls
  show (if i = index then _ else tls).pages = tls.pages
  split
  · rfl
  · rfl

@[simp] theorem addrAt_setMutex (page : Nat) :
    (s.setMutex index mutex).addrAt i page = s.addrAt i page := by
  unfold addrAt
  rw [pages_setMutex]
  rfl

@[simp] theorem byteAt_setMutex (k : Nat) : (s.setMutex index mutex).byteAt i k = s.byteAt i k := by
  unfold byteAt
  rw [addrAt_setMutex]
  rfl

@[simp] theorem bytesFrom_setMutex (k n : Nat) :
    (s.setMutex index mutex).bytesFrom i k n = s.bytesFrom i k n := by
  unfold bytesFrom
  simp only [byteAt_setMutex]

end

/-! ### Opening for writing -/

section

variable {frame : Nat → Nat} {s : State} {index page p : Nat} {tls : ThreadLocalStorage}

theorem openWrite_shared (htls : (s.ttpArray index).tls = some tls)
    (hp : (s.pages index)[page]? = some p) (hcount : 1 < (s.heap p).refCount) :
    s.openWrite frame index page = s.copyOnWrite frame index page p tls := by
  rw [pages_of_tls htls] at hp
  simp only [openWrite, htls, hp, if_pos hcount]

theorem openWrite_own (hp : (s.pages index)[page]? = some p) (hcount : ¬ 1 < (s.heap p).refCount) :
    s.openWrite frame index page = s.mprotect (s.heap p).addr pageSize .write := by
  obtain ⟨tls, htls, hpage⟩ := tls_of_page hp
  simp only [openWrite, htls, hpage, if_neg hcount]

theorem openWrite_cases (frame : Nat → Nat) (s : State) (index page : Nat) :
    ((s.pages index)[page]? = none ∧ s.openWrite frame index page = s) ∨
      ∃ tls p, (s.ttpArray index).tls = some tls ∧ (s.pages index)[page]? = some p ∧
        ((1 < (s.heap p).refCount ∧
            s.openWrite frame index page = s.copyOnWrite frame index page p tls) ∨
          (¬ 1 < (s.heap p).refCount ∧
            s.openWrite frame index page = s.mprotect (s.heap p).addr pageSize .write)) := by
  cases hp : (s.pages index)[page]? with
  | none =>
    refine .inl ⟨rfl, ?_⟩
    unfold openWrite
    split
    · rfl
    · rename_i htls
      rw [pages_of_tls htls] at hp
      rw [hp]
  | some p =>
    obtain ⟨tls, htls, -⟩ := tls_of_page hp
    by_cases hcount : 1 < (s.heap p).refCount
    · exact .inr ⟨tls, p, htls, rfl, .inl ⟨hcount, openWrite_shared htls hp hcount⟩⟩
    · exact .inr ⟨tls, p, htls, rfl, .inr ⟨hcount, openWrite_own hp hcount⟩⟩

theorem tls_copyOnWrite :
    ((s.copyOnWrite frame index page p tls).ttpArray index).tls =
      some { tls with pages := tls.pages.set page s.heapSize } := by
  show (Function.update s.ttpArray index _ index).tls = _
  rw [Function.update_self]

theorem pages_copyOnWrite (i : Nat) :
    (s.copyOnWrite frame index page p tls).pages i =
      if i = index then tls.pages.set page s.heapSize else s.pages i := by
  by_cases hi : i = index
  · subst i
    rw [if_pos rfl]
    exact pages_of_tls tls_copyOnWrite
  · rw [if_neg hi]
    show ((Function.update s.ttpArray index _ i).tls.map _).getD [] = _
    rw [Function.update_of_ne hi]
    rfl

theorem heap_copyOnWrite_fresh :
    (s.copyOnWrite frame index page p tls).heap s.heapSize = ⟨frame s.mapped * pageSize, 1⟩ :=
  Function.update_self ..

theorem addrAt_copyOnWrite (frame : Nat → Nat) (s : State) (index : Nat)
    (hpage : tls.pages[page]? = some p) :
    (s.copyOnWrite frame index page p tls).addrAt index page = frame s.mapped * pageSize := by
  have hlt := (List.getElem?_eq_some_iff.mp hpage).1
  have hfresh : ((s.copyOnWrite frame index page p tls).pages index)[page]? = some s.heapSize := by
    rw [pages_copyOnWrite, if_pos rfl, List.getElem?_set_self hlt]
  rw [addrAt_of_page hfresh, heap_copyOnWrite_fresh]

theorem addr_copyOnWrite {q : Nat} (hq : q ≠ s.heapSize) :
    ((s.copyOnWrite frame index page p tls).heap q).addr = (s.heap q).addr := by
  show (Function.update (Function.update s.heap p _) s.heapSize _ q).addr = _
  rw [Function.update_of_ne hq]
  by_cases hqp : q = p
  · subst q
    rw [Function.update_self]
  · rw [Function.update_of_ne hqp]

end

end State

/-! ### The page tables keep their form -/

/-- All of a storage but which pages it holds. -/
def ThreadLocalStorage.shape (tls : ThreadLocalStorage) : Nat × Nat × Bool × Nat :=
  (tls.size, tls.pageNum, tls.mutex, tls.pages.length)

/-- The registry is the same up to the pages that the storages hold. -/
structure SameShape (s s' : State) : Prop where
  tid : ∀ i, (s'.ttpArray i).tid = (s.ttpArray i).tid
  shape : ∀ i, (s'.ttpArray i).tls.map ThreadLocalStorage.shape =
    (s.ttpArray i).tls.map ThreadLocalStorage.shape
  maxIndex : s'.maxIndex = s.maxIndex
  firstCall : s'.firstCall = s.firstCall

namespace SameShape

variable {frame : Nat → Nat} {s s' s'' : State} {index page p : Nat}

theorem refl (s : State) : SameShape s s := ⟨fun _ => rfl, fun _ => rfl, rfl, rfl⟩

theorem trans (h : SameShape s s') (h' : SameShape s' s'') : SameShape s s'' where
  tid i := (h'.tid i).trans (h.tid i)
  shape i := (h'.shape i).trans (h.shape i)
  maxIndex := h'.maxIndex.trans h.maxIndex
  firstCall := h'.firstCall.trans h.firstCall

theorem tls {tls : ThreadLocalStorage} (h : SameShape s s')
    (htls : (s.ttpArray index).tls = some tls) :
    ∃ tls', (s'.ttpArray index).tls = some tls' ∧ tls'.shape = tls.shape := by
  have hshape := h.shape index
  rw [htls] at hshape
  exact Option.map_eq_some_iff.mp hshape

theorem symm (h : SameShape s s') : SameShape s' s where
  tid i := (h.tid i).symm
  shape i := (h.shape i).symm
  maxIndex := h.maxIndex.symm
  firstCall := h.firstCall.symm

theorem length_pages (h : SameShape s s') (i : Nat) :
    (s'.pages i).length = (s.pages i).length := by
  cases htls : (s.ttpArray i).tls with
  | none =>
    have hshape := h.shape i
    rw [htls] at hshape
    rw [State.pages, State.pages, htls, Option.map_eq_none_iff.mp hshape]
  | some tls =>
    obtain ⟨tls', htls', hshape⟩ := h.tls htls
    rw [State.pages_of_tls htls, State.pages_of_tls htls']
    exact congrArg (fun shape => shape.2.2.2) hshape

theorem setProt (s : State) (f : Nat) (prot : Prot) : SameShape s (s.setProt f prot) :=
  ⟨fun _ => rfl, fun _ => rfl, rfl, rfl⟩

theorem mprotect (s : State) (addr len : Nat) (prot : Prot) :
    SameShape s (s.mprotect addr len prot) := by
  unfold State.mprotect
  split
  · exact ⟨fun _ => rfl, fun _ => rfl, rfl, rfl⟩
  · exact refl s

theorem putByte (s : State) (index page o : Nat) (byte : UInt8) :
    SameShape s (s.putByte index page o byte) :=
  ⟨fun _ => rfl, fun _ => rfl, rfl, rfl⟩

theorem copyOnWrite {tls : ThreadLocalStorage} (htls : (s.ttpArray index).tls = some tls) :
    SameShape s (s.copyOnWrite frame index page p tls) := by
  refine ⟨fun i => ?_, fun i => ?_, rfl, rfl⟩
  · show (Function.update s.ttpArray index _ i).tid = _
    by_cases hi : i = index
    · subst i
      rw [Function.update_self]
    · rw [Function.update_of_ne hi]
  · show (Function.update s.ttpArray index _ i).tls.map _ = _
    by_cases hi : i = index
    · subst i
      rw [Function.update_self, htls]
      simp [ThreadLocalStorage.shape]
    · rw [Function.update_of_ne hi]

theorem openWrite (frame : Nat → Nat) (s : State) (index page : Nat) :
    SameShape s (s.openWrite frame index page) := by
  obtain ⟨-, hsame⟩ | ⟨tls, p, htls, hp, ⟨hcount, hshared⟩ | ⟨hcount, hown⟩⟩ :=
    State.openWrite_cases frame s index page
  · rw [hsame]
    exact refl s
  · rw [hshared]
    exact copyOnWrite htls
  · rw [hown]
    exact mprotect s _ _ _

theorem getPages (s : State) (index n page o : Nat) : SameShape s (s.getPages index n page o) := by
  induction n generalizing page o s with
  | zero => exact mprotect s _ _ _
  | succ n ih =>
    rw [State.getPages]
    split
    · exact ih ..
    · exact (mprotect s _ _ _).trans ((mprotect ..).trans (ih ..))

theorem putBytes (frame : Nat → Nat) (s : State) (index : Nat) (bytes : List UInt8)
    (page o : Nat) : SameShape s (s.putBytes frame index bytes page o) := by
  induction bytes generalizing page o s with
  | nil => exact mprotect s _ _ _
  | cons byte rest ih =>
    rw [State.putBytes]
    split
    · exact (putByte s index page o byte).trans (ih ..)
    · exact (mprotect s _ _ _).trans ((openWrite ..).trans ((putByte ..).trans (ih ..)))

theorem unlock {tls : ThreadLocalStorage} (htls : (s.ttpArray index).tls = some tls)
    (hfree : tls.mutex = false) (h : SameShape (s.setMutex index true) s') :
    SameShape s (s'.setMutex index false) where
  tid i := by
    rw [State.ttpArray_setMutex]
    show (s'.ttpArray i).tid = _
    rw [h.tid i, State.ttpArray_setMutex]
  shape i := by
    have hshape := h.shape i
    rw [State.ttpArray_setMutex] at hshape ⊢
    by_cases hi : i = index
    · subst i
      obtain ⟨tls', htls', hsame⟩ := h.tls (State.tls_setMutex htls)
      unfold ThreadLocalStorage.shape at hsame
      simp only [Prod.mk.injEq] at hsame
      simp [htls, htls', ThreadLocalStorage.shape, hsame, hfree]
    · simpa [hi] using hshape
  maxIndex := h.maxIndex
  firstCall := h.firstCall

end SameShape

namespace Wellformed

variable {frame : Nat → Nat} {s s' : State} {index page p : Nat}

/-- The state of each page, its object, its protection and its memory, apart, the tables keep their
form. -/
theorem of_shape (h : Wellformed frame s) (hshape : SameShape s s')
    (hobjects : s'.heapSize = s'.mapped)
    (haddr : ∀ p, p < s'.heapSize → (s'.heap p).addr = frame p * pageSize)
    (hpages : ∀ i p, p ∈ s'.pages i → p < s'.heapSize) : Wellformed frame s' where
  objects := hobjects
  addr := haddr
  pages_lt := hpages
  length i tls' htls' := by
    obtain ⟨tls, htls, hsame⟩ := hshape.symm.tls htls'
    have hlength := h.length i tls htls
    unfold ThreadLocalStorage.shape at hsame
    simp only [Prod.mk.injEq] at hsame
    rw [← hsame.2.2.2, hlength, hsame.2.1]

theorem setProt (h : Wellformed frame s) (f : Nat) (prot : Prot) :
    Wellformed frame (s.setProt f prot) :=
  ⟨h.objects, h.addr, h.pages_lt, h.length⟩

theorem mprotect (h : Wellformed frame s) (addr len : Nat) (prot : Prot) :
    Wellformed frame (s.mprotect addr len prot) := by
  unfold State.mprotect
  split
  · exact ⟨h.objects, h.addr, h.pages_lt, h.length⟩
  · exact h

theorem writeMemory (h : Wellformed frame s) (addr : Nat) (bytes : List UInt8) :
    Wellformed frame (s.writeMemory addr bytes) :=
  ⟨h.objects, h.addr, h.pages_lt, h.length⟩

theorem copyOnWrite {tls : ThreadLocalStorage} (h : Wellformed frame s)
    (htls : (s.ttpArray index).tls = some tls) :
    Wellformed frame (s.copyOnWrite frame index page p tls) := by
  apply h.of_shape (SameShape.copyOnWrite htls)
  · show s.heapSize + 1 = s.mapped + 1
    rw [h.objects]
  · intro q hq
    by_cases hfresh : q = s.heapSize
    · subst q
      rw [State.heap_copyOnWrite_fresh, h.objects]
    · rw [State.addr_copyOnWrite hfresh]
      apply h.addr
      have hlt : q < s.heapSize + 1 := hq
      omega
  · intro i q hq
    show q < s.heapSize + 1
    rw [State.pages_copyOnWrite] at hq
    split at hq
    · obtain hold | hnew := List.mem_or_eq_of_mem_set hq
      · rw [← State.pages_of_tls htls] at hold
        exact Nat.lt_succ_of_lt (h.pages_lt index q hold)
      · omega
    · exact Nat.lt_succ_of_lt (h.pages_lt i q hq)

theorem openWrite (h : Wellformed frame s) (index page : Nat) :
    Wellformed frame (s.openWrite frame index page) := by
  obtain ⟨-, hsame⟩ | ⟨tls, p, htls, hp, ⟨hcount, hshared⟩ | ⟨hcount, hown⟩⟩ :=
    State.openWrite_cases frame s index page
  · rw [hsame]
    exact h
  · rw [hshared]
    exact h.copyOnWrite htls
  · rw [hown]
    exact h.mprotect _ _ _

theorem setMutex (h : Wellformed frame s) (index : Nat) (mutex : Bool) :
    Wellformed frame (s.setMutex index mutex) where
  objects := h.objects
  addr := h.addr
  pages_lt i q hq := by
    rw [State.pages_setMutex] at hq
    exact h.pages_lt i q hq
  length i tls' htls' := by
    rw [State.ttpArray_setMutex] at htls'
    obtain ⟨tls, htls, heq⟩ := Option.map_eq_some_iff.mp htls'
    have hlength := h.length i tls htls
    subst heq
    split
    · exact hlength
    · exact hlength

theorem getPages (h : Wellformed frame s) (index n page o : Nat) :
    Wellformed frame (s.getPages index n page o) := by
  induction n generalizing page o s with
  | zero => exact h.mprotect _ _ _
  | succ n ih =>
    rw [State.getPages]
    split
    · exact ih h ..
    · exact ih ((h.mprotect _ _ _).mprotect _ _ _) ..

theorem putBytes (h : Wellformed frame s) (index : Nat) (bytes : List UInt8) (page o : Nat) :
    Wellformed frame (s.putBytes frame index bytes page o) := by
  induction bytes generalizing page o s with
  | nil => exact h.mprotect _ _ _
  | cons byte rest ih =>
    rw [State.putBytes]
    split
    · exact ih (h.writeMemory _ _) ..
    · exact ih (((h.mprotect _ _ _).openWrite _ _).writeMemory _ _) ..

theorem openWrite_page (h : Wellformed frame s) (hframe : Function.Injective frame)
    (hp : (s.pages index)[page]? = some p) :
    ∃ q, ((s.openWrite frame index page).pages index)[page]? = some q ∧
      ((s.openWrite frame index page).prot (frame q)).writable = true := by
  obtain ⟨tls, htls, hpage⟩ := State.tls_of_page hp
  have hlt := (List.getElem?_eq_some_iff.mp hpage).1
  by_cases hcount : 1 < (s.heap p).refCount
  · rw [State.openWrite_shared htls hp hcount]
    refine ⟨s.heapSize, ?_, ?_⟩
    · rw [State.pages_copyOnWrite, if_pos rfl, List.getElem?_set_self hlt]
    · show (Function.update (Function.update s.prot _ _) _ _ (frame s.heapSize)).writable = true
      rw [h.objects, h.addr_of_page hp, State.frameOf_page,
        Function.update_of_ne (Ne.symm (h.fresh hframe hp)), Function.update_self]
      rfl
  · rw [State.openWrite_own hp hcount, h.addr_of_page hp, State.mprotect_page]
    refine ⟨p, hp, ?_⟩
    rw [State.setProt_self]
    rfl

end Wellformed

/-! ### Positions -/

/-- A position stands at an offset of a page of the storage; at its end the offset is the page size. -/
structure Position.At (s : State) (index page o : Nat) (pos : Position) : Prop where
  pageNum : pos.pageNum = page
  addr : pos.start + pos.count = s.addrAt index page + o
  endPage : pos.endPage = s.addrAt index page + pageSize

section

variable {frame : Nat → Nat} {s : State} {index page o p : Nat} {pos : Position}

theorem Position.At.atEnd_iff (h : pos.At s index page o) :
    pos.endPage ≤ pos.start + pos.count ↔ pageSize ≤ o := by
  rw [h.endPage, h.addr]
  omega

theorem Position.At.succ (h : pos.At s index page o) :
    Position.At s index page (o + 1) { pos with count := pos.count + 1 } :=
  ⟨h.pageNum, by rw [← Nat.add_assoc, h.addr, Nat.add_assoc], h.endPage⟩

theorem Position.At.putByte {j k : Nat} {byte : UInt8} (h : pos.At s index page o) :
    pos.At (s.putByte index j k byte) index page o :=
  ⟨h.pageNum, h.addr, h.endPage⟩

theorem Position.at_start (s : State) (index page : Nat) :
    Position.At s index page 0
      ⟨page, 0, s.addrAt index page, s.addrAt index page + pageSize⟩ :=
  ⟨rfl, rfl, rfl⟩

theorem Position.at_offset (s : State) (index page o : Nat) :
    Position.At s index page o
      ⟨page, 0, s.addrAt index page + o, s.addrAt index page + pageSize⟩ :=
  ⟨rfl, rfl, rfl⟩

theorem wp_nextPage {Q : Position → State → Prop} (hp : (s.pages index)[page + 1]? = some p)
    (hQ : ∀ pos : Position, pos.At s index (page + 1) 0 → Q pos s) :
    (nextPage pageSize index page).wp (total (exec frame)) Q s := by
  simp only [nextPage, Prog.wp_bind, Prog.wp_pure]
  apply (wp_pageAddr hp).mpr
  apply (wp_pageAddr hp).mpr
  rw [← State.addrAt_of_page hp]
  exact hQ _ (Position.at_start s index (page + 1))

/-- The scan only looks at addresses: it says whether `n` more bytes fit into the storage. -/
theorem wp_boundaryScan {Q : Bool → State → Prop} (n : Nat) {pos : Position}
    (hpos : pos.At s index page o) (ho : o ≤ pageSize) (hpage : page < (s.pages index).length)
    (hQ : Q (decide (page * pageSize + o + n ≤ (s.pages index).length * pageSize)) s) :
    (boundaryScan pageSize index (s.pages index).length n pos).wp (total (exec frame)) Q s := by
  induction n generalizing page o pos with
  | zero =>
    have hfits : page * pageSize + o + 0 ≤ (s.pages index).length * pageSize := by
      unfold pageSize at *
      omega
    rw [decide_eq_true hfits] at hQ
    exact hQ
  | succ n ih =>
    rw [boundaryScan]
    by_cases hend : pos.endPage ≤ pos.start + pos.count
    · rw [if_pos hend]
      have hofull : o = pageSize := Nat.le_antisymm ho (hpos.atEnd_iff.mp hend)
      by_cases hlast : ((s.pages index).length : Int) ≤ pos.pageNum + 1
      · rw [if_pos hlast]
        rw [hpos.pageNum] at hlast
        have hfull : ¬ page * pageSize + o + (n + 1) ≤ (s.pages index).length * pageSize := by
          unfold pageSize at *
          omega
        rw [decide_eq_false hfull] at hQ
        exact hQ
      · rw [if_neg hlast]
        rw [hpos.pageNum] at hlast ⊢
        have hnext : page + 1 < (s.pages index).length := by omega
        rw [Prog.wp_bind]
        apply wp_nextPage (List.getElem?_eq_getElem hnext)
        intro pos' hpos'
        apply ih hpos'.succ (by decide) hnext
        convert hQ using 3
        unfold pageSize at *
        omega
    · rw [if_neg hend]
      have hroom : o < pageSize := by
        rw [hpos.atEnd_iff] at hend
        omega
      apply ih hpos.succ hroom hpage
      rwa [show page * pageSize + (o + 1) + n = page * pageSize + o + (n + 1) by omega]

theorem Wellformed.protect (h : Wellformed frame s) (hp : (s.pages index)[page]? = some p)
    (prot : Prot) : s.protect index page prot = s.setProt (frame p) prot := by
  rw [State.protect, State.addrAt_of_page hp, h.addr_of_page hp, State.mprotect_page]

theorem wp_protect {Q : State → Prop} {prot : Prot} (hp : (s.pages index)[page]? = some p)
    (hQ : Q (s.protect index page prot)) :
    (pageAddr index page).wp (total (exec frame))
      (fun addr s => (mprotect addr pageSize prot).wp (total (exec frame)) (fun _ => Q) s) s := by
  apply (wp_pageAddr hp).mpr
  apply wp_mprotect.mpr
  rw [← State.addrAt_of_page hp]
  exact hQ

/-! ### The loop of `boundaryRead` -/

theorem wp_readTurn {Q : Position → State → Prop} (h : Wellformed frame s)
    (hpos : pos.At s index page pageSize) {q : Nat} (hp : (s.pages index)[page]? = some p)
    (hq : (s.pages index)[page + 1]? = some q)
    (hQ : ∀ pos' : Position,
      pos'.At ((s.setProt (frame p) .none).setProt (frame q) .read) index (page + 1) 0 →
      Q pos' ((s.setProt (frame p) .none).setProt (frame q) .read)) :
    (readTurn pageSize index pos).wp (total (exec frame)) Q s := by
  rw [readTurn, if_pos (hpos.atEnd_iff.mpr (Nat.le_refl _)), hpos.pageNum]
  simp only [Prog.wp_bind]
  apply wp_protect hp
  rw [h.protect hp]
  apply wp_protect (s := s.setProt (frame p) .none) hq
  rw [(h.setProt (frame p) .none).protect hq]
  exact wp_nextPage hq fun pos' hpos' => hQ pos' ⟨hpos'.pageNum, hpos'.addr, hpos'.endPage⟩

theorem readTurn_within (hpos : pos.At s index page o) (ho : o < pageSize) :
    readTurn pageSize index pos = pure pos := by
  rw [readTurn, if_neg]
  rw [hpos.atEnd_iff]
  omega

theorem wp_copyOut_byte {Q : List UInt8 → State → Prop} (h : Wellformed frame s)
    (hpos : pos.At s index page o) (ho : o < pageSize) (hp : (s.pages index)[page]? = some p)
    (hopen : (s.prot (frame p)).readable = true)
    (hQ : Q [s.byteAt index (page * pageSize + o)] s) :
    (copyOut (pos.start + pos.count) 1).wp (total (exec frame)) Q s := by
  rw [State.byteAt_page ho] at hQ
  rw [hpos.addr]
  apply (wp_copyOut _).mpr hQ
  rw [State.addrAt_of_page hp, h.addr_of_page hp]
  exact State.accessible_page hopen ho

theorem wp_readBytes {Q : List UInt8 → State → Prop} {k : Nat} (n : Nat) (h : Wellformed frame s)
    (hpos : pos.At s index page o) (ho : o ≤ pageSize) (hk : k = page * pageSize + o)
    (hp : (s.pages index)[page]? = some p) (hopen : (s.prot (frame p)).readable = true)
    (hfits : k + n ≤ (s.pages index).length * pageSize)
    (hQ : Q (s.bytesFrom index k n) (s.getPages index n page o)) :
    (readBytes pageSize index n pos).wp (total (exec frame))
      (fun r s => (pageAddr index r.1.pageNum).wp (total (exec frame))
        (fun addr s => (mprotect addr pageSize .none).wp (total (exec frame)) (fun _ => Q r.2) s) s)
      s := by
  induction n generalizing s page o p k pos Q with
  | zero =>
    show (pageAddr index pos.pageNum).wp _ _ s
    rw [hpos.pageNum]
    exact wp_protect hp hQ
  | succ n ih =>
    rw [State.bytesFrom_succ] at hQ
    let Q' := fun bytes => Q (s.byteAt index k :: bytes)
    simp only [readBytes, Prog.wp_bind]
    by_cases hroom : o < pageSize
    · rw [State.getPages, if_pos hroom] at hQ
      rw [readTurn_within hpos hroom, Prog.wp_pure]
      apply wp_copyOut_byte h hpos hroom hp hopen
      rw [← hk]
      have hrest := ih (k := k + 1) (Q := Q') h hpos.succ hroom (by omega) hp hopen (by omega) hQ
      apply Prog.wp_total_mono _ hrest
      rintro ⟨last, bytes⟩ s' hlast
      exact hlast
    · have hofull : o = pageSize := by omega
      subst o
      have hstart : (page + 1) * pageSize = page * pageSize + pageSize := Nat.succ_mul ..
      have hnext : page + 1 < (s.pages index).length := by
        unfold pageSize at *
        omega
      have hq := List.getElem?_eq_getElem hnext
      rw [State.getPages, if_neg hroom, h.protect hp,
        (h.setProt (frame p) .none).protect hq] at hQ
      apply wp_readTurn h hpos hp hq
      intro pos' hpos'
      have hwell := (h.setProt (frame p) .none).setProt (frame ((s.pages index)[page + 1])) .read
      have hopen' := congrArg Prot.readable ((s.setProt (frame p) .none).setProt_self
        (frame ((s.pages index)[page + 1])) .read)
      apply wp_copyOut_byte hwell hpos' (by decide) hq hopen'
      rw [Nat.add_zero, hstart, ← hk]
      have hfits' : k + 1 + n ≤ (s.pages index).length * pageSize := by omega
      have hrest := ih (k := k + 1) (Q := Q') hwell hpos'.succ (by decide) (by omega) hq hopen' hfits'
        hQ
      apply Prog.wp_total_mono _ hrest
      rintro ⟨last, bytes⟩ s' hlast
      exact hlast

/-! ### The loop of `boundaryWrite` -/

theorem wp_openFirst {Q : Unit → State → Prop} (h : Wellformed frame s)
    (hframe : Function.Injective frame) (hp : (s.pages index)[page]? = some p)
    (hQ : Q () (s.openWrite frame index page)) :
    (openFirst index page).wp (total (exec frame)) Q s := by
  obtain ⟨tls, htls, -⟩ := State.tls_of_page hp
  simp only [openFirst, Prog.wp_bind]
  apply (wp_refCount hp).mpr
  by_cases hcount : 1 < (s.heap p).refCount
  · rw [State.openWrite_shared htls hp hcount] at hQ
    rw [if_pos hcount, Prog.wp_bind]
    apply (wp_pageAddr hp).mpr
    rw [Prog.wp_bind]
    exact wp_copyOnWrite h hframe htls hp hQ
  · rw [State.openWrite_own hp hcount] at hQ
    rw [if_neg hcount, Prog.wp_bind]
    apply (wp_pageAddr hp).mpr
    exact wp_mprotect.mpr hQ

/-- `boundaryWrite` opens a shared page before it copies it, which the copy undoes. -/
theorem Wellformed.copyOnWrite_setProt {tls : ThreadLocalStorage} (h : Wellformed frame s)
    (hframe : Function.Injective frame) (hp : (s.pages index)[page]? = some p) (prot : Prot) :
    (s.setProt (frame p) prot).copyOnWrite frame index page p tls =
      s.copyOnWrite frame index page p tls := by
  apply State.ext
  · rfl
  · rfl
  · rfl
  · rfl
  · rfl
  · rfl
  · show Function.update (Function.update (Function.update s.prot (frame p) prot) (frame s.mapped) _)
      (State.frameOf (s.heap p).addr) _ = Function.update (Function.update s.prot _ _) _ _
    rw [h.addr_of_page hp, State.frameOf_page, Function.update_comm (h.fresh hframe hp),
      Function.update_idem]
  · rfl

theorem wp_writeTurn {Q : Position → State → Prop} (h : Wellformed frame s)
    (hframe : Function.Injective frame) (hpos : pos.At s index page pageSize) {q : Nat}
    (hp : (s.pages index)[page]? = some p) (hq : (s.pages index)[page + 1]? = some q)
    (hQ : ∀ pos' : Position,
      pos'.At ((s.setProt (frame p) .none).openWrite frame index (page + 1)) index (page + 1) 0 →
      Q pos' ((s.setProt (frame p) .none).openWrite frame index (page + 1))) :
    (writeTurn pageSize index pos).wp (total (exec frame)) Q s := by
  rw [writeTurn, if_pos (hpos.atEnd_iff.mpr (Nat.le_refl _)), hpos.pageNum]
  simp only [Prog.wp_bind]
  apply wp_protect hp
  rw [h.protect hp]
  let s₁ := s.setProt (frame p) .none
  have hwell : Wellformed frame s₁ := h.setProt (frame p) .none
  have hq₁ : (s₁.pages index)[page + 1]? = some q := hq
  apply (wp_refCount hq₁).mpr
  obtain ⟨tls, htls, hpage⟩ := State.tls_of_page hq₁
  by_cases hcount : 1 < (s₁.heap q).refCount
  · rw [State.openWrite_shared htls hq₁ hcount] at hQ
    rw [if_pos hcount]
    simp only [Prog.wp_bind, Prog.wp_pure]
    apply wp_protect hq₁
    rw [hwell.protect hq₁]
    let s₂ := s₁.setProt (frame q) .write
    have hq₂ : (s₂.pages index)[page + 1]? = some q := hq
    have hwell₂ : Wellformed frame s₂ := hwell.setProt (frame q) .write
    apply (wp_pageAddr (s := s₂) hq₂).mpr
    apply wp_copyOnWrite (s := s₂) hwell₂ hframe htls hq₂
    rw [hwell.copyOnWrite_setProt hframe hq₁]
    apply hQ
    have haddr := State.addrAt_copyOnWrite frame s₁ index hpage
    rw [show frame s₂.mapped * pageSize = _ from haddr.symm]
    exact Position.at_start ..
  · rw [State.openWrite_own hq₁ hcount] at hQ
    rw [if_neg hcount]
    simp only [Prog.wp_bind]
    apply wp_protect hq₁
    rw [hwell.protect hq₁]
    rw [hwell.addr_of_page hq₁, State.mprotect_page] at hQ
    exact wp_nextPage (s := s₁.setProt (frame q) .write) hq hQ

theorem writeTurn_within (hpos : pos.At s index page o) (ho : o < pageSize) :
    writeTurn pageSize index pos = pure pos := by
  rw [writeTurn, if_neg]
  rw [hpos.atEnd_iff]
  omega

theorem wp_copyIn_byte {Q : Unit → State → Prop} {byte : UInt8} (h : Wellformed frame s)
    (hpos : pos.At s index page o) (ho : o < pageSize) (hp : (s.pages index)[page]? = some p)
    (hopen : (s.prot (frame p)).writable = true) (hQ : Q () (s.putByte index page o byte)) :
    (copyIn (pos.start + pos.count) [byte]).wp (total (exec frame)) Q s := by
  rw [hpos.addr]
  apply (wp_copyIn _).mpr hQ
  rw [State.addrAt_of_page hp, h.addr_of_page hp]
  exact State.accessible_page hopen ho

theorem wp_writeBytes {Q : State → Prop} (bytes : List UInt8) (h : Wellformed frame s)
    (hframe : Function.Injective frame) (hpos : pos.At s index page o) (ho : o ≤ pageSize)
    (hp : (s.pages index)[page]? = some p) (hopen : (s.prot (frame p)).writable = true)
    (hfits : page * pageSize + o + bytes.length ≤ (s.pages index).length * pageSize)
    (hQ : Q (s.putBytes frame index bytes page o)) :
    (writeBytes pageSize index bytes pos).wp (total (exec frame))
      (fun last s => (pageAddr index last.pageNum).wp (total (exec frame))
        (fun addr s => (mprotect addr pageSize .none).wp (total (exec frame)) (fun _ => Q) s) s)
      s := by
  induction bytes generalizing s page o p pos with
  | nil =>
    show (pageAddr index pos.pageNum).wp _ _ s
    rw [hpos.pageNum]
    exact wp_protect hp hQ
  | cons byte rest ih =>
    rw [List.length_cons] at hfits
    simp only [writeBytes, Prog.wp_bind]
    by_cases hroom : o < pageSize
    · rw [State.putBytes, if_pos hroom] at hQ
      rw [writeTurn_within hpos hroom, Prog.wp_pure]
      apply wp_copyIn_byte h hpos hroom hp hopen
      have hnext : Position.At (s.putByte index page o byte) index page (o + 1)
          { pos with count := pos.count + 1 } := hpos.putByte.succ
      have hfits' : page * pageSize + (o + 1) + rest.length ≤ (s.pages index).length * pageSize := by
        omega
      exact ih (s := s.putByte index page o byte) (h.writeMemory _ _) hnext hroom hp hopen hfits' hQ
    · have hofull : o = pageSize := by omega
      subst o
      have hstart : (page + 1) * pageSize = page * pageSize + pageSize := Nat.succ_mul ..
      have hlast : page + 1 < (s.pages index).length := by
        unfold pageSize at *
        omega
      have hq := List.getElem?_eq_getElem hlast
      rw [State.putBytes, if_neg hroom, h.protect hp] at hQ
      apply wp_writeTurn h hframe hpos hp hq
      intro pos' hpos'
      let s₁ := s.setProt (frame p) .none
      have hwell : Wellformed frame s₁ := h.setProt (frame p) .none
      obtain ⟨r, hr, hopen'⟩ := hwell.openWrite_page hframe (show (s₁.pages index)[_]? = _ from hq)
      have hwell' := hwell.openWrite index (page + 1)
      have hlength := (SameShape.openWrite frame s₁ index (page + 1)).length_pages index
      let s₂ := s₁.openWrite frame index (page + 1)
      apply wp_copyIn_byte hwell' hpos' (by decide) hr hopen'
      have hfits' : (page + 1) * pageSize + (0 + 1) + rest.length ≤
          (s₂.pages index).length * pageSize := by
        rw [hlength, hstart]
        show _ ≤ (s.pages index).length * pageSize
        omega
      exact ih (s := s₂.putByte index (page + 1) 0 byte) (hwell'.writeMemory _ _)
        hpos'.putByte.succ (by decide) hr hopen' hfits' hQ

/-! ### Whole reads and writes -/

/-- How many bytes a call moves. Across the end of a page the loop counts the `int` it has been given,
and runs at least once. -/
def moved (offset length : Nat) (count : Int) : Nat :=
  if pageSize < offset % pageSize + length then max 1 count.toNat else length

theorem wp_boundaryRead {Q : Option (List UInt8) → State → Prop} {k n : Nat} {len : Int}
    (h : Wellformed frame s) (ho : o < pageSize) (hk : k = page * pageSize + o)
    (hn : n = max 1 len.toNat) (hp : (s.pages index)[page]? = some p)
    (hopen : (s.prot (frame p)).readable = true)
    (hQ : if k + n ≤ (s.pages index).length * pageSize then
        Q (some (s.bytesFrom index k n)) (s.getPages index n page o)
      else Q none s) :
    (boundaryRead pageSize page (s.pages index).length len index (s.addrAt index page + o)
      (s.addrAt index page + pageSize)).wp (total (exec frame)) Q s := by
  have hpos := Position.at_offset s index page o
  have hpage : page < (s.pages index).length := (List.getElem?_eq_some_iff.mp hp).1
  have hone : k + 1 ≤ (s.pages index).length * pageSize := by
    unfold pageSize at *
    omega
  simp only [boundaryRead, Prog.wp_bind]
  apply wp_boundaryScan _ hpos (Nat.le_of_lt ho) hpage
  rw [← hk, ← hn]
  by_cases hfits : k + len.toNat ≤ (s.pages index).length * pageSize
  · rw [if_pos (by omega)] at hQ
    rw [decide_eq_true hfits]
    simp only [Bool.not_true, Bool.false_eq_true, if_false, Prog.wp_bind]
    have hread := wp_readBytes (Q := fun bytes => Q (some bytes)) n h hpos (Nat.le_of_lt ho) hk hp
      hopen (by omega) hQ
    apply Prog.wp_total_mono _ hread
    rintro ⟨last, bytes⟩ s' hlast
    simp only [Prog.wp_pure]
    exact hlast
  · rw [if_neg (by omega)] at hQ
    rw [decide_eq_false hfits]
    exact hQ

theorem wp_boundaryWrite {Q : Bool → State → Prop} {k n : Nat} {src : List UInt8} {len : Int}
    (h : Wellformed frame s) (hframe : Function.Injective frame) (ho : o < pageSize)
    (hk : k = page * pageSize + o) (hlen : toInt32 (cString src).length = len)
    (hn : n = max 1 len.toNat) (hp : (s.pages index)[page]? = some p)
    (hopen : (s.prot (frame p)).writable = true)
    (hQ : if k + n ≤ (s.pages index).length * pageSize then
        Q true (s.putBytes frame index ((List.range n).map fun i => src.getD i 0) page o)
      else Q false s) :
    (boundaryWrite src pageSize page (s.pages index).length index (s.addrAt index page + o)
      (s.addrAt index page + pageSize)).wp (total (exec frame)) Q s := by
  have hpos := Position.at_offset s index page o
  have hpage : page < (s.pages index).length := (List.getElem?_eq_some_iff.mp hp).1
  have hone : k + 1 ≤ (s.pages index).length * pageSize := by
    unfold pageSize at *
    omega
  simp only [boundaryWrite, Prog.wp_bind]
  rw [hlen, ← hn]
  apply wp_boundaryScan _ hpos (Nat.le_of_lt ho) hpage
  rw [← hk]
  by_cases hfits : k + len.toNat ≤ (s.pages index).length * pageSize
  · rw [if_pos (by omega)] at hQ
    rw [decide_eq_true hfits]
    simp only [Bool.not_true, Bool.false_eq_true, if_false, Prog.wp_bind, Prog.wp_pure]
    apply wp_writeBytes (Q := Q true) _ h hframe hpos (Nat.le_of_lt ho) hp hopen _ hQ
    rw [List.length_map, List.length_range]
    omega
  · rw [if_neg (by omega)] at hQ
    rw [decide_eq_false hfits]
    exact hQ

theorem wp_lock {Q : Unit → State → Prop} {tls : ThreadLocalStorage}
    (htls : (s.ttpArray index).tls = some tls) (hfree : tls.mutex = false)
    (hQ : Q () (s.setMutex index true)) : (lock index).wp (total (exec frame)) Q s := by
  rw [State.setMutex_of_tls htls] at hQ
  apply (Prog.wp_total_of_eq _).mpr hQ
  simp only [exec, State.tlsAt, htls]
  show (if tls.mutex = true then _ else _) = _
  rw [hfree]
  rfl

theorem wp_unlock {Q : Unit → State → Prop} {tls : ThreadLocalStorage}
    (htls : (s.ttpArray index).tls = some tls) (hQ : Q () (s.setMutex index false)) :
    (unlock index).wp (total (exec frame)) Q s := by
  rw [State.setMutex_of_tls htls] at hQ
  apply (Prog.wp_total_of_eq _).mpr hQ
  simp only [exec, State.tlsAt, htls]
  rfl

theorem offset_eq (offset : Nat) :
    offset = offset / pageSize * pageSize + offset % pageSize := by
  rw [Nat.mul_comm]
  exact (Nat.div_add_mod offset pageSize).symm

theorem crosses_iff (addr o length : Nat) :
    addr + pageSize < addr + o + length ↔ pageSize < o + length := by
  omega

theorem Wellformed.toInt32_pageNum {tls : ThreadLocalStorage} (h : Wellformed frame s)
    (htls : (s.ttpArray index).tls = some tls) (hp : (s.pages index)[page]? = some p) :
    toInt32 tls.pageNum = (s.pages index).length := by
  have hlength := h.length index tls htls
  have hpos := Nat.zero_lt_of_lt (List.getElem?_eq_some_iff.mp hp).1
  rw [State.pages_of_tls htls] at hpos ⊢
  omega

/-- A call comes past its checks: the caller has a storage, whose entry `findIndex` has found, the
length is not more than the storage holds, nobody has locked it, and the offset is in its page `p`. -/
structure Access (s₀ s : State) (tid offset length index p : Nat) (tls : ThreadLocalStorage) :
    Prop where
  found : s₀.findIndex tid = .ok (index, s)
  owned : (s.ttpArray index).tls = some tls
  length : length ≤ tls.pageNum * pageSize % 2 ^ 32
  free : tls.mutex = false
  page : (s.pages index)[offset / pageSize]? = some p

/-- What `tls_read` and `tls_write` check before they look at a page. -/
def guarded (self length : Nat) (rest : Nat → Nat → Code Result) : Code Result := do
  let index ← findIndex self
  let tls ← pageNum index
  match tls with
  | none => return ⟨-1, []⟩
  | some page_num =>
    if page_num * pageSize % 2 ^ 32 < length then return ⟨-1, []⟩
    else do
      lock index
      rest index page_num

theorem wp_guarded {Q : Result → State → Prop} {s₀ : State} {self offset length : Nat}
    {tls : ThreadLocalStorage} {rest : Nat → Nat → Code Result}
    (hacc : Access s₀ s self offset length index p tls)
    (hrest : (rest index tls.pageNum).wp (total (exec frame)) Q (s.setMutex index true)) :
    (guarded self length rest).wp (total (exec frame)) Q s₀ := by
  simp only [guarded, Prog.wp_bind]
  apply (Prog.wp_total_of_eq (show exec frame (.findIndex self) s₀ = _ from hacc.found)).mpr
  apply (Prog.wp_total_of_eq (show exec frame (.pageNum index) s = _ from rfl)).mpr
  rw [hacc.owned]
  simp only [Option.map_some]
  rw [if_neg (Nat.not_lt.mpr hacc.length)]
  simp only [Prog.wp_bind]
  exact wp_lock hacc.owned hacc.free hrest

theorem offset_split {offset : Nat} (hpage : offset / pageSize = page) (ho : offset % pageSize = o) :
    offset = page * pageSize + o ∧ o < pageSize ∧ offset - page * pageSize = o := by
  have hoffset := offset_eq offset
  rw [hpage, ho] at hoffset
  exact ⟨hoffset, ho ▸ Nat.mod_lt offset (by decide), by omega⟩

theorem wp_tlsRead {Q : Result → State → Prop} {s₀ : State} {self offset length n : Nat}
    {len : Int} {tls : ThreadLocalStorage} (hacc : Access s₀ s self offset length index p tls)
    (h : Wellformed frame s) (hpage : offset / pageSize = page) (ho : offset % pageSize = o)
    (hlen : toInt32 length = len)
    (hn : n = moved offset length len)
    (hQ : if offset + n ≤ (s.pages index).length * pageSize then
        Q ⟨0, s.bytesFrom index offset n⟩
          ((((s.setMutex index true).setProt (frame p) .read).getPages index n page o).setMutex index
            false)
      else Q ⟨-1, []⟩ (((s.setMutex index true).setProt (frame p) .read).setMutex index false)) :
    (tlsRead self offset length).wp (total (exec frame)) Q s₀ := by
  obtain ⟨hoffset, hroom, hrem⟩ := offset_split hpage ho
  have hp := hacc.page
  rw [hpage] at hp
  have htls := hacc.owned
  apply wp_guarded hacc
  rw [hpage, hlen, h.toInt32_pageNum htls hp, hrem]
  simp only [Prog.wp_bind]
  let s₁ := s.setMutex index true
  have hwell : Wellformed frame s₁ := h.setMutex index true
  have hp₁ : (s₁.pages index)[page]? = some p := by
    rw [State.pages_setMutex]
    exact hp
  apply wp_protect hp₁
  rw [hwell.protect hp₁]
  let s₂ := s₁.setProt (frame p) .read
  have hwell₂ : Wellformed frame s₂ := hwell.setProt (frame p) .read
  have hp₂ : (s₂.pages index)[page]? = some p := hp₁
  have htls₂ : (s₂.ttpArray index).tls = _ := State.tls_setMutex htls
  have hopen : (s₂.prot (frame p)).readable = true :=
    congrArg Prot.readable (s₁.setProt_self (frame p) .read)
  have hbytes : s₂.bytesFrom index offset n = s.bytesFrom index offset n :=
    State.bytesFrom_setMutex offset n
  have hpages : s.pages index = s₂.pages index := State.pages_setMutex.symm
  rw [← hbytes, hpages] at hQ
  rw [hpages]
  apply (wp_pageAddr (s := s₂) hp₂).mpr
  apply (wp_pageAddr (s := s₂) hp₂).mpr
  rw [← State.addrAt_of_page hp₂]
  by_cases hcross : pageSize < o + length
  · rw [if_pos ((crosses_iff _ o length).mpr hcross)]
    simp only [Prog.wp_bind]
    have hmax : n = max 1 len.toNat := by
      rw [hn, moved, ho, if_pos hcross]
    apply wp_boundaryRead hwell₂ hroom hoffset hmax hp₂ hopen
    by_cases hfits : offset + n ≤ (s₂.pages index).length * pageSize
    · rw [if_pos hfits] at hQ ⊢
      obtain ⟨tls', htls', -⟩ := (SameShape.getPages s₂ index n page o).tls htls₂
      exact wp_unlock htls' hQ
    · rw [if_neg hfits] at hQ ⊢
      exact wp_unlock htls₂ hQ
  · rw [if_neg ((crosses_iff _ o length).not.mpr hcross)]
    simp only [Prog.wp_bind, Prog.wp_pure]
    have hlength' : n = length := by
      rw [hn, moved, ho, if_neg hcross]
    have hwithin : o + n ≤ pageSize := by omega
    have hfits : offset + n ≤ (s₂.pages index).length * pageSize := by
      have hlt := (List.getElem?_eq_some_iff.mp hp₂).1
      unfold pageSize at *
      omega
    rw [if_pos hfits, State.getPages_page hwithin, hoffset, State.bytesFrom_page hwithin,
      hlength'] at hQ
    apply (wp_copyOut _).mpr
    · apply wp_protect hp₂
      obtain ⟨tls', htls', -⟩ := (SameShape.mprotect s₂ _ _ _).tls htls₂
      exact wp_unlock htls' hQ
    · rw [State.addrAt_of_page hp₂, hwell₂.addr_of_page hp₂]
      exact State.accessible_page hopen (by omega)

theorem wp_tlsWrite {Q : Result → State → Prop} {s₀ : State} {self offset length n : Nat}
    {len : Int} {buffer : List UInt8} {tls : ThreadLocalStorage}
    (hacc : Access s₀ s self offset length index p tls) (h : Wellformed frame s)
    (hframe : Function.Injective frame) (hpage : offset / pageSize = page)
    (ho : offset % pageSize = o) (hlen : toInt32 (cString buffer).length = len)
    (hn : n = moved offset length len)
    (hQ : if offset + n ≤ (s.pages index).length * pageSize then
        Q ⟨0, []⟩ ((((s.setMutex index true).openWrite frame index page).putBytes frame index
          ((List.range n).map fun i => buffer.getD i 0) page o).setMutex index false)
      else Q ⟨-1, []⟩ (((s.setMutex index true).openWrite frame index page).setMutex index false)) :
    (tlsWrite self offset length buffer).wp (total (exec frame)) Q s₀ := by
  obtain ⟨hoffset, hroom, hrem⟩ := offset_split hpage ho
  have hp := hacc.page
  rw [hpage] at hp
  have htls := hacc.owned
  apply wp_guarded hacc
  rw [hpage, h.toInt32_pageNum htls hp, hrem]
  simp only [Prog.wp_bind]
  let s₁ := s.setMutex index true
  have hwell : Wellformed frame s₁ := h.setMutex index true
  have hp₁ : (s₁.pages index)[page]? = some p := by
    rw [State.pages_setMutex]
    exact hp
  apply wp_openFirst hwell hframe hp₁
  let s₂ := s₁.openWrite frame index page
  have hshape₂ : SameShape s₁ s₂ := SameShape.openWrite frame s₁ index page
  have hwell₂ : Wellformed frame s₂ := hwell.openWrite index page
  obtain ⟨q, hq, hopen⟩ := hwell.openWrite_page hframe hp₁
  obtain ⟨tls₂, htls₂, -⟩ := hshape₂.tls (State.tls_setMutex htls)
  have hpages : (s.pages index).length = (s₂.pages index).length := by
    rw [hshape₂.length_pages, State.pages_setMutex]
  rw [hpages] at hQ ⊢
  apply (wp_pageAddr (s := s₂) hq).mpr
  apply (wp_pageAddr (s := s₂) hq).mpr
  rw [← State.addrAt_of_page hq]
  by_cases hcross : pageSize < o + length
  · rw [if_pos ((crosses_iff _ o length).mpr hcross)]
    simp only [Prog.wp_bind]
    have hmax : n = max 1 len.toNat := by
      rw [hn, moved, ho, if_pos hcross]
    apply wp_boundaryWrite hwell₂ hframe hroom hoffset hlen hmax hq hopen
    by_cases hfits : offset + n ≤ (s₂.pages index).length * pageSize
    · rw [if_pos hfits] at hQ ⊢
      obtain ⟨tls', htls', -⟩ := (SameShape.putBytes frame s₂ index _ page o).tls htls₂
      exact wp_unlock htls' hQ
    · rw [if_neg hfits] at hQ ⊢
      exact wp_unlock htls₂ hQ
  · rw [if_neg ((crosses_iff _ o length).not.mpr hcross)]
    simp only [Prog.wp_bind, Prog.wp_pure]
    have hlength' : n = length := by
      rw [hn, moved, ho, if_neg hcross]
    have hfits : offset + n ≤ (s₂.pages index).length * pageSize := by
      have hlt : page < (s₂.pages index).length := (List.getElem?_eq_some_iff.mp hq).1
      unfold pageSize at *
      omega
    have hwithin : o + ((List.range n).map fun i => buffer.getD i 0).length ≤ pageSize := by
      rw [List.length_map, List.length_range]
      omega
    rw [if_pos hfits, State.putBytes_page hwithin, hlength'] at hQ
    apply (wp_copyIn _).mpr
    · apply wp_protect (s := s₂.writeMemory _ _) hq
      obtain ⟨tls', htls', -⟩ := (SameShape.mprotect (s₂.writeMemory _ _) _ _ _).tls htls₂
      exact wp_unlock htls' hQ
    · rw [State.addrAt_of_page hq, hwell₂.addr_of_page hq]
      rw [hlength'] at hwithin
      exact State.accessible_page hopen hwithin

end

/-! ### How far a call comes -/

section

variable {frame : Nat → Nat} {s s₀ s' : State} {self offset length : Nat} {r : Result}

theorem guarded_cases {rest : Nat → Nat → Code Result}
    (h : (guarded self length rest).run (exec frame) s₀ = .ok (r, s')) :
    ∃ index s, s₀.findIndex self = .ok (index, s) ∧
      ((r = ⟨-1, []⟩ ∧ s' = s ∧ ∀ tls, (s.ttpArray index).tls = some tls →
          tls.pageNum * pageSize % 2 ^ 32 < length) ∨
        ∃ tls, (s.ttpArray index).tls = some tls ∧ length ≤ tls.pageNum * pageSize % 2 ^ 32 ∧
          tls.mutex = false ∧
          (rest index tls.pageNum).run (exec frame) (s.setMutex index true) = .ok (r, s')) := by
  obtain ⟨index, s, hindex, h⟩ := Prog.ok_of_run_bind h
  refine ⟨index, s, hindex, ?_⟩
  obtain ⟨num, s₁, hnum, h⟩ := Prog.ok_of_run_bind h
  cases hnum
  cases htls : (s.ttpArray index).tls with
  | none =>
    rw [htls] at h
    cases h
    exact .inl ⟨rfl, rfl, fun _ hsome => by cases hsome⟩
  | some tls =>
    rw [htls] at h
    simp only [Option.map_some] at h
    by_cases hlength : tls.pageNum * pageSize % 2 ^ 32 < length
    · rw [if_pos hlength] at h
      cases h
      refine .inl ⟨rfl, rfl, ?_⟩
      intro tls' hsome
      cases hsome
      exact hlength
    · rw [if_neg hlength] at h
      obtain ⟨done, s₂, hlock, h⟩ := Prog.ok_of_run_bind h
      simp only [exec, State.tlsAt, htls, bind, Except.bind] at hlock
      cases hfree : tls.mutex with
      | true =>
        rw [if_pos hfree] at hlock
        cases hlock
      | false =>
        rw [if_neg (by rw [hfree]; decide)] at hlock
        cases hlock
        rw [State.setMutex_of_tls htls]
        exact .inr ⟨tls, rfl, Nat.le_of_not_lt hlength, hfree, h⟩

theorem pageAt_of_bind {o : Nat × Nat} {α : Type} {next : Nat → Except Fault (α × State)}
    {result : α × State} (h : (s.pageAt o.1 o.2 >>= next) = .ok result) :
    ∃ p, (s.pages o.1)[o.2]? = some p := by
  cases hp : s.pageAt o.1 o.2 with
  | error e =>
    rw [hp] at h
    cases h
  | ok p => exact ⟨p, State.page_of_pageAt hp⟩

/-- Without a storage, or with a length that it does not hold, nothing happens. -/
theorem wp_guarded_rejected {Q : Result → State → Prop} {rest : Nat → Nat → Code Result}
    {index : Nat} (hindex : s₀.findIndex self = .ok (index, s))
    (hfail : ∀ tls, (s.ttpArray index).tls = some tls → tls.pageNum * pageSize % 2 ^ 32 < length)
    (hQ : Q ⟨-1, []⟩ s) : (guarded self length rest).wp (total (exec frame)) Q s₀ := by
  simp only [guarded, Prog.wp_bind]
  apply (Prog.wp_total_of_eq (show exec frame (.findIndex self) s₀ = _ from hindex)).mpr
  apply (Prog.wp_total_of_eq (show exec frame (.pageNum index) s = _ from rfl)).mpr
  cases htls : (s.ttpArray index).tls with
  | none => exact hQ
  | some tls =>
    simp only [Option.map_some]
    rw [if_pos (hfail tls htls)]
    exact hQ

/-- A call that ends without coming past its checks. -/
def Rejected (s₀ s' : State) (self length : Nat) (r : Result) : Prop :=
  r = ⟨-1, []⟩ ∧ ∃ index, s₀.findIndex self = .ok (index, s') ∧
    ∀ tls, (s'.ttpArray index).tls = some tls → tls.pageNum * pageSize % 2 ^ 32 < length

theorem tlsRead_cases (h : (tlsRead self offset length).run (exec frame) s₀ = .ok (r, s')) :
    Rejected s₀ s' self length r ∨ ∃ s index p tls, Access s₀ s self offset length index p tls := by
  obtain ⟨index, s, hindex, ⟨hr, hs, hfail⟩ | ⟨tls, htls, hlength, hfree, h⟩⟩ := guarded_cases h
  · subst s'
    exact .inl ⟨hr, index, hindex, hfail⟩
  · obtain ⟨found, s₂, hpage, h⟩ := Prog.ok_of_run_bind h
    obtain ⟨p, hp⟩ := pageAt_of_bind (o := (index, offset / pageSize)) hpage
    rw [State.pages_setMutex] at hp
    exact .inr ⟨s, index, p, tls, hindex, htls, hlength, hfree, hp⟩

theorem tlsWrite_cases {buffer : List UInt8}
    (h : (tlsWrite self offset length buffer).run (exec frame) s₀ = .ok (r, s')) :
    Rejected s₀ s' self length r ∨ ∃ s index p tls, Access s₀ s self offset length index p tls := by
  obtain ⟨index, s, hindex, ⟨hr, hs, hfail⟩ | ⟨tls, htls, hlength, hfree, h⟩⟩ := guarded_cases h
  · subst s'
    exact .inl ⟨hr, index, hindex, hfail⟩
  · obtain ⟨found, s₂, hpage, h⟩ := Prog.ok_of_run_bind h
    obtain ⟨p, hp⟩ := pageAt_of_bind (o := (index, offset / pageSize)) hpage
    rw [State.pages_setMutex] at hp
    exact .inr ⟨s, index, p, tls, hindex, htls, hlength, hfree, hp⟩

end

end OSChallenges.Storage
