import OSChallenges.Storage.Model
import Mathlib.Tactic.Common

/-!
# Pages and the ways they are opened

`Wellformed` ties the page objects to the pages that `mmap` has returned and the tables to the page
objects. Under it every step of a read or a write has one outcome, and the two copy-on-write
sequences of `tls.c`, of `tls_write` and of `boundaryWrite`, have the same one: `openWrite`.
-/

namespace OSChallenges.Storage

open Program Words

namespace State

/-- The page table of the storage at an index. -/
def pages (s : State) (index : Nat) : List Nat :=
  ((s.ttpArray index).tls.map ThreadLocalStorage.pages).getD []

theorem pages_of_tls {s : State} {index : Nat} {tls : ThreadLocalStorage}
    (h : (s.ttpArray index).tls = some tls) : s.pages index = tls.pages := by
  rw [pages, h]
  rfl

theorem tls_of_page {s : State} {index page p : Nat} (h : (s.pages index)[page]? = some p) :
    ∃ tls, (s.ttpArray index).tls = some tls ∧ tls.pages[page]? = some p := by
  cases htls : (s.ttpArray index).tls with
  | none => simp [pages, htls] at h
  | some tls => exact ⟨tls, rfl, by rwa [pages_of_tls htls] at h⟩

theorem pageAt_of_page {s : State} {index page p : Nat} (h : (s.pages index)[page]? = some p) :
    s.pageAt index page = .ok p := by
  obtain ⟨tls, htls, hp⟩ := tls_of_page h
  simp [pageAt, htls, hp]

theorem page_of_pageAt {s : State} {index page p : Nat} (h : s.pageAt index page = .ok p) :
    (s.pages index)[page]? = some p := by
  unfold pageAt at h
  split at h
  · cases h
  · rename_i htls
    split at h
    · cases h
    · rename_i hp
      cases h
      rw [pages_of_tls htls]
      exact hp

@[simp] theorem pages_setTLS (s : State) (index : Nat) (tls : ThreadLocalStorage) :
    (s.setTLS index tls).pages index = tls.pages := by
  apply pages_of_tls
  show (Function.update s.ttpArray index _ index).tls = some tls
  rw [Function.update_self]

theorem ttpArray_setTLS_of_ne (s : State) {i index : Nat} (tls : ThreadLocalStorage)
    (h : i ≠ index) : (s.setTLS index tls).ttpArray i = s.ttpArray i :=
  Function.update_of_ne h ..

/-! ### Protections -/

theorem frameOf_mul (f o : Nat) (h : o < pageSize) : frameOf (f * pageSize + o) = f := by
  unfold frameOf
  rw [Nat.mul_comm, Nat.mul_add_div (by decide), Nat.div_eq_of_lt h, Nat.add_zero]

theorem frameOf_page (f : Nat) : frameOf (f * pageSize) = f := by
  rw [← Nat.add_zero (f * pageSize)]
  exact frameOf_mul f 0 (by decide)

/-- The protection of one frame is set. -/
def setProt (s : State) (f : Nat) (prot : Prot) : State :=
  { s with prot := Function.update s.prot f prot }

theorem setProt_self (s : State) (f : Nat) (prot : Prot) : (s.setProt f prot).prot f = prot :=
  Function.update_self ..

theorem setProt_of_ne (s : State) {f g : Nat} {prot : Prot} (h : g ≠ f) :
    (s.setProt f prot).prot g = s.prot g :=
  Function.update_of_ne h ..

theorem mprotect_page (s : State) (f : Nat) (prot : Prot) :
    s.mprotect (f * pageSize) pageSize prot = s.setProt f prot := by
  unfold mprotect setProt
  rw [if_pos (Nat.mul_mod_left f pageSize)]
  congr 1
  funext g
  by_cases hg : g = f
  · subst g
    rw [if_pos ⟨Nat.le_refl _, Nat.lt_add_of_pos_right (by decide)⟩, Function.update_self]
  · rw [Function.update_of_ne hg, if_neg]
    unfold pageSize
    omega

theorem accessible_page {s : State} {allows : Prot → Bool} {f o len : Nat}
    (h : allows (s.prot f) = true) (hlen : o + len ≤ pageSize) :
    s.accessible allows (f * pageSize + o) len = true := by
  rw [accessible, List.all_eq_true]
  intro k hk
  have hk' := List.mem_range.mp hk
  rw [Nat.add_assoc, frameOf_mul f (o + k) (by omega)]
  exact h

theorem accessible_whole {s : State} {allows : Prot → Bool} {f : Nat}
    (h : allows (s.prot f) = true) : s.accessible allows (f * pageSize) pageSize = true := by
  rw [← Nat.add_zero (f * pageSize)]
  exact accessible_page h (Nat.le_of_eq (Nat.zero_add pageSize))

/-! ### Memory -/

theorem place_unique {f g o k : Nat} (ho : o < pageSize) (hk : k < pageSize)
    (h : f * pageSize + o = g * pageSize + k) : f = g ∧ o = k := by
  unfold pageSize at *
  omega

/-- The bytes of one frame are not in another one. -/
theorem not_in_page {f g o : Nat} (h : f ≠ g) (ho : o < pageSize) :
    ¬ (g * pageSize ≤ f * pageSize + o ∧ f * pageSize + o < g * pageSize + pageSize) := by
  intro hin
  apply h
  unfold pageSize at *
  omega

theorem writeMemory_of_not (s : State) {addr a : Nat} {bytes : List UInt8}
    (h : ¬ (addr ≤ a ∧ a < addr + bytes.length)) : (s.writeMemory addr bytes).memory a = s.memory a :=
  if_neg h

theorem zeroPage_of_not (s : State) {addr a : Nat} (h : ¬ (addr ≤ a ∧ a < addr + pageSize)) :
    (s.writeMemory addr (List.replicate pageSize 0)).memory a = s.memory a := by
  apply writeMemory_of_not
  rw [List.length_replicate]
  exact h

theorem zeroPage_of {s : State} {addr a : Nat} (h : addr ≤ a ∧ a < addr + pageSize) :
    (s.writeMemory addr (List.replicate pageSize 0)).memory a = 0 := by
  show ite _ _ _ = _
  rw [List.length_replicate, if_pos h, List.getD_eq_getElem?_getD,
    List.getElem?_replicate_of_lt (by omega)]
  rfl

/-- The copy of a page over a page that `mmap` has just cleared. -/
theorem copy_zeroPage (s : State) {f g : Nat} (h : f ≠ g) (a : Nat) :
    (if g * pageSize ≤ a ∧ a < g * pageSize + pageSize then
        (s.writeMemory (g * pageSize) (List.replicate pageSize 0)).memory
          (f * pageSize + (a - g * pageSize))
      else (s.writeMemory (g * pageSize) (List.replicate pageSize 0)).memory a) =
    if g * pageSize ≤ a ∧ a < g * pageSize + pageSize then
      s.memory (f * pageSize + (a - g * pageSize))
    else s.memory a := by
  by_cases ha : g * pageSize ≤ a ∧ a < g * pageSize + pageSize
  · rw [if_pos ha, if_pos ha]
    apply zeroPage_of_not
    exact not_in_page h (by omega)
  · rw [if_neg ha, if_neg ha]
    exact zeroPage_of_not s ha

theorem heap_setTLS_newPage (s : State) (addr index : Nat) (tls : ThreadLocalStorage) :
    (((s.newPage addr).2.setTLS index tls).heap s.heapSize) = ⟨addr, 1⟩ :=
  Function.update_self ..

theorem getD_map_range {α : Type} (f : Nat → α) {n k : Nat} {z : α} (h : k < n) :
    ((List.range n).map f).getD k z = f k := by
  rw [List.getD_eq_getElem?_getD, List.getElem?_map, List.getElem?_range h]
  rfl

theorem writeMemory_readMemory (s s' : State) (dst src len : Nat) :
    s.writeMemory dst (s'.readMemory src len) = { s with
      memory := fun a => if dst ≤ a ∧ a < dst + len then s'.memory (src + (a - dst)) else s.memory a } := by
  unfold writeMemory readMemory
  congr 1
  funext a
  rw [List.length_map, List.length_range]
  by_cases ha : dst ≤ a ∧ a < dst + len
  · rw [if_pos ha, if_pos ha, getD_map_range _ (by omega)]
  · rw [if_neg ha, if_neg ha]

/-! ### Opening a page for writing -/

/-- The entry `page`, which points to `p`, gets a page of its own with the same bytes; the new page
is open, the old one closed. -/
def copyOnWrite (frame : Nat → Nat) (s : State) (index page p : Nat) (tls : ThreadLocalStorage) :
    State :=
  let addr := frame s.mapped * pageSize
  { s with
    ttpArray := Function.update s.ttpArray index
      { s.ttpArray index with tls := some { tls with pages := tls.pages.set page s.heapSize } }
    heap := Function.update
      (Function.update s.heap p { s.heap p with refCount := (s.heap p).refCount - 1 })
      s.heapSize ⟨addr, 1⟩
    heapSize := s.heapSize + 1
    memory := fun a =>
      if addr ≤ a ∧ a < addr + pageSize then s.memory ((s.heap p).addr + (a - addr)) else s.memory a
    prot := Function.update (Function.update s.prot (frame s.mapped) .readWrite)
      (frameOf (s.heap p).addr) .none
    mapped := s.mapped + 1 }

/-- What both copy-on-write sequences do with an entry. -/
def openWrite (frame : Nat → Nat) (s : State) (index page : Nat) : State :=
  match (s.ttpArray index).tls with
  | none => s
  | some tls =>
    match tls.pages[page]? with
    | none => s
    | some p =>
      if 1 < (s.heap p).refCount then s.copyOnWrite frame index page p tls
      else s.mprotect (s.heap p).addr pageSize .write

end State

/-- The `p`-th page object describes the `p`-th page that `mmap` returned, and tables hold page
objects, as many as the storage has pages. -/
structure Wellformed (frame : Nat → Nat) (s : State) : Prop where
  objects : s.heapSize = s.mapped
  addr : ∀ p, p < s.heapSize → (s.heap p).addr = frame p * pageSize
  pages_lt : ∀ index p, p ∈ s.pages index → p < s.heapSize
  length : ∀ index tls, (s.ttpArray index).tls = some tls →
    tls.pages.length = (toInt32 tls.pageNum).toNat

/-! ### The outcome of each step -/

section

variable {frame : Nat → Nat} {s : State} {index page p : Nat}

theorem wp_pageAddr {Q : Nat → State → Prop} (h : (s.pages index)[page]? = some p) :
    (pageAddr index page).wp (total (exec frame)) Q s ↔ Q (s.heap p).addr s := by
  apply Prog.wp_total_of_eq
  rw [exec, State.pageAt_of_page h]
  rfl

theorem wp_refCount {Q : Int → State → Prop} (h : (s.pages index)[page]? = some p) :
    (refCount index page).wp (total (exec frame)) Q s ↔ Q (s.heap p).refCount s := by
  apply Prog.wp_total_of_eq
  rw [exec, State.pageAt_of_page h]
  rfl

theorem wp_decRef {Q : Unit → State → Prop} (h : (s.pages index)[page]? = some p) :
    (decRef index page).wp (total (exec frame)) Q s ↔
      Q () (s.setRefCount p ((s.heap p).refCount - 1)) := by
  apply Prog.wp_total_of_eq
  rw [exec, State.pageAt_of_page h]
  rfl

theorem wp_replacePage {Q : Unit → State → Prop} {addr : Nat} {tls : ThreadLocalStorage}
    (htls : (s.ttpArray index).tls = some tls) (h : (s.pages index)[page]? = some p) :
    (replacePage index page addr).wp (total (exec frame)) Q s ↔
      Q () ((s.newPage addr).2.setTLS index { tls with pages := tls.pages.set page s.heapSize }) := by
  apply Prog.wp_total_of_eq
  rw [exec, State.pageAt_of_page h, State.tlsAt, htls]
  rfl

theorem wp_mprotect {Q : Unit → State → Prop} {addr len : Nat} {prot : Prot} :
    (mprotect addr len prot).wp (total (exec frame)) Q s ↔ Q () (s.mprotect addr len prot) :=
  Prog.wp_total_of_eq rfl

theorem wp_mmap {Q : Nat → State → Prop} {prot : Prot} :
    (mmap prot).wp (total (exec frame)) Q s ↔ Q (s.mmap frame prot).1 (s.mmap frame prot).2 :=
  Prog.wp_total_of_eq rfl

theorem wp_copyOut {Q : List UInt8 → State → Prop} {addr len : Nat}
    (h : s.accessible Prot.readable addr len = true) :
    (copyOut addr len).wp (total (exec frame)) Q s ↔ Q (s.readMemory addr len) s := by
  apply Prog.wp_total_of_eq
  rw [exec, if_pos h]

theorem wp_copyIn {Q : Unit → State → Prop} {addr : Nat} {bytes : List UInt8}
    (h : s.accessible Prot.writable addr bytes.length = true) :
    (copyIn addr bytes).wp (total (exec frame)) Q s ↔ Q () (s.writeMemory addr bytes) := by
  apply Prog.wp_total_of_eq
  rw [exec, if_pos h]

theorem wp_copyPage {Q : Unit → State → Prop} {dst src : Nat}
    (hsrc : s.accessible Prot.readable src pageSize = true)
    (hdst : s.accessible Prot.writable dst pageSize = true) :
    (copyPage dst src).wp (total (exec frame)) Q s ↔
      Q () (s.writeMemory dst (s.readMemory src pageSize)) := by
  apply Prog.wp_total_of_eq
  rw [exec, hsrc, hdst]
  rfl

end

/-! ### Copy on write -/

section

variable {frame : Nat → Nat} {s : State} {index page p : Nat}

theorem Wellformed.addr_of_page (h : Wellformed frame s) (hp : (s.pages index)[page]? = some p) :
    (s.heap p).addr = frame p * pageSize :=
  h.addr p (h.pages_lt index p (List.mem_of_getElem? hp))

theorem Wellformed.fresh (h : Wellformed frame s) (hframe : Function.Injective frame)
    (hp : (s.pages index)[page]? = some p) : frame p ≠ frame s.mapped := by
  intro heq
  have hlt := h.pages_lt index p (List.mem_of_getElem? hp)
  have hobjects := h.objects
  have := hframe heq
  omega

theorem wp_copyOnWrite {Q : Nat → State → Prop} {tls : ThreadLocalStorage} (h : Wellformed frame s)
    (hframe : Function.Injective frame) (htls : (s.ttpArray index).tls = some tls)
    (hp : (s.pages index)[page]? = some p)
    (hQ : Q (frame s.mapped * pageSize) (s.copyOnWrite frame index page p tls)) :
    (copyOnWrite pageSize index page (s.heap p).addr).wp (total (exec frame)) Q s := by
  have haddr := h.addr_of_page hp
  have hfresh := h.fresh hframe hp
  have hlt : page < tls.pages.length := by
    rw [State.pages_of_tls htls] at hp
    exact (List.getElem?_eq_some_iff.mp hp).1
  simp only [copyOnWrite, Prog.wp_bind, Prog.wp_pure]
  apply (wp_decRef hp).mpr
  apply wp_mmap.mpr
  let s₂ := ((s.setRefCount p ((s.heap p).refCount - 1)).mmap frame .readWrite).2
  apply (wp_replacePage (s := s₂) htls hp).mpr
  apply (wp_pageAddr (p := s₂.heapSize) _).mpr
  · apply wp_mprotect.mpr
    rw [haddr, State.mprotect_page, State.heap_setTLS_newPage]
    apply (wp_copyPage _ _).mpr
    · apply wp_mprotect.mpr
      rw [State.mprotect_page, State.writeMemory_readMemory]
      convert hQ using 1
      · rfl
      · apply State.ext
        · rfl
        · rfl
        · rfl
        · rfl
        · rfl
        · funext a
          rw [State.copyOnWrite, haddr]
          exact State.copy_zeroPage s hfresh a
        · show Function.update (Function.update (Function.update s.prot _ _) _ _) _ _ =
            Function.update (Function.update s.prot _ _) _ _
          rw [Function.update_idem, haddr, State.frameOf_page]
          rfl
        · rfl
    · apply State.accessible_whole
      rw [State.setProt_self]
      rfl
    · apply State.accessible_whole
      show Prot.writable (Function.update (Function.update s.prot (frame s.mapped) .readWrite)
        (frame p) .write (frame s.mapped)) = true
      rw [Function.update_of_ne (Ne.symm hfresh)]
      rw [Function.update_self]
      rfl
  · rw [State.pages_setTLS]
    exact List.getElem?_set_self hlt
end

end OSChallenges.Storage
