import OSChallenges.Library.References
import OSChallenges.Storage.Registry

/-!
# Shared pages

The reference count of a page is the number of table entries that point to it. So a page that is
opened for writing without a copy is at one place only, and the bytes of all storages are the same
before and after a page is opened; a byte that is written changes at that place alone.
-/

namespace OSChallenges.Storage

open Program Words References

/-- Reference counts are exact. -/
structure Counted (s : State) : Prop where
  count : ∀ p, p < s.heapSize → (s.heap p).refCount = pointers maxThreads s.pages p
  beyond : ∀ i, maxThreads ≤ i → s.pages i = []

/-- Each reference count is so related to the number of entries that point to the page. -/
structure CountsBy (R : Int → Int → Prop) (s : State) : Prop where
  count : ∀ p, p < s.heapSize → R (s.heap p).refCount (pointers maxThreads s.pages p)
  beyond : ∀ i, maxThreads ≤ i → s.pages i = []

/-- A relation of equal numbers, which stays when both change alike. -/
structure Balanced (R : Int → Int → Prop) : Prop where
  refl : ∀ a, R a a
  shift : ∀ a b c, R a b → R (a + c) (b + c)

/-- No page has more entries than references. -/
abbrev Referenced (s : State) : Prop := CountsBy (· ≥ ·) s

/-- The page of an entry belongs to this entry alone. -/
def Own (s : State) (index page : Nat) : Prop :=
  ∃ p, (s.pages index)[page]? = some p ∧
    ∀ i j, (s.pages i)[j]? = some p → i = index ∧ j = page

theorem balanced_eq : Balanced (· = ·) := ⟨fun _ => rfl, fun a b c h => by rw [h]⟩

theorem balanced_ge : Balanced (· ≥ ·) := ⟨fun _ => Int.le_refl _, fun _ _ c h => Int.add_le_add_right h c⟩

section

variable {R : Int → Int → Prop} {frame : Nat → Nat} {s s' : State} {index page p : Nat}
  {tls : ThreadLocalStorage}

theorem Counted.by_eq (h : Counted s) : CountsBy (· = ·) s := ⟨h.count, h.beyond⟩

theorem CountsBy.counted (h : CountsBy (· = ·) s) : Counted s := ⟨h.count, h.beyond⟩

theorem Counted.referenced (h : Counted s) : Referenced s :=
  ⟨fun p hp => Int.le_of_eq (h.count p hp).symm, h.beyond⟩

theorem CountsBy.index_lt (h : CountsBy R s) (hp : (s.pages index)[page]? = some p) :
    index < maxThreads := by
  by_contra hnot
  rw [h.beyond index (Nat.le_of_not_lt hnot)] at hp
  cases hp

theorem CountsBy.of_same (h : CountsBy R s) (hpages : ∀ i, s'.pages i = s.pages i)
    (hheap : s'.heap = s.heap) (hsize : s'.heapSize = s.heapSize) : CountsBy R s' where
  count p hp := by
    rw [hsize] at hp
    rw [hheap, show s'.pages = s.pages from funext hpages]
    exact h.count p hp
  beyond i hi := by rw [hpages, h.beyond i hi]

theorem CountsBy.mprotect (h : CountsBy R s) (addr len : Nat) (prot : Prot) :
    CountsBy R (s.mprotect addr len prot) := by
  unfold State.mprotect
  split
  · exact ⟨h.count, h.beyond⟩
  · exact h

theorem CountsBy.writeMemory (h : CountsBy R s) (addr : Nat) (bytes : List UInt8) :
    CountsBy R (s.writeMemory addr bytes) :=
  ⟨h.count, h.beyond⟩

theorem CountsBy.setMutex (h : CountsBy R s) (index : Nat) (mutex : Bool) :
    CountsBy R (s.setMutex index mutex) :=
  h.of_same (fun _ => State.pages_setMutex) rfl rfl

/-- The entry points to the copy; the page it has pointed to loses one reference. -/
theorem CountsBy.copyOnWrite (h : CountsBy R s) (hR : Balanced R) (hwell : Wellformed frame s)
    (htls : (s.ttpArray index).tls = some tls) (hp : (s.pages index)[page]? = some p) :
    CountsBy R (s.copyOnWrite frame index page p tls) := by
  have hindex := h.index_lt hp
  have hplt := hwell.pages_lt index p (List.mem_of_getElem? hp)
  have htable := State.pages_of_tls htls
  have hfresh : ∀ i, s.heapSize ∉ s.pages i := fun i hmem =>
    Nat.lt_irrefl _ (hwell.pages_lt i _ hmem)
  obtain ⟨hpage, hpp⟩ := List.getElem?_eq_some_iff.mp hp
  have hothers : ∀ i, i ≠ index → (s.copyOnWrite frame index page p tls).pages i = s.pages i := by
    intro i hi
    rw [State.pages_copyOnWrite, if_neg hi]
  have hnew : (s.copyOnWrite frame index page p tls).pages index =
      (s.pages index).set page s.heapSize := by
    rw [State.pages_copyOnWrite, if_pos rfl, htable]
  refine ⟨?_, ?_⟩
  · intro q hq
    have hchange := pointers_change hindex hothers q
    rw [hnew, List.count_set hpage, hpp] at hchange
    by_cases hqfresh : q = s.heapSize
    · subst q
      have hzero : pointers maxThreads s.pages s.heapSize = 0 := pointers_eq_zero hfresh
      have hcount : (s.pages index).count s.heapSize = 0 := List.count_eq_zero.mpr (hfresh index)
      rw [State.heap_copyOnWrite_fresh]
      rw [hzero, hcount] at hchange
      simp only [beq_iff_eq, Nat.ne_of_lt hplt, if_false, if_true] at hchange
      have hone : pointers maxThreads (s.copyOnWrite frame index page p tls).pages s.heapSize = 1 := by
        omega
      rw [hone]
      exact hR.refl 1
    · have hqlt : q < s.heapSize := by
        have hle : q < s.heapSize + 1 := hq
        omega
      have hold := h.count q hqlt
      show R (Function.update (Function.update s.heap p _) s.heapSize _ q).refCount _
      rw [Function.update_of_ne hqfresh]
      by_cases hqp : q = p
      · subst q
        rw [Function.update_self]
        have hpos := List.count_pos_iff.mpr (List.mem_of_getElem? hp)
        simp only [beq_self_eq_true, if_true, beq_iff_eq, Ne.symm hqfresh, if_false] at hchange
        have hless : (pointers maxThreads (s.copyOnWrite frame index page p tls).pages p : Int) =
            pointers maxThreads s.pages p + -1 := by
          omega
        rw [hless]
        exact hR.shift _ _ (-1) hold
      · rw [Function.update_of_ne hqp]
        simp only [beq_iff_eq, Ne.symm hqp, Ne.symm hqfresh, if_false] at hchange
        have hsame : pointers maxThreads (s.copyOnWrite frame index page p tls).pages q =
            pointers maxThreads s.pages q := by
          omega
        rw [hsame]
        exact hold
  · intro i hi
    have hne : i ≠ index := by omega
    rw [hothers i hne, h.beyond i hi]

theorem CountsBy.openWrite (h : CountsBy R s) (hR : Balanced R) (hwell : Wellformed frame s)
    (index page : Nat) : CountsBy R (s.openWrite frame index page) := by
  obtain ⟨-, hsame⟩ | ⟨tls, p, htls, hp, ⟨hcount, hshared⟩ | ⟨hcount, hown⟩⟩ :=
    State.openWrite_cases frame s index page
  · rw [hsame]
    exact h
  · rw [hshared]
    exact h.copyOnWrite hR hwell htls hp
  · rw [hown]
    exact h.mprotect _ _ _

/-- A page with one reference is at one place. -/
theorem CountsBy.own (h : Referenced s) (hwell : Wellformed frame s)
    (hp : (s.pages index)[page]? = some p) (hcount : (s.heap p).refCount ≤ 1) :
    Own s index page := by
  refine ⟨p, hp, ?_⟩
  intro i j hj
  have hmost : (pointers maxThreads s.pages p : Int) ≤ 1 :=
    (h.count p (hwell.pages_lt index p (List.mem_of_getElem? hp))).le.trans hcount
  exact position_unique (by omega) (h.index_lt hj) (h.index_lt hp) hj hp

theorem CountsBy.openWrite_own (h : Referenced s) (hwell : Wellformed frame s)
    (hp : (s.pages index)[page]? = some p) : Own (s.openWrite frame index page) index page := by
  obtain ⟨tls, htls, hpage⟩ := State.tls_of_page hp
  by_cases hcount : 1 < (s.heap p).refCount
  · rw [State.openWrite_shared htls hp hcount]
    have hcounted := h.copyOnWrite balanced_ge hwell htls hp
    apply CountsBy.own hcounted (hwell.copyOnWrite htls) (p := s.heapSize)
    · rw [State.pages_copyOnWrite, if_pos rfl,
        List.getElem?_set_self (List.getElem?_eq_some_iff.mp hpage).1]
    · rw [State.heap_copyOnWrite_fresh]
  · rw [State.openWrite_own hp hcount]
    have hown := CountsBy.own h hwell hp (by omega)
    rw [hwell.addr_of_page hp, State.mprotect_page]
    exact hown

theorem CountsBy.getPages (h : CountsBy R s) (n page o : Nat) : CountsBy R (s.getPages index n page o) := by
  induction n generalizing s page o with
  | zero => exact h.mprotect _ _ _
  | succ n ih =>
    rw [State.getPages]
    split
    · exact ih h ..
    · exact ih ((h.mprotect _ _ _).mprotect _ _ _) ..

theorem CountsBy.putBytes {bytes : List UInt8} {o : Nat} (h : CountsBy R s) (hR : Balanced R)
    (hwell : Wellformed frame s) : CountsBy R (s.putBytes frame index bytes page o) := by
  induction bytes generalizing s page o with
  | nil => exact h.mprotect _ _ _
  | cons byte rest ih =>
    rw [State.putBytes]
    split
    · exact ih (s := s.putByte index page o byte) (h.writeMemory _ _) (hwell.writeMemory _ _)
    · have hwell' : Wellformed frame (s.protect index page .none) := hwell.mprotect _ _ _
      have hcounted : CountsBy R (s.protect index page .none) := h.mprotect _ _ _
      exact ih ((hcounted.openWrite hR hwell' _ _).writeMemory _ _)
        ((hwell'.openWrite _ _).writeMemory _ _)

theorem CountsBy.read {s₀ : State} {self offset length : Nat} {tls : ThreadLocalStorage} {r : Result}
    (h : CountsBy R s) (hwell : Wellformed frame s) (hacc : Access s₀ s self offset length index p tls)
    (hcall : (tlsRead self offset length).run (exec frame) s₀ = .ok (r, s')) : CountsBy R s' := by
  refine Prog.of_wp_total (Q := fun _ s' => CountsBy R s') (wp_tlsRead hacc hwell rfl rfl rfl rfl ?_)
    hcall
  have hcounts : CountsBy R ((s.setMutex index true).setProt (frame p) .read) :=
    (h.setMutex index true).of_same (fun _ => rfl) rfl rfl
  split
  · exact (hcounts.getPages _ _ _).setMutex index false
  · exact hcounts.setMutex index false

theorem CountsBy.write {s₀ : State} {self offset length : Nat} {tls : ThreadLocalStorage} {r : Result}
    {buffer : List UInt8} (h : CountsBy R s) (hR : Balanced R) (hframe : Function.Injective frame)
    (hwell : Wellformed frame s) (hacc : Access s₀ s self offset length index p tls)
    (hcall : (tlsWrite self offset length buffer).run (exec frame) s₀ = .ok (r, s')) :
    CountsBy R s' := by
  refine Prog.of_wp_total (Q := fun _ s' => CountsBy R s')
    (wp_tlsWrite hacc hwell hframe rfl rfl rfl rfl ?_) hcall
  have hwell' := hwell.setMutex index true
  have hcounts := (h.setMutex index true).openWrite hR hwell' index (offset / pageSize)
  split
  · exact (hcounts.putBytes hR (hwell'.openWrite _ _)).setMutex index false
  · exact hcounts.setMutex index false

/-! Exact counts are the case of equality. -/

theorem Counted.of_same (h : Counted s) (hpages : ∀ i, s'.pages i = s.pages i)
    (hheap : s'.heap = s.heap) (hsize : s'.heapSize = s.heapSize) : Counted s' :=
  (h.by_eq.of_same hpages hheap hsize).counted

theorem Counted.setMutex (h : Counted s) (index : Nat) (mutex : Bool) :
    Counted (s.setMutex index mutex) :=
  (h.by_eq.setMutex index mutex).counted

theorem Counted.openWrite (h : Counted s) (hwell : Wellformed frame s) (index page : Nat) :
    Counted (s.openWrite frame index page) :=
  (h.by_eq.openWrite balanced_eq hwell index page).counted

theorem Counted.getPages (h : Counted s) (n page o : Nat) : Counted (s.getPages index n page o) :=
  (h.by_eq.getPages n page o).counted

theorem Counted.putBytes {bytes : List UInt8} {o : Nat} (h : Counted s) (hwell : Wellformed frame s) :
    Counted (s.putBytes frame index bytes page o) :=
  (h.by_eq.putBytes balanced_eq hwell).counted

end

/-! ### The bytes of the storages -/

section

variable {frame : Nat → Nat} {s : State} {index page o p q i k : Nat}

theorem Wellformed.byteAt (h : Wellformed frame s) (hq : (s.pages i)[k / pageSize]? = some q) :
    s.byteAt i k = s.memory (frame q * pageSize + k % pageSize) := by
  rw [State.byteAt, State.addrAt_of_page hq, h.addr_of_page hq]

theorem byteAt_setProt (f : Nat) (prot : Prot) : (s.setProt f prot).byteAt i k = s.byteAt i k := rfl

/-- Opening a page for writing changes no byte of any storage. -/
theorem Wellformed.byteAt_openWrite (h : Wellformed frame s) (hframe : Function.Injective frame)
    (hp : (s.pages index)[page]? = some p) (hq : (s.pages i)[k / pageSize]? = some q) :
    (s.openWrite frame index page).byteAt i k = s.byteAt i k := by
  obtain ⟨tls, htls, hpage⟩ := State.tls_of_page hp
  by_cases hcount : 1 < (s.heap p).refCount
  · rw [State.openWrite_shared htls hp hcount]
    have hwell : Wellformed frame (s.copyOnWrite frame index page p tls) := h.copyOnWrite htls
    have hobjects := h.objects
    have ho : k % pageSize < pageSize := Nat.mod_lt _ (by decide)
    by_cases hentry : i = index ∧ k / pageSize = page
    · obtain ⟨rfl, rfl⟩ := hentry
      have hnew : ((s.copyOnWrite frame i (k / pageSize) p tls).pages i)[k / pageSize]? =
          some s.heapSize := by
        rw [State.pages_copyOnWrite, if_pos rfl,
          List.getElem?_set_self (List.getElem?_eq_some_iff.mp hpage).1]
      have hpq : p = q := Option.some.inj (hp.symm.trans hq)
      rw [hwell.byteAt hnew, h.byteAt hq, hobjects]
      show (if _ then _ else _) = _
      rw [if_pos (by omega), h.addr_of_page hp, hpq, Nat.add_sub_cancel_left]
    · have hold : ((s.copyOnWrite frame index page p tls).pages i)[k / pageSize]? = some q := by
        rw [State.pages_copyOnWrite]
        split
        · rename_i hi
          subst hi
          rw [List.getElem?_set_ne (fun heq => hentry ⟨rfl, heq.symm⟩), ← State.pages_of_tls htls]
          exact hq
        · exact hq
      rw [hwell.byteAt hold, h.byteAt hq]
      exact if_neg (State.not_in_page (h.fresh hframe hq) ho)
  · rw [State.openWrite_own hp hcount, h.addr_of_page hp, State.mprotect_page, byteAt_setProt]

theorem Wellformed.byteAt_putByte (h : Wellformed frame s) (byte : UInt8)
    (hframe : Function.Injective frame) (hown : Own s index page) (ho : o < pageSize)
    (hq : (s.pages i)[k / pageSize]? = some q) :
    (s.putByte index page o byte).byteAt i k =
      if i = index ∧ k = page * pageSize + o then byte else s.byteAt i k := by
  obtain ⟨p, hp, honly⟩ := hown
  have ho' : k % pageSize < pageSize := Nat.mod_lt _ (by decide)
  have hwell : Wellformed frame (s.putByte index page o byte) := h.writeMemory _ _
  have hq' : ((s.putByte index page o byte).pages i)[k / pageSize]? = some q := hq
  rw [hwell.byteAt hq', h.byteAt hq]
  show (if _ ∧ _ then _ else _) = _
  rw [State.addrAt_of_page hp, h.addr_of_page hp, List.length_singleton]
  by_cases hentry : i = index ∧ k = page * pageSize + o
  · obtain ⟨rfl, hk⟩ := hentry
    have hdiv : k / pageSize = page := by
      rw [hk]
      exact State.frameOf_mul page o ho
    have hmod : k % pageSize = o := by
      rw [hk, Nat.mul_comm, Nat.mul_add_mod, Nat.mod_eq_of_lt ho]
    rw [hdiv] at hq
    cases hp.symm.trans hq
    rw [hmod, if_pos ⟨Nat.le_refl _, Nat.lt_succ_self _⟩, Nat.sub_self, if_pos ⟨rfl, hk⟩]
    rfl
  · rw [if_neg hentry, if_neg]
    intro hin
    have hsame : frame q * pageSize + k % pageSize = frame p * pageSize + o := by omega
    obtain ⟨hframes, hoffsets⟩ := State.place_unique ho' ho hsame
    obtain ⟨rfl, hpage⟩ := honly i (k / pageSize) (hframe hframes ▸ hq)
    apply hentry
    refine ⟨rfl, ?_⟩
    rw [← hpage, ← hoffsets]
    exact offset_eq k

theorem page_of_lt (hk : k < (s.pages i).length * pageSize) :
    ∃ q, (s.pages i)[k / pageSize]? = some q := by
  have hlt : k / pageSize < (s.pages i).length := by
    unfold pageSize at *
    omega
  exact ⟨_, List.getElem?_eq_getElem hlt⟩

theorem byteAt_mprotect (addr len : Nat) (prot : Prot) :
    (s.mprotect addr len prot).byteAt i k = s.byteAt i k := by
  unfold State.mprotect
  split
  · rfl
  · rfl

theorem byteAt_getPages (n page o : Nat) : (s.getPages index n page o).byteAt i k = s.byteAt i k := by
  induction n generalizing s page o with
  | zero => exact byteAt_mprotect ..
  | succ n ih =>
    rw [State.getPages]
    split
    · exact ih ..
    · rw [ih]
      exact (byteAt_mprotect ..).trans (byteAt_mprotect ..)

theorem written_cons {P : Prop} [Decidable P] {start : Nat} (byte : UInt8) (rest : List UInt8)
    (old : UInt8) :
    (if P ∧ start + 1 ≤ k ∧ k < start + 1 + rest.length then rest.getD (k - (start + 1)) 0
      else if P ∧ k = start then byte else old) =
    if P ∧ start ≤ k ∧ k < start + (byte :: rest).length then (byte :: rest).getD (k - start) 0
      else old := by
  rw [List.length_cons]
  by_cases hP : P
  · by_cases hfirst : k = start
    · rw [if_neg (by omega), if_pos ⟨hP, hfirst⟩, if_pos ⟨hP, by omega, by omega⟩, hfirst,
        Nat.sub_self]
      rfl
    · by_cases hrest : start + 1 ≤ k ∧ k < start + 1 + rest.length
      · rw [if_pos ⟨hP, hrest⟩, if_pos ⟨hP, by omega, by omega⟩, show k - start = k - (start + 1) + 1 by omega,
          List.getD_cons_succ]
      · rw [if_neg (by omega), if_neg (by omega), if_neg (by omega)]
  · rw [if_neg (fun h => hP h.1), if_neg (fun h => hP h.1), if_neg (fun h => hP h.1)]

/-- The bytes that are written are the ones at their place in the storage, and no other byte of any
storage changes. -/
theorem CountsBy.byteAt_putBytes {bytes : List UInt8} {start : Nat} (h : Referenced s)
    (hwell : Wellformed frame s) (hframe : Function.Injective frame) (hown : Own s index page)
    (ho : o ≤ pageSize) (hstart : start = page * pageSize + o)
    (hfits : start + bytes.length ≤ (s.pages index).length * pageSize)
    (hk : k < (s.pages i).length * pageSize) :
    (s.putBytes frame index bytes page o).byteAt i k =
      if i = index ∧ start ≤ k ∧ k < start + bytes.length then bytes.getD (k - start) 0
      else s.byteAt i k := by
  obtain ⟨q, hq⟩ := page_of_lt hk
  induction bytes generalizing s page o start q with
  | nil =>
    rw [List.length_nil, if_neg (by omega)]
    exact byteAt_mprotect ..
  | cons byte rest ih =>
    rw [List.length_cons] at hfits
    have hfits' : start + 1 + rest.length ≤ (s.pages index).length * pageSize := by omega
    rw [State.putBytes, ← written_cons]
    by_cases hroom : o < pageSize
    · rw [if_pos hroom]
      have hrest := ih (s := s.putByte index page o byte) (h.writeMemory _ _)
        (hwell.writeMemory _ _) hown hroom (by omega) hfits' hk q hq
      rw [hrest, hwell.byteAt_putByte byte hframe hown hroom hq, ← hstart]
    · rw [if_neg hroom]
      have hofull : o = pageSize := by omega
      have hnextStart : (page + 1) * pageSize = page * pageSize + pageSize := Nat.succ_mul ..
      have hnext : page + 1 < (s.pages index).length := by
        unfold pageSize at *
        omega
      obtain ⟨p, hp, -⟩ := hown
      rw [hwell.protect hp]
      let s₁ := s.setProt (frame p) .none
      have hwell₁ : Wellformed frame s₁ := hwell.setProt _ _
      have hcounted₁ : Referenced s₁ := ⟨h.count, h.beyond⟩
      have hr : (s₁.pages index)[page + 1]? = some _ := List.getElem?_eq_getElem hnext
      let s₂ := s₁.openWrite frame index (page + 1)
      have hwell₂ : Wellformed frame s₂ := hwell₁.openWrite _ _
      have hcounted₂ : Referenced s₂ := hcounted₁.openWrite balanced_ge hwell₁ _ _
      have hown₂ : Own s₂ index (page + 1) := CountsBy.openWrite_own hcounted₁ hwell₁ hr
      have hlength : ∀ j, (s₂.pages j).length = (s.pages j).length :=
        (SameShape.openWrite frame s₁ index (page + 1)).length_pages
      have hk₂ : k < (s₂.pages i).length * pageSize := by rwa [hlength]
      obtain ⟨r, hr₂⟩ := page_of_lt hk₂
      have hstart₂ : start + 1 = (page + 1) * pageSize + 1 := by omega
      rw [← hlength] at hfits'
      have hrest := ih (s := s₂.putByte index (page + 1) 0 byte) (hcounted₂.writeMemory _ _)
        (hwell₂.writeMemory _ _) hown₂ (by decide : 1 ≤ pageSize) hstart₂ hfits' hk₂ r hr₂
      have hbyte := hwell₂.byteAt_putByte byte hframe hown₂ (o := 0) (by decide) hr₂
      have hopen := hwell₁.byteAt_openWrite hframe hr (i := i) (k := k) hq
      have hstart₁ : (page + 1) * pageSize + 0 = start := by omega
      rw [hrest, hbyte, hopen, hstart₁, byteAt_setProt]

theorem Wellformed.byteAt_opened (h : Wellformed frame s) (hframe : Function.Injective frame)
    (hp : (s.pages index)[page]? = some p) (hk : k < (s.pages i).length * pageSize) :
    (((s.setMutex index true).openWrite frame index page).setMutex index false).byteAt i k =
      s.byteAt i k := by
  obtain ⟨q, hq⟩ := page_of_lt hk
  have hp' : ((s.setMutex index true).pages index)[page]? = some p := by
    rw [State.pages_setMutex]
    exact hp
  have hq' : ((s.setMutex index true).pages i)[k / pageSize]? = some q := by
    rw [State.pages_setMutex]
    exact hq
  rw [State.byteAt_setMutex, (h.setMutex index true).byteAt_openWrite hframe hp' hq',
    State.byteAt_setMutex]

/-- What a write that succeeds has done: the bytes are at their places in the caller's storage. -/
theorem CountsBy.byteAt_written {bytes : List UInt8} {start : Nat} (h : Referenced s)
    (hwell : Wellformed frame s) (hframe : Function.Injective frame)
    (hp : (s.pages index)[page]? = some p) (ho : o ≤ pageSize) (hstart : start = page * pageSize + o)
    (hfits : start + bytes.length ≤ (s.pages index).length * pageSize)
    (hk : k < (s.pages i).length * pageSize) :
    ((((s.setMutex index true).openWrite frame index page).putBytes frame index bytes page o).setMutex
      index false).byteAt i k =
      if i = index ∧ start ≤ k ∧ k < start + bytes.length then bytes.getD (k - start) 0
      else s.byteAt i k := by
  have hopened := hwell.byteAt_opened hframe hp hk
  have hcounts : Referenced (s.setMutex index true) := CountsBy.setMutex h index true
  replace hwell := hwell.setMutex index true
  have hlength : ∀ j, (((s.setMutex index true).openWrite frame index page).pages j).length =
      (s.pages j).length := fun j => by
    rw [(SameShape.openWrite frame _ index page).length_pages, State.pages_setMutex]
  have hp' : ((s.setMutex index true).pages index)[page]? = some p := by
    rw [State.pages_setMutex]
    exact hp
  have hown := CountsBy.openWrite_own hcounts hwell hp'
  rw [State.byteAt_setMutex] at hopened ⊢
  rw [CountsBy.byteAt_putBytes (hcounts.openWrite balanced_ge hwell index page)
    (hwell.openWrite index page) hframe hown ho hstart (by rwa [hlength]) (by rwa [hlength]), hopened]

end

/-! ### Creation and cloning -/

section

variable {R : Int → Int → Prop} {frame : Nat → Nat} {s : State} {self size index i j k : Nat}
  {n : Int} {tls : ThreadLocalStorage}

theorem State.pages_of_none (h : (s.ttpArray i).tls = none) : s.pages i = [] := by
  rw [State.pages, h]
  rfl

theorem CountsBy.newStorage (h : CountsBy R s) (hR : Balanced R) (hwell : Wellformed frame s)
    (hnone : (s.ttpArray index).tls = none) (hindex : index < maxThreads) :
    CountsBy R (s.newStorage frame index self size n) := by
  have hmade := created frame s n.toNat
  have hold := State.pages_of_none hnone
  have hothers : ∀ i, i ≠ index →
      (s.newStorage frame index self size n).pages i = s.pages i := by
    intro i hi
    rw [State.pages_newStorage, if_neg hi]
  have hnew : (s.newStorage frame index self size n).pages index =
      List.range' s.heapSize n.toNat := by
    rw [State.pages_newStorage, if_pos rfl]
  refine ⟨?_, ?_⟩
  · intro p hp
    have hchange := pointers_change hindex hothers p
    rw [hnew, hold, List.count_nil, Nat.add_zero] at hchange
    rw [hchange]
    by_cases holdPage : p < s.heapSize
    · have hnot : p ∉ List.range' s.heapSize n.toNat := by
        rw [List.mem_range'_1]
        omega
      have hsame : ((s.newStorage frame index self size n).heap p).refCount = (s.heap p).refCount :=
        congrArg Page.refCount (hmade.heap_old p holdPage)
      rw [List.count_eq_zero.mpr hnot, Nat.add_zero, hsame]
      exact h.count p holdPage
    · have hsize : p < s.heapSize + n.toNat := hmade.heapSize ▸ hp
      obtain ⟨k, hk⟩ : ∃ k, p = s.heapSize + k := ⟨p - s.heapSize, by omega⟩
      have hmem : p ∈ List.range' s.heapSize n.toNat := by
        rw [List.mem_range'_1]
        omega
      have hzero : pointers maxThreads s.pages p = 0 := by
        apply pointers_eq_zero
        intro i hi
        exact holdPage (hwell.pages_lt i p hi)
      have hone : ((s.newStorage frame index self size n).heap p).refCount = 1 := by
        rw [hk]
        exact congrArg Page.refCount (hmade.heap_new k (by omega))
      rw [hzero, List.count_eq_one_of_mem (List.nodup_range' ..) hmem, hone]
      exact hR.refl 1
  · intro i hi
    rw [hothers i (by omega), h.beyond i hi]

theorem Counted.newStorage (h : Counted s) (hwell : Wellformed frame s)
    (hnone : (s.ttpArray index).tls = none) (hindex : index < maxThreads) :
    Counted (s.newStorage frame index self size n) :=
  (h.by_eq.newStorage balanced_eq hwell hnone hindex).counted

theorem Wellformed.byteAt_newStorage_of_ne (h : Wellformed frame s)
    (hframe : Function.Injective frame) (hlow : -2 ^ 31 ≤ n) (hhigh : n < 2 ^ 31) (hi : i ≠ index)
    (hk : k < (s.pages i).length * pageSize) :
    (s.newStorage frame index self size n).byteAt i k = s.byteAt i k := by
  have hmade := created frame s n.toNat
  obtain ⟨q, hq⟩ := page_of_lt hk
  have hq' : ((s.newStorage frame index self size n).pages i)[k / pageSize]? = some q := by
    rw [State.pages_newStorage, if_neg hi, hq]
  have hwell : Wellformed frame (s.newStorage frame index self size n) := h.newStorage hlow hhigh
  rw [hwell.byteAt hq', h.byteAt hq]
  apply hmade.memory_old
  intro m hm
  rw [State.frameOf_mul _ _ (Nat.mod_lt _ (by decide))]
  intro heq
  have hlt := h.pages_lt i q (List.mem_of_getElem? hq)
  have hobjects := h.objects
  have hqm := hframe heq
  omega

theorem Wellformed.byteAt_newStorage (h : Wellformed frame s) (hlow : -2 ^ 31 ≤ n)
    (hhigh : n < 2 ^ 31) (hk : k < n.toNat * pageSize) :
    (s.newStorage frame index self size n).byteAt index k = 0 := by
  have hmade := created frame s n.toNat
  have hpage : k / pageSize < n.toNat := by
    unfold pageSize at *
    omega
  have hq : ((s.newStorage frame index self size n).pages index)[k / pageSize]? =
      some (s.heapSize + k / pageSize) := by
    rw [State.pages_newStorage, if_pos rfl, List.getElem?_range' hpage, Nat.one_mul]
  have hwell : Wellformed frame (s.newStorage frame index self size n) := h.newStorage hlow hhigh
  rw [hwell.byteAt hq, h.objects]
  exact hmade.memory_new _ hpage _ (Nat.mod_lt _ (by decide))

theorem CountsBy.cloneStorage (h : CountsBy R s) (hR : Balanced R) (hwell : Wellformed frame s)
    (htls : (s.ttpArray j).tls = some tls) (hnone : (s.ttpArray index).tls = none)
    (hindex : index < maxThreads) : CountsBy R (s.cloneStorage index self tls) := by
  have hold := State.pages_of_none hnone
  have hothers : ∀ i, i ≠ index → (s.cloneStorage index self tls).pages i = s.pages i := by
    intro i hi
    rw [State.pages_cloneStorage hwell htls, if_neg hi]
  have hnew : (s.cloneStorage index self tls).pages index = tls.pages := by
    rw [State.pages_cloneStorage hwell htls, if_pos rfl]
  refine ⟨?_, ?_⟩
  · intro p hp
    have hchange := pointers_change hindex hothers p
    rw [hnew, hold, List.count_nil, Nat.add_zero] at hchange
    rw [hchange, State.heap_cloneStorage hwell htls, refCount_addRefs, Int.natCast_add]
    exact hR.shift _ _ _ (h.count p hp)
  · intro i hi
    rw [hothers i (by omega), h.beyond i hi]

theorem Counted.cloneStorage (h : Counted s) (hwell : Wellformed frame s)
    (htls : (s.ttpArray j).tls = some tls) (hnone : (s.ttpArray index).tls = none)
    (hindex : index < maxThreads) : Counted (s.cloneStorage index self tls) :=
  (h.by_eq.cloneStorage balanced_eq hwell htls hnone hindex).counted

theorem Wellformed.byteAt_cloneStorage (h : Wellformed frame s)
    (htls : (s.ttpArray j).tls = some tls) (i k : Nat) :
    (s.cloneStorage index self tls).byteAt i k = s.byteAt (if i = index then j else i) k := by
  have haddr : (s.cloneStorage index self tls).addrAt i (k / pageSize) =
      s.addrAt (if i = index then j else i) (k / pageSize) := by
    have hpages : (s.cloneStorage index self tls).pages i = s.pages (if i = index then j else i) := by
      rw [State.pages_cloneStorage h htls]
      split
      · rw [State.pages_of_tls htls]
      · rfl
    unfold State.addrAt
    rw [hpages, State.heap_cloneStorage h htls]
    cases (s.pages (if i = index then j else i))[k / pageSize]? with
    | none => rfl
    | some p => exact addr_addRefs ..
  have hmemory : (s.cloneStorage index self tls).memory = s.memory := rfl
  unfold State.byteAt
  rw [haddr, hmemory]

end

end OSChallenges.Storage
