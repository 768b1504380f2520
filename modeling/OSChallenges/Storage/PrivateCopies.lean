import OSChallenges.Storage.Sharing
import OSChallenges.Storage.Owners

/-!
# Storages are private copies

The specification gives each thread that owns a storage an array of bytes; cloning copies it. Shared
pages, reference counts and the two places that copy a page on a write implement it: every call has
the result of the specification, from every state that a run reaches.
-/

namespace OSChallenges.Storage

open Program Words References

/-! ### The specification -/

/-- The array of a thread: whole pages, and the byte at each offset. -/
structure PrivateArray where
  pages : Nat
  byte : Nat → UInt8

namespace PrivateArray

def size (a : PrivateArray) : Nat := a.pages * pageSize

/-- As many pages as hold `size` bytes, all zero. -/
def zero (size : Nat) : PrivateArray := ⟨(size + (pageSize - 1)) / pageSize, fun _ => 0⟩

def read (a : PrivateArray) (offset length : Nat) : List UInt8 :=
  (List.range length).map fun i => a.byte (offset + i)

def write (a : PrivateArray) (offset : Nat) (bytes : List UInt8) : PrivateArray :=
  { a with
    byte := fun k =>
      if offset ≤ k ∧ k < offset + bytes.length then bytes.getD (k - offset) 0 else a.byte k }

end PrivateArray

abbrev Arrays := Nat → Option PrivateArray

/-- A call on private arrays: its result, and the arrays after it. -/
def specCall (arrays : Arrays) (self : Nat) : Call → Result × Arrays
  | .create size =>
    match arrays self with
    | some _ => (⟨-1, []⟩, arrays)
    | none => (⟨0, []⟩, Function.update arrays self (some (.zero size)))
  | .clone tid =>
    match arrays self, arrays tid with
    | none, some a => (⟨0, []⟩, Function.update arrays self (some a))
    | _, _ => (⟨-1, []⟩, arrays)
  | .read offset length =>
    match arrays self with
    | none => (⟨-1, []⟩, arrays)
    | some a =>
      if offset + length ≤ a.size then (⟨0, a.read offset length⟩, arrays)
      else (⟨-1, []⟩, arrays)
  | .write offset length buffer =>
    match arrays self with
    | none => (⟨-1, []⟩, arrays)
    | some a =>
      if offset + length ≤ a.size then
        (⟨0, []⟩, Function.update arrays self (some (a.write offset (buffer.take length))))
      else (⟨-1, []⟩, arrays)

/-- The arguments that the specification is about. -/
def Legal (arrays : Arrays) (self : Nat) : Call → Prop
  | .create size => 1 ≤ size ∧ size ≤ 2 ^ 24
  | .clone tid => ValidThread tid
  | .read offset length => ∀ a, arrays self = some a → offset < a.size ∧ 1 ≤ length
  | .write offset length buffer =>
    (cString buffer).length = length ∧ ∀ a, arrays self = some a → offset < a.size ∧ 1 ≤ length

instance (arrays : Arrays) (self : Nat) (c : Call) : Decidable (Legal arrays self c) :=
  match c with
  | .create _ => inferInstanceAs (Decidable (_ ∧ _))
  | .clone tid => inferInstanceAs (Decidable (ValidThread tid))
  | .read offset length =>
    inferInstanceAs (Decidable (∀ a ∈ arrays self, offset < a.size ∧ 1 ≤ length))
  | .write offset length buffer =>
    inferInstanceAs (Decidable ((cString buffer).length = length ∧
      ∀ a ∈ arrays self, offset < a.size ∧ 1 ≤ length))

/-- The results of a run of the specification. -/
def specResults (arrays : Arrays) : List (Nat × Call) → List Result
  | [] => []
  | (self, c) :: rest =>
    (specCall arrays self c).1 :: specResults (specCall arrays self c).2 rest

/-- A run of calls by threads with valid ids, whose arguments are legal where they are used. -/
def LegalRun (arrays : Arrays) : List (Nat × Call) → Prop
  | [] => True
  | (self, c) :: rest =>
    ValidThread self ∧ Legal arrays self c ∧ LegalRun (specCall arrays self c).2 rest

instance decidableLegalRun (arrays : Arrays) :
    (calls : List (Nat × Call)) → Decidable (LegalRun arrays calls)
  | [] => inferInstanceAs (Decidable True)
  | (self, c) :: rest =>
    have := decidableLegalRun (specCall arrays self c).2 rest
    inferInstanceAs (Decidable (ValidThread self ∧ Legal arrays self c ∧ LegalRun _ rest))

/-- The results of a run of `tls.c`, and the fault it ends with, if any. -/
def results (frame : Nat → Nat) (s : State) : List (Nat × Call) → List Result × Option Fault
  | [] => ([], none)
  | (self, c) :: rest =>
    match call frame s self c with
    | .error e => ([], some e)
    | .ok (r, s) => (r :: (results frame s rest).1, (results frame s rest).2)

/-! ### The simulation -/

/-- The pages of the storages hold the arrays of their owners. -/
structure Simulates (frame : Nat → Nat) (arrays : Arrays) (s : State) : Prop where
  well : Wellformed frame s
  counted : Counted s
  registered : Registered s
  free : ∀ i tls, (s.ttpArray i).tls = some tls → tls.mutex = false
  sizes : ∀ i tls, (s.ttpArray i).tls = some tls →
    tls.pageNum = tls.pages.length ∧ tls.pageNum ≤ 2 ^ 12
  absent : ∀ t, arrays t = none → ∀ i tls, (s.ttpArray i).tls = some tls → (s.ttpArray i).tid ≠ t
  held : ∀ t a, arrays t = some a → ∃ i tls, s.ttpArray i = ⟨t, some tls⟩ ∧
    tls.pages.length = a.pages ∧ ∀ k, k < a.size → s.byteAt i k = a.byte k

section

variable {frame : Nat → Nat} {arrays arrays' : Arrays} {s s' : State} {self tid index i : Nat}

theorem Simulates.initial (frame : Nat → Nat) (memory : Nat → UInt8) :
    Simulates frame (fun _ => none) (initial memory) where
  well := Wellformed.initial frame memory
  counted := ⟨fun _ hp => absurd hp (Nat.not_lt_zero _), fun _ _ => rfl⟩
  registered := Registered.initial memory
  free _ _ htls := by cases htls
  sizes _ _ htls := by cases htls
  absent _ _ _ _ htls := by cases htls
  held _ _ ha := by cases ha

theorem Simulates.findIndex (h : Simulates frame arrays s) (htid : ValidThread tid)
    (hfind : s.findIndex tid = .ok (i, s')) : Simulates frame arrays s' ∧ Found s' tid i := by
  have hstore := SameStore.findIndex hfind
  obtain ⟨hreg, howners, hfound⟩ := h.registered.findIndex htid hfind
  have haddr : ∀ j page, s'.addrAt j page = s.addrAt j page := by
    intro j page
    unfold State.addrAt
    rw [howners.pages, hstore.heap]
  refine ⟨⟨hstore.wellformed h.well, h.counted.of_same howners.pages hstore.heap hstore.heapSize,
    hreg, ?_, ?_, ?_, ?_⟩, hfound⟩
  · intro j tls htls
    exact h.free j tls (hstore.tls htls)
  · intro j tls htls
    exact h.sizes j tls (hstore.tls htls)
  · intro t ht j tls htls
    rw [howners.tls] at htls
    rw [howners.tid j tls htls]
    exact h.absent t ht j tls htls
  · intro t a ha
    obtain ⟨j, tls, hentry, hpages, hbytes⟩ := h.held t a ha
    have htls : (s.ttpArray j).tls = some tls := by rw [hentry]
    refine ⟨j, tls, ?_, hpages, ?_⟩
    · calc s'.ttpArray j = ⟨(s'.ttpArray j).tid, (s'.ttpArray j).tls⟩ := rfl
        _ = ⟨t, some tls⟩ := by rw [howners.tid j tls htls, howners.tls, hentry]
    · intro k hk
      rw [← hbytes k hk, State.byteAt, State.byteAt, haddr, hstore.memory]

/-- The page tables keep their form and only bytes change. -/
theorem Simulates.of_shape (h : Simulates frame arrays s) (hshape : SameShape s s')
    (hwell : Wellformed frame s') (hcounted : Counted s')
    (hnone : ∀ t, arrays' t = none → arrays t = none)
    (hsome : ∀ t a', arrays' t = some a' → ∃ a, arrays t = some a ∧ a'.pages = a.pages ∧
      ∀ i tls, s.ttpArray i = ⟨t, some tls⟩ → ∀ k, k < (s.pages i).length * pageSize →
        s.byteAt i k = a.byte k → s'.byteAt i k = a'.byte k) :
    Simulates frame arrays' s' := by
  refine ⟨hwell, hcounted, h.registered.of_shape hshape, ?_, ?_, ?_, ?_⟩
  · intro i tls htls
    obtain ⟨old, hold, hsame⟩ := hshape.symm.tls htls
    unfold ThreadLocalStorage.shape at hsame
    simp only [Prod.mk.injEq] at hsame
    rw [← hsame.2.2.1, h.free i old hold]
  · intro i tls htls
    obtain ⟨old, hold, hsame⟩ := hshape.symm.tls htls
    unfold ThreadLocalStorage.shape at hsame
    simp only [Prod.mk.injEq] at hsame
    rw [← hsame.2.1, ← hsame.2.2.2]
    exact h.sizes i old hold
  · intro t ht i tls htls
    obtain ⟨old, hold, -⟩ := hshape.symm.tls htls
    rw [hshape.tid]
    exact h.absent t (hnone t ht) i old hold
  · intro t a' ha'
    obtain ⟨a, ha, hpages, hbytes⟩ := hsome t a' ha'
    obtain ⟨i, tls, hentry, hlength, hold⟩ := h.held t a ha
    have htls : (s.ttpArray i).tls = some tls := by rw [hentry]
    obtain ⟨tls', htls', hsame⟩ := hshape.tls htls
    unfold ThreadLocalStorage.shape at hsame
    simp only [Prod.mk.injEq] at hsame
    refine ⟨i, tls', ?_, ?_, ?_⟩
    · calc s'.ttpArray i = ⟨(s'.ttpArray i).tid, (s'.ttpArray i).tls⟩ := rfl
        _ = ⟨t, some tls'⟩ := by rw [hshape.tid, htls', hentry]
    · rw [hsame.2.2.2, hlength, hpages]
    · intro k hk
      rw [PrivateArray.size, hpages] at hk
      have hk' : k < (s.pages i).length * pageSize := by rwa [State.pages_of_tls htls, hlength]
      exact hbytes i tls hentry k hk' (hold k hk)

theorem Simulates.take {a : PrivateArray} {tls : ThreadLocalStorage}
    (h : Simulates frame arrays s) (hself : ValidThread self) (hfound : Found s self index)
    (hnone : (s.ttpArray index).tls = none)
    (harray : s'.ttpArray = Function.update s.ttpArray index ⟨self, some tls⟩)
    (hmax : s'.maxIndex = s.maxIndex) (hfirst : s'.firstCall = s.firstCall)
    (hwell : Wellformed frame s') (hcounted : Counted s') (hfree : tls.mutex = false)
    (hsizes : tls.pageNum = tls.pages.length ∧ tls.pageNum ≤ 2 ^ 12)
    (hbytes : ∀ i, i ≠ index → ∀ k, k < (s.pages i).length * pageSize →
      s'.byteAt i k = s.byteAt i k)
    (hlength : tls.pages.length = a.pages) (hnew : ∀ k, k < a.size → s'.byteAt index k = a.byte k) :
    Simulates frame (Function.update arrays self (some a)) s' := by
  have hentry : s'.ttpArray index = ⟨self, some tls⟩ := by rw [harray, Function.update_self]
  have hsame : ∀ i, i ≠ index → s'.ttpArray i = s.ttpArray i := fun i hi => by
    rw [harray, Function.update_of_ne hi]
  refine ⟨hwell, hcounted, h.registered.take hself hfound hnone harray hmax hfirst, ?_, ?_, ?_, ?_⟩
  · intro i tls' htls'
    by_cases hi : i = index
    · rw [hi, hentry] at htls'
      cases htls'
      exact hfree
    · rw [hsame i hi] at htls'
      exact h.free i tls' htls'
  · intro i tls' htls'
    by_cases hi : i = index
    · rw [hi, hentry] at htls'
      cases htls'
      exact hsizes
    · rw [hsame i hi] at htls'
      exact h.sizes i tls' htls'
  · intro t ht i tls' htls'
    have hne : t ≠ self := by
      intro heq
      rw [heq, Function.update_self] at ht
      cases ht
    rw [Function.update_of_ne hne] at ht
    by_cases hi : i = index
    · rw [hi, hentry]
      exact Ne.symm hne
    · rw [hsame i hi] at htls' ⊢
      exact h.absent t ht i tls' htls'
  · intro t b hb
    by_cases hself' : t = self
    · rw [hself', Function.update_self] at hb
      cases hb
      exact ⟨index, tls, hself' ▸ hentry, hlength, hnew⟩
    · rw [Function.update_of_ne hself'] at hb
      obtain ⟨i, tls', hold, hpages, hbyte⟩ := h.held t b hb
      have hi : i ≠ index := by
        intro heq
        rw [← heq, hold] at hnone
        cases hnone
      refine ⟨i, tls', (hsame i hi).trans hold, hpages, ?_⟩
      intro k hk
      have htls' : (s.ttpArray i).tls = some tls' := by rw [hold]
      have hk' : k < (s.pages i).length * pageSize := by
        rw [State.pages_of_tls htls', hpages]
        exact hk
      rw [hbytes i hi k hk', hbyte k hk]

/-- What `findIndex` finds for a thread tells whether it owns an array. -/
theorem Simulates.owned_iff (h : Simulates frame arrays s) (hfound : Found s self index) :
    (s.ttpArray index).tls = none ↔ arrays self = none := by
  constructor
  · intro hnone
    cases ha : arrays self with
    | none => rfl
    | some a =>
      obtain ⟨i, tls, hentry, -, -⟩ := h.held self a ha
      obtain ⟨tls', hentry'⟩ | ⟨-, hother⟩ := hfound.entry
      · rw [hentry'] at hnone
        cases hnone
      · exact absurd (congrArg TidTlsPair.tid hentry) (hother i tls (by rw [hentry]))
  · intro ha
    obtain ⟨tls, hentry⟩ | ⟨hnone, -⟩ := hfound.entry
    · have hne := h.absent self ha index tls (by rw [hentry])
      rw [hentry] at hne
      exact absurd rfl hne
    · exact hnone

theorem Simulates.entry {a : PrivateArray} (h : Simulates frame arrays s)
    (hfound : Found s self index) (ha : arrays self = some a) :
    ∃ tls, s.ttpArray index = ⟨self, some tls⟩ ∧ tls.pages.length = a.pages ∧
      ∀ k, k < a.size → s.byteAt index k = a.byte k := by
  obtain ⟨i, tls, hentry, hpages, hbytes⟩ := h.held self a ha
  obtain ⟨tls', hentry'⟩ | ⟨-, hother⟩ := hfound.entry
  · have hi := h.registered.unique i index tls tls' (by rw [hentry]) (by rw [hentry'])
      (by rw [hentry, hentry'])
    subst hi
    exact ⟨tls, hentry, hpages, hbytes⟩
  · exact absurd (congrArg TidTlsPair.tid hentry) (hother i tls (by rw [hentry]))

end

/-! ### Each call -/

/-- The call has the result of the specification and keeps the simulation. -/
def Refines (frame : Nat → Nat) (arrays : Arrays) (s : State) (self : Nat) (c : Call) : Prop :=
  ∃ s', call frame s self c = .ok ((specCall arrays self c).1, s') ∧
    Simulates frame (specCall arrays self c).2 s'

section

variable {frame : Nat → Nat} {arrays : Arrays} {s s₁ : State} {self tid index i offset length : Nat}

theorem Found.index_lt (h : Found s self index) (hreg : Registered s) : index < maxThreads :=
  h.lt.trans hreg.bound

theorem Refines.intro {c : Call} {r : Result} {arrays' : Arrays}
    (hcall : call frame s self c = .ok (r, s₁)) (hspec : specCall arrays self c = (r, arrays'))
    (h : Simulates frame arrays' s₁) : Refines frame arrays s self c := by
  refine ⟨s₁, ?_, ?_⟩
  · rw [hcall, hspec]
  · rw [hspec]
    exact h

theorem refines_create {size : Nat} (h : Simulates frame arrays s) (hself : ValidThread self)
    (hframe : Function.Injective frame) (hsize : 1 ≤ size) (hsize' : size ≤ 2 ^ 24)
    (hindex : s.findIndex self = .ok (index, s₁)) :
    Refines frame arrays s self (.create size) := by
  obtain ⟨h₁, hfound⟩ := h.findIndex hself hindex
  obtain ⟨n, hpages, hlow, hhigh, hcreate⟩ := exists_tlsCreate frame size hindex
  rw [roundUp_of_le hsize'] at hpages
  cases ha : arrays self with
  | some a =>
    obtain ⟨tls, hentry, -, -⟩ := h₁.entry hfound ha
    rw [if_pos (.inr (by rw [hentry]; rfl))] at hcreate
    apply Refines.intro (r := ⟨-1, []⟩) _ _ h₁
    · rw [call, hcreate]
      rfl
    · rw [specCall, ha]
  | none =>
    have hnone := (h₁.owned_iff hfound).mpr ha
    rw [if_neg (by rw [hnone]; simp; omega)] at hcreate
    apply Refines.intro (r := ⟨0, []⟩)
    · rw [call, hcreate]
      rfl
    · rw [specCall, ha]
    · have hmade := created frame s₁ n.toNat
      have hsizes : n.toNat = (PrivateArray.zero size).pages := by
        rw [hpages, Int.toNat_natCast]
        rfl
      have hbound : n.toNat ≤ 2 ^ 12 := by
        rw [hsizes]
        unfold PrivateArray.zero pageSize
        simp only
        omega
      have hindex' := hfound.index_lt h₁.registered
      have hwell : Wellformed frame (s₁.newStorage frame index self size n) :=
        h₁.well.newStorage hlow hhigh
      have hnum : toUInt32 n = n.toNat := by
        unfold toUInt32
        have hpos : 0 ≤ n := by
          rw [hpages]
          exact Int.natCast_nonneg _
        omega
      refine h₁.take hself hfound hnone (State.ttpArray_newStorage ..) hmade.maxIndex
        hmade.firstCall hwell (h₁.counted.newStorage h₁.well hnone hindex') rfl ⟨?_, ?_⟩ ?_ ?_ ?_
      · rw [List.length_range', hnum]
      · rw [hnum]
        exact hbound
      · intro i hi k hk
        exact h₁.well.byteAt_newStorage_of_ne hframe hlow hhigh hi hk
      · rw [List.length_range', hsizes]
      · intro k hk
        rw [PrivateArray.size, ← hsizes] at hk
        exact h₁.well.byteAt_newStorage hlow hhigh hk

theorem refines_clone {s₂ : State} {j : Nat} (h : Simulates frame arrays s)
    (hself : ValidThread self) (htid : ValidThread tid) (hi : s.findIndex self = .ok (i, s₁))
    (hj : s₁.findIndex tid = .ok (j, s₂)) : Refines frame arrays s self (.clone tid) := by
  obtain ⟨h₁, hfound⟩ := h.findIndex hself hi
  obtain ⟨h₂, hfoundTid⟩ := h₁.findIndex htid hj
  have hfoundSelf := hfound.findIndex h₁.registered hj
  have hclone := tlsClone_of_findIndex hi hj (h₂.free j)
  cases ha : arrays self with
  | some a =>
    obtain ⟨tls, hentry, -, -⟩ := h₂.entry hfoundSelf ha
    rw [hentry] at hclone
    apply Refines.intro (r := ⟨-1, []⟩) _ _ h₂
    · rw [call, hclone]
      rfl
    · rw [specCall, ha]
  | none =>
    have hnone := (h₂.owned_iff hfoundSelf).mpr ha
    cases hb : arrays tid with
    | none =>
      rw [hnone, (h₂.owned_iff hfoundTid).mpr hb] at hclone
      apply Refines.intro (r := ⟨-1, []⟩) _ _ h₂
      · rw [call, hclone]
        rfl
      · rw [specCall, ha, hb]
    | some b =>
      obtain ⟨tls, hentry, hpages, hbytes⟩ := h₂.entry hfoundTid hb
      have htls : (s₂.ttpArray j).tls = some tls := by rw [hentry]
      rw [hnone, htls] at hclone
      have hspec : specCall arrays self (.clone tid) =
          (⟨0, []⟩, Function.update arrays self (some b)) := by
        rw [specCall, ha, hb]
      have hcall : call frame s self (.clone tid) = .ok (⟨0, []⟩, s₂.cloneStorage i self tls) := by
        rw [call, hclone]
        rfl
      apply Refines.intro hcall hspec
      · have hindex := hfoundSelf.index_lt h₂.registered
        refine h₂.take hself hfoundSelf hnone (State.ttpArray_cloneStorage h₂.well htls i self) rfl
          rfl (h₂.well.cloneStorage htls) (h₂.counted.cloneStorage h₂.well htls hnone hindex) rfl
          (h₂.sizes j tls htls) ?_ hpages ?_
        · intro m hm k _
          rw [h₂.well.byteAt_cloneStorage htls, if_neg hm]
        · intro k hk
          rw [h₂.well.byteAt_cloneStorage htls, if_pos rfl]
          exact hbytes k hk

theorem Simulates.access {a : PrivateArray} {tls : ThreadLocalStorage} (h : Simulates frame arrays s₁)
    (hindex : s.findIndex self = .ok (index, s₁)) (hentry : s₁.ttpArray index = ⟨self, some tls⟩)
    (hpages : tls.pages.length = a.pages) (hoffset : offset < a.size)
    (hlength : length ≤ tls.pageNum * pageSize % 2 ^ 32) :
    ∃ p, Access s s₁ self offset length index p tls := by
  have htls : (s₁.ttpArray index).tls = some tls := by rw [hentry]
  have hin : offset < (s₁.pages index).length * pageSize := by
    rw [State.pages_of_tls htls, hpages]
    exact hoffset
  obtain ⟨p, hp⟩ := page_of_lt hin
  exact ⟨p, hindex, htls, hlength, h.free index tls htls, hp⟩

theorem Simulates.bound {a : PrivateArray} {tls : ThreadLocalStorage} (h : Simulates frame arrays s)
    (hentry : s.ttpArray index = ⟨self, some tls⟩) (hpages : tls.pages.length = a.pages) :
    tls.pageNum * pageSize % 2 ^ 32 = a.size ∧ a.size ≤ 2 ^ 24 := by
  obtain ⟨hnum, hle⟩ := h.sizes index tls (by rw [hentry])
  rw [PrivateArray.size, ← hpages, ← hnum]
  unfold pageSize
  omega

theorem moved_eq {len : Nat} (hlen : 1 ≤ length) (hsame : len = length) (hle : length < 2 ^ 31) :
    moved offset length (toInt32 len) = length := by
  rw [toInt32_of_lt (by omega), hsame, moved]
  split
  · omega
  · rfl

theorem Simulates.locked {s₂ : State} {tls : ThreadLocalStorage} (h : Simulates frame arrays s)
    (htls : (s.ttpArray index).tls = some tls) (hshape : SameShape (s.setMutex index true) s₂)
    (hwell : Wellformed frame s₂) (hcounted : Counted s₂)
    (hbytes : ∀ i k, k < (s.pages i).length * pageSize → s₂.byteAt i k = s.byteAt i k) :
    Simulates frame arrays (s₂.setMutex index false) := by
  apply h.of_shape (SameShape.unlock htls (h.free index tls htls) hshape)
    (hwell.setMutex index false) (hcounted.setMutex index false) (fun _ hnone => hnone)
  intro t a ha
  refine ⟨a, ha, rfl, ?_⟩
  intro i _ _ k hk hold
  rw [State.byteAt_setMutex, hbytes i k hk, hold]

/-- Reading changes which pages are open, and that is no part of the arrays. -/
theorem Simulates.opened {tls : ThreadLocalStorage} (h : Simulates frame arrays s)
    (htls : (s.ttpArray index).tls = some tls) (f : Nat) (prot : Prot) :
    Simulates frame arrays (((s.setMutex index true).setProt f prot).setMutex index false) := by
  apply h.locked htls (SameShape.setProt _ f prot) ((h.well.setMutex index true).setProt f prot)
    ((h.counted.setMutex index true).of_same (fun _ => rfl) rfl rfl)
  intro i k _
  rw [byteAt_setProt, State.byteAt_setMutex]

theorem Simulates.getPages {tls : ThreadLocalStorage} (h : Simulates frame arrays s)
    (htls : (s.ttpArray index).tls = some tls) (f : Nat) (prot : Prot) (n page o : Nat) :
    Simulates frame arrays
      ((((s.setMutex index true).setProt f prot).getPages index n page o).setMutex index false) := by
  have hwell := (h.well.setMutex index true).setProt f prot
  have hcounted : Counted ((s.setMutex index true).setProt f prot) :=
    (h.counted.setMutex index true).of_same (fun _ => rfl) rfl rfl
  have hshape := (SameShape.setProt (s.setMutex index true) f prot).trans
    (SameShape.getPages _ index n page o)
  apply h.locked htls hshape (hwell.getPages index n page o) (hcounted.getPages n page o)
  intro i k _
  rw [byteAt_getPages, byteAt_setProt, State.byteAt_setMutex]

theorem Simulates.wp_rejected {Q : Result → State → Prop} {rest : Nat → Nat → Code Result}
    (h : Simulates frame arrays s₁) (hfound : Found s₁ self index)
    (hindex : s.findIndex self = .ok (index, s₁)) (hshort : ∀ a, arrays self = some a → a.size < length)
    (hQ : Q ⟨-1, []⟩ s₁) : (guarded self length rest).wp (total (exec frame)) Q s := by
  apply wp_guarded_rejected hindex _ hQ
  intro tls htls
  cases ha : arrays self with
  | none =>
    rw [(h.owned_iff hfound).mpr ha] at htls
    cases htls
  | some a =>
    obtain ⟨tls', hentry, hpages, -⟩ := h.entry hfound ha
    rw [hentry] at htls
    cases htls
    rw [(h.bound hentry hpages).1]
    exact hshort a ha

theorem refines_read (h : Simulates frame arrays s) (hself : ValidThread self)
    (hlegal : ∀ a, arrays self = some a → offset < a.size ∧ 1 ≤ length)
    (hindex : s.findIndex self = .ok (index, s₁)) :
    Refines frame arrays s self (.read offset length) := by
  obtain ⟨h₁, hfound⟩ := h.findIndex hself hindex
  suffices hwp : (tlsRead self offset length).wp (total (exec frame))
      (fun r s' => r = (specCall arrays self (.read offset length)).1 ∧
        Simulates frame (specCall arrays self (.read offset length)).2 s') s by
    obtain ⟨r, s', hrun, hr, hsim⟩ := Prog.wp_total_iff.mp hwp
    exact ⟨s', hr ▸ hrun, hsim⟩
  rw [specCall]
  cases ha : arrays self with
  | none =>
    exact h₁.wp_rejected hfound hindex (fun a ha' => by cases ha.symm.trans ha') ⟨rfl, h₁⟩
  | some a =>
    obtain ⟨tls, hentry, hpages, hbytes⟩ := h₁.entry hfound ha
    have htls : (s₁.ttpArray index).tls = some tls := by rw [hentry]
    obtain ⟨hbound, hsmall⟩ := h₁.bound hentry hpages
    obtain ⟨hoffset, hlen⟩ := hlegal a ha
    by_cases hlong : a.size < length
    · have hshort : ∀ a', arrays self = some a' → a'.size < length := by
        intro a' ha'
        cases ha.symm.trans ha'
        exact hlong
      apply h₁.wp_rejected hfound hindex hshort
      simp only
      rw [if_neg (by omega)]
      exact ⟨rfl, h₁⟩
    · have hlength : length ≤ tls.pageNum * pageSize % 2 ^ 32 := by
        rw [hbound]
        omega
      obtain ⟨p, hacc⟩ := h₁.access hindex hentry hpages hoffset hlength
      have hpageNum : (s₁.pages index).length = a.pages := by
        rw [State.pages_of_tls htls, hpages]
      have hmoved : length = moved offset length (toInt32 length) :=
        (moved_eq hlen rfl (by omega)).symm
      apply wp_tlsRead hacc h₁.well rfl rfl rfl hmoved
      rw [hpageNum]
      by_cases hfits : offset + length ≤ a.pages * pageSize
      · rw [if_pos hfits]
        have hfits' : offset + length ≤ a.size := hfits
        simp only
        rw [if_pos hfits']
        refine ⟨?_, h₁.getPages htls _ _ _ _ _⟩
        congr 1
        apply List.map_congr_left
        intro k hk
        have hlt := List.mem_range.mp hk
        apply hbytes
        omega
      · rw [if_neg hfits]
        have hfits' : ¬ offset + length ≤ a.size := hfits
        simp only
        rw [if_neg hfits']
        exact ⟨rfl, h₁.opened htls _ _⟩

/-- The first page of a write is opened before the write is refused. -/
theorem Simulates.openWrite {tls : ThreadLocalStorage} (h : Simulates frame arrays s)
    (hframe : Function.Injective frame) (htls : (s.ttpArray index).tls = some tls) {page p : Nat}
    (hp : (s.pages index)[page]? = some p) :
    Simulates frame arrays
      (((s.setMutex index true).openWrite frame index page).setMutex index false) := by
  have hwell : Wellformed frame (s.setMutex index true) := h.well.setMutex index true
  have hcounted : Counted (s.setMutex index true) := h.counted.setMutex index true
  apply h.locked htls (SameShape.openWrite frame _ index page) (hwell.openWrite index page)
    (hcounted.openWrite hwell index page)
  intro i k hk
  have hopened := h.well.byteAt_opened hframe hp hk
  rwa [State.byteAt_setMutex] at hopened

theorem Simulates.putBytes {a : PrivateArray} {tls : ThreadLocalStorage} {bytes : List UInt8}
    {page o p : Nat} (h : Simulates frame arrays s) (hframe : Function.Injective frame)
    (hentry : s.ttpArray index = ⟨self, some tls⟩) (ha : arrays self = some a)
    (hp : (s.pages index)[page]? = some p) (ho : o ≤ pageSize)
    (hoffset : offset = page * pageSize + o)
    (hfits : offset + bytes.length ≤ (s.pages index).length * pageSize) :
    Simulates frame (Function.update arrays self (some (a.write offset bytes)))
      ((((s.setMutex index true).openWrite frame index page).putBytes frame index bytes page
        o).setMutex index false) := by
  have htls : (s.ttpArray index).tls = some tls := by rw [hentry]
  let s₁ := s.setMutex index true
  have hwell₁ : Wellformed frame s₁ := h.well.setMutex index true
  have hcounted₁ : Counted s₁ := h.counted.setMutex index true
  let s₂ := s₁.openWrite frame index page
  have hwell₂ : Wellformed frame s₂ := hwell₁.openWrite index page
  have hcounted₂ : Counted s₂ := hcounted₁.openWrite hwell₁ index page
  have hshape₂ : SameShape s₁ s₂ := SameShape.openWrite frame s₁ index page
  have hbyte : ∀ i k, k < (s.pages i).length * pageSize →
      ((s₂.putBytes frame index bytes page o).setMutex index false).byteAt i k =
        if i = index ∧ offset ≤ k ∧ k < offset + bytes.length then bytes.getD (k - offset) 0
        else s.byteAt i k :=
    fun i k hk => CountsBy.byteAt_written h.counted.referenced h.well hframe hp ho hoffset hfits hk
  have hshape := hshape₂.trans (SameShape.putBytes frame s₂ index bytes page o)
  apply h.of_shape (SameShape.unlock htls (h.free index tls htls) hshape)
    ((hwell₂.putBytes index bytes page o).setMutex index false)
    ((hcounted₂.putBytes hwell₂).setMutex index false)
  · intro t hnone
    by_cases ht : t = self
    · rw [ht, Function.update_self] at hnone
      cases hnone
    · rwa [Function.update_of_ne ht] at hnone
  · intro t b hb
    by_cases ht : t = self
    · subst ht
      rw [Function.update_self] at hb
      cases hb
      refine ⟨a, ha, rfl, ?_⟩
      intro i tls' hi k hk hold
      have hsame : i = index := h.registered.unique i index tls' tls (by rw [hi]) htls
        (by rw [hi, hentry])
      subst hsame
      rw [hbyte i k hk, hold]
      simp [PrivateArray.write]
    · rw [Function.update_of_ne ht] at hb
      refine ⟨b, hb, rfl, ?_⟩
      intro i tls' hi k hk hold
      have hne : i ≠ index := by
        intro heq
        rw [heq, hentry] at hi
        cases hi
        exact ht rfl
      rw [hbyte i k hk, if_neg (fun hin => hne hin.1), hold]

theorem take_eq {buffer : List UInt8} (h : (cString buffer).length = length) :
    ((List.range length).map fun i => buffer.getD i 0) = buffer.take length := by
  have hle : length ≤ buffer.length := h ▸ (List.takeWhile_sublist _).length_le
  apply List.ext_getElem
  · rw [List.length_map, List.length_range, List.length_take]
    omega
  · intro i hi hi'
    rw [List.length_map, List.length_range] at hi
    have hlt : i < buffer.length := by omega
    simp [hlt]

theorem refines_write {buffer : List UInt8} (h : Simulates frame arrays s)
    (hself : ValidThread self) (hframe : Function.Injective frame)
    (hbuffer : (cString buffer).length = length)
    (hlegal : ∀ a, arrays self = some a → offset < a.size ∧ 1 ≤ length)
    (hindex : s.findIndex self = .ok (index, s₁)) :
    Refines frame arrays s self (.write offset length buffer) := by
  obtain ⟨h₁, hfound⟩ := h.findIndex hself hindex
  suffices hwp : (tlsWrite self offset length buffer).wp (total (exec frame))
      (fun r s' => r = (specCall arrays self (.write offset length buffer)).1 ∧
        Simulates frame (specCall arrays self (.write offset length buffer)).2 s') s by
    obtain ⟨r, s', hrun, hr, hsim⟩ := Prog.wp_total_iff.mp hwp
    exact ⟨s', hr ▸ hrun, hsim⟩
  rw [specCall]
  cases ha : arrays self with
  | none =>
    exact h₁.wp_rejected hfound hindex (fun a ha' => by cases ha.symm.trans ha') ⟨rfl, h₁⟩
  | some a =>
    obtain ⟨tls, hentry, hpages, hbytes⟩ := h₁.entry hfound ha
    have htls : (s₁.ttpArray index).tls = some tls := by rw [hentry]
    obtain ⟨hbound, hsmall⟩ := h₁.bound hentry hpages
    obtain ⟨hoffset, hlen⟩ := hlegal a ha
    by_cases hlong : a.size < length
    · have hshort : ∀ a', arrays self = some a' → a'.size < length := by
        intro a' ha'
        cases ha.symm.trans ha'
        exact hlong
      apply h₁.wp_rejected hfound hindex hshort
      simp only
      rw [if_neg (by omega)]
      exact ⟨rfl, h₁⟩
    · have hlength : length ≤ tls.pageNum * pageSize % 2 ^ 32 := by
        rw [hbound]
        omega
      obtain ⟨p, hacc⟩ := h₁.access hindex hentry hpages hoffset hlength
      have hpageNum : (s₁.pages index).length = a.pages := by
        rw [State.pages_of_tls htls, hpages]
      have hmoved : length = moved offset length (toInt32 (cString buffer).length) :=
        (moved_eq hlen hbuffer (by omega)).symm
      apply wp_tlsWrite hacc h₁.well hframe rfl rfl rfl hmoved
      rw [hpageNum]
      by_cases hfits : offset + length ≤ a.pages * pageSize
      · rw [if_pos hfits]
        have hfits' : offset + length ≤ a.size := hfits
        simp only
        rw [if_pos hfits', take_eq hbuffer]
        have htake : (buffer.take length).length = length := by
          rw [← take_eq hbuffer, List.length_map, List.length_range]
        refine ⟨rfl, ?_⟩
        apply h₁.putBytes hframe hentry ha hacc.page (Nat.le_of_lt (Nat.mod_lt _ (by decide)))
          (offset_eq offset)
        rw [htake, hpageNum]
        exact hfits
      · rw [if_neg hfits]
        have hfits' : ¬ offset + length ≤ a.size := hfits
        simp only
        rw [if_neg hfits']
        exact ⟨rfl, h₁.openWrite hframe htls hacc.page⟩

theorem refines_call {c : Call} (h : Simulates frame arrays s) (hframe : Function.Injective frame)
    (hself : ValidThread self) (hlegal : Legal arrays self c) :
    call frame s self c = .error .overrun ∨ Refines frame arrays s self c := by
  cases hindex : s.findIndex self with
  | error e => exact .inl (call_of_findIndex_error hindex)
  | ok found =>
    obtain ⟨index, s₁⟩ := found
    cases c with
    | create size => exact .inr (refines_create h hself hframe hlegal.1 hlegal.2 hindex)
    | clone tid =>
      cases hj : s₁.findIndex tid with
      | error e => exact .inl (clone_of_findIndex_error hindex hj)
      | ok other => exact .inr (refines_clone h hself hlegal hindex hj)
    | read offset length => exact .inr (refines_read h hself hlegal hindex)
    | write offset length buffer =>
      exact .inr (refines_write h hself hframe hlegal.1 hlegal.2 hindex)

end

/-! ### Runs -/

theorem results_of_simulates {frame : Nat → Nat} (hframe : Function.Injective frame)
    {arrays : Arrays} {s : State} {calls : List (Nat × Call)} (h : Simulates frame arrays s)
    (hlegal : LegalRun arrays calls) (hslots : (results frame s calls).2 ≠ some .overrun) :
    results frame s calls = (specResults arrays calls, none) := by
  induction calls generalizing arrays s with
  | nil => rfl
  | cons a rest ih =>
    obtain ⟨self, c⟩ := a
    obtain ⟨hself, hargs, hrest⟩ := hlegal
    obtain hover | ⟨s', hcall, hsim⟩ := refines_call h hframe hself hargs
    · rw [results, hover] at hslots
      exact absurd rfl hslots
    · rw [results, hcall] at hslots ⊢
      have htail := ih hsim hrest hslots
      simp only
      rw [htail, specResults]

/-- Every run of legal calls that is handed out at most 127 slots has the results of the
specification; the next slot is the one behind the end of `ttpArray`. -/
theorem private_copies {frame : Nat → Nat} (hframe : Function.Injective frame)
    (memory : Nat → UInt8) {calls : List (Nat × Call)} (hlegal : LegalRun (fun _ => none) calls)
    (hslots : (results frame (initial memory) calls).2 ≠ some .overrun) :
    results frame (initial memory) calls = (specResults (fun _ => none) calls, none) :=
  results_of_simulates hframe (Simulates.initial frame memory) hlegal hslots

/-- A clone writes its second page, and its original still reads what it has written before. -/
def cloneRun : List (Nat × Call) :=
  [(1, .create 5000), (1, .write 4094 4 [97, 98, 99, 100]), (2, .clone 1),
    (2, .write 4096 2 [120, 121]), (1, .read 4094 4), (2, .read 4094 4)]

theorem private_copies_clone :
    results id (initial fun _ => 0) cloneRun = (specResults (fun _ => none) cloneRun, none) := by
  apply private_copies Function.injective_id
  · decide +kernel
  · decide +kernel

end OSChallenges.Storage
