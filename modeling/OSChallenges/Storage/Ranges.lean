import OSChallenges.Storage.AllThreads
import OSChallenges.Storage.Interleaved

/-!
# Which ranges reads and writes accept

The two checks of a range are apart: the length is compared with the whole storage before the first page
is looked up, and only the helpers for the page boundaries look at where the range ends. The first lookup
has no check of its own, and `boundaryWrite` takes the length of the string for that of the range.
-/

namespace OSChallenges.Storage

open Program Words

/-- `tls_read`, or `tls_write` of a buffer. -/
def access (offset length : Nat) : Option (List UInt8) → Call
  | none => .read offset length
  | some buffer => .write offset length buffer

/-- The `int` to which the page-crossing loops count: the length, or `strlen` of the buffer. -/
def countOf (length : Nat) : Option (List UInt8) → Int
  | none => toInt32 length
  | some buffer => toInt32 (cString buffer).length

/-- No storage has gained, lost or changed a byte. -/
def SameBytes (s s' : State) : Prop :=
  ∀ i, (s'.pages i).length = (s.pages i).length ∧
    ∀ k, k < (s.pages i).length * pageSize → s'.byteAt i k = s.byteAt i k

section

variable {frame : Nat → Nat} {s s' : State} {self index offset length n p : Nat} {r : Result}
  {tls : ThreadLocalStorage} {buffer : List UInt8} {source : Option (List UInt8)}

/-! ### Outcomes -/

/-- With more bytes than the storage holds, nothing happens. -/
theorem refused_of_long (h : Settled frame s) (hself : self ≠ noThread)
    (hentry : s.ttpArray index = ⟨self, some tls⟩)
    (hlength : tls.pageNum * pageSize % 2 ^ 32 < length) (offset : Nat)
    (source : Option (List UInt8)) :
    call frame s self (access offset length source) = .ok (⟨-1, []⟩, s) := by
  have hfind := h.own hself hentry
  have hfail : ∀ tls', (s.ttpArray index).tls = some tls' →
      tls'.pageNum * pageSize % 2 ^ 32 < length := by
    intro tls' htls'
    rw [hentry] at htls'
    cases htls'
    exact hlength
  have hwp : ∀ rest, (guarded self length rest).wp (total (exec frame))
      (fun r s' => r = ⟨-1, []⟩ ∧ s' = s) s :=
    fun rest => wp_guarded_rejected hfind hfail ⟨rfl, rfl⟩
  cases source with
  | none =>
    obtain ⟨r, s', hrun, hr, hs⟩ := Prog.wp_total_iff.mp (hwp _)
    rw [hr, hs] at hrun
    exact hrun
  | some buffer =>
    obtain ⟨r, s', hrun, hr, hs⟩ := Prog.wp_total_iff.mp (hwp _)
    rw [hr, hs] at hrun
    exact hrun

theorem entry_lt_of_call (h : Settled frame s) (hself : self ≠ noThread)
    (hentry : s.ttpArray index = ⟨self, some tls⟩)
    (hlength : length ≤ tls.pageNum * pageSize % 2 ^ 32) (source : Option (List UInt8))
    (hcall : call frame s self (access offset length source) = .ok (r, s')) :
    offset / pageSize < tls.pages.length := by
  have hfind := h.own hself hentry
  have hcases : Rejected s s' self length r ∨
      ∃ s₁ index' p tls', Access s s₁ self offset length index' p tls' := by
    cases source with
    | none => exact tlsRead_cases hcall
    | some buffer => exact tlsWrite_cases hcall
  obtain ⟨-, index', hfind', hfail⟩ | ⟨s₁, index', p, tls', hacc⟩ := hcases
  · rw [hfind] at hfind'
    cases hfind'
    have hless := hfail tls (by rw [hentry])
    omega
  · have hfind' := hacc.found
    rw [hfind] at hfind'
    cases hfind'
    have hpage := hacc.page
    have htls : (s.ttpArray index).tls = some tls := by rw [hentry]
    rw [State.pages_of_tls htls] at hpage
    exact (List.getElem?_eq_some_iff.mp hpage).1

theorem access_of_entry (h : Settled frame s) (hself : self ≠ noThread)
    (hentry : s.ttpArray index = ⟨self, some tls⟩)
    (hlength : length ≤ tls.pageNum * pageSize % 2 ^ 32)
    (hpage : offset / pageSize < tls.pages.length) :
    ∃ p, Access s s self offset length index p tls := by
  have htls : (s.ttpArray index).tls = some tls := by rw [hentry]
  refine ⟨tls.pages[offset / pageSize], h.own hself hentry, htls, hlength,
    (h.resting index tls htls).2.1, ?_⟩
  rw [State.pages_of_tls htls]
  exact List.getElem?_eq_getElem hpage

theorem outcome_read (h : Settled frame s)
    (hacc : Access s s self offset length index p tls) (hn : n = moved offset length (toInt32 length)) :
    ∃ s', call frame s self (.read offset length) =
        .ok (if offset + n ≤ (s.pages index).length * pageSize then ⟨0, s.bytesFrom index offset n⟩
          else ⟨-1, []⟩, s') ∧ SameBytes s s' := by
  have hwp : (tlsRead self offset length).wp (total (exec frame)) (fun r s' =>
      r = (if offset + n ≤ (s.pages index).length * pageSize then ⟨0, s.bytesFrom index offset n⟩
        else ⟨-1, []⟩) ∧ SameBytes s s') s := by
    apply wp_tlsRead hacc h.wellformed rfl rfl rfl hn
    have hshape := SameShape.setProt (s.setMutex index true) (frame p) .read
    have hfree := (h.resting index tls hacc.owned).2.1
    by_cases hfits : offset + n ≤ (s.pages index).length * pageSize
    · rw [if_pos hfits, if_pos hfits]
      refine ⟨rfl, fun i => ⟨?_, fun k hk => ?_⟩⟩
      · exact (SameShape.unlock hacc.owned hfree (hshape.trans (SameShape.getPages ..))).length_pages i
      · rw [State.byteAt_setMutex, byteAt_getPages, byteAt_setProt, State.byteAt_setMutex]
    · rw [if_neg hfits, if_neg hfits]
      refine ⟨rfl, fun i => ⟨?_, fun k hk => ?_⟩⟩
      · exact (SameShape.unlock hacc.owned hfree hshape).length_pages i
      · rw [State.byteAt_setMutex, byteAt_setProt, State.byteAt_setMutex]
  obtain ⟨r, s', hrun, rfl, hsame⟩ := Prog.wp_total_iff.mp hwp
  exact ⟨s', hrun, hsame⟩

theorem outcome_write (h : Settled frame s) (hframe : Function.Injective frame)
    (hacc : Access s s self offset length index p tls)
    (hn : n = moved offset length (toInt32 (cString buffer).length)) :
    ∃ s', call frame s self (.write offset length buffer) =
        .ok (if offset + n ≤ (s.pages index).length * pageSize then ⟨0, []⟩ else ⟨-1, []⟩, s') ∧
      ∀ i, (s'.pages i).length = (s.pages i).length ∧
        ∀ k, k < (s.pages i).length * pageSize → s'.byteAt i k =
          if offset + n ≤ (s.pages index).length * pageSize ∧ i = index ∧ offset ≤ k ∧ k < offset + n then
            buffer.getD (k - offset) 0
          else s.byteAt i k := by
  have hwp : (tlsWrite self offset length buffer).wp (total (exec frame)) (fun r s' =>
      r = (if offset + n ≤ (s.pages index).length * pageSize then ⟨0, []⟩ else ⟨-1, []⟩) ∧
      ∀ i, (s'.pages i).length = (s.pages i).length ∧
        ∀ k, k < (s.pages i).length * pageSize → s'.byteAt i k =
          if offset + n ≤ (s.pages index).length * pageSize ∧ i = index ∧ offset ≤ k ∧ k < offset + n then
            buffer.getD (k - offset) 0
          else s.byteAt i k) s := by
    apply wp_tlsWrite hacc h.wellformed hframe rfl rfl rfl hn
    have hshape := SameShape.openWrite frame (s.setMutex index true) index (offset / pageSize)
    have hfree := (h.resting index tls hacc.owned).2.1
    have hroom : offset % pageSize ≤ pageSize := Nat.le_of_lt (Nat.mod_lt offset (by decide))
    by_cases hfits : offset + n ≤ (s.pages index).length * pageSize
    · rw [if_pos hfits, if_pos hfits]
      refine ⟨rfl, fun i => ⟨?_, fun k hk => ?_⟩⟩
      · exact (SameShape.unlock hacc.owned hfree (hshape.trans (SameShape.putBytes ..))).length_pages i
      · let bytes := (List.range n).map fun j => buffer.getD j 0
        have hlength : bytes.length = n := by
          rw [List.length_map, List.length_range]
        have hroomy : offset + bytes.length ≤ (s.pages index).length * pageSize := by rwa [hlength]
        have hwritten := CountsBy.byteAt_written h.referenced h.wellformed hframe hacc.page hroom
          (offset_eq offset) hroomy hk
        rw [hlength] at hwritten
        rw [hwritten]
        by_cases hin : i = index ∧ offset ≤ k ∧ k < offset + n
        · rw [if_pos hin, if_pos ⟨hfits, hin⟩, State.getD_map_range _ (by omega)]
        · rw [if_neg hin, if_neg fun hall => hin hall.2]
    · rw [if_neg hfits, if_neg hfits]
      refine ⟨rfl, fun i => ⟨?_, fun k hk => ?_⟩⟩
      · exact (SameShape.unlock hacc.owned hfree hshape).length_pages i
      · rw [h.wellformed.byteAt_opened hframe hacc.page hk, if_neg fun hall => hfits hall.1]
  obtain ⟨r, s', hrun, rfl, hsame⟩ := Prog.wp_total_iff.mp hwp
  exact ⟨s', hrun, hsame⟩

/-! ### The range check -/

theorem Settled.pageNum_eq (h : Settled frame s) (hentry : s.ttpArray index = ⟨self, some tls⟩)
    (hpages : tls.pages ≠ []) :
    tls.pageNum = tls.pages.length ∧ tls.pageNum * pageSize % 2 ^ 32 = tls.pages.length * pageSize := by
  have htls : (s.ttpArray index).tls = some tls := by rw [hentry]
  obtain ⟨-, -, hnum, hle⟩ := h.resting index tls htls
  have hlength := h.wellformed.length index tls htls
  have hsome := List.length_pos_iff.mpr hpages
  have hpos : 0 < toInt32 tls.pageNum := by omega
  have hsame := toInt32_of_pos hnum hpos
  have heq : tls.pageNum = tls.pages.length := by omega
  refine ⟨heq, ?_⟩
  rw [heq]
  unfold pageSize
  omega

/-- The call returns -1, and no storage has gained, lost or changed a byte. -/
def Rejects (frame : Nat → Nat) (s : State) (self : Nat) (c : Call) : Prop :=
  ∃ s', call frame s self c = .ok (⟨-1, []⟩, s') ∧ SameBytes s s'

/-- The call returns 0. -/
def Accepts (frame : Nat → Nat) (s : State) (self : Nat) (c : Call) : Prop :=
  ∃ r s', call frame s self c = .ok (r, s') ∧ r.ret = 0

/-- A range that does not fit is refused; one that fits and is not empty is accepted, a write of a
string of that length at least. -/
def RangeChecked (frame : Nat → Nat) (s : State) (self : Nat) (tls : ThreadLocalStorage)
    (offset length : Nat) (source : Option (List UInt8)) : Prop :=
  (tls.pageNum * pageSize < offset + length → Rejects frame s self (access offset length source)) ∧
    (offset + length ≤ tls.pageNum * pageSize → 1 ≤ length →
      (∀ buffer, source = some buffer → (cString buffer).length = length) →
        Accepts frame s self (access offset length source))

/-- What a call whose first page exists returns, and that a refused one has changed nothing. -/
theorem outcome_access (h : Settled frame s) (hframe : Function.Injective frame)
    (hacc : Access s s self offset length index p tls)
    (hn : n = moved offset length (countOf length source)) :
    ∃ r s', call frame s self (access offset length source) = .ok (r, s') ∧
      if offset + n ≤ (s.pages index).length * pageSize then r.ret = 0
      else r = ⟨-1, []⟩ ∧ SameBytes s s' := by
  cases source with
  | none =>
    obtain ⟨s', hcall, hsame⟩ := outcome_read h hacc hn
    refine ⟨_, s', hcall, ?_⟩
    split
    · rfl
    · exact ⟨rfl, hsame⟩
  | some buffer =>
    obtain ⟨s', hcall, hbytes⟩ := outcome_write h hframe hacc hn
    refine ⟨_, s', hcall, ?_⟩
    split
    · rfl
    · rename_i hfits
      refine ⟨rfl, fun i => ⟨(hbytes i).1, fun k hk => ?_⟩⟩
      rw [(hbytes i).2 k hk, if_neg fun hall => hfits hall.1]

theorem rejects_iff (h : Settled frame s) (hframe : Function.Injective frame) (hself : self ≠ noThread)
    (hentry : s.ttpArray index = ⟨self, some tls⟩)
    (hout : tls.pageNum * pageSize < offset + length) :
    Rejects frame s self (access offset length source) ↔
      tls.pageNum * pageSize % 2 ^ 32 < length ∨
        (offset < tls.pages.length * pageSize ∧
          ((tls.pages.length * pageSize : Nat) : Int) < offset + countOf length source) := by
  have hpages : s.pages index = tls.pages := State.pages_of_tls (by rw [hentry])
  by_cases hlong : tls.pageNum * pageSize % 2 ^ 32 < length
  · exact iff_of_true ⟨s, refused_of_long h hself hentry hlong offset source, fun i => ⟨rfl, fun _ _ => rfl⟩⟩
      (.inl hlong)
  · have hlength := Nat.le_of_not_lt hlong
    by_cases hpage : offset / pageSize < tls.pages.length
    · obtain ⟨p, hacc⟩ := access_of_entry h hself hentry hlength hpage
      obtain ⟨hnum, -⟩ := h.pageNum_eq hentry (List.ne_nil_of_length_pos (Nat.zero_lt_of_lt hpage))
      -- The range starts in the storage and ends behind it, so that it crosses the end of a page.
      have hstart : offset < tls.pages.length * pageSize := by
        unfold pageSize at *
        omega
      have hcross : pageSize < offset % pageSize + length := by
        unfold pageSize at *
        omega
      obtain ⟨r, s', hcall, hr⟩ := outcome_access h hframe hacc
        (n := moved offset length (countOf length source)) rfl
      rw [hpages, moved, if_pos hcross] at hr
      constructor
      · rintro ⟨s₁, hrefused, -⟩
        rw [hcall] at hrefused
        cases hrefused
        refine .inr ⟨hstart, ?_⟩
        split at hr
        · cases hr
        · omega
      · rintro (hless | ⟨-, hbehind⟩)
        · exact absurd hless hlong
        · rw [if_neg (by omega)] at hr
          obtain ⟨rfl, hsame⟩ := hr
          exact ⟨s', hcall, hsame⟩
    · constructor
      · rintro ⟨s', hcall, -⟩
        exact absurd (entry_lt_of_call h hself hentry hlength source hcall) hpage
      · rintro (hless | ⟨hoffset, -⟩)
        · exact absurd hless hlong
        · exact absurd (Nat.div_lt_of_lt_mul (by rwa [Nat.mul_comm])) hpage

theorem accepts_iff (h : Settled frame s) (hframe : Function.Injective frame) (hself : self ≠ noThread)
    (hentry : s.ttpArray index = ⟨self, some tls⟩)
    (hin : offset + length ≤ tls.pageNum * pageSize) (hone : 1 ≤ length)
    (hstring : ∀ buffer, source = some buffer → (cString buffer).length = length) :
    Accepts frame s self (access offset length source) ↔ tls.pages ≠ [] := by
  have hpages : s.pages index = tls.pages := State.pages_of_tls (by rw [hentry])
  constructor
  · rintro ⟨r, s', hcall, hr⟩ hempty
    by_cases hlong : tls.pageNum * pageSize % 2 ^ 32 < length
    · rw [refused_of_long h hself hentry hlong offset source] at hcall
      cases hcall
      cases hr
    · have hpage := entry_lt_of_call h hself hentry (Nat.le_of_not_lt hlong) source hcall
      rw [hempty] at hpage
      exact absurd hpage (Nat.not_lt_zero _)
  · intro hsome
    obtain ⟨hnum, hmod⟩ := h.pageNum_eq hentry hsome
    rw [hnum] at hin
    have hpage : offset / pageSize < tls.pages.length := by
      unfold pageSize at *
      omega
    have hlength : length ≤ tls.pageNum * pageSize % 2 ^ 32 := by
      rw [hmod]
      omega
    obtain ⟨p, hacc⟩ := access_of_entry h hself hentry hlength hpage
    obtain ⟨r, s', hcall, hr⟩ := outcome_access h hframe hacc
      (n := moved offset length (countOf length source)) rfl
    have hcount : countOf length source ≤ length := by
      cases source with
      | none => exact toInt32_le length
      | some buffer =>
        rw [countOf, hstring buffer rfl]
        exact toInt32_le length
    have hmoved : moved offset length (countOf length source) ≤ length := by
      unfold moved
      split
      · omega
      · exact Nat.le_refl _
    rw [hpages, if_pos (by omega)] at hr
    exact ⟨r, s', hcall, hr⟩

theorem Reached.afterCalls {calls : List (Nat × Call)} (h : Reached frame s)
    (hself : ∀ a ∈ calls, a.1 ≠ noThread) : Reached frame (afterCalls frame s calls) := by
  induction calls generalizing s with
  | nil => exact h
  | cons a rest ih =>
    obtain ⟨hfirst, hrest⟩ := List.forall_mem_cons.mp hself
    rw [Storage.afterCalls]
    split
    · rename_i hcall
      exact ih (.call h hfirst hcall) hrest
    · exact h

/-- Thread 7 has a storage of two pages. -/
def twoPages : State := afterCalls id (initial fun _ => 0) [(7, .create 5000)]

theorem reached_twoPages : Reached id twoPages :=
  Reached.afterCalls (.initial _) (by decide)

theorem entry_twoPages : twoPages.ttpArray 0 = ⟨7, some ⟨5000, 2, false, [0, 1]⟩⟩ := by
  decide +kernel

/-- Exactly when the two checks together refuse and accept the right ranges. -/
theorem rangeChecked_iff (hframe : Function.Injective frame) (h : Reached frame s)
    (hself : self ≠ noThread) (hentry : s.ttpArray index = ⟨self, some tls⟩) (offset length : Nat)
    (source : Option (List UInt8)) :
    RangeChecked frame s self tls offset length source ↔
      (tls.pageNum * pageSize < offset + length →
        tls.pageNum * pageSize % 2 ^ 32 < length ∨
          (offset < tls.pages.length * pageSize ∧
            ((tls.pages.length * pageSize : Nat) : Int) < offset + countOf length source)) ∧
      (offset + length ≤ tls.pageNum * pageSize → 1 ≤ length →
        (∀ buffer, source = some buffer → (cString buffer).length = length) → tls.pages ≠ []) := by
  have hsettled := h.settled hframe
  apply and_congr
  · exact forall_congr' fun hout => rejects_iff hsettled hframe hself hentry hout
  · exact forall_congr' fun hin => forall_congr' fun hone => forall_congr' fun hstring =>
      accepts_iff hsettled hframe hself hentry hin hone hstring

theorem rangeChecked_acrossPages :
    RangeChecked id twoPages 7 ⟨5000, 2, false, [0, 1]⟩ 8190 3 none :=
  (rangeChecked_iff Function.injective_id reached_twoPages (by decide) entry_twoPages 8190 3 none).mpr
    ⟨fun _ => .inr ⟨by decide, by decide +kernel⟩, fun hin => absurd hin (by decide)⟩

/-- The first byte behind a storage is looked for in a page that does not exist. -/
theorem not_rangeChecked_end :
    Reached id twoPages ∧ twoPages.ttpArray 0 = ⟨7, some ⟨5000, 2, false, [0, 1]⟩⟩ ∧
      ¬ RangeChecked id twoPages 7 ⟨5000, 2, false, [0, 1]⟩ 8192 1 none := by
  refine ⟨reached_twoPages, entry_twoPages, fun hchecked => ?_⟩
  obtain ⟨s', hcall, -⟩ := hchecked.1 (by decide)
  have hpage := entry_lt_of_call (reached_twoPages.settled Function.injective_id) (by decide)
    entry_twoPages (by decide) none hcall
  exact absurd hpage (by decide)

/-! ### What a write stores -/

/-- The write succeeds, and the range holds the first bytes of the buffer and the rest of the storage
what it held. -/
def WritesExactly (frame : Nat → Nat) (s : State) (self index offset length : Nat)
    (buffer : List UInt8) : Prop :=
  ∃ s', call frame s self (.write offset length buffer) = .ok (⟨0, []⟩, s') ∧
    (s'.pages index).length = (s.pages index).length ∧
    ∀ k, k < (s.pages index).length * pageSize → s'.byteAt index k =
      if offset ≤ k ∧ k < offset + length then buffer.getD (k - offset) 0 else s.byteAt index k

/-- `boundaryWrite` stores the string in the buffer, and at least one byte. The string fits into the
storage, and where it and the range differ in length the buffer has the bytes that are there already. -/
def StringFits (s : State) (index offset length : Nat) (buffer : List UInt8) : Prop :=
  let n := max 1 (toInt32 (cString buffer).length).toNat
  offset + n ≤ (s.pages index).length * pageSize ∧
    ∀ i, min n length ≤ i → i < max n length → s.byteAt index (offset + i) = buffer.getD i 0

/-- Two ranges with the same start are filled alike. -/
theorem filled_alike {α : Type} {old new : Nat → α} {size m : Nat} (hn : offset + n ≤ size)
    (hm : offset + m ≤ size) :
    (∀ k, k < size → (if offset ≤ k ∧ k < offset + n then new (k - offset) else old k) =
        if offset ≤ k ∧ k < offset + m then new (k - offset) else old k) ↔
      ∀ i, min n m ≤ i → i < max n m → old (offset + i) = new i := by
  constructor
  · intro hsame i hlow hhigh
    have hk := hsame (offset + i) (by omega)
    rw [Nat.add_sub_cancel_left] at hk
    by_cases hin : i < n
    · rw [if_pos (by omega), if_neg (by omega)] at hk
      exact hk.symm
    · rw [if_neg (by omega), if_pos (by omega)] at hk
      exact hk
  · intro hbetween k hk
    by_cases hboth : offset + min n m ≤ k ∧ k < offset + max n m
    · have hold := hbetween (k - offset) (by omega) (by omega)
      rw [Nat.add_sub_cancel' (by omega)] at hold
      rw [← hold, ite_self, ite_self]
    · by_cases hin : offset ≤ k ∧ k < offset + n
      · rw [if_pos hin, if_pos (by omega)]
      · rw [if_neg hin, if_neg (by omega)]

/-- A write that comes past its checks stores `n` bytes, or none if they do not fit. -/
theorem writesExactly_of_access (h : Settled frame s) (hframe : Function.Injective frame)
    (hacc : Access s s self offset length index p tls)
    (hn : n = moved offset length (toInt32 (cString buffer).length))
    (hin : offset + length ≤ (s.pages index).length * pageSize) :
    WritesExactly frame s self index offset length buffer ↔
      offset + n ≤ (s.pages index).length * pageSize ∧
        ∀ i, min n length ≤ i → i < max n length → s.byteAt index (offset + i) = buffer.getD i 0 := by
  obtain ⟨s', hcall, hbytes⟩ := outcome_write h hframe hacc hn
  obtain ⟨hsame, hstored⟩ := hbytes index
  by_cases hfits : offset + n ≤ (s.pages index).length * pageSize
  · rw [if_pos hfits] at hcall
    simp only [hfits, true_and] at hstored ⊢
    rw [← filled_alike hfits hin]
    constructor
    · rintro ⟨s₁, hcall₁, -, hstored₁⟩ k hk
      rw [hcall] at hcall₁
      cases hcall₁
      rw [← hstored k hk, hstored₁ k hk]
    · intro halike
      refine ⟨s', hcall, hsame, fun k hk => ?_⟩
      rw [hstored k hk, halike k hk]
  · refine iff_of_false ?_ fun hall => hfits hall.1
    rintro ⟨s₁, hcall₁, -⟩
    rw [hcall, if_neg hfits] at hcall₁
    cases hcall₁

/-- Exactly when a write stores the first bytes of its buffer in its range. -/
theorem writesExactly_iff (hframe : Function.Injective frame) (h : Reached frame s)
    (hself : self ≠ noThread) (hentry : s.ttpArray index = ⟨self, some tls⟩)
    (hin : offset + length ≤ tls.pageNum * pageSize) (buffer : List UInt8) :
    WritesExactly frame s self index offset length buffer ↔
      offset / pageSize < tls.pages.length ∧
        (offset % pageSize + length ≤ pageSize ∨ StringFits s index offset length buffer) := by
  have hsettled := h.settled hframe
  have hpages : s.pages index = tls.pages := State.pages_of_tls (by rw [hentry])
  by_cases hpage : offset / pageSize < tls.pages.length
  · obtain ⟨hnum, hmod⟩ :=
      hsettled.pageNum_eq hentry (List.ne_nil_of_length_pos (Nat.zero_lt_of_lt hpage))
    rw [hnum] at hin
    have hlength : length ≤ tls.pageNum * pageSize % 2 ^ 32 := by
      rw [hmod]
      omega
    obtain ⟨p, hacc⟩ := access_of_entry hsettled hself hentry hlength hpage
    rw [← hpages] at hin
    rw [writesExactly_of_access hsettled hframe hacc rfl hin]
    by_cases hcross : pageSize < offset % pageSize + length
    · rw [moved, if_pos hcross]
      simp only [hpage, true_and, Nat.not_le_of_lt hcross, false_or]
      rfl
    · rw [moved, if_neg hcross]
      refine iff_of_true ⟨hin, fun i hlow hhigh => ?_⟩ ⟨hpage, .inl (Nat.le_of_not_lt hcross)⟩
      rw [Nat.min_self] at hlow
      rw [Nat.max_self] at hhigh
      omega
  · refine iff_of_false ?_ fun hall => hpage hall.1
    rintro ⟨s', hcall, -⟩
    by_cases hlong : tls.pageNum * pageSize % 2 ^ 32 < length
    · have hrefused := refused_of_long hsettled hself hentry hlong offset (some buffer)
      rw [access, hcall] at hrefused
      cases hrefused
    · exact hpage (entry_lt_of_call hsettled hself hentry (Nat.le_of_not_lt hlong) (some buffer) hcall)

theorem writesExactly_acrossPages : WritesExactly id twoPages 7 0 4094 3 [97, 98, 99] := by
  apply (writesExactly_iff Function.injective_id reached_twoPages (by decide) entry_twoPages
    (by decide) [97, 98, 99]).mpr
  refine ⟨by decide, .inr ⟨by decide +kernel, fun i hlow hhigh => ?_⟩⟩
  have hstring : max 1 (toInt32 (cString [97, 98, 99]).length).toNat = 3 := by decide +kernel
  omega

/-- A string that ends in the range. -/
theorem not_writesExactly_zeroByte :
    Reached id twoPages ∧ twoPages.ttpArray 0 = ⟨7, some ⟨5000, 2, false, [0, 1]⟩⟩ ∧
      ¬ WritesExactly id twoPages 7 0 4094 4 [97, 0, 99, 100] := by
  refine ⟨reached_twoPages, entry_twoPages, fun hexact => ?_⟩
  have hsettled := reached_twoPages.settled Function.injective_id
  have hlength : 4 ≤ 2 * pageSize % 2 ^ 32 := by decide
  have hpage : 4094 / pageSize < [0, 1].length := by decide
  obtain ⟨p, hacc⟩ := access_of_entry hsettled (by decide) entry_twoPages hlength hpage
  have hpages : (twoPages.pages 0).length = 2 := by
    rw [State.pages_of_tls (by rw [entry_twoPages])]
    rfl
  have hsame := ((writesExactly_of_access hsettled Function.injective_id hacc rfl
    (by rw [hpages]; decide)).mp hexact).2 2 (by decide +kernel) (by decide +kernel)
  exact absurd hsame (by decide +kernel)

end

end OSChallenges.Storage
