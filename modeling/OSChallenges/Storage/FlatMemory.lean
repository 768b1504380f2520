import OSChallenges.Library.Outcomes
import OSChallenges.Storage.Pages

/-!
# Reading across pages, whatever the pages are

What `boundaryRead` returns depends on the addresses in the page table and on the memory only. So it can be
told on a machine that has nothing else, where pages may have any size and any addresses.
-/

namespace OSChallenges.Storage

open Program

/-- A machine with one page table and memory that is never closed. An index past the end of the table is
an error, and so are the operations that `boundaryRead` does not use. -/
def flat (addrs : List Nat) (memory : Nat → UInt8) : (o : Op) → Unit → Except Fault (o.Res × Unit)
  | .pageAddr _ page, u =>
    match addrs[page]? with
    | some addr => .ok (addr, u)
    | none => .error .outOfBounds
  | .mprotect _ _ _, u => .ok ((), u)
  | .copyOut addr len, u => .ok ((List.range len).map fun k => memory (addr + k), u)
  | .findIndex _, _ | .pageNum _, _ | .lock _, _ | .unlock _, _ | .refCount _ _, _ | .decRef _ _, _
  | .replacePage _ _ _, _ | .mmap _, _ | .copyIn _ _, _ | .copyPage _ _, _ => .error .segv

/-- The bytes of a page. -/
def pageBytes (memory : Nat → UInt8) (ps addr : Nat) : List UInt8 :=
  (List.range ps).map fun k => memory (addr + k)

/-- The bytes of pages, one page after the other. -/
def contents (memory : Nat → UInt8) (ps : Nat) (addrs : List Nat) : List UInt8 :=
  addrs.flatMap (pageBytes memory ps)

/-- What `boundaryRead` ought to return for a read at `r` in page `pageNum`. -/
def slice (memory : Nat → UInt8) (ps : Nat) (addrs : List Nat) (pageNum r len : Nat) :
    Option (List UInt8) :=
  if (addrs.length - pageNum) * ps < r + len then none
  else some (((contents memory ps (addrs.drop pageNum)).drop r).take len)

variable {addrs : List Nat} {memory : Nat → UInt8} {ps index page addr len n o k : Nat} {u : Unit}

/-! ### Bytes -/

theorem length_contents : (contents memory ps addrs).length = addrs.length * ps := by
  induction addrs with
  | nil => simp [contents]
  | cons addr rest ih =>
    have hcons : contents memory ps (addr :: rest) = pageBytes memory ps addr ++ contents memory ps rest :=
      List.flatMap_cons ..
    rw [hcons, List.length_append, ih, List.length_cons, pageBytes, List.length_map, List.length_range,
      Nat.succ_mul, Nat.add_comm]

theorem contents_page (h : addrs[page]? = some addr) : contents memory ps (addrs.drop page) =
    pageBytes memory ps addr ++ contents memory ps (addrs.drop (page + 1)) := by
  obtain ⟨hlt, rfl⟩ := List.getElem?_eq_some_iff.mp h
  rw [List.drop_eq_getElem_cons hlt]
  exact List.flatMap_cons ..

theorem drop_contents (h : addrs[page]? = some addr) (ho : o < ps) :
    (contents memory ps (addrs.drop page)).drop o =
      memory (addr + o) :: (contents memory ps (addrs.drop page)).drop (o + 1) := by
  have hlen : (pageBytes memory ps addr).length = ps := by
    rw [pageBytes, List.length_map, List.length_range]
  rw [contents_page h, List.drop_append_of_le_length (by omega),
    List.drop_append_of_le_length (by omega), List.drop_eq_getElem_cons (by omega), List.cons_append]
  simp only [pageBytes, List.getElem_map, List.getElem_range]

theorem drop_contents_end (h : addrs[page]? = some addr) :
    (contents memory ps (addrs.drop page)).drop ps = contents memory ps (addrs.drop (page + 1)) := by
  have hlen : (pageBytes memory ps addr).length = ps := by
    rw [pageBytes, List.length_map, List.length_range]
  rw [contents_page h, List.drop_append_of_le_length (by omega), List.drop_of_length_le (by omega),
    List.nil_append]

/-! ### Operations -/

theorem wp_flat_pageAddr {Q : Nat → Unit → Prop} (h : addrs[page]? = some addr) :
    (pageAddr index page).wp (total (flat addrs memory)) Q u ↔ Q addr u := by
  apply Prog.wp_total_of_eq
  rw [flat, h]

theorem wp_flat_mprotect {Q : Unit → Unit → Prop} {prot : Prot} :
    (mprotect addr len prot).wp (total (flat addrs memory)) Q u ↔ Q () u :=
  Prog.wp_total_of_eq rfl

theorem wp_flat_copyOut {Q : List UInt8 → Unit → Prop} :
    (copyOut addr 1).wp (total (flat addrs memory)) Q u ↔ Q [memory addr] u :=
  Prog.wp_total_of_eq rfl

theorem wp_flat_nextPage {Q : Position → Unit → Prop} (h : addrs[page + 1]? = some addr) :
    (nextPage ps index page).wp (total (flat addrs memory)) Q u ↔
      Q ⟨page + 1, 0, addr, addr + ps⟩ u := by
  unfold nextPage
  rw [Prog.wp_bind, wp_flat_pageAddr h, Prog.wp_bind, wp_flat_pageAddr h, Prog.wp_pure]

/-! ### The loops -/

/-- The position is at byte `o` of its page, or at its end. -/
structure At (addrs : List Nat) (ps o : Nat) (p : Position) : Prop where
  page : ∃ addr, addrs[p.pageNum]? = some addr ∧ p.start + p.count = addr + o ∧
    p.endPage = addr + ps
  le : o ≤ ps

variable {p : Position}

theorem At.lt (h : At addrs ps o p) : p.pageNum < addrs.length := by
  obtain ⟨addr, hpage, -⟩ := h.page
  exact (List.getElem?_eq_some_iff.mp hpage).1

theorem At.atEnd_iff (h : At addrs ps o p) : p.endPage ≤ p.start + p.count ↔ o = ps := by
  obtain ⟨addr, -, hstart, hend⟩ := h.page
  have hle := h.le
  omega

theorem At.succ (h : At addrs ps o p) (ho : o < ps) :
    At addrs ps (o + 1) { p with count := p.count + 1 } := by
  obtain ⟨addr, hpage, hstart, hend⟩ := h.page
  refine ⟨⟨addr, hpage, ?_, hend⟩, ho⟩
  show p.start + (p.count + 1) = addr + (o + 1)
  omega

theorem At.next (h : addrs[page]? = some addr) : At addrs ps 0 ⟨page, 0, addr, addr + ps⟩ :=
  ⟨⟨addr, h, rfl, rfl⟩, Nat.zero_le ps⟩

theorem At.bound (h : At addrs ps o p) : p.pageNum * ps + o ≤ addrs.length * ps := by
  have hmul := Nat.mul_le_mul_right ps (Nat.succ_le_of_lt h.lt)
  have hle := h.le
  rw [Nat.succ_mul] at hmul
  omega

theorem wp_flat_boundaryScan {Q : Bool → Unit → Prop} (hat : At addrs ps o p) (hps : 1 ≤ ps)
    (hQ : Q (decide (p.pageNum * ps + o + n ≤ addrs.length * ps)) u) :
    (boundaryScan ps index addrs.length n p).wp (total (flat addrs memory)) Q u := by
  induction n generalizing p o with
  | zero =>
    rw [Nat.add_zero, decide_eq_true hat.bound] at hQ
    exact hQ
  | succ n ih =>
    have hsucc : (p.pageNum + 1) * ps = p.pageNum * ps + ps := Nat.succ_mul ..
    rw [boundaryScan]
    by_cases hend : o = ps
    · rw [if_pos (hat.atEnd_iff.mpr hend)]
      by_cases hlast : addrs.length ≤ p.pageNum + 1
      · have hmul := Nat.mul_le_mul_right ps hlast
        rw [decide_eq_false (by omega)] at hQ
        rw [if_pos (by omega)]
        exact hQ
      · obtain ⟨addr, hpage⟩ : ∃ addr, addrs[p.pageNum + 1]? = some addr :=
          ⟨_, List.getElem?_eq_getElem (Nat.lt_of_not_le hlast)⟩
        rw [if_neg (by omega), Prog.wp_bind, wp_flat_nextPage hpage]
        refine ih (At.succ (At.next hpage) hps) ?_
        show Q (decide ((p.pageNum + 1) * ps + (0 + 1) + n ≤ addrs.length * ps)) u
        rwa [hsucc, show p.pageNum * ps + ps + (0 + 1) + n = p.pageNum * ps + o + (n + 1) by omega]
    · rw [if_neg fun h => hend (hat.atEnd_iff.mp h)]
      have hle := hat.le
      refine ih (hat.succ (by omega)) ?_
      show Q (decide (p.pageNum * ps + (o + 1) + n ≤ addrs.length * ps)) u
      rwa [show p.pageNum * ps + (o + 1) + n = p.pageNum * ps + o + (n + 1) by omega]

theorem wp_flat_byte {Q : List UInt8 → Unit → Prop} (hat : At addrs ps o p) (ho : o < ps)
    (hQ : ∀ byte, (contents memory ps (addrs.drop p.pageNum)).drop o =
      byte :: (contents memory ps (addrs.drop p.pageNum)).drop (o + 1) → Q [byte] u) :
    (copyOut (p.start + p.count) 1).wp (total (flat addrs memory)) Q u := by
  obtain ⟨addr, hpage, hstart, -⟩ := hat.page
  rw [wp_flat_copyOut, hstart]
  exact hQ _ (drop_contents hpage ho)

theorem wp_flat_readBytes {Q : Position × List UInt8 → Unit → Prop}
    (hat : At addrs ps o p) (hps : 1 ≤ ps) (hfits : p.pageNum * ps + o + n ≤ addrs.length * ps)
    (hQ : ∀ last o', At addrs ps o' last →
      Q (last, ((contents memory ps (addrs.drop p.pageNum)).drop o).take n) u) :
    (readBytes ps index n p).wp (total (flat addrs memory)) Q u := by
  induction n generalizing p o Q with
  | zero => exact hQ p o hat
  | succ n ih =>
    have hsucc : (p.pageNum + 1) * ps = p.pageNum * ps + ps := Nat.succ_mul ..
    rw [readBytes, Prog.wp_bind, readTurn]
    by_cases hend : o = ps
    · subst hend
      have hnext : p.pageNum + 1 < addrs.length := by
        by_contra hge
        have hmul := Nat.mul_le_mul_right o (Nat.le_of_not_lt hge)
        omega
      obtain ⟨here, hhere, -⟩ := hat.page
      obtain ⟨addr, hpage⟩ : ∃ addr, addrs[p.pageNum + 1]? = some addr :=
        ⟨_, List.getElem?_eq_getElem hnext⟩
      rw [if_pos (hat.atEnd_iff.mpr rfl), Prog.wp_bind, wp_flat_pageAddr hhere, Prog.wp_bind,
        wp_flat_mprotect, Prog.wp_bind, wp_flat_pageAddr hpage, Prog.wp_bind, wp_flat_mprotect,
        wp_flat_nextPage hpage, Prog.wp_bind]
      refine wp_flat_byte (At.next hpage) hps fun byte hbyte => ?_
      rw [Prog.wp_bind]
      refine ih ((At.next hpage).succ hps) ?_ fun last o' hlast => ?_
      · show (p.pageNum + 1) * o + (0 + 1) + n ≤ addrs.length * o
        omega
      · rw [Prog.wp_pure]
        have hslice := hQ last o' hlast
        rw [drop_contents_end hhere, ← List.drop_zero (l := contents memory o _), hbyte,
          List.take_succ_cons] at hslice
        exact hslice
    · have hle := hat.le
      rw [if_neg fun h => hend (hat.atEnd_iff.mp h), Prog.wp_pure, Prog.wp_bind]
      refine wp_flat_byte hat (by omega) fun byte hbyte => ?_
      rw [Prog.wp_bind]
      refine ih (hat.succ (by omega)) ?_ fun last o' hlast => ?_
      · show p.pageNum * ps + (o + 1) + n ≤ addrs.length * ps
        omega
      · rw [Prog.wp_pure]
        have hslice := hQ last o' hlast
        rw [hbyte, List.take_succ_cons] at hslice
        exact hslice

/-! ### The function -/

theorem run_boundaryRead {pageNum r a : Nat} (hps : 1 ≤ ps) (hpage : addrs[pageNum]? = some a)
    (hr : r < ps) (hlen : 1 ≤ len) :
    (boundaryRead ps pageNum addrs.length len index (a + r) (a + ps)).run (flat addrs memory) u =
      .ok (slice memory ps addrs pageNum r len, u) := by
  have hat : At addrs ps r ⟨pageNum, 0, a + r, a + ps⟩ := ⟨⟨a, hpage, rfl, rfl⟩, Nat.le_of_lt hr⟩
  have hlt : pageNum < addrs.length := hat.lt
  have hsub := Nat.sub_mul addrs.length pageNum ps
  have hmul := Nat.mul_le_mul_right ps (Nat.le_of_lt hlt)
  have hwp : (boundaryRead ps pageNum addrs.length len index (a + r) (a + ps)).wp
      (total (flat addrs memory)) (fun res _ => res = slice memory ps addrs pageNum r len) u := by
    unfold slice
    rw [boundaryRead, Int.toNat_natCast, Prog.wp_bind]
    apply wp_flat_boundaryScan hat hps
    by_cases hfits : pageNum * ps + r + len ≤ addrs.length * ps
    · rw [decide_eq_true hfits, if_neg (by simp), Prog.wp_bind, Nat.max_eq_right hlen]
      refine wp_flat_readBytes hat hps hfits fun last o' hlast => ?_
      obtain ⟨addr, hlast, -⟩ := hlast.page
      rw [Prog.wp_bind, wp_flat_pageAddr hlast, Prog.wp_bind, wp_flat_mprotect, Prog.wp_pure,
        if_neg (by omega)]
    · rw [decide_eq_false hfits, if_pos (by simp), Prog.wp_pure, if_pos (by omega)]
  obtain ⟨res, u', hrun, rfl⟩ := Prog.wp_total_iff.mp hwp
  exact hrun

theorem length_slice {pageNum r : Nat} {bytes : List UInt8}
    (h : slice memory ps addrs pageNum r len = some bytes) : bytes.length = len := by
  unfold slice at h
  split at h
  · cases h
  · rename_i hfits
    cases h
    rw [List.length_take, List.length_drop, length_contents, List.length_drop]
    omega

/-- The read fails exactly if it goes past the last page, and else returns the bytes from its start on. All
indices it uses are in the table. -/
theorem boundaryRead_exact {pageNum r a : Nat} (hps : 1 ≤ ps) (hpage : addrs[pageNum]? = some a)
    (hr : r < ps) (hlen : 1 ≤ len) :
    (boundaryRead ps pageNum addrs.length len index (a + r) (a + ps)).run (flat addrs memory) u =
      .ok (slice memory ps addrs pageNum r len, u) ∧
    (slice memory ps addrs pageNum r len = none ↔ (addrs.length - pageNum) * ps < r + len) ∧
    ∀ bytes, slice memory ps addrs pageNum r len = some bytes → bytes.length = len := by
  refine ⟨run_boundaryRead hps hpage hr hlen, ?_, fun bytes => length_slice⟩
  unfold slice
  by_cases hpast : (addrs.length - pageNum) * ps < r + len
  · rw [if_pos hpast]
    exact iff_of_true rfl hpast
  · rw [if_neg hpast]
    exact iff_of_false (Option.some_ne_none _) hpast

/-- Three pages of five bytes that are not in order. -/
theorem boundaryRead_three :
    (boundaryRead 5 0 ([40, 10, 70] : List Nat).length (9 : Nat) 0 (40 + 3) (40 + 5)).run
      (flat [40, 10, 70] UInt8.ofNat) () = .ok (slice UInt8.ofNat 5 [40, 10, 70] 0 3 9, ()) ∧
    slice UInt8.ofNat 5 [40, 10, 70] 0 3 9 = some [43, 44, 10, 11, 12, 13, 14, 70, 71] :=
  ⟨(boundaryRead_exact (by decide) rfl (by decide) (by decide)).1, by decide⟩

/-! ### The machine with protections -/

/-- What `boundaryRead` does. -/
def Reads (index : Nat) : Op → Prop
  | .pageAddr i _ => i = index
  | .mprotect _ _ _ | .copyOut _ _ => True
  | _ => False

/-- The table and the memory of the storage are those of the flat machine. -/
def Flattens (index : Nat) (addrs : List Nat) (memory : Nat → UInt8) (s : State) (_ : Unit) : Prop :=
  (s.pages index).map (fun p => (s.heap p).addr) = addrs ∧ s.memory = memory

theorem uses_nextPage (ps index page : Nat) : (nextPage ps index page).Uses (Reads index) :=
  Prog.uses_bind (Prog.uses_perform rfl) fun _ =>
    Prog.uses_bind (Prog.uses_perform rfl) fun _ => Prog.uses_pure _

theorem uses_boundaryScan (ps index : Nat) (numOfPages : Int) (n : Nat) (p : Position) :
    (boundaryScan ps index numOfPages n p).Uses (Reads index) := by
  induction n generalizing p with
  | zero => exact Prog.uses_pure _
  | succ n ih =>
    rw [boundaryScan]
    split
    · split
      · exact Prog.uses_pure _
      · exact Prog.uses_bind (uses_nextPage ..) fun _ => ih _
    · exact ih _

theorem uses_readTurn (ps index : Nat) (p : Position) : (readTurn ps index p).Uses (Reads index) := by
  unfold readTurn
  split
  · refine Prog.uses_bind (Prog.uses_perform rfl) fun _ => ?_
    refine Prog.uses_bind (Prog.uses_perform trivial) fun _ => ?_
    refine Prog.uses_bind (Prog.uses_perform rfl) fun _ => ?_
    exact Prog.uses_bind (Prog.uses_perform trivial) fun _ => uses_nextPage ..
  · exact Prog.uses_pure _

theorem uses_readBytes (ps index n : Nat) (p : Position) :
    (readBytes ps index n p).Uses (Reads index) := by
  induction n generalizing p with
  | zero => exact Prog.uses_pure _
  | succ n ih =>
    refine Prog.uses_bind (uses_readTurn ..) fun _ => ?_
    refine Prog.uses_bind (Prog.uses_perform trivial) fun _ => ?_
    exact Prog.uses_bind (ih _) fun _ => Prog.uses_pure _

theorem uses_boundaryRead (ps pageNum : Nat) (numOfPages len : Int) (index startRead endPage : Nat) :
    (boundaryRead ps pageNum numOfPages len index startRead endPage).Uses (Reads index) := by
  refine Prog.uses_bind (uses_boundaryScan ..) fun fits => ?_
  split
  · exact Prog.uses_pure _
  · refine Prog.uses_bind (uses_readBytes ..) fun _ => ?_
    refine Prog.uses_bind (Prog.uses_perform rfl) fun _ => ?_
    exact Prog.uses_bind (Prog.uses_perform trivial) fun _ => Prog.uses_pure _

/-- As long as nothing faults, protections change nothing. -/
theorem flattens_exec {frame : Nat → Nat} {s s' : State} {op : Op} {r : op.Res}
    (hreads : Reads index op) (h : Flattens index addrs memory s u)
    (hexec : exec frame op s = .ok (r, s')) :
    ∃ u', flat addrs memory op u = .ok (r, u') ∧ Flattens index addrs memory s' u' := by
  obtain ⟨haddrs, hmemory⟩ := h
  cases op with
  | pageAddr i page =>
    obtain rfl : i = index := hreads
    obtain ⟨p, hp, heq⟩ := Outcomes.ok_of_bind hexec
    cases heq
    have hentry := State.page_of_pageAt hp
    refine ⟨u, ?_, haddrs, hmemory⟩
    rw [flat, ← haddrs, List.getElem?_map, hentry]
    rfl
  | mprotect addr len prot =>
    cases hexec
    have hsame : (s.mprotect addr len prot).ttpArray = s.ttpArray ∧
        (s.mprotect addr len prot).heap = s.heap ∧ (s.mprotect addr len prot).memory = s.memory := by
      unfold State.mprotect
      split
      · exact ⟨rfl, rfl, rfl⟩
      · exact ⟨rfl, rfl, rfl⟩
    refine ⟨u, rfl, ?_, hsame.2.2.trans hmemory⟩
    rw [State.pages, hsame.1, hsame.2.1]
    exact haddrs
  | copyOut addr len =>
    rw [exec] at hexec
    by_cases hopen : s.accessible Prot.readable addr len = true
    · rw [if_pos hopen] at hexec
      cases hexec
      refine ⟨u, ?_, haddrs, hmemory⟩
      rw [flat, ← hmemory]
      rfl
    · rw [if_neg hopen] at hexec
      cases hexec
  | _ => exact absurd hreads id

/-- A read that comes back from the machine with protections has returned the same. -/
theorem boundaryRead_returns {frame : Nat → Nat} {s s' : State} {pageNum r a : Nat}
    {res : Option (List UInt8)} (hps : 1 ≤ ps)
    (hpage : ((s.pages index).map fun p => (s.heap p).addr)[pageNum]? = some a) (hr : r < ps)
    (hlen : 1 ≤ len)
    (hrun : (boundaryRead ps pageNum (s.pages index).length len index (a + r) (a + ps)).run (exec frame) s =
      .ok (res, s')) :
    res = slice s.memory ps ((s.pages index).map fun p => (s.heap p).addr) pageNum r len := by
  have hsim : ∀ op, Reads index op → ∀ t u r t',
      Flattens index ((s.pages index).map fun p => (s.heap p).addr) s.memory t u →
      exec frame op t = .ok (r, t') → ∃ u', flat ((s.pages index).map fun p => (s.heap p).addr)
        s.memory op u = .ok (r, u') ∧
        Flattens index ((s.pages index).map fun p => (s.heap p).addr) s.memory t' u' :=
    fun op hreads t u r t' => flattens_exec hreads
  have hstart : Flattens index ((s.pages index).map fun p => (s.heap p).addr) s.memory s () :=
    ⟨rfl, rfl⟩
  obtain ⟨u', hflat, -⟩ := Prog.run_of_simulates hsim (uses_boundaryRead ..) hstart hrun
  have hexact : (boundaryRead ps pageNum ((s.pages index).map fun p => (s.heap p).addr).length len index
      (a + r) (a + ps)).run (flat ((s.pages index).map fun p => (s.heap p).addr) s.memory) () =
        .ok (slice s.memory ps ((s.pages index).map fun p => (s.heap p).addr) pageNum r len, ()) :=
    run_boundaryRead hps hpage hr hlen
  rw [List.length_map] at hexact
  rw [hexact] at hflat
  cases hflat
  rfl

end OSChallenges.Storage
