import OSChallenges.Storage.CopyStages
import OSChallenges.Storage.PrivateCopies

/-!
# A call as its caller sees it

What a thread that is inside `tls_read` or `tls_write` relies on: its array, the pages that have its bytes,
and what it has noted. A rule over this says what each operation may find and does to the array, whatever the
other threads do meanwhile; they may change the reference counts as they like. By it a call comes to the
result of the specification and leaves the array that the specification leaves.
-/

namespace OSChallenges.Storage

open Program Words

/-- Where a call stands: nothing is done before the entry has been found, or behind the unlocking. -/
inductive Phase
  | start
  | found
  | inside
  | after
  deriving DecidableEq, Repr

/-- `table` is the pages that the bytes of the array are in. -/
structure Caller where
  index : Nat
  table : List Nat
  array : Option PrivateArray
  phase : Phase
  note : Note

namespace Caller

def saw (l : Caller) (addr : Nat) : Caller := { l with note := { l.note with seen := addr } }

def counted (l : Caller) (page : Nat) (count : Int) : Caller :=
  { l with note := l.note.counted page count }

/-- The note after an operation. -/
def noted (l : Caller) (o : Op) (r : o.Res) : Caller := { l with note := l.note.after o r }

end Caller

/-- What a thread has to meet before an operation, and what it knows of the answer. -/
def callerRule (self : Nat) : Rule Op.Res Caller
  | .findIndex tid, Q, l => tid = self ∧ l.phase = .start ∧
    ∀ index, (l.array ≠ none → index = l.index) → Q index { l with index := index, phase := .found }
  | .pageNum index, Q, l => l.phase = .found ∧ index = l.index ∧ Q (l.array.map PrivateArray.pages) l
  | .lock index, Q, l => l.phase = .found ∧ index = l.index ∧ l.array ≠ none ∧
    Q () { l with phase := .inside }
  | .unlock index, Q, l => l.phase = .inside ∧ index = l.index ∧ l.note.stage = .none ∧
    Q () { l.noted (.unlock index) () with phase := .after }
  | .pageAddr index page, Q, l => l.phase = .inside ∧ index = l.index ∧
    match l.note.stage with
    | .none => ∀ addr, l.table[page]? = some addr → addr % pageSize = 0 → Q addr (l.saw addr)
    | .replaced entry _ fresh => entry = page ∧ Q fresh (l.saw fresh)
    | _ => False
  | .refCount index page, Q, l => l.phase = .inside ∧ index = l.index ∧ l.note.stage = .none ∧
    ∀ count, Q count (l.counted page count)
  | .decRef index page, Q, l => l.phase = .inside ∧ index = l.index ∧ l.note.stage = .none ∧
    l.table[page]? = some l.note.seen ∧ Q () (l.noted (.decRef index page) ())
  | .replacePage index page addr, Q, l => l.phase = .inside ∧ index = l.index ∧
    (∃ source, l.note.stage = .mapped page source addr) ∧ Q () (l.noted (.replacePage index page addr) ())
  | .mprotect _ _ _, Q, l => l.phase = .inside ∧ Q () l
  | .mmap prot, Q, l => l.phase = .inside ∧ (∃ page source, l.note.stage = .left page source) ∧
    ∀ addr, addr % pageSize = 0 → Q addr (l.noted (.mmap prot) addr)
  | .copyOut addr len, Q, l => l.phase = .inside ∧ l.note.stage = .none ∧
    ∃ page base o, l.table[page]? = some base ∧ addr = base + o ∧ o + len ≤ pageSize ∧
      ∀ a, l.array = some a → Q (a.read (page * pageSize + o) len) l
  | .copyIn addr bytes, Q, l => l.phase = .inside ∧ l.note.stage = .none ∧
    ∃ page base o, l.table[page]? = some base ∧ page ∈ l.note.alone ∧ addr = base + o ∧
      o + bytes.length ≤ pageSize ∧
      ∀ a, l.array = some a → Q () { l with array := some (a.write (page * pageSize + o) bytes) }
  | .copyPage dst src, Q, l => l.phase = .inside ∧ ∃ page, l.note.stage = .replaced page src dst ∧
    Q () { l.noted (.copyPage dst src) () with table := l.table.set page dst }

/-- The thread is inside its storage, and is not copying a page. -/
structure Caller.Inside (l : Caller) (index : Nat) (table : List Nat) (a : PrivateArray) : Prop where
  phase : l.phase = .inside
  index : l.index = index
  table : l.table = table
  array : l.array = some a
  stage : l.note.stage = .none

section

variable {self index page addr o n : Nat} {l : Caller} {table : List Nat} {a : PrivateArray}

theorem Caller.Inside.saw (h : l.Inside index table a) (addr : Nat) : (l.saw addr).Inside index table a :=
  ⟨h.phase, h.index, h.table, h.array, h.stage⟩

theorem Caller.stage_counted (l : Caller) (page : Nat) (count : Int) :
    (l.counted page count).note.stage = l.note.stage := by
  unfold Caller.counted Note.counted
  split
  · rfl
  · rfl

theorem Caller.Inside.counted (h : l.Inside index table a) (page : Nat) (count : Int) :
    (l.counted page count).Inside index table a :=
  ⟨h.phase, h.index, h.table, h.array, (l.stage_counted page count).trans h.stage⟩

theorem Caller.alone_counted {count : Int} (h : ¬ 1 < count) : page ∈ (l.counted page count).note.alone := by
  unfold Caller.counted Note.counted
  rw [if_neg h]
  exact List.mem_cons_self ..

/-! ### The single operations -/

theorem caller_findIndex {Q : Nat → Caller → Prop} (h : l.phase = .start)
    (hQ : ∀ index, Q index { l with index := index, phase := .found }) :
    (findIndex self).wp (callerRule self) Q l :=
  ⟨rfl, h, fun index _ => hQ index⟩

theorem caller_pageNum {Q : Option Nat → Caller → Prop} (h : l.phase = .found)
    (hQ : Q (l.array.map PrivateArray.pages) l) : (pageNum l.index).wp (callerRule self) Q l :=
  ⟨h, rfl, hQ⟩

theorem caller_pageAddr {Q : Nat → Caller → Prop} (h : l.Inside index table a)
    (hQ : ∀ addr, table[page]? = some addr → addr % pageSize = 0 → Q addr (l.saw addr)) :
    (pageAddr index page).wp (callerRule self) Q l := by
  refine ⟨h.phase, h.index.symm, ?_⟩
  rw [h.stage, h.table]
  exact hQ

theorem caller_refCount {Q : Int → Caller → Prop} (h : l.Inside index table a)
    (hQ : ∀ count, Q count (l.counted page count)) :
    (refCount index page).wp (callerRule self) Q l :=
  ⟨h.phase, h.index.symm, h.stage, hQ⟩

theorem caller_mprotect {Q : Unit → Caller → Prop} {len : Nat} {prot : Prot} (h : l.Inside index table a)
    (hQ : Q () l) : (mprotect addr len prot).wp (callerRule self) Q l :=
  ⟨h.phase, hQ⟩

theorem caller_copyOut {Q : List UInt8 → Caller → Prop} {base len : Nat} (h : l.Inside index table a)
    (hpage : table[page]? = some base) (hlen : o + len ≤ pageSize)
    (hQ : Q (a.read (page * pageSize + o) len) l) :
    (copyOut (base + o) len).wp (callerRule self) Q l := by
  refine ⟨h.phase, h.stage, page, base, o, ?_, rfl, hlen, ?_⟩
  · rw [h.table, hpage]
  · intro b hb
    cases h.array.symm.trans hb
    exact hQ

theorem caller_copyIn {Q : Unit → Caller → Prop} {base : Nat} {bytes : List UInt8}
    (h : l.Inside index table a) (hpage : table[page]? = some base) (halone : page ∈ l.note.alone)
    (hlen : o + bytes.length ≤ pageSize)
    (hQ : Q () { l with array := some (a.write (page * pageSize + o) bytes) }) :
    (copyIn (base + o) bytes).wp (callerRule self) Q l := by
  refine ⟨h.phase, h.stage, page, base, o, ?_, halone, rfl, hlen, ?_⟩
  · rw [h.table, hpage]
  · intro b hb
    cases h.array.symm.trans hb
    exact hQ

theorem caller_close {Q : Caller → Prop} (h : l.Inside index table a)
    (hQ : ∀ addr, Q (l.saw addr)) :
    (pageAddr index page).wp (callerRule self)
      (fun addr l => (mprotect addr pageSize .none).wp (callerRule self) (fun _ => Q) l) l := by
  apply caller_pageAddr h
  intro addr _ _
  exact caller_mprotect (h.saw addr) (hQ addr)

/-- The start of a page is looked up twice. -/
theorem caller_nextPage {Q : Position → Caller → Prop} (h : l.Inside index table a)
    (hQ : ∀ addr, table[page + 1]? = some addr → addr % pageSize = 0 →
      Q ⟨page + 1, 0, addr, addr + pageSize⟩ (l.saw addr)) :
    (nextPage pageSize index page).wp (callerRule self) Q l := by
  simp only [nextPage, Prog.wp_bind, Prog.wp_pure]
  apply caller_pageAddr h
  intro start hstart haddr
  apply caller_pageAddr (h.saw start)
  intro addr hpage _
  cases hstart.symm.trans hpage
  exact hQ start hstart haddr

/-- A copy leaves the bytes of the array where they are, in a page that is the thread's own. -/
theorem caller_copyOnWrite {Q : Nat → Caller → Prop} (h : l.Inside index table a)
    (hpage : table[page]? = some addr) (hseen : l.note.seen = addr)
    (hQ : ∀ fresh l', fresh % pageSize = 0 → l'.Inside index (table.set page fresh) a →
      page ∈ l'.note.alone → Q fresh l') :
    (copyOnWrite pageSize index page addr).wp (callerRule self) Q l := by
  simp only [copyOnWrite, Prog.wp_bind, Prog.wp_pure]
  refine ⟨h.phase, h.index.symm, h.stage, ?_, ?_⟩
  · rw [h.table, hpage, hseen]
  refine ⟨h.phase, ⟨page, l.note.seen, rfl⟩, ?_⟩
  intro fresh hfresh
  refine ⟨h.phase, h.index.symm, ⟨l.note.seen, rfl⟩, ?_⟩
  refine ⟨h.phase, h.index.symm, rfl, ?_⟩
  refine ⟨h.phase, ?_⟩
  refine ⟨h.phase, page, ?_, ?_⟩
  · show Stage.replaced page l.note.seen fresh = _
    rw [hseen]
  refine ⟨h.phase, ?_⟩
  apply hQ fresh _ hfresh
  · refine ⟨h.phase, h.index, ?_, h.array, rfl⟩
    show l.table.set page fresh = _
    rw [h.table]
  · exact List.mem_cons_self ..

/-! ### The loops -/

/-- A position stands at an offset of a page of the table; at its end the offset is the page size. -/
structure Position.In (table : List Nat) (page o : Nat) (pos : Position) : Prop where
  pageNum : pos.pageNum = page
  base : ∃ addr, table[page]? = some addr ∧ pos.start + pos.count = addr + o ∧
    pos.endPage = addr + pageSize

variable {pos : Position}

theorem Position.In.atEnd_iff (h : pos.In table page o) :
    pos.endPage ≤ pos.start + pos.count ↔ pageSize ≤ o := by
  obtain ⟨addr, -, hstart, hend⟩ := h.base
  rw [hstart, hend]
  omega

theorem Position.In.succ (h : pos.In table page o) :
    Position.In table page (o + 1) { pos with count := pos.count + 1 } := by
  obtain ⟨addr, hpage, hstart, hend⟩ := h.base
  refine ⟨h.pageNum, addr, hpage, ?_, hend⟩
  rw [← Nat.add_assoc, hstart, Nat.add_assoc]

theorem Position.In.page_lt (h : pos.In table page o) : page < table.length := by
  obtain ⟨addr, hpage, -⟩ := h.base
  exact (List.getElem?_eq_some_iff.mp hpage).1

theorem Position.in_start {addr : Nat} (h : table[page]? = some addr) (o : Nat) :
    Position.In table page o ⟨page, 0, addr + o, addr + pageSize⟩ :=
  ⟨rfl, addr, h, rfl, rfl⟩

theorem caller_boundaryScan {Q : Bool → Caller → Prop} (n : Nat) (h : l.Inside index table a)
    (hpos : pos.In table page o) (ho : o ≤ pageSize)
    (hQ : ∀ l', l'.Inside index table a → l'.note.alone = l.note.alone →
      Q (decide (page * pageSize + o + n ≤ table.length * pageSize)) l') :
    (boundaryScan pageSize index table.length n pos).wp (callerRule self) Q l := by
  have hpage := hpos.page_lt
  induction n generalizing page o pos l with
  | zero =>
    have hfits : page * pageSize + o + 0 ≤ table.length * pageSize := by
      unfold pageSize at *
      omega
    have hzero := hQ l h rfl
    rw [decide_eq_true hfits] at hzero
    exact hzero
  | succ n ih =>
    rw [boundaryScan]
    by_cases hend : pos.endPage ≤ pos.start + pos.count
    · rw [if_pos hend]
      have hofull : o = pageSize := Nat.le_antisymm ho (hpos.atEnd_iff.mp hend)
      by_cases hlast : (table.length : Int) ≤ pos.pageNum + 1
      · rw [if_pos hlast]
        rw [hpos.pageNum] at hlast
        have hfull : ¬ page * pageSize + o + (n + 1) ≤ table.length * pageSize := by
          unfold pageSize at *
          omega
        have hnow := hQ l h rfl
        rw [decide_eq_false hfull] at hnow
        exact hnow
      · rw [if_neg hlast]
        rw [hpos.pageNum] at hlast ⊢
        rw [Prog.wp_bind]
        apply caller_nextPage h
        intro addr hnext _
        have hstart := (Position.in_start hnext 0).succ
        apply ih (h.saw addr) hstart (by decide) _ hstart.page_lt
        intro l' hl' halone
        convert hQ l' hl' halone using 3
        unfold pageSize at *
        omega
    · rw [if_neg hend]
      have hroom : o < pageSize := by
        rw [hpos.atEnd_iff] at hend
        omega
      apply ih h hpos.succ hroom _ hpage
      rwa [show page * pageSize + (o + 1) + n = page * pageSize + o + (n + 1) by omega]

theorem caller_readTurn {Q : Position → Caller → Prop} (h : l.Inside index table a)
    (hpos : pos.In table page o) (ho : o ≤ pageSize)
    (hQ : ∀ pos' l' page' o', l'.Inside index table a → pos'.In table page' o' → o' < pageSize →
      page' * pageSize + o' = page * pageSize + o → Q pos' l') :
    (readTurn pageSize index pos).wp (callerRule self) Q l := by
  rw [readTurn]
  by_cases hend : pos.endPage ≤ pos.start + pos.count
  · rw [if_pos hend, hpos.pageNum]
    simp only [Prog.wp_bind]
    apply caller_close h
    intro closed
    apply caller_pageAddr (h.saw closed)
    intro addr _ _
    apply caller_mprotect ((h.saw closed).saw addr)
    apply caller_nextPage ((h.saw closed).saw addr)
    intro start hnext _
    have hofull : o = pageSize := Nat.le_antisymm ho (hpos.atEnd_iff.mp hend)
    apply hQ _ _ (page + 1) 0 (((h.saw closed).saw addr).saw start) (Position.in_start hnext 0) (by decide)
    rw [hofull, Nat.add_zero, Nat.succ_mul]
  · rw [if_neg hend]
    have hroom : o < pageSize := by
      rw [hpos.atEnd_iff] at hend
      omega
    exact hQ pos l page o h hpos hroom rfl

theorem read_succ (a : PrivateArray) (k n : Nat) : a.read k (n + 1) = a.read k 1 ++ a.read (k + 1) n := by
  unfold PrivateArray.read
  rw [List.range_succ_eq_map, List.map_cons, List.map_map]
  show a.byte (k + 0) :: _ = a.byte (k + 0) :: _
  congr 1
  apply List.map_congr_left
  intro i _
  show a.byte (k + (i + 1)) = a.byte (k + 1 + i)
  rw [Nat.add_assoc, Nat.add_comm 1 i]

theorem caller_readBytes {Q : Position × List UInt8 → Caller → Prop} (n : Nat) {k : Nat}
    (h : l.Inside index table a) (hpos : pos.In table page o) (ho : o ≤ pageSize)
    (hk : page * pageSize + o = k)
    (hQ : ∀ last l', l'.Inside index table a → Q (last, a.read k n) l') :
    (readBytes pageSize index n pos).wp (callerRule self) Q l := by
  induction n generalizing l pos page o k Q with
  | zero => exact hQ pos l h
  | succ n ih =>
    simp only [readBytes, Prog.wp_bind]
    apply caller_readTurn h hpos ho
    intro pos' l' page' o' hl' hpos' hroom hsame
    obtain ⟨addr, hpage, hstart, -⟩ := hpos'.base
    rw [hstart]
    apply caller_copyOut hl' hpage (by omega)
    rw [hsame, hk]
    apply ih (k := k + 1) hl' hpos'.succ hroom (by omega)
    intro last l'' hl''
    rw [read_succ] at hQ
    exact hQ last l'' hl''

theorem caller_writeTurn {Q : Position → Caller → Prop} (h : l.Inside index table a)
    (hpos : pos.In table page o) (ho : o ≤ pageSize) (halone : page ∈ l.note.alone)
    (hQ : ∀ pos' l' table' page' o', l'.Inside index table' a → table'.length = table.length →
      pos'.In table' page' o' → page' ∈ l'.note.alone → o' < pageSize →
      page' * pageSize + o' = page * pageSize + o → Q pos' l') :
    (writeTurn pageSize index pos).wp (callerRule self) Q l := by
  rw [writeTurn]
  by_cases hend : pos.endPage ≤ pos.start + pos.count
  · rw [if_pos hend, hpos.pageNum]
    have hofull : o = pageSize := Nat.le_antisymm ho (hpos.atEnd_iff.mp hend)
    have hsame : (page + 1) * pageSize + 0 = page * pageSize + o := by
      rw [hofull, Nat.add_zero, Nat.succ_mul]
    simp only [Prog.wp_bind]
    apply caller_close h
    intro closed
    apply caller_refCount (h.saw closed)
    intro count
    have h₁ := (h.saw closed).counted (page + 1) count
    by_cases hcount : 1 < count
    · rw [if_pos hcount]
      simp only [Prog.wp_bind, Prog.wp_pure]
      apply caller_pageAddr h₁
      intro addr hpage _
      apply caller_mprotect (h₁.saw addr)
      apply caller_pageAddr (h₁.saw addr)
      intro cowAd1 hpage' _
      cases hpage.symm.trans hpage'
      apply caller_copyOnWrite ((h₁.saw addr).saw addr) hpage rfl
      intro fresh l' _ hl' hown
      have hself : (table.set (page + 1) fresh)[page + 1]? = some fresh :=
        List.getElem?_set_self (List.getElem?_eq_some_iff.mp hpage).1
      exact hQ _ l' _ (page + 1) 0 hl' List.length_set (Position.in_start hself 0) hown (by decide) hsame
    · rw [if_neg hcount]
      simp only [Prog.wp_bind]
      apply caller_pageAddr h₁
      intro addr _ _
      apply caller_mprotect (h₁.saw addr)
      apply caller_nextPage (h₁.saw addr)
      intro start hnext _
      exact hQ _ _ table (page + 1) 0 ((h₁.saw addr).saw start) rfl (Position.in_start hnext 0)
        (Caller.alone_counted hcount) (by decide) hsame
  · rw [if_neg hend]
    have hroom : o < pageSize := by
      rw [hpos.atEnd_iff] at hend
      omega
    exact hQ pos l table page o h rfl hpos halone hroom rfl

theorem write_nil (a : PrivateArray) (k : Nat) : a.write k [] = a := by
  unfold PrivateArray.write
  congr 1
  funext i
  rw [if_neg]
  rw [List.length_nil]
  omega

theorem write_cons (a : PrivateArray) (k : Nat) (byte : UInt8) (rest : List UInt8) :
    a.write k (byte :: rest) = (a.write k [byte]).write (k + 1) rest := by
  unfold PrivateArray.write
  congr 1
  funext i
  simp only [List.length_cons, List.length_nil]
  by_cases hfirst : i = k
  · subst hfirst
    rw [if_pos (by omega), if_neg (by omega), if_pos (by omega), Nat.sub_self]
    rfl
  · by_cases hrest : k + 1 ≤ i ∧ i < k + 1 + rest.length
    · obtain ⟨j, hj⟩ : ∃ j, i = k + 1 + j := ⟨i - (k + 1), by omega⟩
      rw [if_pos (by omega), if_pos hrest, hj, Nat.add_sub_cancel_left, Nat.add_assoc,
        Nat.add_sub_cancel_left, Nat.add_comm 1 j, List.getD_cons_succ]
    · rw [if_neg (by omega), if_neg hrest, if_neg (by omega)]

/-- The loop of `boundaryWrite` stores the bytes in the array. -/
theorem caller_writeBytes {Q : Position → Caller → Prop} (bytes : List UInt8) {k : Nat}
    (h : l.Inside index table a) (hpos : pos.In table page o) (ho : o ≤ pageSize)
    (halone : page ∈ l.note.alone) (hk : page * pageSize + o = k)
    (hQ : ∀ pos' l' table', l'.Inside index table' (a.write k bytes) → Q pos' l') :
    (writeBytes pageSize index bytes pos).wp (callerRule self) Q l := by
  induction bytes generalizing l pos page o k a table with
  | nil =>
    rw [write_nil] at hQ
    exact hQ pos l table h
  | cons byte rest ih =>
    simp only [writeBytes, Prog.wp_bind]
    apply caller_writeTurn h hpos ho halone
    intro pos' l' table' page' o' hl' _ hpos' hown hroom hsame
    obtain ⟨addr, hpage, hstart, -⟩ := hpos'.base
    rw [hstart]
    apply caller_copyIn hl' hpage hown (by
      rw [List.length_singleton]
      omega)
    rw [hsame, hk]
    have hwritten : Caller.Inside { l' with array := some (a.write k [byte]) } index table'
        (a.write k [byte]) :=
      ⟨hl'.phase, hl'.index, hl'.table, rfl, hl'.stage⟩
    apply ih (k := k + 1) hwritten hpos'.succ hroom hown (by omega)
    intro pos'' l'' table'' hl''
    rw [← write_cons] at hl''
    exact hQ pos'' l'' table'' hl''

/-! ### Whole calls -/

/-- The call begins: the caller knows its array and is doing nothing. -/
structure Caller.Ready (l : Caller) (array : Option PrivateArray) : Prop where
  phase : l.phase = .start
  owned : l.array = array
  stage : l.note.stage = .none
  table : ∀ a, array = some a → l.table.length = a.pages
  small : ∀ a, array = some a → a.pages ≤ 2 ^ 12

/-- The call ends as the specification says. -/
structure Caller.Ends (l : Caller) (arrays : Arrays) (self : Nat) (c : Call) (r : Result) : Prop where
  result : r = (specCall arrays self c).1
  array : l.array = (specCall arrays self c).2 self
  phase : l.phase ≠ .inside
  stage : l.note.stage = .none

theorem caller_unlock {Q : Caller → Prop} (h : l.Inside index table a)
    (hQ : ∀ l', l'.array = some a → l'.phase ≠ .inside → l'.note.stage = .none → Q l') :
    (unlock index).wp (callerRule self) (fun _ => Q) l := by
  refine ⟨h.phase, h.index.symm, h.stage, ?_⟩
  exact hQ _ h.array (show Phase.after ≠ .inside by decide) h.stage

theorem caller_boundaryRead {Q : Option (List UInt8) → Caller → Prop} {k length : Nat} {len : Int}
    (h : l.Inside index table a) (hpage : table[page]? = some addr) (ho : o < pageSize)
    (hk : page * pageSize + o = k) (hlen : len = length) (hpos : 1 ≤ length)
    (hQ : ∀ l' table', l'.Inside index table' a →
      Q (if k + length ≤ table.length * pageSize then some (a.read k length) else none) l') :
    (boundaryRead pageSize page table.length len index (addr + o) (addr + pageSize)).wp
      (callerRule self) Q l := by
  subst hlen
  have hstart := Position.in_start hpage o
  have hmax : max 1 length = length := Nat.max_eq_right hpos
  simp only [boundaryRead, Prog.wp_bind, Int.toNat_natCast, hmax]
  apply caller_boundaryScan length h hstart (Nat.le_of_lt ho)
  intro l' hl' _
  rw [hk]
  by_cases hfits : k + length ≤ table.length * pageSize
  · rw [decide_eq_true hfits]
    simp only [Bool.not_true, Bool.false_eq_true, if_false, Prog.wp_bind, Prog.wp_pure]
    apply caller_readBytes length hl' hstart (Nat.le_of_lt ho) hk
    intro last l'' hl''
    apply caller_close hl''
    intro closed
    have hend := hQ _ table (hl''.saw closed)
    rw [if_pos hfits] at hend
    exact hend
  · rw [decide_eq_false hfits]
    have hend := hQ l' table hl'
    rw [if_neg hfits] at hend
    exact hend

theorem caller_boundaryWrite {Q : Bool → Caller → Prop} {k length : Nat} {src : List UInt8}
    (h : l.Inside index table a) (hpage : table[page]? = some addr) (ho : o < pageSize)
    (halone : page ∈ l.note.alone) (hk : page * pageSize + o = k)
    (hsrc : (cString src).length = length) (hpos : 1 ≤ length) (hsmall : length < 2 ^ 31)
    (hQ : ∀ l' table', l'.Inside index table'
        (if k + length ≤ table.length * pageSize then a.write k (src.take length) else a) →
      Q (decide (k + length ≤ table.length * pageSize)) l') :
    (boundaryWrite src pageSize page table.length index (addr + o) (addr + pageSize)).wp
      (callerRule self) Q l := by
  have hstart := Position.in_start hpage o
  have hmax : max 1 length = length := Nat.max_eq_right hpos
  have hlen : toInt32 (cString src).length = length := by
    rw [hsrc, toInt32_of_lt hsmall]
  simp only [boundaryWrite, Prog.wp_bind, hlen, Int.toNat_natCast, hmax]
  apply caller_boundaryScan length h hstart (Nat.le_of_lt ho)
  intro l' hl' hown
  rw [← hown] at halone
  rw [hk]
  by_cases hfits : k + length ≤ table.length * pageSize
  · rw [decide_eq_true hfits]
    simp only [Bool.not_true, Bool.false_eq_true, if_false, Prog.wp_bind, Prog.wp_pure]
    rw [take_eq hsrc]
    apply caller_writeBytes _ hl' hstart (Nat.le_of_lt ho) halone hk
    intro last l'' table' hl''
    apply caller_close hl''
    intro closed
    have hend := hQ (l''.saw closed) table'
    rw [if_pos hfits, decide_eq_true hfits] at hend
    exact hend (hl''.saw closed)
  · rw [decide_eq_false hfits]
    have hend := hQ l' table
    rw [if_neg hfits, decide_eq_false hfits] at hend
    exact hend hl'

theorem caller_openFirst {Q : Unit → Caller → Prop} (h : l.Inside index table a)
    (hQ : ∀ l' table', l'.Inside index table' a → table'.length = table.length →
      page ∈ l'.note.alone → Q () l') :
    (openFirst index page).wp (callerRule self) Q l := by
  simp only [openFirst, Prog.wp_bind]
  apply caller_refCount h
  intro count
  have h₁ := h.counted page count
  by_cases hcount : 1 < count
  · rw [if_pos hcount]
    simp only [Prog.wp_bind]
    apply caller_pageAddr h₁
    intro addr hpage _
    apply caller_copyOnWrite (h₁.saw addr) hpage rfl
    intro fresh l' _ hl' hown
    exact hQ l' _ hl' List.length_set hown
  · rw [if_neg hcount]
    simp only [Prog.wp_bind]
    apply caller_pageAddr h₁
    intro addr _ _
    apply caller_mprotect (h₁.saw addr)
    exact hQ _ table (h₁.saw addr) rfl (Caller.alone_counted hcount)

theorem caller_guarded {Q : Result → Caller → Prop} {array : Option PrivateArray} {length : Nat}
    {rest : Nat → Nat → Code Result} (h : l.Ready array)
    (hrest : ∀ a index l', array = some a → length ≤ a.size → a.pages ≤ 2 ^ 12 →
      l'.Inside index l.table a → (rest index a.pages).wp (callerRule self) Q l')
    (hQ : ∀ l', (∀ a, array = some a → a.size < length) → l'.array = array → l'.phase ≠ .inside →
      l'.note.stage = .none → Q ⟨-1, []⟩ l') :
    (guarded self length rest).wp (callerRule self) Q l := by
  simp only [guarded, Prog.wp_bind]
  apply caller_findIndex h.phase
  intro index
  apply caller_pageNum (l := { l with index := index, phase := .found }) rfl
  have harray := h.owned
  cases array with
  | none =>
    rw [harray]
    simp only [Option.map_none]
    refine hQ _ ?_ rfl (show Phase.found ≠ .inside by decide) h.stage
    intro a ha
    cases ha
  | some a =>
    have hsmall := h.small a rfl
    have hsize : a.pages * pageSize % 2 ^ 32 = a.size := by
      unfold PrivateArray.size pageSize
      omega
    rw [harray]
    simp only [Option.map_some]
    rw [hsize]
    by_cases hlength : a.size < length
    · rw [if_pos hlength]
      refine hQ _ ?_ rfl (show Phase.found ≠ .inside by decide) h.stage
      intro b hb
      cases hb
      exact hlength
    · rw [if_neg hlength]
      simp only [Prog.wp_bind]
      refine ⟨rfl, rfl, Option.some_ne_none a, ?_⟩
      exact hrest a index _ rfl (Nat.le_of_not_lt hlength) hsmall ⟨rfl, rfl, rfl, rfl, h.stage⟩

theorem caller_within {length : Nat} (hpage : table[page]? = some addr) (hcross : ¬ pageSize < o + length) :
    page * pageSize + o + length ≤ table.length * pageSize := by
  have hlt := (List.getElem?_eq_some_iff.mp hpage).1
  unfold pageSize at *
  omega

theorem specCall_short {c : Call} {offset length : Nat} {arrays : Arrays}
    (hc : c = .read offset length ∨ ∃ buffer, c = .write offset length buffer)
    (h : ∀ a, arrays self = some a → a.size < length) : specCall arrays self c = (⟨-1, []⟩, arrays) := by
  obtain rfl | ⟨buffer, rfl⟩ := hc
  · rw [specCall]
    cases ha : arrays self with
    | none => rfl
    | some a =>
      have hlt := h a ha
      simp only
      rw [if_neg (by omega)]
  · rw [specCall]
    cases ha : arrays self with
    | none => rfl
    | some a =>
      have hlt := h a ha
      simp only
      rw [if_neg (by omega)]

theorem Caller.ends_refused {c : Call} {arrays : Arrays}
    (hspec : specCall arrays self c = (⟨-1, []⟩, arrays)) (harray : l.array = arrays self)
    (hphase : l.phase ≠ .inside) (hstage : l.note.stage = .none) : l.Ends arrays self c ⟨-1, []⟩ :=
  ⟨by rw [hspec], by rw [hspec, harray], hphase, hstage⟩

/-- What the size of the array says about the numbers of the code. -/
theorem Caller.Ready.numbers {array : Option PrivateArray} {length : Nat} (h : l.Ready array)
    (ha : array = some a) (hlength : length ≤ a.size) :
    l.table.length * pageSize = a.size ∧ toInt32 a.pages = l.table.length ∧ length < 2 ^ 31 := by
  have htable := h.table a ha
  have hsmall := h.small a ha
  have hint : length < 2 ^ 31 := by
    unfold PrivateArray.size pageSize at hlength
    omega
  refine ⟨by rw [htable, PrivateArray.size], ?_, hint⟩
  rw [toInt32_of_lt (by omega), htable]

theorem caller_tlsRead {offset length : Nat} {arrays : Arrays} (h : l.Ready (arrays self))
    (hlegal : Legal arrays self (.read offset length)) :
    (tlsRead self offset length).wp (callerRule self)
      (fun r l' => l'.Ends arrays self (.read offset length) r) l := by
  apply caller_guarded h
  · intro a index l' ha hlength _ hl'
    obtain ⟨-, hone⟩ := hlegal a ha
    obtain ⟨hoffset, hroom, hrem⟩ : offset = offset / pageSize * pageSize + offset % pageSize ∧
        offset % pageSize < pageSize ∧ offset - offset / pageSize * pageSize = offset % pageSize :=
      offset_split rfl rfl
    obtain ⟨hsize, hnum, hint⟩ := h.numbers ha hlength
    have hend : ∀ (l'' : Caller) r, l''.array = some a → l''.phase ≠ .inside →
        l''.note.stage = .none →
        r = (if offset + length ≤ a.size then (⟨0, a.read offset length⟩ : Result) else ⟨-1, []⟩) →
        l''.Ends arrays self (.read offset length) r := by
      intro l'' r harray hphase hstage hr
      have hspec : specCall arrays self (.read offset length) = (r, arrays) := by
        rw [specCall, ha, hr]
        simp only
        split
        · rfl
        · rfl
      exact ⟨by rw [hspec], by rw [hspec, harray, ← ha], hphase, hstage⟩
    rw [hrem, hnum, toInt32_of_lt hint]
    simp only [Prog.wp_bind]
    apply caller_pageAddr hl'
    intro addr hpage _
    apply caller_mprotect (hl'.saw addr)
    apply caller_pageAddr (hl'.saw addr)
    intro start hstart _
    cases hpage.symm.trans hstart
    apply caller_pageAddr ((hl'.saw addr).saw addr)
    intro last hlast _
    cases hpage.symm.trans hlast
    have h₁ := ((hl'.saw addr).saw addr).saw addr
    by_cases hcross : pageSize < offset % pageSize + length
    · rw [if_pos ((crosses_iff _ _ length).mpr hcross)]
      simp only [Prog.wp_bind]
      apply caller_boundaryRead h₁ hpage hroom hoffset.symm rfl hone
      intro l'' table' hl''
      rw [hsize]
      apply caller_unlock hl''
      intro l₃ harray hphase hstage
      by_cases hfits : offset + length ≤ a.size
      · rw [if_pos hfits]
        apply hend l₃ _ harray hphase hstage
        rw [if_pos hfits]
      · rw [if_neg hfits]
        apply hend l₃ _ harray hphase hstage
        rw [if_neg hfits]
    · rw [if_neg ((crosses_iff _ _ length).not.mpr hcross)]
      simp only [Prog.wp_bind, Prog.wp_pure]
      have hfits := caller_within hpage hcross
      rw [← hoffset, hsize] at hfits
      apply caller_copyOut h₁ hpage (by omega)
      rw [← hoffset]
      apply caller_close h₁
      intro closed
      apply caller_unlock (h₁.saw closed)
      intro l₃ harray hphase hstage
      apply hend l₃ _ harray hphase hstage
      rw [if_pos hfits]
  · intro l' hshort harray hphase hstage
    exact Caller.ends_refused (specCall_short (.inl rfl) hshort) harray hphase hstage

theorem caller_tlsWrite {offset length : Nat} {buffer : List UInt8} {arrays : Arrays}
    (h : l.Ready (arrays self)) (hlegal : Legal arrays self (.write offset length buffer)) :
    (tlsWrite self offset length buffer).wp (callerRule self)
      (fun r l' => l'.Ends arrays self (.write offset length buffer) r) l := by
  obtain ⟨hbuffer, hrange⟩ := hlegal
  apply caller_guarded h
  · intro a index l' ha hlength _ hl'
    obtain ⟨-, hone⟩ := hrange a ha
    obtain ⟨hoffset, hroom, hrem⟩ : offset = offset / pageSize * pageSize + offset % pageSize ∧
        offset % pageSize < pageSize ∧ offset - offset / pageSize * pageSize = offset % pageSize :=
      offset_split rfl rfl
    obtain ⟨hsize, hnum, hint⟩ := h.numbers ha hlength
    have hend : ∀ (l'' : Caller), l''.phase ≠ .inside → l''.note.stage = .none →
        l''.array = some (if offset + length ≤ a.size then a.write offset (buffer.take length) else a) →
        l''.Ends arrays self (.write offset length buffer)
          ⟨if offset + length ≤ a.size then 0 else -1, []⟩ := by
      intro l'' hphase hstage harray
      by_cases hfits : offset + length ≤ a.size
      · rw [if_pos hfits] at harray ⊢
        have hspec : specCall arrays self (.write offset length buffer) =
            (⟨0, []⟩, Function.update arrays self (some (a.write offset (buffer.take length)))) := by
          rw [specCall, ha]
          exact if_pos hfits
        refine ⟨by rw [hspec], ?_, hphase, hstage⟩
        rw [hspec, harray]
        show _ = Function.update arrays self _ self
        rw [Function.update_self]
      · rw [if_neg hfits] at harray ⊢
        apply Caller.ends_refused _ (harray.trans ha.symm) hphase hstage
        rw [specCall, ha]
        exact if_neg hfits
    rw [hrem, hnum]
    simp only [Prog.wp_bind]
    apply caller_openFirst hl'
    intro l₁ table₁ hl₁ hlen hown
    apply caller_pageAddr hl₁
    intro addr hpage _
    apply caller_pageAddr (hl₁.saw addr)
    intro last hlast _
    cases hpage.symm.trans hlast
    have h₁ := (hl₁.saw addr).saw addr
    rw [← hlen] at hsize ⊢
    by_cases hcross : pageSize < offset % pageSize + length
    · rw [if_pos ((crosses_iff _ _ length).mpr hcross)]
      simp only [Prog.wp_bind]
      apply caller_boundaryWrite h₁ hpage hroom hown hoffset.symm hbuffer hone hint
      intro l'' table' hl''
      rw [hsize] at hl'' ⊢
      apply caller_unlock hl''
      intro l₃ harray hphase hstage
      have hlast := hend l₃ hphase hstage harray
      by_cases hfits : offset + length ≤ a.size
      · rw [if_pos hfits] at hlast
        rw [decide_eq_true hfits]
        exact hlast
      · rw [if_neg hfits] at hlast
        rw [decide_eq_false hfits]
        exact hlast
    · rw [if_neg ((crosses_iff _ _ length).not.mpr hcross)]
      simp only [Prog.wp_bind, Prog.wp_pure]
      have hfits := caller_within hpage hcross
      rw [← hoffset, hsize] at hfits
      have hbytes : (buffer.take length).length = length := by
        rw [← take_eq hbuffer, List.length_map, List.length_range]
      rw [take_eq hbuffer]
      apply caller_copyIn h₁ hpage hown (by omega)
      rw [← hoffset]
      have hwritten : Caller.Inside
          { (l₁.saw addr).saw addr with array := some (a.write offset (buffer.take length)) } index table₁
          (a.write offset (buffer.take length)) :=
        ⟨h₁.phase, h₁.index, h₁.table, rfl, h₁.stage⟩
      apply caller_close hwritten
      intro closed
      apply caller_unlock (hwritten.saw closed)
      intro l₃ harray hphase hstage
      have hlast := hend l₃ hphase hstage
      rw [if_pos hfits, if_pos hfits] at hlast
      exact hlast harray
  · intro l' hshort harray hphase hstage
    exact Caller.ends_refused (specCall_short (.inr ⟨buffer, rfl⟩) hshort) harray hphase hstage

end

end OSChallenges.Storage
