import OSChallenges.Storage.Effects

/-!
# A call by itself

What a thread that reads or writes its storage knows of the state: the index and the page addresses of
its own storage, and the protections that it has asked for. A rule over this local state says what
each operation may find, whatever other threads do; by it the code of `tls_read` and `tls_write` only
copies from and to pages that it has opened itself.
-/

namespace OSChallenges.Storage

open Program Words

/-- `table` is nothing if the thread has no storage; `mapped` is the page it has mapped last. -/
structure Local where
  index : Nat
  table : Option (List Nat)
  mapped : Option Nat
  opened : Nat → Prot

/-- The thread is inside its storage. -/
def Local.Owns (l : Local) (index : Nat) (table : List Nat) : Prop :=
  l.index = index ∧ l.table = some table

/-- The protections that a thread has asked for, after one more operation. -/
def openedAfter : (o : Op) → o.Res → (Nat → Prot) → Nat → Prot
  | .mprotect addr len prot, _, opened => fun f =>
    if addr % pageSize = 0 ∧ addr ≤ f * pageSize ∧ f * pageSize < addr + len then prot
    else opened f
  | .mmap prot, addr, opened => Function.update opened (State.frameOf addr) prot
  | _, _, opened => opened

/-- The caller has opened the bytes from an address on. -/
def Opened (opened : Nat → Prot) (allows : Prot → Bool) (addr len : Nat) : Prop :=
  ∀ k, k < len → allows (opened (State.frameOf (addr + k))) = true

/-- What a thread has to meet before an operation, and what it knows of the answer. -/
def localRule (self : Nat) : Rule Op.Res Local
  | .findIndex tid, Q, l => tid = self ∧ ∀ index table, Q index { l with index := index, table := table }
  | .pageNum index, Q, l => index = l.index ∧ ∀ r : Option Nat, (r = none ↔ l.table = none) → Q r l
  | .lock index, Q, l => (∃ table, l.Owns index table) ∧ Q () l
  | .unlock index, Q, l => (∃ table, l.Owns index table) ∧ Q () l
  | .pageAddr index page, Q, l => ∃ table, l.Owns index table ∧
    ∀ addr, table[page]? = some addr → addr % pageSize = 0 → Q addr l
  | .refCount index _, Q, l => (∃ table, l.Owns index table) ∧ ∀ r, Q r l
  | .decRef index _, Q, l => (∃ table, l.Owns index table) ∧ Q () l
  | .replacePage index page addr, Q, l => ∃ table, l.Owns index table ∧
    l.mapped = some addr ∧
    (page < table.length → Q () { l with table := some (table.set page addr) })
  | .mprotect addr len prot, Q, l =>
    Q () { l with opened := openedAfter (.mprotect addr len prot) () l.opened }
  | .mmap prot, Q, l => prot = .readWrite ∧
    ∀ addr, addr % pageSize = 0 → (∀ table, l.table = some table → addr ∉ table) →
      Q addr { l with mapped := some addr, opened := openedAfter (.mmap prot) addr l.opened }
  | .copyOut addr len, Q, l => Opened l.opened Prot.readable addr len ∧ ∀ bytes, Q bytes l
  | .copyIn addr bytes, Q, l => Opened l.opened Prot.writable addr bytes.length ∧ Q () l
  | .copyPage dst src, Q, l => Opened l.opened Prot.readable src pageSize ∧
    Opened l.opened Prot.writable dst pageSize ∧ Q () l

namespace Local

/-- One page is opened or closed. -/
def setPage (l : Local) (addr : Nat) (prot : Prot) : Local :=
  { l with opened := Function.update l.opened (State.frameOf addr) prot }

end Local

section

variable {self index page addr n : Nat} {l : Local} {table : List Nat} {prot : Prot}
  {allows : Prot → Bool}

theorem Local.Owns.setPage (h : l.Owns index table) (addr : Nat) (prot : Prot) :
    (l.setPage addr prot).Owns index table := h

theorem local_pageAddr {Q : Nat → Local → Prop} (h : l.Owns index table)
    (hQ : ∀ addr, table[page]? = some addr → addr % pageSize = 0 → Q addr l) :
    (pageAddr index page).wp (localRule self) Q l :=
  ⟨table, h, hQ⟩

theorem local_findIndex {Q : Nat → Local → Prop}
    (hQ : ∀ index table, Q index { l with index := index, table := table }) :
    (findIndex self).wp (localRule self) Q l :=
  ⟨rfl, hQ⟩

theorem local_pageNum {Q : Option Nat → Local → Prop}
    (hQ : ∀ num, (num = none ↔ l.table = none) → Q num l) :
    (pageNum l.index).wp (localRule self) Q l :=
  ⟨rfl, hQ⟩

theorem local_copyOut {Q : List UInt8 → Local → Prop} {len : Nat}
    (h : Opened l.opened Prot.readable addr len) (hQ : ∀ bytes, Q bytes l) :
    (copyOut addr len).wp (localRule self) Q l :=
  ⟨h, hQ⟩

theorem local_refCount {Q : Int → Local → Prop} (h : l.Owns index table) (hQ : ∀ count, Q count l) :
    (refCount index page).wp (localRule self) Q l :=
  ⟨⟨table, h⟩, hQ⟩

theorem openedAfter_mprotect (opened : Nat → Prot) (haddr : addr % pageSize = 0) :
    openedAfter (.mprotect addr pageSize prot) () opened =
      Function.update opened (State.frameOf addr) prot := by
  have hstart : addr = State.frameOf addr * pageSize := by
    unfold State.frameOf pageSize at *
    omega
  funext f
  show (if _ then _ else _) = _
  by_cases hf : f = State.frameOf addr
  · rw [hf, Function.update_self, if_pos]
    refine ⟨haddr, Nat.le_of_eq hstart, ?_⟩
    rw [← hstart]
    exact Nat.lt_add_of_pos_right (by decide)
  · rw [Function.update_of_ne hf, if_neg]
    rintro ⟨-, hle, hlt⟩
    apply hf
    rw [hstart] at hle hlt
    generalize State.frameOf addr = g at *
    unfold pageSize at *
    omega

theorem local_mprotect {Q : Unit → Local → Prop} (haddr : addr % pageSize = 0)
    (hQ : Q () (l.setPage addr prot)) :
    (mprotect addr pageSize prot).wp (localRule self) Q l := by
  show Q () { l with opened := openedAfter (.mprotect addr pageSize prot) () l.opened }
  rw [openedAfter_mprotect l.opened haddr]
  exact hQ

theorem opened_of_page {opened : Nat → Prot} {start len : Nat} (haddr : addr % pageSize = 0)
    (hstart : addr ≤ start) (hend : start + len ≤ addr + pageSize)
    (h : allows (opened (State.frameOf addr)) = true) : Opened opened allows start len := by
  intro k hk
  have hframe : State.frameOf (start + k) = State.frameOf addr := by
    unfold State.frameOf pageSize at *
    omega
  rw [hframe]
  exact h

theorem local_nextPage {Q : Position → Local → Prop} (h : l.Owns index table)
    (hQ : ∀ addr, table[page + 1]? = some addr → addr % pageSize = 0 →
      Q ⟨page + 1, 0, addr, addr + pageSize⟩ l) :
    (nextPage pageSize index page).wp (localRule self) Q l := by
  simp only [nextPage, Prog.wp_bind, Prog.wp_pure]
  apply local_pageAddr h
  intro start hstart haddr
  apply local_pageAddr h
  intro addr hpage _
  cases hstart.symm.trans hpage
  exact hQ start hstart haddr

theorem local_boundaryScan {Q : Bool → Local → Prop} {num : Int} (h : l.Owns index table) (n : Nat)
    (pos : Position) (hQ : ∀ fits, Q fits l) :
    (boundaryScan pageSize index num n pos).wp (localRule self) Q l := by
  induction n generalizing pos with
  | zero => exact hQ true
  | succ n ih =>
    rw [boundaryScan]
    by_cases hend : pos.endPage ≤ pos.start + pos.count
    · rw [if_pos hend]
      by_cases hlast : num ≤ pos.pageNum + 1
      · rw [if_pos hlast]
        exact hQ false
      · rw [if_neg hlast, Prog.wp_bind]
        apply local_nextPage h
        intro addr _ _
        exact ih _
    · rw [if_neg hend]
      exact ih _

/-! ### A position in an open page -/

/-- The position is in a page of the storage, which the thread has opened. -/
structure Standing (l : Local) (index : Nat) (allows : Prot → Bool) (pos : Position) : Prop where
  owns : ∃ table addr, l.Owns index table ∧ table[pos.pageNum]? = some addr ∧ addr % pageSize = 0 ∧
    addr ≤ pos.start + pos.count ∧ pos.start + pos.count ≤ addr + pageSize ∧
    pos.endPage = addr + pageSize ∧ allows (l.opened (State.frameOf addr)) = true

theorem Standing.start {start : Nat} (h : l.Owns index table) (hpage : table[page]? = some addr)
    (haddr : addr % pageSize = 0) (hlow : addr ≤ start) (hhigh : start ≤ addr + pageSize)
    (hopen : allows (l.opened (State.frameOf addr)) = true) :
    Standing l index allows ⟨page, 0, start, addr + pageSize⟩ :=
  ⟨table, addr, h, hpage, haddr, hlow, hhigh, rfl, hopen⟩

theorem Standing.openPage (h : l.Owns index table) (hpage : table[page]? = some addr)
    (haddr : addr % pageSize = 0) (hprot : allows prot = true) :
    Standing (l.setPage addr prot) index allows ⟨page, 0, addr, addr + pageSize⟩ := by
  apply Standing.start (h.setPage addr prot) hpage haddr (Nat.le_refl _) (Nat.le_add_right ..)
  show allows (Function.update l.opened _ prot _) = true
  rw [Function.update_self, hprot]

theorem Standing.byte {pos : Position} (h : Standing l index allows pos)
    (hroom : pos.start + pos.count < pos.endPage) :
    Opened l.opened allows (pos.start + pos.count) 1 := by
  obtain ⟨table, addr, -, -, haddr, hlow, -, hend, hopen⟩ := h.owns
  exact opened_of_page haddr hlow (by omega) hopen

theorem Standing.succ {pos : Position} (h : Standing l index allows pos)
    (hroom : pos.start + pos.count < pos.endPage) :
    Standing l index allows { pos with count := pos.count + 1 } := by
  obtain ⟨table, addr, howns, hpage, haddr, hlow, hhigh, hend, hopen⟩ := h.owns
  refine ⟨table, addr, howns, hpage, haddr, ?_, ?_, hend, hopen⟩
  · show addr ≤ pos.start + (pos.count + 1)
    omega
  · show pos.start + (pos.count + 1) ≤ addr + pageSize
    omega

theorem local_close {Q : Local → Prop} {pos : Position} (h : Standing l index allows pos)
    (hQ : ∀ l' table, l'.Owns index table → Q l') :
    (pageAddr index pos.pageNum).wp (localRule self)
      (fun addr l => (mprotect addr pageSize .none).wp (localRule self) (fun _ => Q) l) l := by
  obtain ⟨table, addr, howns, -⟩ := h.owns
  apply local_pageAddr howns
  intro addr _ haddr
  exact local_mprotect haddr (hQ _ table (howns.setPage addr .none))

theorem local_readTurn {Q : Position → Local → Prop} {pos : Position}
    (h : Standing l index Prot.readable pos)
    (hQ : ∀ pos' l', Standing l' index Prot.readable pos' →
      pos'.start + pos'.count < pos'.endPage → Q pos' l') :
    (readTurn pageSize index pos).wp (localRule self) Q l := by
  rw [readTurn]
  by_cases hend : pos.endPage ≤ pos.start + pos.count
  · rw [if_pos hend]
    simp only [Prog.wp_bind]
    apply local_close h
    intro l₁ table howns
    apply local_pageAddr howns
    intro addr hpage haddr
    apply local_mprotect haddr
    apply local_nextPage (howns.setPage addr .read)
    intro addr' hpage' _
    cases hpage.symm.trans hpage'
    exact hQ _ _ (Standing.openPage howns hpage haddr rfl) (Nat.lt_add_of_pos_right (by decide))
  · rw [if_neg hend]
    exact hQ pos l h (Nat.lt_of_not_le hend)

theorem local_readBytes {Q : Position × List UInt8 → Local → Prop} {pos : Position} (n : Nat)
    (h : Standing l index Prot.readable pos)
    (hQ : ∀ r l', Standing l' index Prot.readable r.1 → Q r l') :
    (readBytes pageSize index n pos).wp (localRule self) Q l := by
  induction n generalizing l pos Q with
  | zero => exact hQ (pos, []) l h
  | succ n ih =>
    simp only [readBytes, Prog.wp_bind]
    apply local_readTurn h
    intro pos' l' hpos' hroom
    apply local_copyOut (hpos'.byte hroom)
    intro byte
    apply ih (hpos'.succ hroom)
    intro r l'' hr
    exact hQ (r.1, byte ++ r.2) l'' hr

/-- The copy of a page is a page that is open, and no other page of the storage. -/
theorem local_copyOnWrite {Q : Nat → Local → Prop} (h : l.Owns index table)
    (hpage : table[page]? = some addr) (haddr : addr % pageSize = 0)
    (hQ : ∀ fresh l', fresh % pageSize = 0 → l'.Owns index (table.set page fresh) →
      (table.set page fresh)[page]? = some fresh →
      (l'.opened (State.frameOf fresh)).writable = true → Q fresh l') :
    (copyOnWrite pageSize index page addr).wp (localRule self) Q l := by
  have hlt := (List.getElem?_eq_some_iff.mp hpage).1
  simp only [copyOnWrite, Prog.wp_bind, Prog.wp_pure]
  refine ⟨⟨table, h⟩, rfl, ?_⟩
  intro fresh hfresh hnew
  have hne : State.frameOf fresh ≠ State.frameOf addr := by
    intro heq
    have hsame : fresh = addr := by
      unfold State.frameOf pageSize at *
      omega
    exact hnew table h.2 (hsame ▸ List.mem_of_getElem? hpage)
  let l₁ : Local := ⟨index, some (table.set page fresh), some fresh,
    openedAfter (.mmap .readWrite) fresh l.opened⟩
  have howns₁ : l₁.Owns index (table.set page fresh) := ⟨rfl, rfl⟩
  have hself : (table.set page fresh)[page]? = some fresh := List.getElem?_set_self hlt
  refine ⟨table, h, rfl, fun _ => ?_⟩
  rw [h.1]
  apply local_pageAddr (l := l₁) howns₁
  intro fresh' hpage' _
  cases hself.symm.trans hpage'
  apply local_mprotect haddr
  have hwrite : (Function.update l₁.opened (State.frameOf addr) Prot.write (State.frameOf fresh)) =
      .readWrite := by
    rw [Function.update_of_ne hne]
    exact Function.update_self ..
  refine ⟨?_, ?_, ?_⟩
  · apply opened_of_page haddr (Nat.le_refl _) (Nat.le_refl _)
    show Prot.readable (Function.update l₁.opened _ _ _) = true
    rw [Function.update_self]
    rfl
  · apply opened_of_page hfresh (Nat.le_refl _) (Nat.le_refl _)
    show Prot.writable (Function.update l₁.opened _ _ _) = true
    rw [hwrite]
    rfl
  · apply local_mprotect haddr
    apply hQ fresh _ hfresh ((howns₁.setPage addr .write).setPage addr .none) hself
    show Prot.writable (Function.update (Function.update l₁.opened _ _) _ _ _) = true
    rw [Function.update_of_ne hne, hwrite]
    rfl

theorem local_writeTurn {Q : Position → Local → Prop} {pos : Position}
    (h : Standing l index Prot.writable pos)
    (hQ : ∀ pos' l', Standing l' index Prot.writable pos' →
      pos'.start + pos'.count < pos'.endPage → Q pos' l') :
    (writeTurn pageSize index pos).wp (localRule self) Q l := by
  rw [writeTurn]
  by_cases hend : pos.endPage ≤ pos.start + pos.count
  · rw [if_pos hend]
    simp only [Prog.wp_bind]
    apply local_close h
    intro l₁ table howns
    apply local_refCount howns
    intro count
    by_cases hcount : 1 < count
    · rw [if_pos hcount]
      simp only [Prog.wp_bind, Prog.wp_pure]
      apply local_pageAddr howns
      intro addr hpage haddr
      apply local_mprotect haddr
      apply local_pageAddr (howns.setPage addr .write)
      intro cowAd1 hpage' _
      cases hpage.symm.trans hpage'
      apply local_copyOnWrite (howns.setPage addr .write) hpage haddr
      intro fresh l₂ hfresh howns₂ hself hopen
      exact hQ _ _ (Standing.start howns₂ hself hfresh (Nat.le_refl _) (Nat.le_add_right ..) hopen)
        (Nat.lt_add_of_pos_right (by decide))
    · rw [if_neg hcount]
      simp only [Prog.wp_bind]
      apply local_pageAddr howns
      intro addr hpage haddr
      apply local_mprotect haddr
      apply local_nextPage (howns.setPage addr .write)
      intro addr' hpage' _
      cases hpage.symm.trans hpage'
      exact hQ _ _ (Standing.openPage howns hpage haddr rfl) (Nat.lt_add_of_pos_right (by decide))
  · rw [if_neg hend]
    exact hQ pos l h (Nat.lt_of_not_le hend)

theorem local_writeBytes {Q : Position → Local → Prop} {pos : Position} (bytes : List UInt8)
    (h : Standing l index Prot.writable pos)
    (hQ : ∀ pos' l', Standing l' index Prot.writable pos' → Q pos' l') :
    (writeBytes pageSize index bytes pos).wp (localRule self) Q l := by
  induction bytes generalizing l pos with
  | nil => exact hQ pos l h
  | cons byte rest ih =>
    simp only [writeBytes, Prog.wp_bind]
    apply local_writeTurn h
    intro pos' l' hpos' hroom
    refine ⟨hpos'.byte hroom, ?_⟩
    exact ih (hpos'.succ hroom)

theorem local_boundaryRead {Q : Option (List UInt8) → Local → Prop} {num len : Int} {start : Nat}
    (h : Standing l index Prot.readable ⟨page, 0, start, addr + pageSize⟩)
    (hQ : ∀ r l' table, l'.Owns index table → Q r l') :
    (boundaryRead pageSize page num len index start (addr + pageSize)).wp (localRule self) Q l := by
  obtain ⟨table, -, howns, -⟩ := h.owns
  simp only [boundaryRead, Prog.wp_bind]
  apply local_boundaryScan howns
  intro fits
  cases fits with
  | false => exact hQ none l table howns
  | true =>
    simp only [Bool.not_true, Bool.false_eq_true, if_false, Prog.wp_bind]
    apply local_readBytes _ h
    rintro ⟨last, bytes⟩ l' hlast
    apply local_close hlast
    intro l'' table' howns'
    exact hQ (some bytes) l'' table' howns'

theorem local_boundaryWrite {Q : Bool → Local → Prop} {num : Int} {src : List UInt8} {start : Nat}
    (h : Standing l index Prot.writable ⟨page, 0, start, addr + pageSize⟩)
    (hQ : ∀ r l' table, l'.Owns index table → Q r l') :
    (boundaryWrite src pageSize page num index start (addr + pageSize)).wp (localRule self) Q l := by
  obtain ⟨table, -, howns, -⟩ := h.owns
  simp only [boundaryWrite, Prog.wp_bind]
  apply local_boundaryScan howns
  intro fits
  cases fits with
  | false => exact hQ false l table howns
  | true =>
    simp only [Bool.not_true, Bool.false_eq_true, if_false, Prog.wp_bind]
    apply local_writeBytes _ h
    intro last l' hlast
    apply local_close hlast
    intro l'' table' howns'
    exact hQ true l'' table' howns'

theorem local_openFirst {Q : Unit → Local → Prop} (h : l.Owns index table)
    (hQ : ∀ l' table' addr, l'.Owns index table' → table'[page]? = some addr →
      addr % pageSize = 0 → (l'.opened (State.frameOf addr)).writable = true → Q () l') :
    (openFirst index page).wp (localRule self) Q l := by
  simp only [openFirst, Prog.wp_bind]
  apply local_refCount h
  intro count
  by_cases hcount : 1 < count
  · rw [if_pos hcount]
    simp only [Prog.wp_bind]
    apply local_pageAddr h
    intro addr hpage haddr
    apply local_copyOnWrite h hpage haddr
    intro fresh l' hfresh howns hself hopen
    exact hQ l' _ fresh howns hself hfresh hopen
  · rw [if_neg hcount]
    simp only [Prog.wp_bind]
    apply local_pageAddr h
    intro addr hpage haddr
    apply local_mprotect haddr
    apply hQ _ table addr (h.setPage addr .write) hpage haddr
    show Prot.writable (Function.update l.opened _ _ _) = true
    rw [Function.update_self]
    rfl

theorem local_guarded {Q : Result → Local → Prop} {length : Nat} {rest : Nat → Nat → Code Result}
    (hrest : ∀ index num table l', l'.Owns index table → (rest index num).wp (localRule self) Q l')
    (hQ : ∀ r l', Q r l') : (guarded self length rest).wp (localRule self) Q l := by
  simp only [guarded, Prog.wp_bind]
  apply local_findIndex
  intro index table
  apply local_pageNum (l := { l with index := index, table := table })
  intro num hnum
  cases num with
  | none => exact hQ _ _
  | some num =>
    cases table with
    | none => cases hnum.mpr rfl
    | some table =>
      simp only
      by_cases hlength : num * pageSize % 2 ^ 32 < length
      · rw [if_pos hlength]
        exact hQ _ _
      · rw [if_neg hlength, Prog.wp_bind]
        exact ⟨⟨table, rfl, rfl⟩, hrest index num table _ ⟨rfl, rfl⟩⟩

theorem page_start_le (offset : Nat) : offset - offset / pageSize * pageSize < pageSize := by
  unfold pageSize
  omega

/-- A read by itself accesses pages that it has opened. -/
theorem local_tlsRead (self offset length : Nat) (l : Local) :
    (tlsRead self offset length).wp (localRule self) (fun _ _ => True) l := by
  apply local_guarded _ (fun _ _ => trivial)
  intro index num table l howns
  have ho := page_start_le offset
  generalize offset - offset / pageSize * pageSize = o at *
  simp only [Prog.wp_bind]
  apply local_pageAddr howns
  intro addr hpage haddr
  apply local_mprotect haddr
  apply local_pageAddr (howns.setPage addr .read)
  intro start hstart _
  cases hpage.symm.trans hstart
  apply local_pageAddr (howns.setPage addr .read)
  intro last hlast _
  cases hpage.symm.trans hlast
  have hopen : ((l.setPage addr .read).opened (State.frameOf addr)).readable = true := by
    show Prot.readable (Function.update l.opened _ _ _) = true
    rw [Function.update_self]
    rfl
  have hstanding : Standing (l.setPage addr .read) index Prot.readable
      ⟨offset / pageSize, 0, addr + o, addr + pageSize⟩ :=
    Standing.start (howns.setPage addr .read) hpage haddr (Nat.le_add_right ..) (by omega) hopen
  by_cases hcross : addr + pageSize < addr + o + length
  · rw [if_pos hcross]
    simp only [Prog.wp_bind]
    apply local_boundaryRead hstanding
    intro r l' table' howns'
    refine ⟨⟨table', howns'⟩, ?_⟩
    cases r with
    | none => trivial
    | some bytes => trivial
  · rw [if_neg hcross]
    simp only [Prog.wp_bind]
    apply local_copyOut (opened_of_page haddr (Nat.le_add_right ..) (by omega) hopen)
    intro bytes
    apply local_close hstanding
    intro l' table' howns'
    exact ⟨⟨table', howns'⟩, trivial⟩

theorem local_tlsWrite (self offset length : Nat) (buffer : List UInt8) (l : Local) :
    (tlsWrite self offset length buffer).wp (localRule self) (fun _ _ => True) l := by
  apply local_guarded _ (fun _ _ => trivial)
  intro index num table l howns
  have ho := page_start_le offset
  generalize offset - offset / pageSize * pageSize = o at *
  simp only [Prog.wp_bind]
  apply local_openFirst howns
  intro l₁ table₁ addr howns₁ hpage haddr hopen
  apply local_pageAddr howns₁
  intro start hstart _
  cases hpage.symm.trans hstart
  apply local_pageAddr howns₁
  intro last hlast _
  cases hpage.symm.trans hlast
  have hstanding : Standing l₁ index Prot.writable
      ⟨offset / pageSize, 0, addr + o, addr + pageSize⟩ :=
    Standing.start howns₁ hpage haddr (Nat.le_add_right ..) (by omega) hopen
  by_cases hcross : addr + pageSize < addr + o + length
  · rw [if_pos hcross]
    simp only [Prog.wp_bind]
    apply local_boundaryWrite hstanding
    intro r l' table' howns'
    refine ⟨⟨table', howns'⟩, ?_⟩
    cases r with
    | false => trivial
    | true => trivial
  · rw [if_neg hcross]
    simp only [Prog.wp_bind]
    refine ⟨?_, ?_⟩
    · rw [List.length_map, List.length_range]
      exact opened_of_page haddr (Nat.le_add_right ..) (by omega) hopen
    · apply local_close hstanding
      intro l' table' howns'
      exact ⟨⟨table', howns'⟩, trivial⟩

end

end OSChallenges.Storage
