import OSChallenges.Library.Program
import OSChallenges.Library.Words
import Mathlib.Logic.Function.Basic

/-!
# The thread-local storage of `tls.c`

A storage is a table of pages; a clone shares the pages of its original until one of them is written.
`tls_read` and `tls_write` are programs over the steps that other threads can come between: locking,
`mprotect`, `mmap`, the reference counts, the entries of the page table and the memory copies.
`tls_create` and `tls_clone` are functions of the whole state. Memory is flat; the `n`-th `mmap`
returns page frame `frame n`, and a page frame has one protection for all threads.
-/

namespace OSChallenges.Storage

open Program Words

/-- `MAX_THREADS`. -/
def maxThreads : Nat := 128

/-- `getpagesize()`. -/
def pageSize : Nat := 4096

/-- `(pthread_t) -1`. -/
def noThread : Nat := 2 ^ 64 - 1

/-- The protections that `tls.c` asks for. -/
inductive Prot
  | none
  | read
  | write
  | readWrite
  deriving DecidableEq, Repr

/-- The processor has no pages that can be written and not read. -/
def Prot.readable : Prot → Bool
  | .none => false
  | .read | .write | .readWrite => true

def Prot.writable : Prot → Bool
  | .none | .read => false
  | .write | .readWrite => true

/-- `struct page`. -/
structure Page where
  addr : Nat
  refCount : Int
  deriving DecidableEq, Repr

/-- `TLS`; `pages` holds the page objects by the order in which they were made. -/
structure ThreadLocalStorage where
  size : Nat
  pageNum : Nat
  mutex : Bool
  pages : List Nat
  deriving DecidableEq, Repr

/-- `struct tid_tls_pair`. -/
structure TidTlsPair where
  tid : Nat
  tls : Option ThreadLocalStorage
  deriving DecidableEq, Repr

def emptyTLS : TidTlsPair := ⟨noThread, none⟩

@[ext] structure State where
  ttpArray : Nat → TidTlsPair
  maxIndex : Nat
  /-- `static bool firstCall` of `findIndex`. -/
  firstCall : Bool
  /-- The page objects, and how many there are. -/
  heap : Nat → Page
  heapSize : Nat
  memory : Nat → UInt8
  /-- The protection of each page frame. -/
  prot : Nat → Prot
  /-- How many pages `mmap` has returned. -/
  mapped : Nat

/-- Why a call does not go on. -/
inductive Fault
  /-- `ttpArray` is indexed at `MAX_THREADS`. -/
  | overrun
  /-- A null pointer or an index past the end of `pages`. -/
  | outOfBounds
  /-- The mutex is locked. -/
  | blocked
  /-- An access that the protection of its page does not allow. -/
  | segv
  deriving DecidableEq, Repr

/-- The process before any call: static memory is zero. -/
def initial (memory : Nat → UInt8) : State where
  ttpArray := fun _ => ⟨0, none⟩
  maxIndex := 0
  firstCall := true
  heap := fun _ => ⟨0, 0⟩
  heapSize := 0
  memory := memory
  prot := fun _ => .none
  mapped := 0

namespace State

/-! ### The registry -/

/-- `tls_init`; the signal handlers are not part of the state. -/
def tlsInit (s : State) : State :=
  { s with ttpArray := Function.update s.ttpArray 0 emptyTLS }

/-- The next free entry, of which only the one behind it is written. -/
def handOut (s : State) : State :=
  { s with
    maxIndex := s.maxIndex + 1
    ttpArray := Function.update s.ttpArray (s.maxIndex + 1) emptyTLS }

def lookUp (s : State) (tid : Nat) : Option Nat :=
  (List.range maxThreads).find? fun i => (s.ttpArray i).tid = tid

def findIndex (s : State) (tid : Nat) : Except Fault (Nat × State) :=
  let s := if s.firstCall then { tlsInit s with firstCall := false } else s
  match lookUp s tid with
  | some i => .ok (i, s)
  | none => if maxThreads ≤ s.maxIndex + 1 then .error .overrun else .ok (s.maxIndex, handOut s)

/-! ### Memory -/

/-- The page frame of an address. -/
def frameOf (addr : Nat) : Nat := addr / pageSize

/-- The bytes from an address on can be accessed. -/
def accessible (s : State) (allows : Prot → Bool) (addr len : Nat) : Bool :=
  (List.range len).all fun k => allows (s.prot (frameOf (addr + k)))

def readMemory (s : State) (addr len : Nat) : List UInt8 :=
  (List.range len).map fun k => s.memory (addr + k)

def writeMemory (s : State) (addr : Nat) (bytes : List UInt8) : State :=
  { s with
    memory := fun a =>
      if addr ≤ a ∧ a < addr + bytes.length then bytes.getD (a - addr) 0 else s.memory a }

/-- `mprotect`, which fails and changes nothing if the address is not that of a page. -/
def mprotect (s : State) (addr len : Nat) (prot : Prot) : State :=
  if addr % pageSize = 0 then
    { s with prot := fun f => if addr ≤ f * pageSize ∧ f * pageSize < addr + len then prot else s.prot f }
  else s

/-- `mmap` of one page, which the kernel has cleared. -/
def mmap (frame : Nat → Nat) (s : State) (prot : Prot) : Nat × State :=
  let addr := frame s.mapped * pageSize
  (addr, { writeMemory s addr (List.replicate pageSize 0) with
    prot := Function.update s.prot (frame s.mapped) prot
    mapped := s.mapped + 1 })

/-- A new page object. -/
def newPage (s : State) (addr : Nat) : Nat × State :=
  (s.heapSize, { s with
    heap := Function.update s.heap s.heapSize ⟨addr, 1⟩
    heapSize := s.heapSize + 1 })

end State

section

variable (frame : Nat → Nat)

/-! ### Creation -/

/-- The quotient of two `float` values: the division by a power of two, the truncation and the
subtraction are exact. -/
def roundUp (size : Int) (pagesize : Nat) : Int :=
  let sz := toFloat size
  let round := sz.tdiv pagesize
  if 0 < sz - round * pagesize then round + 1 else round

/-- The loop of `tls_create`: the page objects of the table, in order. -/
def createPages (s : State) : Nat → List Nat × State
  | 0 => ([], s)
  | n + 1 =>
    let (addr, s) := s.mmap frame .none
    let (page, s) := s.newPage addr
    let (rest, s) := createPages s n
    (page :: rest, s)

def tlsCreate (s : State) (self size : Nat) : Except Fault (Int × State) := do
  let (index, s) ← s.findIndex self
  let numOfPages := roundUp (toInt32 size) pageSize
  if size = 0 then return (-1, s)
  else if (s.ttpArray index).tls.isSome then return (-1, s)
  else
    let (pages, s) := createPages frame s numOfPages.toNat
    return (0, { s with
      ttpArray := Function.update s.ttpArray index
        ⟨self, some ⟨size, toUInt32 numOfPages, false, pages⟩⟩ })

/-- The loop of `tls_clone`: every shared page counts one more reference. -/
def addRefs (heap : Nat → Page) : List Nat → Nat → Page
  | [] => heap
  | p :: rest => addRefs (Function.update heap p { heap p with refCount := (heap p).refCount + 1 }) rest

def tlsClone (s : State) (self tid : Nat) : Except Fault (Int × State) := do
  let (clonerIndex, s) ← s.findIndex self
  let (cloneeIndex, s) ← s.findIndex tid
  if (s.ttpArray clonerIndex).tls.isSome then return (-1, s)
  else
    match (s.ttpArray cloneeIndex).tls with
    | none => return (-1, s)
    | some tls =>
      if tls.mutex then .error .blocked
      else
        let pages := tls.pages.take (toInt32 tls.pageNum).toNat
        return (0, { s with
          heap := addRefs s.heap pages
          ttpArray := Function.update s.ttpArray clonerIndex
            ⟨self, some ⟨tls.size, tls.pageNum, false, pages⟩⟩ })

/-! ### The steps of a read or a write -/

/-- `page` operations name an entry of the table of the storage at `index`. -/
inductive Op
  | findIndex (tid : Nat)
  | pageNum (index : Nat)
  | lock (index : Nat)
  | unlock (index : Nat)
  | pageAddr (index page : Nat)
  | refCount (index page : Nat)
  | decRef (index page : Nat)
  /-- The entry becomes a new page object with one reference. -/
  | replacePage (index page addr : Nat)
  | mprotect (addr len : Nat) (prot : Prot)
  | mmap (prot : Prot)
  | copyOut (addr len : Nat)
  | copyIn (addr : Nat) (bytes : List UInt8)
  | copyPage (dst src : Nat)
  deriving DecidableEq, Repr

/-- The answer of a step; a storage that does not exist has no page number. -/
def Op.Res : Op → Type
  | .findIndex _ => Nat
  | .pageNum _ => Option Nat
  | .pageAddr _ _ => Nat
  | .refCount _ _ => Int
  | .mmap _ => Nat
  | .copyOut _ _ => List UInt8
  | .lock _ | .unlock _ | .decRef _ _ | .replacePage _ _ _ | .mprotect _ _ _ | .copyIn _ _
  | .copyPage _ _ => Unit

namespace State

def tlsAt (s : State) (index : Nat) : Except Fault ThreadLocalStorage :=
  match (s.ttpArray index).tls with
  | none => .error .outOfBounds
  | some tls => .ok tls

/-- The page object of an entry. -/
def pageAt (s : State) (index page : Nat) : Except Fault Nat :=
  match (s.ttpArray index).tls with
  | none => .error .outOfBounds
  | some tls =>
    match tls.pages[page]? with
    | none => .error .outOfBounds
    | some p => .ok p

def setTLS (s : State) (index : Nat) (tls : ThreadLocalStorage) : State :=
  { s with ttpArray := Function.update s.ttpArray index { s.ttpArray index with tls := some tls } }

def setRefCount (s : State) (p : Nat) (count : Int) : State :=
  { s with heap := Function.update s.heap p { s.heap p with refCount := count } }

end State

def exec : (o : Op) → State → Except Fault (o.Res × State)
  | .findIndex tid, s => s.findIndex tid
  | .pageNum index, s => .ok ((s.ttpArray index).tls.map ThreadLocalStorage.pageNum, s)
  | .lock index, s => do
    let tls ← s.tlsAt index
    if tls.mutex then .error .blocked else return ((), s.setTLS index { tls with mutex := true })
  | .unlock index, s => do
    let tls ← s.tlsAt index
    return ((), s.setTLS index { tls with mutex := false })
  | .pageAddr index page, s => do
    let p ← s.pageAt index page
    return ((s.heap p).addr, s)
  | .refCount index page, s => do
    let p ← s.pageAt index page
    return ((s.heap p).refCount, s)
  | .decRef index page, s => do
    let p ← s.pageAt index page
    return ((), s.setRefCount p ((s.heap p).refCount - 1))
  | .replacePage index page addr, s => do
    let tls ← s.tlsAt index
    let _ ← s.pageAt index page
    let (p, s) := s.newPage addr
    return ((), s.setTLS index { tls with pages := tls.pages.set page p })
  | .mprotect addr len prot, s => .ok ((), s.mprotect addr len prot)
  | .mmap prot, s => .ok (s.mmap frame prot)
  | .copyOut addr len, s =>
    if s.accessible Prot.readable addr len then .ok (s.readMemory addr len, s) else .error .segv
  | .copyIn addr bytes, s =>
    if s.accessible Prot.writable addr bytes.length then .ok ((), s.writeMemory addr bytes)
    else .error .segv
  | .copyPage dst src, s =>
    if s.accessible Prot.readable src pageSize && s.accessible Prot.writable dst pageSize then
      .ok ((), s.writeMemory dst (s.readMemory src pageSize))
    else .error .segv

end

/-! ### Reads and writes -/

abbrev Code (α : Type) := Prog Op.Res α

def findIndex (tid : Nat) : Code Nat := Prog.perform (Op.findIndex tid)

def pageNum (index : Nat) : Code (Option Nat) := Prog.perform (Op.pageNum index)

def lock (index : Nat) : Code Unit := Prog.perform (Op.lock index)

def unlock (index : Nat) : Code Unit := Prog.perform (Op.unlock index)

def pageAddr (index page : Nat) : Code Nat := Prog.perform (Op.pageAddr index page)

def refCount (index page : Nat) : Code Int := Prog.perform (Op.refCount index page)

def decRef (index page : Nat) : Code Unit := Prog.perform (Op.decRef index page)

def replacePage (index page addr : Nat) : Code Unit := Prog.perform (Op.replacePage index page addr)

def mprotect (addr len : Nat) (prot : Prot) : Code Unit := Prog.perform (Op.mprotect addr len prot)

def mmap (prot : Prot) : Code Nat := Prog.perform (Op.mmap prot)

def copyOut (addr len : Nat) : Code (List UInt8) := Prog.perform (Op.copyOut addr len)

def copyIn (addr : Nat) (bytes : List UInt8) : Code Unit := Prog.perform (Op.copyIn addr bytes)

def copyPage (dst src : Nat) : Code Unit := Prog.perform (Op.copyPage dst src)

/-- Where a boundary helper stands: the page, the bytes done on it, where they start and where it
ends. -/
structure Position where
  pageNum : Nat
  count : Nat
  start : Nat
  endPage : Nat
  deriving DecidableEq, Repr

/-- The start of the next page. -/
def nextPage (ps index pageNum : Nat) : Code Position := do
  let start ← pageAddr index (pageNum + 1)
  let addr ← pageAddr index (pageNum + 1)
  return ⟨pageNum + 1, 0, start, addr + ps⟩

/-- The scan of both boundary helpers: false if it comes to the end of the last page. -/
def boundaryScan (ps index : Nat) (numOfPages : Int) : Nat → Position → Code Bool
  | 0, _ => return true
  | n + 1, p => do
    if p.endPage ≤ p.start + p.count then
      if numOfPages ≤ p.pageNum + 1 then return false
      else
        let p ← nextPage ps index p.pageNum
        boundaryScan ps index numOfPages n { p with count := p.count + 1 }
    else boundaryScan ps index numOfPages n { p with count := p.count + 1 }

/-- At the end of a page, close it and open the next one. -/
def readTurn (ps index : Nat) (p : Position) : Code Position := do
  if p.endPage ≤ p.start + p.count then
    let addr ← pageAddr index p.pageNum
    mprotect addr ps .none
    let addr ← pageAddr index (p.pageNum + 1)
    mprotect addr ps .read
    nextPage ps index p.pageNum
  else return p

/-- The loop of `boundaryRead`, byte by byte. -/
def readBytes (ps index : Nat) : Nat → Position → Code (Position × List UInt8)
  | 0, p => return (p, [])
  | n + 1, p => do
    let p ← readTurn ps index p
    let byte ← copyOut (p.start + p.count) 1
    let (last, bytes) ← readBytes ps index n { p with count := p.count + 1 }
    return (last, byte ++ bytes)

/-- `boundaryRead`: nothing if it fails, else what it stores in `dest`. The first page is open. The
loop is a `do ... while`, so it runs once for a length that is not positive. -/
def boundaryRead (ps pageNum : Nat) (numOfPages len : Int) (index startRead endPage : Nat) :
    Code (Option (List UInt8)) := do
  let fits ← boundaryScan ps index numOfPages len.toNat ⟨pageNum, 0, startRead, endPage⟩
  if !fits then return none
  else
    let (last, bytes) ← readBytes ps index (max 1 len.toNat) ⟨pageNum, 0, startRead, endPage⟩
    let addr ← pageAddr index last.pageNum
    mprotect addr ps .none
    return some bytes

/-- The copy-on-write of an entry whose page is at `cowAd1`, the same in `boundaryWrite` and
`tls_write`: the entry gets a new page, which is open, and the old one is opened for the copy. -/
def copyOnWrite (ps index pageNum cowAd1 : Nat) : Code Nat := do
  decRef index pageNum
  let addr ← mmap .readWrite
  replacePage index pageNum addr
  let cowAd2 ← pageAddr index pageNum
  mprotect cowAd1 ps .write
  copyPage cowAd2 cowAd1
  mprotect cowAd1 ps .none
  return cowAd2

/-- At the end of a page, close it and open the next one, or a copy of it if it is shared. -/
def writeTurn (ps index : Nat) (p : Position) : Code Position := do
  if p.endPage ≤ p.start + p.count then
    let addr ← pageAddr index p.pageNum
    mprotect addr ps .none
    let refCount ← refCount index (p.pageNum + 1)
    if 1 < refCount then
      let addr ← pageAddr index (p.pageNum + 1)
      mprotect addr ps .write
      let cowAd1 ← pageAddr index (p.pageNum + 1)
      let cowAd2 ← copyOnWrite ps index (p.pageNum + 1) cowAd1
      return ⟨p.pageNum + 1, 0, cowAd2, cowAd2 + ps⟩
    else
      let addr ← pageAddr index (p.pageNum + 1)
      mprotect addr ps .write
      nextPage ps index p.pageNum
  else return p

/-- The loop of `boundaryWrite`, byte by byte. -/
def writeBytes (ps index : Nat) : List UInt8 → Position → Code Position
  | [], p => return p
  | byte :: rest, p => do
    let p ← writeTurn ps index p
    copyIn (p.start + p.count) [byte]
    writeBytes ps index rest { p with count := p.count + 1 }

/-- The bytes before the first zero: `strlen` of them. Behind the bytes of a buffer there is a zero. -/
def cString (src : List UInt8) : List UInt8 := src.takeWhile (· ≠ 0)

/-- `boundaryWrite`: false if it fails. It writes `strlen(src)` bytes, but at least one. -/
def boundaryWrite (src : List UInt8) (ps pageNum : Nat) (numOfPages : Int)
    (index startWrite endPage : Nat) : Code Bool := do
  let len := toInt32 (cString src).length
  let fits ← boundaryScan ps index numOfPages len.toNat ⟨pageNum, 0, startWrite, endPage⟩
  if !fits then return false
  else
    let bytes := (List.range (max 1 len.toNat)).map fun i => src.getD i 0
    let last ← writeBytes ps index bytes ⟨pageNum, 0, startWrite, endPage⟩
    let addr ← pageAddr index last.pageNum
    mprotect addr ps .none
    return true

/-- What a call returns, and the bytes it stores in the caller's buffer. -/
structure Result where
  ret : Int
  buffer : List UInt8
  deriving DecidableEq, Repr

def tlsRead (self offset length : Nat) : Code Result := do
  let index ← findIndex self
  let tls ← pageNum index
  match tls with
  | none => return ⟨-1, []⟩
  | some page_num =>
    if page_num * pageSize % 2 ^ 32 < length then return ⟨-1, []⟩
    else
      let pageNum := offset / pageSize
      let remOffset := offset - pageNum * pageSize
      lock index
      let addr ← pageAddr index pageNum
      mprotect addr pageSize .read
      let startAddr := (← pageAddr index pageNum) + remOffset
      let endPage := (← pageAddr index pageNum) + pageSize
      if endPage < startAddr + length then
        let read ← boundaryRead pageSize pageNum (toInt32 page_num) (toInt32 length) index startAddr
          endPage
        unlock index
        match read with
        | none => return ⟨-1, []⟩
        | some bytes => return ⟨0, bytes⟩
      else
        let bytes ← copyOut startAddr length
        let addr ← pageAddr index pageNum
        mprotect addr pageSize .none
        unlock index
        return ⟨0, bytes⟩

/-- The start of `tls_write`: the first page, or a copy of it if it is shared, is open for writing. -/
def openFirst (index pageNum : Nat) : Code Unit := do
  let refCount ← refCount index pageNum
  if 1 < refCount then
    let cowAd1 ← pageAddr index pageNum
    let _ ← copyOnWrite pageSize index pageNum cowAd1
  else
    let addr ← pageAddr index pageNum
    mprotect addr pageSize .write

def tlsWrite (self offset length : Nat) (buffer : List UInt8) : Code Result := do
  let index ← findIndex self
  let tls ← pageNum index
  match tls with
  | none => return ⟨-1, []⟩
  | some page_num =>
    if page_num * pageSize % 2 ^ 32 < length then return ⟨-1, []⟩
    else
      let pageNum := offset / pageSize
      lock index
      openFirst index pageNum
      let remOffset := offset - pageNum * pageSize
      let startAddr := (← pageAddr index pageNum) + remOffset
      let endPage := (← pageAddr index pageNum) + pageSize
      if endPage < startAddr + length then
        let written ← boundaryWrite buffer pageSize pageNum (toInt32 page_num) index startAddr endPage
        unlock index
        if written then return ⟨0, []⟩ else return ⟨-1, []⟩
      else
        copyIn startAddr ((List.range length).map fun i => buffer.getD i 0)
        let addr ← pageAddr index pageNum
        mprotect addr pageSize .none
        unlock index
        return ⟨0, []⟩

/-! ### Whole calls -/

/-- A call with its arguments; the caller is the thread that makes it. -/
inductive Call
  | create (size : Nat)
  | clone (tid : Nat)
  | read (offset length : Nat)
  | write (offset length : Nat) (buffer : List UInt8)
  deriving DecidableEq, Repr

/-- A call executed whole. -/
def call (frame : Nat → Nat) (s : State) (self : Nat) : Call → Except Fault (Result × State)
  | .create size => (tlsCreate frame s self size).map fun r => (⟨r.1, []⟩, r.2)
  | .clone tid => (tlsClone s self tid).map fun r => (⟨r.1, []⟩, r.2)
  | .read offset length => (tlsRead self offset length).run (exec frame) s
  | .write offset length buffer => (tlsWrite self offset length buffer).run (exec frame) s

/-- A run of whole calls, each by some thread. -/
def step (frame : Nat → Nat) (s : State) (a : Nat × Call) : Except Fault State :=
  (call frame s a.1 a.2).map Prod.snd

end OSChallenges.Storage
