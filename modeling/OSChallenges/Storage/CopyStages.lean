import OSChallenges.Library.References
import OSChallenges.Storage.OpenCopies

/-!
# Copies in progress

Copying a page on a write takes several steps, and other threads come between them. A thread that has taken
its reference off a page still has its bytes there until the copy is done: this is the origin of the entry.
The reference counts cover the entries that nobody is leaving, so a page with one reference belongs to one
such entry; what another thread may still do is to copy the page away.
-/

namespace OSChallenges.Storage

open Program Words References

/-! ### What a thread notes -/

/-- How far a thread has come with the copy of a page: it has left the page `source` of an entry, mapped a
fresh one, and put it into the entry. -/
inductive Stage
  | none
  | left (page source : Nat)
  | mapped (page source fresh : Nat)
  | replaced (page source fresh : Nat)
  deriving DecidableEq, Repr

/-- The entry that is being left, and its page. -/
def Stage.leaves : Stage → Option (Nat × Nat)
  | .none => Option.none
  | .left page source | .mapped page source _ | .replaced page source _ => some (page, source)

/-- The page that the copy will be in. -/
def Stage.fresh : Stage → Option Nat
  | .none | .left _ _ => Option.none
  | .mapped _ _ fresh | .replaced _ _ fresh => some fresh

/-- The page address that a thread has looked up last, its copy in progress, and the entries whose pages it
has found to have one reference, or has copied. -/
structure Note where
  seen : Nat
  stage : Stage
  alone : List Nat
  deriving DecidableEq, Repr

def Note.start : Note := ⟨0, .none, []⟩

/-- The reference count of a page is known. -/
def Note.counted (n : Note) (page : Nat) (count : Int) : Note :=
  if 1 < count then n else { n with alone := page :: n.alone }

def Note.after : (o : Op) → o.Res → Note → Note
  | .pageAddr _ _, addr, n => { n with seen := addr }
  | .refCount _ page, count, n => n.counted page count
  | .decRef _ page, _, n =>
    { n with stage := .left page n.seen, alone := n.alone.filter (· ≠ page) }
  | .mmap _, addr, n =>
    match n.stage with
    | .left page source => { n with stage := .mapped page source addr }
    | _ => n
  | .replacePage _ _ _, _, n =>
    match n.stage with
    | .mapped page source fresh => { n with stage := .replaced page source fresh }
    | _ => n
  | .copyPage _ _, _, n =>
    match n.stage with
    | .replaced page _ _ => { n with stage := .none, alone := page :: n.alone }
    | _ => n
  | .unlock _, _, n => { n with alone := [] }
  | _, _, n => n

/-! ### Origins -/

/-- A list with one entry put in. -/
def putIn {α : Type} : Option (Nat × α) → List α → List α
  | none, l => l
  | some (k, x), l => l.set k x

namespace State

/-- The addresses of the pages of a storage. -/
def table (s : State) (i : Nat) : List Nat := (s.pages i).map fun p => (s.heap p).addr

end State

/-- The entry of a storage that its owner is leaving. -/
def leaving (s : State) (notes : Nat → Note) (i : Nat) : Option (Nat × Nat) :=
  (notes (s.ttpArray i).tid).stage.leaves

/-- The pages that have the bytes of a storage. -/
def origin (s : State) (notes : Nat → Note) (i : Nat) : List Nat :=
  putIn (leaving s notes i) (s.table i)

/-- The same without the entry that is being left. -/
def held (s : State) (notes : Nat → Note) (i : Nat) : List (Option Nat) :=
  putIn ((leaving s notes i).map fun e => (e.1, none)) ((origin s notes i).map some)

/-- The byte at an offset of a storage. -/
def originByte (s : State) (notes : Nat → Note) (i k : Nat) : UInt8 :=
  s.memory ((origin s notes i).getD (k / pageSize) 0 + k % pageSize)

section

variable {s s' : State} {notes notes' : Nat → Note} {t i k a : Nat}

theorem length_putIn {α : Type} (e : Option (Nat × α)) (l : List α) : (putIn e l).length = l.length := by
  cases e with
  | none => rfl
  | some e => exact List.length_set ..

theorem length_origin : (origin s notes i).length = (s.pages i).length := by
  rw [origin, length_putIn, State.table, List.length_map]

theorem origin_of_none (h : leaving s notes i = none) : origin s notes i = s.table i := by
  rw [origin, h]
  rfl

theorem held_of_none (h : leaving s notes i = none) : held s notes i = (origin s notes i).map some := by
  rw [held, h]
  rfl

theorem origin_of_leaving {page source : Nat} (h : leaving s notes i = some (page, source)) :
    origin s notes i = (s.table i).set page source := by
  rw [origin, h]
  rfl

theorem held_of_leaving {page source : Nat} (h : leaving s notes i = some (page, source)) :
    held s notes i = ((origin s notes i).map some).set page none := by
  rw [held, h]
  rfl

theorem held_iff : (held s notes i)[k]? = some (some a) ↔
    (origin s notes i)[k]? = some a ∧ ∀ e, leaving s notes i = some e → e.1 ≠ k := by
  cases hleaving : leaving s notes i with
  | none =>
    rw [held_of_none hleaving, List.getElem?_map]
    simp
  | some e =>
    rw [held_of_leaving hleaving]
    by_cases hk : e.1 = k
    · subst hk
      rw [List.getElem?_set]
      simp
    · rw [List.getElem?_set_ne hk, List.getElem?_map]
      simp [hk]

theorem origin_of_held (h : (held s notes i)[k]? = some (some a)) : (origin s notes i)[k]? = some a :=
  (held_iff.mp h).1

theorem origin_of_nil (h : s.pages i = []) : origin s notes i = [] :=
  List.eq_nil_of_length_eq_zero (by rw [length_origin, h, List.length_nil])

theorem held_of_nil (h : s.pages i = []) : held s notes i = [] :=
  List.eq_nil_of_length_eq_zero (by
    rw [held, length_putIn, List.length_map, length_origin, h, List.length_nil])

theorem origin_congr (htable : s'.table i = s.table i) (hleaving : leaving s' notes' i = leaving s notes i) :
    origin s' notes' i = origin s notes i := by
  rw [origin, origin, htable, hleaving]

theorem held_congr (htable : s'.table i = s.table i) (hleaving : leaving s' notes' i = leaving s notes i) :
    held s' notes' i = held s notes i := by
  rw [held, held, hleaving, origin_congr htable hleaving]

end

/-! ### The invariant -/

/-- A page that has been mapped for a copy has no bytes of a storage yet, and nobody else copies to it. -/
structure Unused (frame : Nat → Nat) (s : State) (notes : Nat → Note) (t fresh : Nat) : Prop where
  mapped : ∃ k, k < s.mapped ∧ fresh = frame k * pageSize
  origins : ∀ i, fresh ∉ origin s notes i
  others : ∀ u, u ≠ t → (notes u).stage.fresh ≠ some fresh

/-- The entry that a thread is leaving, at each stage. -/
def Stage.Valid (frame : Nat → Nat) (s : State) (notes : Nat → Note) (t : Nat) (pages : List Nat) :
    Stage → Prop
  | .none => True
  | .left page source => ∃ p, pages[page]? = some p ∧ (s.heap p).addr = source
  | .mapped page source fresh => (∃ p, pages[page]? = some p ∧ (s.heap p).addr = source) ∧
    Unused frame s notes t fresh ∧ ∀ p, p < s.heapSize → (s.heap p).addr ≠ fresh
  | .replaced page source fresh =>
    (∃ p, pages[page]? = some p ∧ (s.heap p).addr = fresh ∧ 1 ≤ (s.heap p).refCount) ∧
    Unused frame s notes t fresh ∧ ∃ k, k < s.mapped ∧ source = frame k * pageSize

/-- The page of an entry is held nowhere else. -/
def Sole (s : State) (notes : Nat → Note) (i page : Nat) : Prop :=
  ∃ a, (held s notes i)[page]? = some (some a) ∧
    ∀ j k, (held s notes j)[k]? = some (some a) → j = i ∧ k = page

/-- What a thread has noted is so while it has locked its storage. -/
structure Noted (frame : Nat → Nat) (s : State) (notes : Nat → Note) (t : Nat) : Prop where
  stage : (notes t).stage ≠ .none → ∃ i tls, s.ttpArray i = ⟨t, some tls⟩ ∧ tls.mutex = true ∧
    (notes t).stage.Valid frame s notes t tls.pages
  alone : ∀ page, page ∈ (notes t).alone → ∃ i tls, s.ttpArray i = ⟨t, some tls⟩ ∧
    tls.mutex = true ∧ Sole s notes i page

/-- What the steps of all threads keep. -/
structure Sharing (frame : Nat → Nat) (s : State) (notes : Nat → Note) : Prop where
  pool : Pool frame s
  distinct : ∀ p q, p < s.heapSize → q < s.heapSize → (s.heap p).addr = (s.heap q).addr → p = q
  sizes : ∀ i tls, (s.ttpArray i).tls = some tls →
    tls.pageNum = tls.pages.length ∧ tls.pageNum ≤ 2 ^ 12
  counted : ∀ p, p < s.heapSize →
    (pointers maxThreads (held s notes) (some (s.heap p).addr) : Int) ≤ (s.heap p).refCount
  noted : ∀ t, Noted frame s notes t

/-- The thread has a page for itself. -/
def Claims (s : State) (notes : Nat → Note) (t a : Nat) : Prop :=
  ∃ i tls page, s.ttpArray i = ⟨t, some tls⟩ ∧ page ∈ (notes t).alone ∧
    (held s notes i)[page]? = some (some a)

/-- What a step of one thread leaves to all the others. -/
structure Beside (t : Nat) (s s' : State) (notes notes' : Nat → Note) : Prop where
  note : ∀ u, u ≠ t → notes' u = notes u
  owned : ∀ u, u ≠ t → ∀ i tls, s'.ttpArray i = ⟨u, some tls⟩ ↔ s.ttpArray i = ⟨u, some tls⟩
  addr : ∀ p, p < s.heapSize → (s'.heap p).addr = (s.heap p).addr
  mapped : s.mapped ≤ s'.mapped
  fresh : ∀ u, u ≠ t → ∀ f, (notes u).stage.fresh = some f → (notes' t).stage.fresh ≠ some f ∧
    (∀ i, f ∈ origin s' notes' i → ∃ j, f ∈ origin s notes j) ∧
    ∀ p, s.heapSize ≤ p → p < s'.heapSize → (s'.heap p).addr ≠ f
  counts : ∀ p, p < s.heapSize → (s'.heap p).refCount = (s.heap p).refCount ∨
    ∃ i, (s.heap p).addr ∈ origin s notes i
  holds : ∀ i k a : Nat, (held s' notes' i)[k]? = some (some a) → (held s notes i)[k]? = some (some a) ∨
    ∀ u, u ≠ t → ¬ Claims s notes u a

section

variable {frame : Nat → Nat} {s s' : State} {notes notes' : Nat → Note} {t u i : Nat}
  {tls : ThreadLocalStorage}

theorem leaving_of_entry (hentry : s.ttpArray i = ⟨t, some tls⟩) :
    leaving s notes i = (notes t).stage.leaves := by
  rw [leaving, hentry]

theorem pages_of_entry (hentry : s.ttpArray i = ⟨t, some tls⟩) : s.pages i = tls.pages :=
  State.pages_of_tls (by rw [hentry])

theorem Beside.same (h : Beside t s s' notes notes') (hpool : Pool frame s) (hu : u ≠ t)
    (hentry : s.ttpArray i = ⟨u, some tls⟩) :
    s'.table i = s.table i ∧ leaving s' notes' i = leaving s notes i := by
  have hentry' := (h.owned u hu i tls).mpr hentry
  refine ⟨?_, ?_⟩
  · rw [State.table, State.table, pages_of_entry hentry', pages_of_entry hentry]
    apply List.map_congr_left
    intro p hp
    apply h.addr
    apply hpool.pages_lt i
    rwa [pages_of_entry hentry]
  · rw [leaving_of_entry hentry', leaving_of_entry hentry, h.note u hu]

theorem Beside.origin_eq (h : Beside t s s' notes notes') (hpool : Pool frame s) (hu : u ≠ t)
    (hentry : s.ttpArray i = ⟨u, some tls⟩) : origin s' notes' i = origin s notes i :=
  origin_congr (h.same hpool hu hentry).1 (h.same hpool hu hentry).2

theorem Beside.unused (h : Beside t s s' notes notes') (hu : u ≠ t) {f : Nat}
    (hfresh : (notes u).stage.fresh = some f) (hunused : Unused frame s notes u f) :
    Unused frame s' notes' u f := by
  obtain ⟨hnot, horigin, -⟩ := h.fresh u hu f hfresh
  refine ⟨?_, ?_, ?_⟩
  · obtain ⟨k, hk, heq⟩ := hunused.mapped
    exact ⟨k, hk.trans_le h.mapped, heq⟩
  · intro j hj
    obtain ⟨i, hi⟩ := horigin j hj
    exact hunused.origins i hi
  · intro v hv
    by_cases hvt : v = t
    · rw [hvt]
      exact hnot
    · rw [h.note v hvt]
      exact hunused.others v hv

theorem Beside.valid (h : Beside t s s' notes notes') (hpool : Pool frame s) (hu : u ≠ t)
    (hentry : s.ttpArray i = ⟨u, some tls⟩) (hvalid : (notes u).stage.Valid frame s notes u tls.pages) :
    (notes u).stage.Valid frame s' notes' u tls.pages := by
  have hlt : ∀ page p : Nat, tls.pages[page]? = some p → p < s.heapSize := by
    intro page p hp
    apply hpool.pages_lt i
    rw [pages_of_entry hentry]
    exact List.mem_of_getElem? hp
  have hunused : ∀ f, (notes u).stage.fresh = some f → Unused frame s notes u f →
      Unused frame s' notes' u f := fun f hf => h.unused hu hf
  have hobjects := fun f hf => (h.fresh u hu f hf).2.2
  generalize (notes u).stage = stage at *
  cases stage with
  | none => trivial
  | left page source =>
    obtain ⟨p, hp, haddr⟩ := hvalid
    exact ⟨p, hp, (h.addr p (hlt page p hp)).trans haddr⟩
  | mapped page source fresh =>
    obtain ⟨⟨p, hp, haddr⟩, hold, hnew⟩ := hvalid
    refine ⟨⟨p, hp, (h.addr p (hlt page p hp)).trans haddr⟩, hunused fresh rfl hold, ?_⟩
    intro q hq
    by_cases hqold : q < s.heapSize
    · rw [h.addr q hqold]
      exact hnew q hqold
    · exact hobjects fresh rfl q (Nat.le_of_not_lt hqold) hq
  | replaced page source fresh =>
    obtain ⟨⟨p, hp, haddr, hcount⟩, hold, k, hk, hsource⟩ := hvalid
    refine ⟨⟨p, hp, (h.addr p (hlt page p hp)).trans haddr, ?_⟩, hunused fresh rfl hold,
      k, hk.trans_le h.mapped, hsource⟩
    obtain hsame | ⟨j, hj⟩ := h.counts p (hlt page p hp)
    · rw [hsame]
      exact hcount
    · rw [haddr] at hj
      exact absurd hj (hold.origins j)

theorem Beside.noted (h : Beside t s s' notes notes') (hpool : Pool frame s) (hu : u ≠ t)
    (hnoted : Noted frame s notes u) : Noted frame s' notes' u := by
  refine ⟨?_, ?_⟩
  · intro hstage
    rw [h.note u hu] at hstage ⊢
    obtain ⟨i, tls, hentry, hmutex, hvalid⟩ := hnoted.stage hstage
    exact ⟨i, tls, (h.owned u hu i tls).mpr hentry, hmutex, h.valid hpool hu hentry hvalid⟩
  · intro page hpage
    rw [h.note u hu] at hpage
    obtain ⟨i, tls, hentry, hmutex, a, ha, hsole⟩ := hnoted.alone page hpage
    refine ⟨i, tls, (h.owned u hu i tls).mpr hentry, hmutex, a, ?_, ?_⟩
    · rw [held_congr (h.same hpool hu hentry).1 (h.same hpool hu hentry).2]
      exact ha
    · intro j k hj
      obtain hold | hnone := h.holds j k a hj
      · exact hsole j k hold
      · exact absurd ⟨i, tls, page, hentry, hpage, ha⟩ (hnone u hu)

/-- A step keeps the invariant if it does so for the thread that makes it. -/
theorem Sharing.of_beside (h : Sharing frame s notes) (hbeside : Beside t s s' notes notes')
    (hpool : Pool frame s')
    (hdistinct : ∀ p q, p < s'.heapSize → q < s'.heapSize → (s'.heap p).addr = (s'.heap q).addr → p = q)
    (hsizes : ∀ i tls, (s'.ttpArray i).tls = some tls →
      tls.pageNum = tls.pages.length ∧ tls.pageNum ≤ 2 ^ 12)
    (hcounted : ∀ p, p < s'.heapSize →
      (pointers maxThreads (held s' notes') (some (s'.heap p).addr) : Int) ≤ (s'.heap p).refCount)
    (hown : Noted frame s' notes' t) : Sharing frame s' notes' := by
  refine ⟨hpool, hdistinct, hsizes, hcounted, ?_⟩
  intro u
  by_cases hu : u = t
  · rw [hu]
    exact hown
  · exact hbeside.noted h.pool hu (h.noted u)

end

end OSChallenges.Storage
