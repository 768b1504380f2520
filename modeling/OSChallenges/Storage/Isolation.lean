import OSChallenges.Storage.NewStorages

/-!
# Each thread sees its own array

The bytes that a thread knows of are in the pages of its origins. Others write to pages that are in nobody's
origins, or to pages that they hold alone; a page that one thread holds alone may still be an origin of
another thread that is copying it away, and only that has to be excluded. So what a thread knows stays true
while the others move, and the rule for its own operations is sound.
-/

namespace OSChallenges.Storage

open Program Words References Function

/-- The storage of a thread has the bytes of its array. -/
structure Owns (s : State) (notes : Nat → Note) (u : Nat) (l : Caller) (a : PrivateArray) : Prop where
  entry : ∃ tls, s.ttpArray l.index = ⟨u, some tls⟩ ∧ (tls.mutex = true ↔ l.phase = .inside)
  table : origin s notes l.index = l.table
  pages : l.table.length = a.pages
  bytes : ∀ k, k < a.size → originByte s notes l.index k = a.byte k

/-- A thread without an array has no storage, and the entry that it has found is free. -/
structure Lacks (s : State) (u : Nat) (l : Caller) : Prop where
  phase : l.phase ≠ .inside
  entries : ∀ i tls, s.ttpArray i ≠ ⟨u, some tls⟩
  found : l.phase = .found → l.index < s.maxIndex ∧ (s.ttpArray l.index).tls = none

/-- What a thread knows is so. -/
structure Sees (s : State) (notes : Nat → Note) (u : Nat) (l : Caller) : Prop where
  note : notes u = l.note
  owns : ∀ a, l.array = some a → Owns s notes u l a
  lacks : l.array = none → Lacks s u l

/-- What a step leaves to the threads that do not make it. -/
structure Stays (t : Nat) (s s' : State) (notes notes' : Nat → Note) : Prop where
  beside : Beside t s s' notes notes'
  memory : ∀ u, u ≠ t → ∀ i tls, s.ttpArray i = ⟨u, some tls⟩ → ∀ a, a ∈ origin s notes i →
    ∀ m, m < pageSize → s'.memory (a + m) = s.memory (a + m)
  free : ∀ i, i < s.maxIndex → (s.ttpArray i).tls = none → (s'.ttpArray i).tls = none
  maxIndex : s.maxIndex ≤ s'.maxIndex

section

variable {frame : Nat → Nat} {s s' : State} {notes notes' : Nat → Note} {t u i j k : Nat}
  {l l' : Caller} {a : PrivateArray} {tls : ThreadLocalStorage}

theorem Note.after_mmap {n : Note} {page source : Nat} (h : n.stage = .left page source) (prot : Prot)
    (addr : Nat) : n.after (.mmap prot) addr = { n with stage := .mapped page source addr } := by
  obtain ⟨seen, stage, alone⟩ := n
  cases h
  rfl

theorem Note.after_replacePage {n : Note} {page source fresh : Nat} (h : n.stage = .mapped page source fresh)
    (i k addr : Nat) :
    n.after (.replacePage i k addr) () = { n with stage := .replaced page source fresh } := by
  obtain ⟨seen, stage, alone⟩ := n
  cases h
  rfl

theorem Note.after_copyPage {n : Note} {page source fresh : Nat} (h : n.stage = .replaced page source fresh)
    (dst src : Nat) : n.after (.copyPage dst src) () = n.copied page := by
  obtain ⟨seen, stage, alone⟩ := n
  cases h
  rfl

/-! ### The others -/

theorem originByte_congr (horigin : origin s' notes' j = origin s notes i)
    (hmemory : ∀ x, x ∈ origin s notes i → ∀ m, m < pageSize → s'.memory (x + m) = s.memory (x + m))
    (hk : k < (origin s notes i).length * pageSize) :
    originByte s' notes' j k = originByte s notes i k := by
  have hpage : k / pageSize < (origin s notes i).length := by
    unfold pageSize at *
    omega
  rw [originByte, originByte, horigin]
  apply hmemory
  · rw [List.getD_eq_getElem?_getD, List.getElem?_eq_getElem hpage, Option.getD_some]
    exact List.getElem_mem hpage
  · exact Nat.mod_lt _ (by decide)

theorem Owns.size (h : Owns s notes u l a) : (origin s notes l.index).length * pageSize = a.size := by
  rw [h.table, h.pages, PrivateArray.size]

theorem Owns.keep (h : Owns s notes u l a)
    (hentry : ∃ tls, s'.ttpArray l.index = ⟨u, some tls⟩ ∧ (tls.mutex = true ↔ l'.phase = .inside))
    (hindex : l'.index = l.index) (htable : l'.table = l.table)
    (horigin : origin s' notes' l.index = origin s notes l.index)
    (hmemory : ∀ x, x ∈ origin s notes l.index → ∀ m, m < pageSize →
      s'.memory (x + m) = s.memory (x + m)) : Owns s' notes' u l' a := by
  refine ⟨hindex ▸ hentry, ?_, htable ▸ h.pages, ?_⟩
  · rw [hindex, horigin, htable, h.table]
  · intro k hk
    rw [hindex, originByte_congr horigin hmemory (h.size ▸ hk), h.bytes k hk]

/-- What a thread knows is still so after a step of another one, if the entry that it has found is free. -/
theorem Sees.beside (h : Sees s notes u l) (hs : Sharing frame s notes) (hu : u ≠ t)
    (hbeside : Beside t s s' notes notes')
    (hmemory : ∀ i tls, s.ttpArray i = ⟨u, some tls⟩ → ∀ a, a ∈ origin s notes i →
      ∀ m, m < pageSize → s'.memory (a + m) = s.memory (a + m))
    (hfree : l.array = none → l.phase = .found →
      l.index < s'.maxIndex ∧ (s'.ttpArray l.index).tls = none) : Sees s' notes' u l := by
  refine ⟨(hbeside.note u hu).trans h.note, ?_, ?_⟩
  · intro a ha
    have howns := h.owns a ha
    obtain ⟨tls, hentry, hmutex⟩ := howns.entry
    exact howns.keep ⟨tls, (hbeside.owned u hu _ tls).mpr hentry, hmutex⟩ rfl rfl
      (hbeside.origin_eq hs.pool hu hentry) (hmemory _ tls hentry)
  · intro hnone
    obtain ⟨hphase, hentries, -⟩ := h.lacks hnone
    refine ⟨hphase, ?_, ?_⟩
    · intro i tls hentry
      exact hentries i tls ((hbeside.owned u hu i tls).mp hentry)
    · exact hfree hnone

theorem Sees.stays (h : Sees s notes u l) (hs : Sharing frame s notes) (hu : u ≠ t)
    (hstays : Stays t s s' notes notes') : Sees s' notes' u l :=
  h.beside hs hu hstays.beside (hstays.memory u hu) fun hnone hphase =>
    have hfound := (h.lacks hnone).found hphase
    ⟨hfound.1.trans_le hstays.maxIndex, hstays.free _ hfound.1 hfound.2⟩

theorem Sees.notes_eq (h : Sees s notes t l) : update notes t l.note = notes := by
  rw [← h.note, update_eq_self]

theorem Stays.same (hbeside : Beside t s s' notes notes') (hmemory : s'.memory = s.memory)
    (hfree : ∀ i, (s.ttpArray i).tls = none → (s'.ttpArray i).tls = none)
    (hmax : s'.maxIndex = s.maxIndex) : Stays t s s' notes notes' where
  beside := hbeside
  memory _ _ _ _ _ _ _ _ _ := by rw [hmemory]
  free i _ hi := hfree i hi
  maxIndex := Nat.le_of_eq hmax.symm

/-! ### The own operations -/

/-- The step of a thread keeps all invariants. -/
structure Moved (frame : Nat → Nat) (t : Nat) (s s' : State) (notes : Nat → Note) (l' : Caller) : Prop where
  stays : Stays t s s' notes (update notes t l'.note)
  sharing : Sharing frame s' (update notes t l'.note)
  sees : Sees s' (update notes t l'.note) t l'

theorem Sees.look (h : Sees s notes t l) (hs : Sharing frame s notes) (hindex : l'.index = l.index)
    (htable : l'.table = l.table) (harray : l'.array = l.array) (hphase : l'.phase = l.phase)
    (hstage : l'.note.stage = l.note.stage)
    (halone : ∀ page, page ∈ l'.note.alone → page ∈ l.note.alone ∨ ∃ i tls,
      s.ttpArray i = ⟨t, some tls⟩ ∧ tls.mutex = true ∧ Sole s notes i page) :
    Moved frame t s s notes l' := by
  have hq : Quiet t s s := Quiet.of_same rfl rfl rfl (Nat.le_refl _)
  rw [← h.note] at hstage halone
  obtain ⟨hbeside, hsharing⟩ := hs.look hstage halone
  have hleaves : l'.note.stage.leaves = (notes t).stage.leaves := by rw [hstage]
  have hshares := hq.shares hleaves
  refine ⟨Stays.same hbeside rfl (fun _ hi => hi) rfl, hsharing, update_self .., ?_, ?_⟩
  · intro a ha
    have howns := h.owns a (harray ▸ ha)
    apply howns.keep (hphase.symm ▸ howns.entry) hindex htable (hshares _).1
    intro x _ m _
    rfl
  · intro hnone
    obtain ⟨hp, he, hf⟩ := h.lacks (harray ▸ hnone)
    exact ⟨hphase ▸ hp, he, fun hl => by rw [hindex]; exact hf (hphase ▸ hl)⟩

theorem Sharing.unchanged (hs : Sharing frame s notes) (harray : s'.ttpArray = s.ttpArray)
    (hheap : s'.heap = s.heap) (hsize : s'.heapSize = s.heapSize) (hmapped : s'.mapped = s.mapped)
    (hmax : s'.maxIndex = s.maxIndex) (hfirst : s'.firstCall = s.firstCall) :
    Beside t s s' notes notes ∧ Sharing frame s' notes ∧ origin s' notes = origin s notes := by
  have hq : Quiet t s s' := Quiet.of_same harray hheap hsize (Nat.le_of_eq hmapped.symm)
  have hreg : Registered s' := by
    refine hs.pool.registered.of_tid ?_ ?_ hmax hfirst
    · intro i
      rw [harray]
    · intro i
      rw [harray]
  obtain ⟨hbeside, hsharing⟩ := hs.keep hq hreg (Quiet.mutex_same harray)
  have hleaves : (notes t).stage.leaves = (notes t).stage.leaves := rfl
  have hshares := hq.shares hleaves
  rw [update_eq_self] at hshares
  exact ⟨hbeside, hsharing, funext fun i => (hshares i).1⟩

theorem own_findIndex (h : Sees s notes t l) (hs : Sharing frame s notes) (ht : ValidThread t)
    (hphase : l.phase = .start) (hfind : s.findIndex t = .ok (i, s')) :
    (l.array ≠ none → i = l.index) ∧ Moved frame t s s' notes { l with index := i, phase := .found } := by
  obtain ⟨hreg, hsame, hfound⟩ := hs.pool.registered.findIndex ht hfind
  have hstore := SameStore.findIndex hfind
  have hq : Quiet t s s' := Quiet.search hs.pool.registered hfind
  have hforward : ∀ j tls, s.ttpArray j = ⟨t, some tls⟩ → s'.ttpArray j = ⟨t, some tls⟩ := by
    intro j tls hentry
    have htls : (s.ttpArray j).tls = some tls := by rw [hentry]
    calc s'.ttpArray j = ⟨(s'.ttpArray j).tid, (s'.ttpArray j).tls⟩ := rfl
      _ = ⟨t, some tls⟩ := by rw [hsame.tid j tls htls, hsame.tls, hentry]
  have hmutex : ∀ j tls tls', s.ttpArray j = ⟨t, some tls⟩ → s'.ttpArray j = ⟨t, some tls'⟩ →
      tls.mutex = true → tls'.mutex = true := by
    intro j tls tls' hentry hentry' hlocked
    cases (hforward j tls hentry).symm.trans hentry'
    exact hlocked
  obtain ⟨hbeside, hsharing⟩ := hs.keep hq hreg hmutex
  have hleaves : (notes t).stage.leaves = (notes t).stage.leaves := rfl
  have hshares := hq.shares hleaves
  rw [update_eq_self] at hshares
  have hindex : ∀ a, l.array = some a → i = l.index := by
    intro a ha
    obtain ⟨tls, hentry, -⟩ := (h.owns a ha).entry
    obtain ⟨tls', hentry'⟩ | ⟨-, hother⟩ := hfound.entry
    · obtain ⟨old, hold, -⟩ := hq.back_entry hentry'
      exact hs.pool.index_unique hentry hold
    · have hentry' := hforward _ tls hentry
      exact absurd (by rw [hentry']) (hother l.index tls (by rw [hentry']))
  refine ⟨?_, ?_⟩
  · intro hne
    obtain ⟨a, ha⟩ := Option.ne_none_iff_exists'.mp hne
    exact hindex a ha
  have hnotes : update notes t (Caller.note { l with index := i, phase := .found }) = notes := h.notes_eq
  constructor
  · rw [hnotes]
    refine ⟨hbeside, fun _ _ _ _ _ _ _ _ _ => by rw [hstore.memory], ?_, maxIndex_findIndex_le hfind⟩
    intro j _ hj
    rw [hsame.tls, hj]
  · rw [hnotes]
    exact hsharing
  · rw [hnotes]
    refine ⟨h.note, ?_, ?_⟩
    · intro a ha
      have howns := h.owns a ha
      obtain ⟨tls, hentry, hlocked⟩ := howns.entry
      refine howns.keep ⟨tls, hforward _ tls hentry, ?_⟩ (hindex a ha) rfl (hshares _).1 ?_
      · rw [hlocked, hphase]
        exact ⟨(by rintro ⟨⟩), (by rintro ⟨⟩)⟩
      · intro x _ m _
        rw [hstore.memory]
    · intro hnone
      obtain ⟨-, hentries, -⟩ := h.lacks hnone
      have hnew : ∀ j tls, s'.ttpArray j ≠ ⟨t, some tls⟩ := by
        intro j tls hentry
        obtain ⟨old, hold, -⟩ := hq.back_entry hentry
        exact hentries j old hold
      refine ⟨(by decide : Phase.found ≠ .inside), hnew, fun _ => ⟨hfound.lt, ?_⟩⟩
      obtain ⟨tls, hentry⟩ | ⟨hfree, -⟩ := hfound.entry
      · exact absurd hentry (hnew i tls)
      · exact hfree

theorem own_pageNum (h : Sees s notes t l) (hs : Sharing frame s notes) (hphase : l.phase = .found) :
    (s.ttpArray l.index).tls.map ThreadLocalStorage.pageNum = l.array.map PrivateArray.pages := by
  cases ha : l.array with
  | none => rw [((h.lacks ha).found hphase).2, Option.map_none, Option.map_none]
  | some a =>
    have howns := h.owns a ha
    obtain ⟨tls, hentry, -⟩ := howns.entry
    have hlength : tls.pages.length = a.pages := by
      rw [← howns.pages, ← howns.table, length_origin, pages_of_entry hentry]
    rw [hentry, Option.map_some, Option.map_some, (hs.sizes l.index tls (by rw [hentry])).1, hlength]

theorem own_mutex (h : Sees s notes t l) (ha : l.array = some a)
    (hentry : s.ttpArray l.index = ⟨t, some tls⟩) (locked : Bool) (hindex : l'.index = l.index)
    (htable : l'.table = l.table) (harray : l'.array = l.array)
    (hphase : locked = true ↔ l'.phase = .inside) (hstage : l'.note.stage = l.note.stage)
    (hdone : Beside t s (s.setTLS l.index { tls with mutex := locked }) notes (update notes t l'.note) ∧
      Sharing frame (s.setTLS l.index { tls with mutex := locked }) (update notes t l'.note)) :
    Moved frame t s (s.setTLS l.index { tls with mutex := locked }) notes l' := by
  have hq := Quiet.setMutex hentry locked
  have hself := setTLS_self hentry { tls with mutex := locked }
  have hleaves : l'.note.stage.leaves = (notes t).stage.leaves := by rw [hstage, h.note]
  have hshares := hq.shares hleaves
  refine ⟨Stays.same hdone.1 rfl ?_ rfl, hdone.2, update_self .., ?_, ?_⟩
  · exact fun j hj => (setTLS_none hentry _).mpr hj
  · intro b hb
    have howns := h.owns b (harray ▸ hb)
    apply howns.keep ⟨_, hself, hphase⟩ hindex htable (hshares _).1
    intro x _ m _
    rfl
  · intro hnone
    cases ha.symm.trans (harray ▸ hnone)

/-- Inside a call the storage is there, and it is locked. -/
theorem Sees.inside (h : Sees s notes t l) (hphase : l.phase = .inside) : ∃ a tls, l.array = some a ∧
    Owns s notes t l a ∧ s.ttpArray l.index = ⟨t, some tls⟩ ∧ tls.mutex = true := by
  cases ha : l.array with
  | none => exact absurd hphase (h.lacks ha).phase
  | some a =>
    obtain ⟨tls, hentry, hlocked⟩ := (h.owns a ha).entry
    exact ⟨a, tls, rfl, h.owns a ha, hentry, hlocked.mpr hphase⟩

/-- A step inside the call that leaves the bytes of the storage where they are. -/
theorem Sees.stay_inside (h : Sees s notes t l) (hphase : l.phase = .inside) (o : Op) (r : o.Res)
    (hnote : notes' t = (l.noted o r).note)
    (hentry : ∃ tls, s'.ttpArray l.index = ⟨t, some tls⟩ ∧ tls.mutex = true)
    (horigin : origin s' notes' l.index = origin s notes l.index)
    (hmemory : ∀ x, x ∈ origin s notes l.index → ∀ m, m < pageSize →
      s'.memory (x + m) = s.memory (x + m)) : Sees s' notes' t (l.noted o r) := by
  obtain ⟨a, -, ha, -⟩ := h.inside hphase
  obtain ⟨tls, hentry, hlocked⟩ := hentry
  refine ⟨hnote, ?_, ?_⟩
  · intro b hb
    exact (h.owns b hb).keep ⟨tls, hentry, iff_of_true hlocked hphase⟩ rfl rfl horigin hmemory
  · intro hnone
    cases ha.symm.trans hnone

theorem Owns.page (h : Owns s notes t l a) (hentry : s.ttpArray l.index = ⟨t, some tls⟩)
    (hstage : (notes t).stage = .none) : l.table = tls.pages.map fun p => (s.heap p).addr := by
  rw [← h.table, origin_of_none, State.table, pages_of_entry hentry]
  rw [leaving_of_entry hentry, hstage]
  rfl

/-! ### Memory -/

theorem Sharing.aligned (hs : Sharing frame s notes) {x : Nat} (hx : x ∈ origin s notes i) :
    x % pageSize = 0 := by
  obtain ⟨k, -, rfl⟩ := hs.origin_addr hx
  exact Nat.mul_mod_left _ _

theorem writeMemory_far {x y o m : Nat} {bytes : List UInt8} (hx : x % pageSize = 0)
    (hy : y % pageSize = 0) (hne : x ≠ y) (hlen : o + bytes.length ≤ pageSize) (hm : m < pageSize) :
    (s.writeMemory (y + o) bytes).memory (x + m) = s.memory (x + m) := by
  show (if y + o ≤ x + m ∧ x + m < y + o + bytes.length then _ else _) = _
  unfold pageSize at *
  rw [if_neg (by omega)]

theorem own_mmap {page source : Nat} (h : Sees s notes t l) (hs : Sharing frame s notes)
    (hframe : Injective frame) (hphase : l.phase = .inside) (hstage : l.note.stage = .left page source)
    (prot : Prot) : Moved frame t s (s.mmap frame prot).2 notes
      (l.noted (.mmap prot) (s.mmap frame prot).1) := by
  obtain ⟨a, tls, ha, howns, hentry, hlocked⟩ := h.inside hphase
  have hnote : (l.noted (.mmap prot) (s.mmap frame prot).1).note =
      { notes t with stage := .mapped page source (frame s.mapped * pageSize) } := by
    rw [h.note]
    exact Note.after_mmap hstage prot _
  have hleft : (notes t).stage = .left page source := by rw [h.note, hstage]
  obtain ⟨hq, hbeside, hsharing⟩ := sharing_mmap hs hframe hleft prot
  rw [← hnote] at hbeside hsharing
  have hleaves : (l.noted (.mmap prot) (s.mmap frame prot).1).note.stage.leaves =
      (notes t).stage.leaves := by
    rw [hnote, hleft]
    rfl
  have hshares := hq.shares hleaves
  have hmemory : ∀ i x, x ∈ origin s notes i → ∀ m, m < pageSize →
      (s.mmap frame prot).2.memory (x + m) = s.memory (x + m) := by
    intro i x hx m hm
    obtain ⟨k, hk, rfl⟩ := hs.origin_addr hx
    have hne : frame k * pageSize ≠ frame s.mapped * pageSize := by
      intro heq
      have hsame := hframe (Nat.eq_of_mul_eq_mul_right (by decide) heq)
      omega
    have hlength : 0 + (List.replicate pageSize (0 : UInt8)).length ≤ pageSize :=
      (Nat.zero_add _).trans_le (Nat.le_of_eq List.length_replicate)
    have hfar : (s.writeMemory (frame s.mapped * pageSize + 0) _).memory _ = s.memory _ :=
      writeMemory_far (Nat.mul_mod_left _ _) (Nat.mul_mod_left _ _) hne hlength hm
    rw [Nat.add_zero] at hfar
    exact hfar
  exact ⟨⟨hbeside, fun u _ j _ _ => hmemory j, fun _ _ hj => hj, Nat.le_refl _⟩, hsharing,
    h.stay_inside hphase _ _ (update_self ..) ⟨tls, hentry, hlocked⟩ (hshares _).1 (hmemory _)⟩

theorem own_decRef {page p : Nat} (h : Sees s notes t l) (hs : Sharing frame s notes)
    (hphase : l.phase = .inside) (hstage : l.note.stage = .none)
    (hseen : l.table[page]? = some l.note.seen) (hp : (s.pages l.index)[page]? = some p) :
    Moved frame t s (s.setRefCount p ((s.heap p).refCount - 1)) notes
      (l.noted (.decRef l.index page) ()) := by
  obtain ⟨a, tls, ha, howns, hentry, hlocked⟩ := h.inside hphase
  have hnone : (notes t).stage = .none := by rw [h.note, hstage]
  rw [pages_of_entry hentry] at hp
  have haddr : (s.heap p).addr = (notes t).seen := by
    rw [howns.page hentry hnone, List.getElem?_map, hp] at hseen
    rw [h.note]
    exact Option.some.inj hseen
  obtain ⟨hbeside, hsharing, horigin⟩ := sharing_decRef hs hentry hlocked hnone hp haddr
  have hnote : (l.noted (.decRef l.index page) ()).note = (notes t).leave page := by
    rw [h.note]
    rfl
  rw [← hnote] at hbeside hsharing horigin
  refine ⟨Stays.same hbeside rfl (fun _ hj => hj) rfl, hsharing, ?_⟩
  refine h.stay_inside hphase _ _ (update_self ..) ⟨tls, hentry, hlocked⟩ (congrFun horigin _) ?_
  intro x _ m _
  rfl

theorem own_replacePage {page source fresh p : Nat} (h : Sees s notes t l) (hs : Sharing frame s notes)
    (hphase : l.phase = .inside) (hentry : s.ttpArray l.index = ⟨t, some tls⟩)
    (hstage : l.note.stage = .mapped page source fresh) (hp : (s.pages l.index)[page]? = some p) :
    Moved frame t s ((s.newPage fresh).2.setTLS l.index
        { tls with pages := tls.pages.set page s.heapSize }) notes
      (l.noted (.replacePage l.index page fresh) ()) := by
  obtain ⟨a, tls', ha, howns, hentry', hlocked⟩ := h.inside hphase
  cases hentry.symm.trans hentry'
  rw [pages_of_entry hentry] at hp
  have hmapped : (notes t).stage = .mapped page source fresh := by rw [h.note, hstage]
  have hnote : (l.noted (.replacePage l.index page fresh) ()).note =
      { notes t with stage := .replaced page source fresh } := by
    rw [h.note]
    exact Note.after_replacePage hstage l.index page fresh
  obtain ⟨hbeside, hsharing, horigin, hself⟩ := sharing_replacePage hs hentry hlocked hmapped hp
  rw [← hnote] at hbeside hsharing horigin
  refine ⟨Stays.same hbeside rfl (fun j hj => (setTLS_none hentry _).mpr hj) rfl, hsharing, ?_⟩
  refine h.stay_inside hphase _ _ (update_self ..) ⟨_, hself, hlocked⟩ (congrFun horigin _) ?_
  intro x _ m _
  rfl

theorem originByte_of {x : Nat} (hx : (origin s notes i)[k / pageSize]? = some x) :
    originByte s notes i k = s.memory (x + k % pageSize) := by
  rw [originByte, List.getD_eq_getElem?_getD, hx, Option.getD_some]

theorem Owns.origin_at (h : Owns s notes u l a) (hk : k < a.size) :
    ∃ x, (origin s notes l.index)[k / pageSize]? = some x := by
  have hlt : k / pageSize < (origin s notes l.index).length := by
    have hsize := h.size
    unfold pageSize at *
    omega
  exact ⟨_, List.getElem?_eq_getElem hlt⟩

theorem Owns.read {page base o len : Nat} (h : Owns s notes u l a) (hpage : l.table[page]? = some base)
    (hlen : o + len ≤ pageSize) : s.readMemory (base + o) len = a.read (page * pageSize + o) len := by
  rw [State.readMemory, PrivateArray.read]
  apply List.map_congr_left
  intro i hi
  have hlt := List.mem_range.mp hi
  have hpages : page < a.pages := h.pages ▸ (List.getElem?_eq_some_iff.mp hpage).1
  have hk : page * pageSize + o + i < a.size := by
    unfold PrivateArray.size pageSize at *
    omega
  have hdiv : (page * pageSize + o + i) / pageSize = page := by
    unfold pageSize at *
    omega
  have hmod : (page * pageSize + o + i) % pageSize = o + i := by
    unfold pageSize at *
    omega
  rw [← h.bytes _ hk, originByte_of (x := base), hmod, Nat.add_assoc]
  rw [hdiv, h.table, hpage]

/-- The operation does not write to a page that another thread is copying. -/
def Spared (notes : Nat → Note) (t : Nat) : Op → Prop
  | .copyIn addr bytes => ∀ u, u ≠ t → ∀ page source, (notes u).stage.leaves = some (page, source) →
    addr + bytes.length ≤ source ∨ source + pageSize ≤ addr
  | _ => True

/-- A thread writes to a page that it has for itself. -/
theorem own_copyIn {page base o : Nat} {bytes : List UInt8} (h : Sees s notes t l)
    (hs : Sharing frame s notes) (hstage : l.note.stage = .none)
    (hpage : l.table[page]? = some base) (halone : page ∈ l.note.alone)
    (hlen : o + bytes.length ≤ pageSize) (hspared : Spared notes t (.copyIn (base + o) bytes))
    (ha : l.array = some a) : Moved frame t s (s.writeMemory (base + o) bytes) notes
      { l with array := some (a.write (page * pageSize + o) bytes) } := by
  have howns := h.owns a ha
  obtain ⟨tls, hentry, hlocked⟩ := howns.entry
  have hbase : (origin s notes l.index)[page]? = some base := by rw [howns.table, hpage]
  have haligned := hs.aligned (List.mem_of_getElem? hbase)
  have hsole : ∀ j k, (held s notes j)[k]? = some (some base) → j = l.index ∧ k = page := by
    obtain ⟨i, other, hother, -, b, hb, hsole⟩ := (hs.noted t).alone page (by rw [h.note]; exact halone)
    obtain rfl := hs.pool.index_unique hentry hother
    cases (origin_of_held hb).symm.trans hbase
    exact hsole
  have hkeep : Beside t s (s.writeMemory (base + o) bytes) notes notes ∧ _ ∧ _ :=
    hs.unchanged rfl rfl rfl rfl rfl rfl
  obtain ⟨hbeside, hsharing, horigin⟩ := hkeep
  have hnotes : update notes t (Caller.note { l with
      array := some (a.write (page * pageSize + o) bytes) }) = notes := h.notes_eq
  have hfar : ∀ x, x % pageSize = 0 → x ≠ base → ∀ m, m < pageSize →
      (s.writeMemory (base + o) bytes).memory (x + m) = s.memory (x + m) :=
    fun x hx hne m hm => writeMemory_far hx haligned hne hlen hm
  constructor
  · rw [hnotes]
    refine ⟨hbeside, ?_, fun _ _ hj => hj, Nat.le_refl _⟩
    intro u hu j other hother x hx m hm
    by_cases hbx : x = base
    · subst hbx
      obtain ⟨k, hk⟩ := List.mem_iff_getElem?.mp hx
      have hleaves : ∃ k, (notes u).stage.leaves = some (k, x) := by
        rw [← leaving_of_entry hother]
        by_contra hnot
        have hheld : (held s notes j)[k]? = some (some x) := by
          refine held_iff.mpr ⟨hk, ?_⟩
          rintro ⟨page', source⟩ hleaving rfl
          rw [origin_of_leaving hleaving] at hk
          obtain ⟨hlt, heq⟩ := List.getElem?_eq_some_iff.mp hk
          rw [List.getElem_set_self] at heq
          exact hnot ⟨page', heq ▸ hleaving⟩
        obtain ⟨rfl, -⟩ := hsole j k hheld
        rw [hentry] at hother
        cases hother
        exact hu rfl
      obtain ⟨page', hleaves⟩ := hleaves
      have hclear := hspared u hu page' x hleaves
      show (if x + o ≤ x + m ∧ x + m < x + o + bytes.length then _ else _) = _
      rw [if_neg (by omega)]
    · exact hfar x (hs.aligned hx) hbx m hm
  · rw [hnotes]
    exact hsharing
  · rw [hnotes]
    refine ⟨h.note, ?_, (by rintro ⟨⟩)⟩
    rintro b hb
    cases hb
    refine ⟨⟨tls, hentry, hlocked⟩, ?_, howns.pages, ?_⟩
    · rw [horigin]
      exact howns.table
    · intro k hk
      obtain ⟨x, hx⟩ := howns.origin_at hk
      have hm : k % pageSize < pageSize := Nat.mod_lt _ (by decide)
      have hold := howns.bytes k hk
      have hx' : (origin (s.writeMemory (base + o) bytes) notes l.index)[k / pageSize]? = some x := by
        rw [horigin, hx]
      rw [originByte_of hx] at hold
      rw [originByte_of hx']
      show _ = if page * pageSize + o ≤ k ∧ k < page * pageSize + o + bytes.length then _ else _
      by_cases hk' : k / pageSize = page
      · have hxb : x = base := by
          rw [hk', hbase] at hx
          exact (Option.some.inj hx).symm
        subst hxb
        have hsplit : k = page * pageSize + k % pageSize := by
          rw [← hk']
          exact (Nat.div_add_mod' k pageSize).symm
        show (if x + o ≤ x + k % pageSize ∧ x + k % pageSize < x + o + bytes.length then _ else _) = _
        by_cases hin : o ≤ k % pageSize ∧ k % pageSize < o + bytes.length
        · rw [if_pos (by omega), if_pos (by omega)]
          congr 1
          omega
        · rw [if_neg (by omega), if_neg (by omega), hold]
      · have hne : x ≠ base := by
          rintro rfl
          have hleaving : leaving s notes l.index = none := by
            rw [leaving_of_entry hentry, h.note, hstage]
            rfl
          obtain ⟨-, heq⟩ := hsole l.index (k / pageSize) (by
            rw [held_of_none hleaving, List.getElem?_map, hx]
            rfl)
          exact hk' heq
        rw [hfar x (hs.aligned (List.mem_of_getElem? hx)) hne _ hm, hold, if_neg]
        unfold pageSize at *
        omega

theorem own_copyPage {page source fresh : Nat} (h : Sees s notes t l) (hs : Sharing frame s notes)
    (hphase : l.phase = .inside) (hstage : l.note.stage = .replaced page source fresh) :
    Moved frame t s (s.writeMemory fresh (s.readMemory source pageSize)) notes
      { l.noted (.copyPage fresh source) () with table := l.table.set page fresh } := by
  let s' := s.writeMemory fresh (s.readMemory source pageSize)
  obtain ⟨a, tls, ha, howns, hentry, hlocked⟩ := h.inside hphase
  have hreplaced : (notes t).stage = .replaced page source fresh := by rw [h.note, hstage]
  have hnote : (l.noted (.copyPage fresh source) ()).note = (notes t).copied page := by
    rw [h.note]
    exact Note.after_copyPage hstage fresh source
  obtain ⟨hbeside, hsharing, hunused, i, other, hother, hsource, horigin⟩ :=
    sharing_copyPage hs hreplaced (s.readMemory source pageSize)
  obtain rfl := hs.pool.index_unique hentry hother
  rw [← hnote] at hbeside hsharing horigin
  have hlt : page < (origin s notes l.index).length := (List.getElem?_eq_some_iff.mp hsource).1
  have hfresh : fresh % pageSize = 0 := by
    apply hsharing.aligned (i := l.index)
    rw [horigin]
    exact List.mem_of_getElem? (List.getElem?_set_self hlt)
  have hbytes : (s.readMemory source pageSize).length = pageSize := by
    rw [State.readMemory, List.length_map, List.length_range]
  have hfar : ∀ j x, x ∈ origin s notes j → ∀ m, m < pageSize → s'.memory (x + m) = s.memory (x + m) := by
    intro j x hx m hm
    have hne : x ≠ fresh := by
      rintro rfl
      exact hunused j hx
    have hlength : 0 + (s.readMemory source pageSize).length ≤ pageSize :=
      (Nat.zero_add _).trans_le (Nat.le_of_eq hbytes)
    have hsame : (s.writeMemory (fresh + 0) _).memory _ = s.memory _ :=
      writeMemory_far (hs.aligned hx) hfresh hne hlength hm
    rw [Nat.add_zero] at hsame
    exact hsame
  refine ⟨⟨hbeside, fun u _ j _ _ => hfar j, fun _ _ hj => hj, Nat.le_refl _⟩, hsharing,
    update_self .., ?_, ?_⟩
  · intro b hb
    have howns' := h.owns b hb
    refine ⟨howns'.entry, ?_, ?_, ?_⟩
    · show origin _ (update notes t (l.noted (.copyPage fresh source) ()).note) _ = l.table.set page fresh
      rw [← howns'.table]
      exact horigin
    · show (l.table.set page fresh).length = _
      rw [List.length_set, howns'.pages]
    · intro k hk
      obtain ⟨x, hx⟩ := howns'.origin_at hk
      have hm : k % pageSize < pageSize := Nat.mod_lt _ (by decide)
      have hold := howns'.bytes k hk
      rw [originByte_of hx] at hold
      show originByte s' (update notes t (l.noted (.copyPage fresh source) ()).note) l.index k = _
      by_cases hk' : k / pageSize = page
      · have hxs : x = source := by
          rw [hk'] at hx
          exact Option.some.inj (hx.symm.trans hsource)
        rw [originByte_of (x := fresh), ← hold, hxs]
        · show (if fresh ≤ fresh + k % pageSize ∧
            fresh + k % pageSize < fresh + (s.readMemory source pageSize).length then _ else _) = _
          rw [hbytes, if_pos (by omega), Nat.add_sub_cancel_left, State.readMemory,
            List.getD_eq_getElem?_getD, List.getElem?_map, List.getElem?_range hm]
          rfl
        · rw [horigin, hk', List.getElem?_set_self hlt]
      · rw [originByte_of (x := x), hfar _ x (List.mem_of_getElem? hx) _ hm, hold]
        rw [horigin, List.getElem?_set_ne (Ne.symm hk'), hx]
  · intro hnone
    cases ha.symm.trans hnone

theorem Sees.mprotect (h : Sees s notes t l) (hs : Sharing frame s notes) (addr len : Nat) (prot : Prot) :
    Moved frame t s (s.mprotect addr len prot) notes l := by
  unfold State.mprotect
  split
  · have hkeep : Beside t s { s with
        prot := fun f => if addr ≤ f * pageSize ∧ f * pageSize < addr + len then prot else s.prot f }
        notes notes ∧ _ ∧ _ := hs.unchanged rfl rfl rfl rfl rfl rfl
    obtain ⟨hbeside, hsharing, horigin⟩ := hkeep
    constructor
    · rw [h.notes_eq]
      exact Stays.same hbeside rfl (fun _ hi => hi) rfl
    · rw [h.notes_eq]
      exact hsharing
    · rw [h.notes_eq]
      have hlacks := fun hnone => h.lacks hnone
      refine ⟨h.note, ?_, fun hnone => ⟨(hlacks hnone).phase, (hlacks hnone).entries, (hlacks hnone).found⟩⟩
      intro a ha
      have howns := h.owns a ha
      refine howns.keep howns.entry rfl rfl (congrFun horigin _) ?_
      intro x _ m _
      rfl
  · exact h.look hs rfl rfl rfl rfl rfl fun _ hp => .inl hp

theorem read_of_ite {c : Prop} [Decidable c] {x y : List UInt8} {s₁ : State}
    (h : (if c then .ok (x, s₁) else .error Fault.segv) = Except.ok (y, s')) : y = x ∧ s' = s₁ := by
  split at h
  · cases h
    exact ⟨rfl, rfl⟩
  · cases h

/-! ### Every operation -/

/-- The array changes only while the storage is locked. -/
def Caller.Later (l' l : Caller) : Prop :=
  l'.phase = .inside ∨ l'.phase = .after ∨ l.phase ≠ .inside ∧ l'.array = l.array

theorem Caller.later_found (h : l.phase ≠ .inside) (harray : l'.array = l.array) : l'.Later l :=
  .inr (.inr ⟨h, harray⟩)

theorem own_step {o : Op} {r : o.Res} {Q : o.Res → Caller → Prop} (h : Sees s notes t l)
    (hs : Sharing frame s notes) (hframe : Injective frame) (ht : ValidThread t)
    (hspared : Spared notes t o) (hrule : callerRule t o Q l) (hexec : exec frame o s = .ok (r, s')) :
    ∃ l', l'.note = l.note.after o r ∧ Q r l' ∧ Moved frame t s s' notes l' ∧ l'.Later l := by
  cases o with
  | findIndex tid =>
    obtain ⟨rfl, hphase, hQ⟩ := hrule
    obtain ⟨hindex, hmoved⟩ := own_findIndex h hs ht hphase hexec
    exact ⟨{ l with index := r, phase := .found }, rfl, hQ r hindex, hmoved,
      Caller.later_found (by rw [hphase]; decide) rfl⟩
  | pageNum index =>
    obtain ⟨hphase, rfl, hQ⟩ := hrule
    cases hexec
    rw [← own_pageNum h hs hphase] at hQ
    exact ⟨l, rfl, hQ, h.look hs rfl rfl rfl rfl rfl fun _ hp => .inl hp,
      Caller.later_found (by rw [hphase]; decide) rfl⟩
  | lock index =>
    obtain ⟨hphase, rfl, harray, hQ⟩ := hrule
    obtain ⟨a, ha⟩ := Option.ne_none_iff_exists'.mp harray
    obtain ⟨tls, hentry, -⟩ := (h.owns a ha).entry
    have hlock := tlsAt_ok hentry hexec
    cases hfree : tls.mutex with
    | true =>
      rw [if_pos hfree] at hlock
      cases hlock
    | false =>
      rw [if_neg (by rw [hfree]; decide)] at hlock
      cases hlock
      have hself := setTLS_self hentry { tls with mutex := true }
      have hkeep := hs.keep (Quiet.setMutex hentry true) (hs.pool.registered.setTLS hentry _ rfl rfl rfl) (by
        intro j tls₁ tls₂ h₁ h₂ hlocked
        obtain rfl := hs.pool.index_unique h₁ hentry
        cases hself.symm.trans h₂
        rfl)
      have hnotes : update notes t (Caller.note { l with phase := .inside }) = notes := h.notes_eq
      refine ⟨{ l with phase := .inside }, rfl, hQ,
        own_mutex h ha hentry true rfl rfl rfl (iff_of_true rfl rfl) rfl ?_, .inl rfl⟩
      rw [hnotes]
      exact hkeep
  | unlock index =>
    obtain ⟨hphase, rfl, hstage, hQ⟩ := hrule
    obtain ⟨a, tls, ha, -, hentry, -⟩ := h.inside hphase
    cases tlsAt_ok hentry hexec
    have hq := Quiet.setMutex hentry false
    have hnone : (notes t).stage = .none := by rw [h.note, hstage]
    refine ⟨_, rfl, hQ, own_mutex h ha hentry false rfl rfl rfl ?_ rfl ?_, .inr (.inl rfl)⟩
    · exact iff_of_false (by rintro ⟨⟩) (by rintro ⟨⟩)
    · exact hs.release hq (hs.pool.registered.setTLS hentry _ rfl rfl rfl) hnone hstage rfl
  | pageAddr index page =>
    obtain ⟨hphase, rfl, hQ⟩ := hrule
    obtain ⟨a, tls, ha, howns, hentry, hlocked⟩ := h.inside hphase
    obtain ⟨p, hp, hret⟩ := pageAt_ok hexec
    cases hret
    rw [pages_of_entry hentry] at hp
    refine ⟨l.saw (s.heap p).addr, rfl, ?_, h.look hs rfl rfl rfl rfl rfl fun _ hp => .inl hp,
      .inl hphase⟩
    have hnoted := (hs.noted t).stage
    rw [h.note] at hnoted
    generalize hstage : l.note.stage = stage at hQ hnoted
    cases stage with
    | none =>
      have hat : l.table[page]? = some (s.heap p).addr := by
        rw [howns.page hentry (by rw [h.note, hstage]), List.getElem?_map, hp]
        rfl
      apply hQ _ hat
      apply hs.aligned (i := l.index)
      rw [howns.table]
      exact List.mem_of_getElem? hat
    | left entry source => exact hQ.elim
    | mapped entry source fresh => exact hQ.elim
    | replaced entry source fresh =>
      obtain ⟨rfl, hQ⟩ := hQ
      obtain ⟨i, other, hother, -, ⟨q, hq, haddr, -⟩, -⟩ := hnoted (by rintro ⟨⟩)
      obtain rfl := hs.pool.index_unique hentry hother
      cases hentry.symm.trans hother
      cases hp.symm.trans hq
      rw [haddr]
      exact hQ
  | refCount index page =>
    obtain ⟨hphase, rfl, hstage, hQ⟩ := hrule
    obtain ⟨a, tls, ha, howns, hentry, hlocked⟩ := h.inside hphase
    obtain ⟨p, hp, hret⟩ := pageAt_ok hexec
    cases hret
    rw [pages_of_entry hentry] at hp
    have hnoted : ∀ k, k ∈ (l.counted page (s.heap p).refCount).note.alone → k ∈ l.note.alone ∨
        ∃ i tls, s.ttpArray i = ⟨t, some tls⟩ ∧ tls.mutex = true ∧ Sole s notes i k := by
      intro k hk
      unfold Caller.counted Note.counted at hk
      split at hk
      · exact .inl hk
      · rename_i hcount
        obtain rfl | hk := List.mem_cons.mp hk
        · exact .inr ⟨_, tls, hentry, hlocked, hs.sole hentry (by rw [h.note, hstage]) hp hcount⟩
        · exact .inl hk
    exact ⟨l.counted page (s.heap p).refCount, rfl, hQ _,
      h.look hs rfl rfl rfl rfl (l.stage_counted page _) hnoted, .inl hphase⟩
  | decRef index page =>
    obtain ⟨hphase, rfl, hstage, hseen, hQ⟩ := hrule
    obtain ⟨p, hp, hret⟩ := pageAt_ok hexec
    cases hret
    exact ⟨_, rfl, hQ, own_decRef h hs hphase hstage hseen hp, .inl hphase⟩
  | replacePage index page addr =>
    obtain ⟨hphase, rfl, ⟨source, hstage⟩, hQ⟩ := hrule
    obtain ⟨a, tls, ha, howns, hentry, hlocked⟩ := h.inside hphase
    have hreplace := tlsAt_ok hentry hexec
    obtain ⟨p, hp, hret⟩ := pageAt_ok hreplace
    cases hret
    exact ⟨_, rfl, hQ, own_replacePage h hs hphase hentry hstage hp, .inl hphase⟩
  | mprotect addr len prot =>
    obtain ⟨hphase, hQ⟩ := hrule
    cases hexec
    have hmoved := h.mprotect hs addr len prot
    exact ⟨l, rfl, hQ, hmoved, .inl hphase⟩
  | mmap prot =>
    obtain ⟨hphase, ⟨page, source, hstage⟩, hQ⟩ := hrule
    cases hexec
    exact ⟨_, rfl, hQ _ (Nat.mul_mod_left _ _), own_mmap h hs hframe hphase hstage prot, .inl hphase⟩
  | copyOut addr len =>
    obtain ⟨hphase, hstage, page, base, o, hpage, rfl, hlen, hQ⟩ := hrule
    obtain ⟨a, tls, ha, howns, hentry, hlocked⟩ := h.inside hphase
    obtain ⟨rfl, rfl⟩ := read_of_ite hexec
    refine ⟨l, rfl, ?_, h.look hs rfl rfl rfl rfl rfl fun _ hp => .inl hp, .inl hphase⟩
    rw [howns.read hpage hlen]
    exact hQ a ha
  | copyIn addr bytes =>
    obtain ⟨hphase, hstage, page, base, o, hpage, halone, rfl, hlen, hQ⟩ := hrule
    obtain ⟨a, tls, ha, -⟩ := h.inside hphase
    obtain rfl : s' = s.writeMemory (base + o) bytes := store_of_ite hexec
    exact ⟨{ l with array := some (a.write (page * pageSize + o) bytes) }, rfl, hQ a ha,
      own_copyIn h hs hstage hpage halone hlen hspared ha, .inl hphase⟩
  | copyPage dst src =>
    obtain ⟨hphase, page, hstage, hQ⟩ := hrule
    rw [exec] at hexec
    rw [store_of_ite hexec]
    exact ⟨_, rfl, hQ, own_copyPage h hs hphase hstage, .inl hphase⟩

end

end OSChallenges.Storage
