import OSChallenges.Storage.Isolation

/-!
# Concurrent calls have the results of private arrays

Threads create and clone storages, each call at once, and read and write them, one operation after the other,
in any order. Every call that ends has the result that the specification gives when the calls are made one by
one in the order in which they have ended, as long as no thread writes to a page while another one is copying
it.
-/

namespace OSChallenges.Storage

open Program Words References Runs Outcomes Function

/-! ### Whole calls among others -/

section

variable {frame : Nat → Nat} {s s' : State} {notes : Nat → Note} {t u tid i size : Nat} {l : Caller}
  {arrays : Arrays} {r : Result}

/-- A whole call of a thread keeps all invariants. -/
structure Called (frame : Nat → Nat) (t : Nat) (s s' : State) (notes : Nat → Note) (l' : Caller) :
    Prop where
  sharing : Sharing frame s' notes
  sees : Sees s' notes t l'
  others : ∀ u, ValidThread u → u ≠ t → ∀ l, Sees s notes u l → Sees s' notes u l

theorem start_unlocked : false = true ↔ Phase.start = .inside := by decide

theorem Sees.atStart (h : Sees s notes u l) (hphase : l.phase ≠ .inside) :
    Sees s notes u { l with phase := .start } := by
  refine ⟨h.note, ?_, ?_⟩
  · intro a ha
    have howns := h.owns a ha
    obtain ⟨tls, hentry, hmutex⟩ := howns.entry
    have hstart : Phase.start ≠ .inside := by decide
    exact ⟨⟨tls, hentry, hmutex.trans (iff_of_false hphase hstart)⟩, howns.table, howns.pages, howns.bytes⟩
  · intro hnone
    exact ⟨by rintro ⟨⟩, (h.lacks hnone).entries, by rintro ⟨⟩⟩

theorem sharing_search (hs : Sharing frame s notes) (hfind : s.findIndex tid = .ok (i, s')) :
    Sharing frame s' notes ∧ ∀ u, ValidThread u → ∀ l, Sees s notes u l → Sees s' notes u l := by
  obtain ⟨hreg, hsame⟩ := hs.pool.registered.search hfind
  have hstore := SameStore.findIndex hfind
  have hq : Quiet 0 s s' := Quiet.search hs.pool.registered hfind
  have hmutex : ∀ j tls tls', s.ttpArray j = ⟨0, some tls⟩ → s'.ttpArray j = ⟨0, some tls'⟩ →
      tls.mutex = true → tls'.mutex = true := by
    intro j tls tls' hentry hentry' hlocked
    have htls := hsame.tls j
    rw [hentry, hentry'] at htls
    cases htls
    exact hlocked
  obtain ⟨hbeside, hsharing⟩ := hs.keep hq hreg hmutex
  refine ⟨hsharing, ?_⟩
  intro u hu l hl
  apply hl.beside hs hu.1 hbeside
  · intro j tls _ a _ m _
    rw [hstore.memory]
  · intro hnone hphase
    obtain ⟨hlt, hfree⟩ := (hl.lacks hnone).found hphase
    exact ⟨hlt.trans_le (maxIndex_findIndex_le hfind), (hsame.tls _).trans hfree⟩

/-- A free entry that a search finds has not been handed out before. -/
theorem findIndex_free (h : Registered s) (ht : ValidThread t) (hfind : s.findIndex t = .ok (i, s'))
    (hnone : (s'.ttpArray i).tls = none) : i = s.maxIndex := by
  obtain ⟨hlook, rfl⟩ | ⟨-, -, rfl, -⟩ := findIndex_cases hfind
  · have hid : (s.started.ttpArray i).tid = t := by simpa using List.find?_some hlook
    exact absurd (hid ▸ ht) (h.started.1.vacant i hnone)
  · exact s.maxIndex_started

theorem Takes.others {s₁ : State} {tls : ThreadLocalStorage} (h : Takes t i tls s₁ s')
    (hs : Sharing frame s₁ notes) (hbeside : Beside t s₁ s' notes notes) (hnew : i = s.maxIndex)
    (hmemory : ∀ j x, x ∈ origin s₁ notes j → ∀ m, m < pageSize → s'.memory (x + m) = s₁.memory (x + m))
    (hu : u ≠ t) (hold : Sees s notes u l) (hsees : Sees s₁ notes u l) : Sees s' notes u l := by
  apply hsees.beside hs hu hbeside
  · intro j tls _
    exact hmemory j
  · intro hlack hphase
    obtain ⟨hlt, -⟩ := (hold.lacks hlack).found hphase
    obtain ⟨hlt₁, hfree⟩ := (hsees.lacks hlack).found hphase
    refine ⟨h.maxIndex ▸ hlt₁, ?_⟩
    rw [h.entry_of_ne (by omega)]
    exact hfree

theorem owns_newStorage {n : Int} (h : Takes t i ⟨size, toUInt32 n, false, List.range' s.heapSize n.toNat⟩ s
      (s.newStorage frame i t size n)) (hstage : (notes t).stage = .none)
    (hnum : n.toNat = (PrivateArray.zero size).pages) (note : Note) :
    Owns (s.newStorage frame i t size n) notes t
      ⟨i, (s.newStorage frame i t size n).table i, some (.zero size), .start, note⟩ (.zero size) := by
  let s' := s.newStorage frame i t size n
  have hmade := created frame s n.toNat
  have hlength : (s'.table i).length = n.toNat := by
    rw [State.table, h.pages, List.length_map, List.length_range']
  have htable : ∀ k, k < n.toNat → (s'.table i)[k]? = some (frame (s.mapped + k) * pageSize) := by
    intro k hk
    have hpage : (List.range' s.heapSize n.toNat)[k]? = some (s.heapSize + k) := by
      rw [List.getElem?_range' hk, Nat.one_mul]
    rw [State.table, h.pages, List.getElem?_map, hpage, Option.map_some]
    exact congrArg (fun p => some (Page.addr p)) (hmade.heap_new k hk)
  refine ⟨⟨_, h.entry, start_unlocked⟩, (h.own hstage).1, hlength.trans hnum, ?_⟩
  intro k hk
  rw [PrivateArray.size, ← hnum] at hk
  have hpage : k / pageSize < n.toNat := by
    unfold pageSize at *
    omega
  rw [originByte_of (x := frame (s.mapped + k / pageSize) * pageSize)]
  · exact hmade.memory_new _ hpage _ (Nat.mod_lt _ (by decide))
  · show (origin s' notes i)[k / pageSize]? = _
    rw [(h.own hstage).1]
    exact htable _ hpage

theorem called_create (h : Sees s notes t l) (hs : Sharing frame s notes) (hframe : Injective frame)
    (ht : ValidThread t) (hphase : l.phase = .start) (hstage : l.note.stage = .none)
    (halone : l.note.alone = []) (harray : l.array = arrays t) (hlegal : Legal arrays t (.create size))
    (hcall : call frame s t (.create size) = .ok (r, s')) :
    r = (specCall arrays t (.create size)).1 ∧ ∃ l', l'.phase = .start ∧ l'.note = l.note ∧
      l'.array = (specCall arrays t (.create size)).2 t ∧ Called frame t s s' notes l' := by
  obtain ⟨made, hmade, heq⟩ := ok_of_map hcall
  cases heq
  obtain ⟨index, s₁, hindex⟩ := findIndex_of_tlsCreate hmade
  obtain ⟨n, hpages, hlow, hhigh, hcreate⟩ := exists_tlsCreate frame size hindex
  rw [hcreate] at hmade
  obtain ⟨-, hmoved⟩ := own_findIndex h hs ht hphase hindex
  obtain ⟨hs₁, hall⟩ := sharing_search hs hindex
  have hsees := hmoved.sees
  rw [show update notes t (Caller.note { l with index := index, phase := .found }) = notes from
    h.notes_eq] at hsees
  rw [specCall, ← harray]
  cases ha : l.array with
  | some a =>
    obtain ⟨tls, hentry, -⟩ := (hsees.owns a ha).entry
    rw [if_pos (.inr (by rw [hentry]; rfl))] at hmade
    cases hmade
    refine ⟨rfl, { l with index := index, phase := .start }, rfl, rfl, ?_, hs₁,
      hsees.atStart (by rintro ⟨⟩), fun u hu _ lu hlu => hall u hu lu hlu⟩
    exact harray
  | none =>
    obtain ⟨hsize, hsize'⟩ := hlegal
    have hfree := ((hsees.lacks ha).found rfl).2
    rw [if_neg (by rw [hfree]; simp; omega)] at hmade
    cases hmade
    rw [roundUp_of_le hsize'] at hpages
    have hfound := hs.pool.registered.found ht hindex
    have hnew := findIndex_free hs.pool.registered ht hindex hfree
    have hnum : n.toNat = (PrivateArray.zero size).pages := by
      rw [hpages, Int.toNat_natCast]
      rfl
    have hsmall : n ≤ 2 ^ 12 := by
      rw [hpages]
      unfold pageSize
      omega
    have hpos : 0 ≤ n := by
      rw [hpages]
      exact Int.natCast_nonneg _
    have hmade := created frame s₁ n.toNat
    have hnone : (notes t).stage = .none := by rw [h.note, hstage]
    have htakes : Takes t index _ s₁ (s₁.newStorage frame index t size n) :=
      State.takes_newStorage hfound hfree size
    have hcreated : Beside t s₁ (s₁.newStorage frame index t size n) notes notes ∧ _ :=
      sharing_create hs₁ hframe ht hnone (by rw [h.note, halone]) hfound hfree hpos hsmall
    obtain ⟨hbeside, hsharing⟩ := hcreated
    let s' := s₁.newStorage frame index t size n
    refine ⟨rfl, ⟨index, s'.table index, some (.zero size), .start, l.note⟩, rfl, rfl, ?_, hsharing, ?_, ?_⟩
    · show some _ = update arrays t _ t
      rw [update_self]
    · refine ⟨h.note, ?_, by rintro ⟨⟩⟩
      intro b hb
      cases hb
      exact owns_newStorage htakes hnone hnum l.note
    · intro u hu hut lu hlu
      refine htakes.others hs₁ hbeside hnew ?_ hut hlu (hall u hu lu hlu)
      intro j x hx m hm
      obtain ⟨k, hk, rfl⟩ := hs₁.origin_addr hx
      apply hmade.memory_old
      intro q _ heq
      rw [State.frameOf_mul _ _ hm] at heq
      have hkq := hframe heq
      omega

theorem clone_unlocked {s₁ s₂ : State} {j : Nat} {tls : ThreadLocalStorage} {made : Int × State}
    (h : tlsClone s t tid = .ok made) (hi : s.findIndex t = .ok (i, s₁))
    (hj : s₁.findIndex tid = .ok (j, s₂)) (hnone : (s₂.ttpArray i).tls = none)
    (htls : (s₂.ttpArray j).tls = some tls) : tls.mutex = false := by
  unfold tlsClone at h
  rw [hi] at h
  simp only [bind, Except.bind] at h
  rw [hj] at h
  simp only [hnone, htls, Option.isSome_none, Bool.false_eq_true, if_false] at h
  cases hmutex : tls.mutex with
  | false => rfl
  | true =>
    rw [if_pos hmutex] at h
    cases h

theorem Found.entry_of {tls : ThreadLocalStorage} (h : Found s tid i)
    (htls : (s.ttpArray i).tls = some tls) : s.ttpArray i = ⟨tid, some tls⟩ := by
  obtain ⟨tls', hentry⟩ | ⟨hnone, -⟩ := h.entry
  · rw [hentry] at htls
    cases htls
    exact hentry
  · rw [hnone] at htls
    cases htls

theorem Sees.lacks_of_found (h : Sees s notes u l) (hfound : Found s u i)
    (hnone : (s.ttpArray i).tls = none) : l.array = none := by
  cases ha : l.array with
  | none => rfl
  | some a =>
    obtain ⟨tls, hentry, -⟩ := (h.owns a ha).entry
    obtain ⟨tls', hentry'⟩ | ⟨-, hnot⟩ := hfound.entry
    · rw [hentry'] at hnone
      cases hnone
    · exact absurd (by rw [hentry]) (hnot l.index tls (by rw [hentry]))

theorem called_clone {lc : Caller} (h : Sees s notes t l) (hs : Sharing frame s notes)
    (ht : ValidThread t) (hphase : l.phase = .start) (hstage : l.note.stage = .none)
    (halone : l.note.alone = []) (harray : l.array = arrays t) (hclonee : Sees s notes tid lc)
    (hother : lc.phase ≠ .inside → lc.array = arrays tid) (hlegal : Legal arrays t (.clone tid))
    (hcall : call frame s t (.clone tid) = .ok (r, s')) :
    r = (specCall arrays t (.clone tid)).1 ∧ ∃ l', l'.phase = .start ∧ l'.note = l.note ∧
      l'.array = (specCall arrays t (.clone tid)).2 t ∧ Called frame t s s' notes l' := by
  obtain ⟨made, hmade, heq⟩ := ok_of_map hcall
  cases heq
  obtain ⟨i, s₁, j, s₂, hi, hj, hr⟩ := tlsClone_cases hmade
  obtain ⟨-, hmoved⟩ := own_findIndex h hs ht hphase hi
  obtain ⟨hs₁, hall⟩ := sharing_search hs hi
  obtain ⟨hs₂, hall₂⟩ := sharing_search hs₁ hj
  have hsees := hmoved.sees
  rw [show update notes t (Caller.note { l with index := i, phase := .found }) = notes from
    h.notes_eq] at hsees
  have hsees₂ := hall₂ t ht _ hsees
  have hclonee₂ := hall₂ tid hlegal _ (hall tid hlegal lc hclonee)
  have hfound := (hs.pool.registered.found ht hi).findIndex hs₁.pool.registered hj
  have hfoundc := hs₁.pool.registered.found hlegal hj
  have hrest : ∀ u, ValidThread u → u ≠ t → ∀ lu, Sees s notes u lu → Sees s₂ notes u lu :=
    fun u hu _ lu hlu => hall₂ u hu lu (hall u hu lu hlu)
  cases ha : l.array with
  | some a =>
    obtain ⟨tls, hentry, -⟩ := (hsees₂.owns a ha).entry
    have hspec : specCall arrays t (.clone tid) = (⟨-1, []⟩, arrays) := by
      rw [specCall, ← harray, ha]
    obtain ⟨rfl, -⟩ | ⟨tls', hnone, -⟩ := hr
    · rw [hspec]
      exact ⟨rfl, { l with index := i, phase := .start }, rfl, rfl, harray, hs₂,
        hsees₂.atStart (by rintro ⟨⟩), hrest⟩
    · rw [hentry] at hnone
      cases hnone
  | none =>
    have hfree := ((hsees₂.lacks ha).found rfl).2
    obtain ⟨rfl, hwhy⟩ | ⟨tls, -, htls, rfl⟩ := hr
    · have hmissing : (s₂.ttpArray j).tls = none := by
        obtain hsome | hmissing := hwhy
        · rw [show (s₂.ttpArray i).tls = none from hfree] at hsome
          cases hsome
        · exact hmissing
      have hlack := hclonee₂.lacks_of_found hfoundc hmissing
      have hnone : arrays tid = none := by rw [← hother (hclonee₂.lacks hlack).phase, hlack]
      have hspec : specCall arrays t (.clone tid) = (⟨-1, []⟩, arrays) := by
        rw [specCall, ← harray, ha, hnone]
      rw [hspec]
      exact ⟨rfl, { l with index := i, phase := .start }, rfl, rfl, harray, hs₂,
        hsees₂.atStart (by rintro ⟨⟩), hrest⟩
    · have hmutex := clone_unlocked hmade hi hj hfree htls
      have hentryc := hfoundc.entry_of htls
      cases hb : lc.array with
      | none => exact absurd hentryc ((hclonee₂.lacks hb).entries j tls)
      | some b =>
        have howns := hclonee₂.owns b hb
        obtain ⟨tls', hentry', hlocked⟩ := howns.entry
        obtain rfl := hs₂.pool.index_unique hentryc hentry'
        cases hentryc.symm.trans hentry'
        have hout : lc.phase ≠ .inside := fun hin => by
          rw [hlocked.mpr hin] at hmutex
          cases hmutex
        have hspec : specCall arrays t (.clone tid) = (⟨0, []⟩, update arrays t (some b)) := by
          rw [specCall, ← harray, ha, ← hother hout, hb]
        have hnone : (notes t).stage = .none := by rw [h.note, hstage]
        have ho : Original frame s₂ notes lc.index tls := ⟨htls, hmutex⟩
        obtain ⟨htakes, hbeside, hsharing, htable⟩ := sharing_clone hs₂ ht hnone
          (by rw [h.note, halone]) hfound hfree ho
        have horigin : origin (s₂.cloneStorage i t tls) notes i = origin s₂ notes lc.index := by
          rw [(htakes.own hnone).1, htable, origin_of_none (ho.leaving hs₂)]
        rw [hspec]
        refine ⟨rfl, ⟨i, lc.table, some b, .start, l.note⟩, rfl, rfl, ?_, hsharing, ?_, ?_⟩
        · show some b = update arrays t _ t
          rw [update_self]
        · refine ⟨h.note, ?_, by rintro ⟨⟩⟩
          intro c hc
          cases hc
          refine ⟨⟨_, htakes.entry, start_unlocked⟩, horigin.trans howns.table, howns.pages, ?_⟩
          intro k hk
          rw [← howns.bytes k hk]
          exact originByte_congr horigin (fun _ _ _ _ => rfl) (howns.size ▸ hk)
        · intro u hu hut lu hlu
          have hnew : i = s.maxIndex :=
            findIndex_free hs.pool.registered ht hi ((hsees.lacks ha).found rfl).2
          exact htakes.others hs₂ hbeside hnew (fun _ _ _ _ _ => rfl) hut hlu (hrest u hu hut lu hlu)

end

/-! ### The machine -/

/-- The code of a call that is executed one operation after the other. -/
def Call.code (self : Nat) : Call → Option (Code Result)
  | .create _ | .clone _ => none
  | .read offset length => some (tlsRead self offset length)
  | .write offset length buffer => some (tlsWrite self offset length buffer)

/-- A call that has not ended: what is left of it, and what its thread has noted. -/
structure OpenCall where
  call : Call
  code : Code Result
  note : Note

structure History where
  store : State
  calls : Nat → Option OpenCall
  ended : List ((Nat × Call) × Result)

/-- What a thread does: it begins a call, or goes on with its own. -/
inductive Turn
  | call (c : Call)
  | advance
  deriving DecidableEq, Repr

/-- The arrays after calls that are made one by one. -/
def specArrays : Arrays → List (Nat × Call) → Arrays
  | arrays, [] => arrays
  | arrays, (self, c) :: rest => specArrays (specCall arrays self c).2 rest

namespace History

/-- No thread has made a call. -/
def start (memory : Nat → UInt8) : History := ⟨initial memory, fun _ => none, []⟩

def notes (h : History) (t : Nat) : Note :=
  match h.calls t with
  | some c => c.note
  | none => .start

/-- The private arrays after the calls that have ended. -/
def arrays (h : History) : Arrays := specArrays (fun _ => none) (h.ended.map Prod.fst)

def finish (h : History) (t : Nat) (c : Call) (r : Result) (s : State) : History where
  store := s
  calls := update h.calls t none
  ended := h.ended ++ [((t, c), r)]

def goOn (h : History) (t : Nat) (c : Call) (note : Note) (s : State) : Code Result → History
  | .ret r => h.finish t c r s
  | .op o k => { h with store := s, calls := update h.calls t (some ⟨c, .op o k, note⟩) }

/-- One step; there is none if a thread that begins a call is in one, or has no call to go on with, and none
if the operation fails. -/
def step (frame : Nat → Nat) (h : History) (a : Nat × Turn) : Except (Option Fault) History :=
  match a.2, h.calls a.1 with
  | .call c, none =>
    match c.code a.1 with
    | some code => .ok (h.goOn a.1 c .start h.store code)
    | none =>
      match call frame h.store a.1 c with
      | .error e => .error (some e)
      | .ok (r, s) => .ok (h.finish a.1 c r s)
  | .advance, some ⟨c, .op o k, note⟩ =>
    match exec frame o h.store with
    | .error e => .error (some e)
    | .ok (r, s) => .ok (h.goOn a.1 c (note.after o r) s (k r))
  | _, _ => .error none

/-- The threads have valid ids and the arguments are legal where they are used, and nobody writes to a page
that another thread is copying. -/
def Allowed (h : History) (a : Nat × Turn) : Prop :=
  ValidThread a.1 ∧
    match a.2, h.calls a.1 with
    | .call c, _ => Legal h.arrays a.1 c
    | .advance, some ⟨_, .op o _, _⟩ => Spared h.notes a.1 o
    | .advance, _ => True

end History

/-! ### What holds in every state -/

/-- A thread in a call is on the way to the result of the specification. -/
def Doing (arrays : Arrays) (t : Nat) (l : Caller) : Option OpenCall → Prop
  | none => l.phase = .start
  | some c => ∃ o k before, c.code = .op o k ∧ (c.call.code t).isSome = true ∧ before t = arrays t ∧
    c.code.wp (callerRule t) (fun r l' => l'.Ends before t c.call r) l

structure Consistent (frame : Nat → Nat) (h : History) : Prop where
  sharing : Sharing frame h.store h.notes
  threads : ∀ t, ValidThread t → ∃ l, Sees h.store h.notes t l ∧
    (l.phase ≠ .inside → l.array = h.arrays t) ∧ Doing h.arrays t l (h.calls t)
  results : h.ended.map Prod.snd = specResults (fun _ => none) (h.ended.map Prod.fst)

section

variable {frame : Nat → Nat} {h h' : History} {s : State} {t u : Nat} {c : Call} {turn : Turn}
  {arrays before : Arrays} {r : Result} {l l' : Caller} {n : Note}

/-! ### The specification -/

theorem specArrays_append (arrays : Arrays) (calls : List (Nat × Call)) :
    specArrays arrays (calls ++ [(t, c)]) = (specCall (specArrays arrays calls) t c).2 := by
  induction calls generalizing arrays with
  | nil => rfl
  | cons a rest ih => exact ih _

theorem specResults_append (arrays : Arrays) (calls : List (Nat × Call)) :
    specResults arrays (calls ++ [(t, c)]) =
      specResults arrays calls ++ [(specCall (specArrays arrays calls) t c).1] := by
  induction calls generalizing arrays with
  | nil => rfl
  | cons a rest ih =>
    rw [List.cons_append, specResults, specResults, ih]
    rfl

theorem specCall_other (hu : u ≠ t) : (specCall arrays t c).2 u = arrays u := by
  cases c with
  | create size =>
    rw [specCall]
    cases arrays t with
    | some a => rfl
    | none => exact update_of_ne hu ..
  | clone tid =>
    rw [specCall]
    cases arrays t with
    | some a => rfl
    | none =>
      cases arrays tid with
      | none => rfl
      | some a => exact update_of_ne hu ..
  | read offset length =>
    rw [specCall]
    cases arrays t with
    | none => rfl
    | some a =>
      simp only
      split
      · rfl
      · rfl
  | write offset length buffer =>
    rw [specCall]
    cases arrays t with
    | none => rfl
    | some a =>
      simp only
      split
      · exact update_of_ne hu ..
      · rfl

theorem specCall_local (hc : (c.code t).isSome = true) (hsame : before t = arrays t) :
    (specCall before t c).1 = (specCall arrays t c).1 ∧
      (specCall before t c).2 t = (specCall arrays t c).2 t := by
  cases c with
  | create size => cases hc
  | clone tid => cases hc
  | read offset length =>
    rw [specCall, specCall, hsame]
    cases ha : arrays t with
    | none => exact ⟨rfl, hsame⟩
    | some a =>
      simp only
      split
      · exact ⟨rfl, hsame⟩
      · exact ⟨rfl, hsame⟩
  | write offset length buffer =>
    rw [specCall, specCall, hsame]
    cases ha : arrays t with
    | none => exact ⟨rfl, hsame⟩
    | some a =>
      simp only
      split
      · refine ⟨rfl, ?_⟩
        show update before t _ t = update arrays t _ t
        rw [update_self, update_self]
      · exact ⟨rfl, hsame⟩

/-! ### One step -/

namespace History

theorem step_cases (hstep : h.step frame (t, turn) = .ok h') :
    (∃ c code, turn = .call c ∧ h.calls t = none ∧ c.code t = some code ∧
      h' = h.goOn t c .start h.store code) ∨
    (∃ c r s, turn = .call c ∧ h.calls t = none ∧ call frame h.store t c = .ok (r, s) ∧
      c.code t = none ∧ h' = h.finish t c r s) ∨
    ∃ c o k note r s, turn = .advance ∧ h.calls t = some ⟨c, .op o k, note⟩ ∧
      exec frame o h.store = .ok (r, s) ∧ h' = h.goOn t c (note.after o r) s (k r) := by
  rw [step] at hstep
  split at hstep
  · rename_i c hturn hidle
    split at hstep
    · rename_i code hcode
      cases hstep
      exact .inl ⟨c, code, hturn, hidle, hcode, rfl⟩
    · rename_i hcode
      split at hstep
      · cases hstep
      · rename_i r s hcall
        cases hstep
        exact .inr (.inl ⟨c, r, s, hturn, hidle, hcall, hcode, rfl⟩)
  · rename_i c o k note hturn hcalls
    split at hstep
    · cases hstep
    · rename_i r s hexec
      cases hstep
      exact .inr (.inr ⟨c, o, k, note, r, s, hturn, hcalls, hexec, rfl⟩)
  · cases hstep

theorem notes_idle (hidle : h.calls t = none) : h.notes t = .start := by
  rw [notes, hidle]

theorem notes_update (call : Option OpenCall) (ended : List ((Nat × Call) × Result)) :
    notes ⟨s, update h.calls t call, ended⟩ =
      update h.notes t (match call with | some c => c.note | none => .start) := by
  funext u
  unfold notes
  by_cases hu : u = t
  · subst hu
    simp only [update_self]
  · simp only [update_of_ne hu]

theorem arrays_finish : (h.finish t c r s).arrays = (specCall h.arrays t c).2 := by
  rw [arrays, finish, List.map_append]
  exact specArrays_append _ _

end History

/-- What a thread is doing does not depend on the arrays of the others. -/
theorem Doing.congr {call : Option OpenCall} (h : Doing before t l call) (hsame : before t = arrays t) :
    Doing arrays t l call := by
  cases call with
  | none => exact h
  | some c =>
    obtain ⟨o, k, old, hcode, hlocal, hold, hwp⟩ := h
    exact ⟨o, k, old, hcode, hlocal, hold.trans hsame, hwp⟩

/-- A call ends with the result of the specification. -/
theorem Consistent.finish (hk : Consistent frame h) (hsharing : Sharing frame s (update h.notes t .start))
    (hsees : Sees s (update h.notes t .start) t l) (hphase : l.phase = .start)
    (harray : l.array = (specCall h.arrays t c).2 t) (hr : r = (specCall h.arrays t c).1)
    (hothers : ∀ u, ValidThread u → u ≠ t → ∀ l, Sees h.store h.notes u l →
      Sees s (update h.notes t .start) u l) : Consistent frame (h.finish t c r s) := by
  have hnotes : (h.finish t c r s).notes = update h.notes t .start := History.notes_update none _
  refine ⟨?_, ?_, ?_⟩
  · rw [hnotes]
    exact hsharing
  · intro u hu
    rw [hnotes, History.arrays_finish]
    by_cases hut : u = t
    · subst hut
      refine ⟨l, hsees, fun _ => harray, ?_⟩
      show Doing _ u l (update h.calls u none u)
      rw [update_self]
      exact hphase
    · obtain ⟨lu, hlu, hout, hdoing⟩ := hk.threads u hu
      have hsame : h.arrays u = (specCall h.arrays t c).2 u := (specCall_other hut).symm
      refine ⟨lu, hothers u hu hut lu hlu, fun hphase => (hout hphase).trans hsame, ?_⟩
      show Doing _ u lu (update h.calls t none u)
      rw [update_of_ne hut]
      exact hdoing.congr hsame
  · rw [History.finish, List.map_append, List.map_append, hk.results]
    show _ ++ [r] = specResults _ (_ ++ [(t, c)])
    rw [specResults_append, hr]
    rfl

/-- Behind the unlocking nothing is done. -/
theorem phase_of_rule {o : Op} {Q : o.Res → Caller → Prop} (h : callerRule t o Q l) : l.phase ≠ .after := by
  intro hafter
  cases o with
  | findIndex tid => cases hafter.symm.trans h.2.1
  | pageNum index => cases hafter.symm.trans h.1
  | lock index => cases hafter.symm.trans h.1
  | unlock index => cases hafter.symm.trans h.1
  | pageAddr index page => cases hafter.symm.trans h.1
  | refCount index page => cases hafter.symm.trans h.1
  | decRef index page => cases hafter.symm.trans h.1
  | replacePage index page addr => cases hafter.symm.trans h.1
  | mprotect addr len prot => cases hafter.symm.trans h.1
  | mmap prot => cases hafter.symm.trans h.1
  | copyOut addr len => cases hafter.symm.trans h.1
  | copyIn addr bytes => cases hafter.symm.trans h.1
  | copyPage dst src => cases hafter.symm.trans h.1

theorem Consistent.goOn {code : Code Result} (hk : Consistent frame h) (hlocal : (c.code t).isSome = true)
    (hbefore : before t = h.arrays t) (hsharing : Sharing frame s (update h.notes t l.note))
    (hsees : Sees s (update h.notes t l.note) t l)
    (hlater : l.phase = .inside ∨ l.phase = .after ∨ l.array = h.arrays t)
    (hwp : code.wp (callerRule t) (fun r l' => l'.Ends before t c r) l)
    (hothers : ∀ u, ValidThread u → u ≠ t → ∀ lu, Sees h.store h.notes u lu →
      Sees s (update h.notes t l.note) u lu) : Consistent frame (h.goOn t c l.note s code) := by
  cases code with
  | ret r =>
    obtain ⟨hr, harray, hphase, hstage⟩ := hwp
    obtain ⟨hresult, hown⟩ := specCall_local hlocal hbefore
    have hnote : (update h.notes t l.note t).stage = .none := by rw [update_self, hstage]
    have hq : Quiet t s s := Quiet.of_same rfl rfl rfl (Nat.le_refl _)
    obtain ⟨hbeside, hreleased⟩ :=
      hsharing.release hq hsharing.pool.registered hnote (n := Note.start) rfl rfl
    have hleaves : Note.start.stage.leaves = (update h.notes t l.note t).stage.leaves := by
      rw [hnote]
      rfl
    have hshares := hq.shares hleaves
    rw [update_idem] at hbeside hreleased hshares
    refine hk.finish (l := { l with phase := .start, note := .start }) hreleased ?_ rfl ?_ ?_ ?_
    · have hstart := hsees.atStart hphase
      refine ⟨update_self .., ?_, ?_⟩
      · intro a ha
        have howns := hstart.owns a ha
        refine howns.keep howns.entry rfl rfl (hshares _).1 ?_
        intro x _ m _
        rfl
      · intro hnone
        exact ⟨by rintro ⟨⟩, (hstart.lacks hnone).entries, by rintro ⟨⟩⟩
    · exact harray.trans hown
    · exact hr.trans hresult
    · intro u hu hut lu hlu
      apply (hothers u hu hut lu hlu).stays hsharing hut
      exact Stays.same hbeside rfl (fun _ hi => hi) rfl
  | op o k =>
    have hnotes : (h.goOn t c l.note s (.op o k)).notes = update h.notes t l.note :=
      History.notes_update (some ⟨c, .op o k, l.note⟩) _
    refine ⟨?_, ?_, hk.results⟩
    · rw [hnotes]
      exact hsharing
    · intro u hu
      rw [hnotes]
      show ∃ l', Sees s _ u l' ∧ (l'.phase ≠ .inside → l'.array = h.arrays u) ∧
        Doing h.arrays u l' (update h.calls t (some ⟨c, .op o k, l.note⟩) u)
      by_cases hut : u = t
      · subst hut
        refine ⟨l, hsees, ?_, ?_⟩
        · intro hphase
          obtain hin | hafter | harray := hlater
          · exact absurd hin hphase
          · exact absurd hafter (phase_of_rule hwp)
          · exact harray
        · rw [update_self]
          exact ⟨o, k, before, rfl, hlocal, hbefore, hwp⟩
      · obtain ⟨lu, hlu, hout, hdoing⟩ := hk.threads u hu
        refine ⟨lu, hothers u hu hut lu hlu, hout, ?_⟩
        rw [update_of_ne hut]
        exact hdoing

theorem Consistent.ready (hk : Consistent frame h) (hsees : Sees h.store h.notes t l)
    (hphase : l.phase = .start) (harray : l.array = h.arrays t) (hidle : h.calls t = none) : l.Ready (h.arrays t) := by
  have hnote : l.note = .start := by rw [← hsees.note, History.notes_idle hidle]
  refine ⟨hphase, harray, by rw [hnote]; rfl, ?_, ?_⟩
  · intro a ha
    exact (hsees.owns a (harray.trans ha)).pages
  · intro a ha
    have howns := hsees.owns a (harray.trans ha)
    obtain ⟨tls, hentry, -⟩ := howns.entry
    obtain ⟨hnum, hsmall⟩ := hk.sharing.sizes l.index tls (by rw [hentry])
    rw [← howns.pages, ← howns.table, length_origin, pages_of_entry hentry, ← hnum]
    exact hsmall

theorem wp_of_code {code : Code Result} (hcode : c.code t = some code) (hready : l.Ready (arrays t))
    (hlegal : Legal arrays t c) : code.wp (callerRule t) (fun r l' => l'.Ends arrays t c r) l := by
  cases c with
  | create size => cases hcode
  | clone tid => cases hcode
  | read offset length =>
    cases hcode
    exact caller_tlsRead hready hlegal
  | write offset length buffer =>
    cases hcode
    exact caller_tlsWrite hready hlegal

theorem Consistent.step {a : Nat × Turn} (hk : Consistent frame h) (hframe : Injective frame)
    (hallowed : h.Allowed a) (hstep : h.step frame a = .ok h') : Consistent frame h' := by
  obtain ⟨t, turn⟩ := a
  obtain ⟨ht, hlegal⟩ := hallowed
  obtain ⟨l, hsees, hout, hdoing⟩ := hk.threads t ht
  obtain ⟨c, code, rfl, hidle, hcode, rfl⟩ | ⟨c, r, s, rfl, hidle, hcall, hcode, rfl⟩ |
    ⟨c, o, k, note, r, s, rfl, hcalls, hexec, rfl⟩ := History.step_cases hstep
  · rw [hidle] at hdoing
    have hphase : l.phase = .start := hdoing
    have harray := hout (by rw [hphase]; decide)
    have hnote : l.note = .start := by rw [← hsees.note, History.notes_idle hidle]
    have hready := hk.ready hsees hphase harray hidle
    have hwp := wp_of_code hcode hready hlegal
    have hsame := hsees.notes_eq
    have hlocal : (c.code t).isSome = true := by rw [hcode]; rfl
    rw [← hnote]
    apply hk.goOn hlocal rfl _ _ (.inr (.inr harray)) hwp
    · rw [hsame]
      exact fun u _ _ lu hlu => hlu
    · rw [hsame]
      exact hk.sharing
    · rw [hsame]
      exact hsees
  · rw [hidle] at hdoing
    have hphase : l.phase = .start := hdoing
    have harray := hout (by rw [hphase]; decide)
    have hnote : l.note = .start := by rw [← hsees.note, History.notes_idle hidle]
    have hsame : update h.notes t .start = h.notes := by rw [← hnote, hsees.notes_eq]
    have hcalled : r = (specCall h.arrays t c).1 ∧ ∃ l', l'.phase = .start ∧ l'.note = l.note ∧
        l'.array = (specCall h.arrays t c).2 t ∧ Called frame t h.store s h.notes l' := by
      cases c with
      | create size =>
        exact called_create hsees hk.sharing hframe ht hphase (by rw [hnote]; rfl) (by rw [hnote]; rfl)
          harray hlegal hcall
      | clone tid =>
        obtain ⟨lc, hclonee, hother, -⟩ := hk.threads tid hlegal
        exact called_clone hsees hk.sharing ht hphase (by rw [hnote]; rfl) (by rw [hnote]; rfl) harray
          hclonee hother hlegal hcall
      | read offset length => cases hcode
      | write offset length buffer => cases hcode
    obtain ⟨hr, l', hphase', -, harray', hcalled⟩ := hcalled
    apply hk.finish (l := l') _ _ hphase' harray' hr
    · rw [hsame]
      exact hcalled.others
    · rw [hsame]
      exact hcalled.sharing
    · rw [hsame]
      exact hcalled.sees
  · rw [hcalls] at hdoing
    obtain ⟨o', k', before, hcode, hlocal, hbefore, hwp⟩ := hdoing
    cases hcode
    have hspared : Spared h.notes t o := by
      simp only [hcalls] at hlegal
      exact hlegal
    obtain ⟨l', hnote', hQ, hmoved, hlater⟩ := own_step hsees hk.sharing hframe ht hspared hwp hexec
    have hnote : note = l.note := by
      rw [← hsees.note, History.notes, hcalls]
    rw [hnote, ← hnote']
    apply hk.goOn hlocal hbefore hmoved.sharing hmoved.sees _ hQ
    · exact fun u _ hut lu hlu => hlu.stays hk.sharing hut hmoved.stays
    · obtain hin | hafter | ⟨hphase, harray⟩ := hlater
      · exact .inl hin
      · exact .inr (.inl hafter)
      · exact .inr (.inr (harray.trans (hout hphase)))

end

/-! ### Runs -/

section

variable {frame : Nat → Nat} {us : List Nat} {h h' : History} {a : Nat × Turn}

end

/-- A thread goes on with its call. -/
def steps (t n : Nat) : List (Nat × Turn) := List.replicate n (t, .advance)

/-- One thread has taken away its reference and is about to copy the page when the other one writes to it in
place. -/
def copyAndWrite : List (Nat × Turn) :=
  [(1, .call (.create 4096)), (2, .call (.clone 1)), (1, .call (.write 0 1 [120]))] ++ steps 1 10 ++
    [(2, .call (.write 1 1 [121]))] ++ steps 2 9 ++ steps 1 8 ++ steps 2 3 ++
    [(1, .call (.read 0 2))] ++ steps 1 11

example : (last (History.start fun _ => 0)
      (trail (History.step id) (History.start fun _ => 0) copyAndWrite)).ended.map Prod.snd ≠
    specResults (fun _ => none) ((last (History.start fun _ => 0)
      (trail (History.step id) (History.start fun _ => 0) copyAndWrite)).ended.map Prod.fst) := by
  decide +kernel

end OSChallenges.Storage
