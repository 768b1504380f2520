import OSChallenges.Library.Runs
import OSChallenges.Storage.Registry

/-!
# Pages are closed between calls

Every path of a call that succeeds closes what it has opened. A call that passes the check of its
length but runs past the last page does not: the boundary helper returns before its loop, and the
first page of the access stays open.
-/

namespace OSChallenges.Storage

open Program Words Runs Outcomes

/-- Every page of a storage is closed. -/
def Closed (s : State) : Prop :=
  ∀ index, ∀ p ∈ s.pages index, s.prot (State.frameOf (s.heap p).addr) = .none

/-- The storage that the entry of a thread holds. -/
def State.owned (s : State) (self : Nat) : Option ThreadLocalStorage :=
  match s.findIndex self with
  | .error _ => none
  | .ok (index, s) => (s.ttpArray index).tls

/-- A length that the check lets through, for bytes that end behind the last page. -/
def PastEnd (tls : ThreadLocalStorage) (offset length : Nat) (count : Int) : Prop :=
  length ≤ tls.pageNum * pageSize % 2 ^ 32 ∧
    toInt32 tls.pageNum * pageSize < offset + moved offset length count

/-- The call is a read or a write that runs past the end of the caller's storage. -/
def Refused (s : State) (a : Nat × Call) : Prop :=
  match s.owned a.1, a.2 with
  | some tls, .read offset length => PastEnd tls offset length (toInt32 length)
  | some tls, .write offset length buffer =>
    PastEnd tls offset length (toInt32 (cString buffer).length)
  | _, _ => False

/-! ### The pages that are open in a call -/

/-- No page is open. -/
def AllClosed (s : State) : Prop := ∀ f, s.prot f = .none

/-- No page but `page` is open. -/
def OnlyOpen (frame : Nat → Nat) (s : State) (index page : Nat) : Prop :=
  ∃ p, (s.pages index)[page]? = some p ∧ ∀ f, f ≠ frame p → s.prot f = .none

section

variable {frame : Nat → Nat} {s : State} {index page : Nat}

theorem AllClosed.onlyOpen {p : Nat} (h : AllClosed s) (hp : (s.pages index)[page]? = some p)
    (prot : Prot) : OnlyOpen frame (s.setProt (frame p) prot) index page := by
  refine ⟨p, hp, ?_⟩
  intro f hf
  rw [State.setProt_of_ne s hf]
  exact h f

theorem OnlyOpen.close (h : OnlyOpen frame s index page) (hwell : Wellformed frame s) :
    AllClosed (s.protect index page .none) := by
  obtain ⟨p, hp, hothers⟩ := h
  rw [hwell.protect hp]
  intro f
  by_cases hf : f = frame p
  · subst f
    exact State.setProt_self ..
  · rw [State.setProt_of_ne s hf]
    exact hothers f hf

theorem AllClosed.openWrite {p : Nat} (h : AllClosed s) (hwell : Wellformed frame s)
    (hp : (s.pages index)[page]? = some p) :
    OnlyOpen frame (s.openWrite frame index page) index page := by
  obtain ⟨tls, htls, hpage⟩ := State.tls_of_page hp
  by_cases hcount : 1 < (s.heap p).refCount
  · rw [State.openWrite_shared htls hp hcount]
    refine ⟨s.heapSize, ?_, ?_⟩
    · rw [State.pages_copyOnWrite, if_pos rfl,
        List.getElem?_set_self (List.getElem?_eq_some_iff.mp hpage).1]
    · intro f hf
      rw [hwell.objects] at hf
      show Function.update (Function.update s.prot _ _) _ _ f = .none
      by_cases hold : f = State.frameOf (s.heap p).addr
      · rw [hold, Function.update_self]
      · rw [Function.update_of_ne hold, Function.update_of_ne hf]
        exact h f
  · rw [State.openWrite_own hp hcount, hwell.addr_of_page hp, State.mprotect_page]
    exact h.onlyOpen hp .write

/-- The loop of a read closes each page that it leaves. -/
theorem OnlyOpen.getPages {n o : Nat} (h : OnlyOpen frame s index page) (hwell : Wellformed frame s)
    (ho : o ≤ pageSize)
    (hfits : page * pageSize + o + n ≤ (s.pages index).length * pageSize) :
    AllClosed (s.getPages index n page o) := by
  induction n generalizing s page o with
  | zero => exact h.close hwell
  | succ n ih =>
    rw [State.getPages]
    by_cases hroom : o < pageSize
    · rw [if_pos hroom]
      exact ih h hwell hroom (by omega)
    · rw [if_neg hroom]
      have hclosed := h.close hwell
      obtain ⟨p, hp, -⟩ := h
      rw [hwell.protect hp] at hclosed ⊢
      have hstart : (page + 1) * pageSize = page * pageSize + pageSize := Nat.succ_mul ..
      have hnext : page + 1 < (s.pages index).length := by
        unfold pageSize at *
        omega
      have hq := List.getElem?_eq_getElem hnext
      rw [(hwell.setProt (frame p) .none).protect hq]
      have hfits' : (page + 1) * pageSize + 1 + n ≤ (s.pages index).length * pageSize := by omega
      exact ih (hclosed.onlyOpen hq .read) ((hwell.setProt _ _).setProt _ _) (by decide) hfits'

theorem OnlyOpen.putBytes {bytes : List UInt8} {o : Nat} (h : OnlyOpen frame s index page)
    (hwell : Wellformed frame s) (ho : o ≤ pageSize)
    (hfits : page * pageSize + o + bytes.length ≤ (s.pages index).length * pageSize) :
    AllClosed (s.putBytes frame index bytes page o) := by
  induction bytes generalizing s page o with
  | nil => exact h.close hwell
  | cons byte rest ih =>
    rw [List.length_cons] at hfits
    rw [State.putBytes]
    by_cases hroom : o < pageSize
    · rw [if_pos hroom]
      have hfits' : page * pageSize + (o + 1) + rest.length ≤ (s.pages index).length * pageSize := by
        omega
      exact ih (s := s.putByte index page o byte) h (hwell.writeMemory _ _) hroom hfits'
    · rw [if_neg hroom]
      have hclosed := h.close hwell
      obtain ⟨p, hp, -⟩ := h
      rw [hwell.protect hp] at hclosed ⊢
      have hstart : (page + 1) * pageSize = page * pageSize + pageSize := Nat.succ_mul ..
      have hnext : page + 1 < (s.pages index).length := by
        unfold pageSize at *
        omega
      have hq : ((s.setProt (frame p) .none).pages index)[page + 1]? = some _ :=
        List.getElem?_eq_getElem hnext
      have hwell' := hwell.setProt (frame p) .none
      have hopen := hclosed.openWrite hwell' hq
      have hlength := (SameShape.openWrite frame (s.setProt (frame p) .none) index
        (page + 1)).length_pages index
      let s₂ := (s.setProt (frame p) .none).openWrite frame index (page + 1)
      have hfits' : (page + 1) * pageSize + 1 + rest.length ≤ (s₂.pages index).length * pageSize := by
        rw [hlength]
        show _ ≤ (s.pages index).length * pageSize
        omega
      exact ih (s := s₂.putByte index (page + 1) 0 byte) hopen
        ((hwell'.openWrite _ _).writeMemory _ _) (by decide) hfits'

end

/-! ### What a call leaves open -/

/-- The pages after a call are the ones that its `Refused` tells. -/
structure Leaves (frame : Nat → Nat) (s : State) (a : Nat × Call) (s' : State) : Prop where
  wellformed : Wellformed frame s'
  opened : Refused s a → ¬ Closed s'
  closed : ¬ Refused s a → AllClosed s'

section

variable {frame : Nat → Nat} {s₀ s s' : State} {self offset length index p : Nat}
  {tls : ThreadLocalStorage}

theorem AllClosed.of_sameStore (h : AllClosed s) (hs : SameStore s s') : AllClosed s' := by
  intro f
  rw [hs.prot]
  exact h f

theorem owned_of_findIndex (h : s₀.findIndex self = .ok (index, s)) :
    s₀.owned self = (s.ttpArray index).tls := by
  rw [State.owned, h]

theorem Access.pastEnd_iff {count : Int} (hacc : Access s₀ s self offset length index p tls)
    (hwell : Wellformed frame s) : PastEnd tls offset length count ↔
      ¬ offset + moved offset length count ≤ (s.pages index).length * pageSize := by
  unfold PastEnd
  rw [hwell.toInt32_pageNum hacc.owned hacc.page]
  have hlength := hacc.length
  generalize tls.pageNum * pageSize % 2 ^ 32 = bound at *
  generalize hbytes : (s.pages index).length * pageSize = bytes
  rw [← Int.natCast_mul, hbytes]
  omega

theorem Access.refused_read_iff (hacc : Access s₀ s self offset length index p tls)
    (hwell : Wellformed frame s) : Refused s₀ (self, .read offset length) ↔
      ¬ offset + moved offset length (toInt32 length) ≤ (s.pages index).length * pageSize := by
  unfold Refused
  rw [owned_of_findIndex hacc.found, hacc.owned]
  exact hacc.pastEnd_iff hwell

theorem Access.refused_write_iff (hacc : Access s₀ s self offset length index p tls)
    (buffer : List UInt8) (hwell : Wellformed frame s) :
    Refused s₀ (self, .write offset length buffer) ↔
      ¬ offset + moved offset length (toInt32 (cString buffer).length) ≤
        (s.pages index).length * pageSize := by
  unfold Refused
  rw [owned_of_findIndex hacc.found, hacc.owned]
  exact hacc.pastEnd_iff hwell

theorem not_closed_of_page (hwell : Wellformed frame s) (hp : (s.pages index)[offset]? = some p)
    (hopen : s.prot (frame p) ≠ .none) : ¬ Closed s := by
  intro hclosed
  have hpage := hclosed index p (List.mem_of_getElem? hp)
  rw [hwell.addr_of_page hp, State.frameOf_page] at hpage
  exact hopen hpage

/-- A call that fails in its checks has no storage or asks for too much. -/
theorem Rejected.leaves {r : Result} {c : Call} (hc : (∃ buffer, c = .write offset length buffer) ∨
      c = .read offset length) (h : Rejected s s' self length r) (hwell : Wellformed frame s)
    (hclosed : AllClosed s) : Leaves frame s (self, c) s' := by
  obtain ⟨-, index, hindex, hfail⟩ := h
  have hstore := SameStore.findIndex hindex
  have hnot : ¬ Refused s (self, c) := by
    unfold Refused
    rw [owned_of_findIndex hindex]
    cases htls : (s'.ttpArray index).tls with
    | none =>
      obtain ⟨buffer, rfl⟩ | rfl := hc
      · exact id
      · exact id
    | some tls =>
      have hlong := hfail tls htls
      obtain ⟨buffer, rfl⟩ | rfl := hc
      · exact fun hpast => absurd hpast.1 (Nat.not_le_of_lt hlong)
      · exact fun hpast => absurd hpast.1 (Nat.not_le_of_lt hlong)
  exact ⟨hstore.wellformed hwell, fun hrefused => absurd hrefused hnot,
    fun _ => hclosed.of_sameStore hstore⟩

theorem leaves_read {r : Result} (hwell : Wellformed frame s₀) (hclosed : AllClosed s₀)
    (h : (tlsRead self offset length).run (exec frame) s₀ = .ok (r, s')) :
    Leaves frame s₀ (self, .read offset length) s' := by
  obtain hrejected | ⟨s, index, p, tls, hacc⟩ := tlsRead_cases h
  · exact hrejected.leaves (.inr rfl) hwell hclosed
  · have hstore := SameStore.findIndex hacc.found
    have hwell₁ := hstore.wellformed hwell
    have hclosed₁ := hclosed.of_sameStore hstore
    have hrefused := hacc.refused_read_iff hwell₁
    let s₂ := (s.setMutex index true).setProt (frame p) .read
    have hwell₂ : Wellformed frame s₂ := (hwell₁.setMutex index true).setProt _ _
    have hp₂ : (s₂.pages index)[offset / pageSize]? = some p := by
      show ((s.setMutex index true).pages index)[_]? = _
      rw [State.pages_setMutex]
      exact hacc.page
    have hlocked : AllClosed (s.setMutex index true) := hclosed₁
    have honly : OnlyOpen frame s₂ index (offset / pageSize) := hlocked.onlyOpen hp₂ .read
    apply Prog.of_wp_total (Q := fun _ => Leaves frame s₀ (self, .read offset length)) _ h
    apply wp_tlsRead hacc hwell₁ rfl rfl rfl rfl
    by_cases hfits : offset + moved offset length (toInt32 length) ≤ (s.pages index).length * pageSize
    · rw [if_pos hfits]
      refine ⟨(hwell₂.getPages ..).setMutex _ _, fun href => absurd hfits (hrefused.mp href), ?_⟩
      intro _
      refine honly.getPages hwell₂ (Nat.le_of_lt (Nat.mod_lt _ (by decide))) ?_
      rw [← offset_eq]
      show _ ≤ ((s.setMutex index true).pages index).length * pageSize
      rw [State.pages_setMutex]
      exact hfits
    · rw [if_neg hfits]
      refine ⟨hwell₂.setMutex _ _, ?_, fun hnot => absurd (hrefused.mpr hfits) hnot⟩
      intro _
      apply not_closed_of_page (hwell₂.setMutex _ _)
      · rw [State.pages_setMutex]
        exact hp₂
      · show s₂.prot (frame p) ≠ .none
        rw [State.setProt_self]
        decide

theorem leaves_write {r : Result} {buffer : List UInt8} (hframe : Function.Injective frame)
    (hwell : Wellformed frame s₀) (hclosed : AllClosed s₀)
    (h : (tlsWrite self offset length buffer).run (exec frame) s₀ = .ok (r, s')) :
    Leaves frame s₀ (self, .write offset length buffer) s' := by
  obtain hrejected | ⟨s, index, p, tls, hacc⟩ := tlsWrite_cases h
  · exact hrejected.leaves (.inl ⟨buffer, rfl⟩) hwell hclosed
  · have hstore := SameStore.findIndex hacc.found
    have hwell₁ := (hstore.wellformed hwell).setMutex index true
    have hclosed₁ := hclosed.of_sameStore hstore
    have hlocked : AllClosed (s.setMutex index true) := hclosed₁
    have hrefused := hacc.refused_write_iff buffer (hstore.wellformed hwell)
    have hp₁ : ((s.setMutex index true).pages index)[offset / pageSize]? = some p := by
      rw [State.pages_setMutex]
      exact hacc.page
    let s₂ := (s.setMutex index true).openWrite frame index (offset / pageSize)
    have hwell₂ : Wellformed frame s₂ := hwell₁.openWrite index _
    have hlength : (s₂.pages index).length = (s.pages index).length := by
      rw [(SameShape.openWrite ..).length_pages, State.pages_setMutex]
    apply Prog.of_wp_total (Q := fun _ => Leaves frame s₀ (self, .write offset length buffer)) _ h
    apply wp_tlsWrite hacc (hstore.wellformed hwell) hframe rfl rfl rfl rfl
    generalize hbytes : moved offset length (toInt32 (cString buffer).length) = n at *
    by_cases hfits : offset + n ≤ (s.pages index).length * pageSize
    · rw [if_pos hfits]
      refine ⟨(hwell₂.putBytes ..).setMutex _ _, fun href => absurd hfits (hrefused.mp href), ?_⟩
      intro _
      refine (hlocked.openWrite hwell₁ hp₁).putBytes hwell₂
        (Nat.le_of_lt (Nat.mod_lt _ (by decide))) ?_
      rw [← offset_eq, hlength, List.length_map, List.length_range]
      exact hfits
    · rw [if_neg hfits]
      refine ⟨hwell₂.setMutex _ _, ?_, fun hnot => absurd (hrefused.mpr hfits) hnot⟩
      intro _
      obtain ⟨q, hq, hopen⟩ := hwell₁.openWrite_page hframe hp₁
      apply not_closed_of_page (hwell₂.setMutex _ _)
      · rw [State.pages_setMutex]
        exact hq
      · show s₂.prot (frame q) ≠ .none
        intro hnone
        rw [hnone] at hopen
        cases hopen

theorem leaves_create {size : Nat} {r : Int × State} (hwell : Wellformed frame s₀)
    (hclosed : AllClosed s₀) (h : tlsCreate frame s₀ self size = .ok r) :
    Wellformed frame r.2 ∧ AllClosed r.2 := by
  obtain ⟨index, s, hindex, hr⟩ := tlsCreate_cases h
  have hstore := SameStore.findIndex hindex
  have hwell₁ := hstore.wellformed hwell
  have hclosed₁ := hclosed.of_sameStore hstore
  obtain ⟨rfl, -⟩ | ⟨n, hlow, hhigh, -, rfl⟩ := hr
  · exact ⟨hwell₁, hclosed₁⟩
  · exact ⟨hwell₁.newStorage hlow hhigh, fun f => (created frame s n.toNat).prot f (hclosed₁ f)⟩

theorem leaves_clone {tid : Nat} {r : Int × State} (hwell : Wellformed frame s₀)
    (hclosed : AllClosed s₀) (h : tlsClone s₀ self tid = .ok r) :
    Wellformed frame r.2 ∧ AllClosed r.2 := by
  obtain ⟨i, s₁, j, s₂, hi, hj, hr⟩ := tlsClone_cases h
  have hstore := (SameStore.findIndex hi).trans (SameStore.findIndex hj)
  have hwell₂ := hstore.wellformed hwell
  have hclosed₂ := hclosed.of_sameStore hstore
  obtain ⟨rfl, -⟩ | ⟨tls, -, htls, rfl⟩ := hr
  · exact ⟨hwell₂, hclosed₂⟩
  · exact ⟨hwell₂.cloneStorage htls, hclosed₂⟩

theorem Leaves.of_allClosed {c : Call} (h : Wellformed frame s' ∧ AllClosed s')
    (hc : ¬ Refused s (self, c)) : Leaves frame s (self, c) s' :=
  ⟨h.1, fun hrefused => absurd hrefused hc, fun _ => h.2⟩

theorem not_refused {c : Call} (hread : ∀ offset length, c ≠ .read offset length)
    (hwrite : ∀ offset length buffer, c ≠ .write offset length buffer) :
    ¬ Refused s (self, c) := by
  unfold Refused
  cases s.owned self with
  | none => exact id
  | some tls =>
    cases c with
    | create size => exact id
    | clone tid => exact id
    | read offset length => exact absurd rfl (hread offset length)
    | write offset length buffer => exact absurd rfl (hwrite offset length buffer)

theorem leaves_step {a : Nat × Call} (hframe : Function.Injective frame)
    (hwell : Wellformed frame s) (hclosed : AllClosed s) (h : step frame s a = .ok s') :
    Leaves frame s a s' := by
  obtain ⟨self, c⟩ := a
  obtain ⟨r, hcall, rfl⟩ := ok_of_map h
  cases c with
  | create size =>
    obtain ⟨made, hmade, rfl⟩ := ok_of_map hcall
    exact .of_allClosed (leaves_create hwell hclosed hmade) (not_refused nofun nofun)
  | clone tid =>
    obtain ⟨made, hmade, rfl⟩ := ok_of_map hcall
    exact .of_allClosed (leaves_clone hwell hclosed hmade) (not_refused nofun nofun)
  | read offset length => exact leaves_read hwell hclosed hcall
  | write offset length buffer => exact leaves_write hframe hwell hclosed hcall

end

/-! ### Runs -/

/-- Between the calls of a run every page of every storage is closed exactly if no call of the run
runs past the end of a storage. -/
theorem closed_between_calls {frame : Nat → Nat} (hframe : Function.Injective frame)
    (memory : Nat → UInt8) {run : List ((Nat × Call) × State)}
    (h : EachStep (fun s a s' => step frame s a = .ok s') (initial memory) run) :
    Always Closed (initial memory) run ↔
      EachStep (fun s a _ => ¬ Refused s a) (initial memory) run := by
  apply always_iff_eachStep (I := fun s => Wellformed frame s ∧ AllClosed s) _ _ _ _ h
  · intro s hs index p hp
    exact hs.2 _
  · intro s a s' hs hfits hstep
    have hleaves := leaves_step hframe hs.1 hs.2 hstep
    exact ⟨hleaves.wellformed, hleaves.closed hfits⟩
  · intro s a s' hs hpast hstep
    exact (leaves_step hframe hs.1 hs.2 hstep).opened (not_not.mp hpast)
  · exact ⟨Wellformed.initial frame memory, fun f => rfl⟩

theorem closed_between_calls_read :
    Always Closed (initial fun _ => 0)
        (trail (step id) (initial fun _ => 0) [(7, .create 5000), (7, .read 4090 10)]) ↔
      EachStep (fun s a _ => ¬ Refused s a) (initial fun _ => 0)
        (trail (step id) (initial fun _ => 0) [(7, .create 5000), (7, .read 4090 10)]) :=
  closed_between_calls Function.injective_id _ (eachStep_trail ..)

/-- A read past the end of the second page leaves it open. -/
theorem page_left_open : ¬ Always Closed (initial fun _ => 0)
    (trail (step id) (initial fun _ => 0) [(7, .create 5000), (7, .read 8190 10)]) := by
  intro halways
  have hfirst := halways.mono (I := fun s => ∀ p ∈ s.pages 0,
    s.prot (State.frameOf (s.heap p).addr) = .none) fun s hs => hs 0
  revert hfirst
  decide +kernel

end OSChallenges.Storage
