import OSChallenges.Storage.Failures
import Mathlib.Data.Nat.Find
import Mathlib.Algebra.Order.BigOperators.Group.Finset

/-!
# The fault handler

`sfHandle` compares the page of the address with the pages of all entries that have been handed out, in
order. It takes for granted that each has a storage. A call that fails after it has been handed an entry
leaves one that has none, and thread 0 has its storage in an entry that has not been handed out.
-/

namespace OSChallenges.Storage

open Program Words Runs Outcomes

/-- How the handler ends. -/
inductive Handling
  /-- `pthread_exit`. -/
  | exitThread
  /-- The default handlers are restored and the signal is raised. -/
  | raiseSignal
  deriving DecidableEq, Repr

/-- `addr & ~(PAGE_SIZE - 1)`. -/
def pageStart (addr : Nat) : Nat := addr / pageSize * pageSize

/-- The inner loop of `sfHandle`, from page `j` on: whether a page is that of the fault. -/
def scanPages (s : State) (sfPage i : Nat) : Nat → Nat → Except Fault Bool
  | 0, _ => return false
  | n + 1, j => do
    let p ← s.pageAt i j
    if sfPage = pageStart (s.heap p).addr then return true else scanPages s sfPage i n (j + 1)

/-- The outer loop, from entry `i` on. -/
def scanEntries (s : State) (sfPage : Nat) : Nat → Nat → Except Fault Handling
  | 0, _ => return .raiseSignal
  | n + 1, i => do
    let tls ← s.tlsAt i
    if ← scanPages s sfPage i (toInt32 tls.pageNum).toNat 0 then return .exitThread
    else scanEntries s sfPage n (i + 1)

def sfHandle (s : State) (addr : Nat) : Except Fault Handling :=
  scanEntries s (pageStart addr) s.maxIndex 0

/-- The address lies in a page of the storage at `i`. -/
def Hits (s : State) (addr i : Nat) : Prop :=
  ∃ p ∈ s.pages i, State.frameOf (s.heap p).addr = State.frameOf addr

/-- The handler ends the thread if the address lies in a storage, and else lets the signal pass. It does not
touch an entry without a storage. -/
structure Classifies (s : State) (addr : Nat) : Prop where
  inside : (∃ i, Hits s addr i) → sfHandle s addr = .ok .exitThread
  outside : (¬ ∃ i, Hits s addr i) → sfHandle s addr = .ok .raiseSignal

/-- The handler is right about every address. -/
def AllClassified (s : State) : Prop := ∀ addr, addr < 2 ^ 64 → Classifies s addr

/-- The page of the address comes before every entry without a storage, and is not only in one that has
not been handed out. -/
structure HitsFirst (s : State) (addr : Nat) : Prop where
  empty : ∀ i, i < s.maxIndex → (s.ttpArray i).tls = none → ∃ k, k < i ∧ Hits s addr k
  behind : ∀ i, s.maxIndex ≤ i → Hits s addr i → ∃ k, k < s.maxIndex ∧ Hits s addr k

variable {frame : Nat → Nat} {s s' : State} {addr sfPage i j n : Nat} {tls : ThreadLocalStorage}

/-! ### The loops -/

theorem pageStart_eq_iff (a b : Nat) : pageStart a = pageStart b ↔ State.frameOf a = State.frameOf b := by
  unfold pageStart State.frameOf
  exact Nat.mul_left_inj (by decide)

theorem tls_of_hits (h : Hits s addr i) : (s.ttpArray i).tls ≠ none := by
  intro hnone
  obtain ⟨p, hp, -⟩ := h
  rw [State.pages, hnone] at hp
  cases hp

theorem scanPages_eq (addr : Nat) (hlen : j + n = (s.pages i).length) : ∃ found,
    scanPages s (pageStart addr) i n j = .ok found ∧ (found = true ↔
      ∃ p ∈ (s.pages i).drop j, State.frameOf (s.heap p).addr = State.frameOf addr) := by
  induction n generalizing j with
  | zero =>
    refine ⟨false, rfl, iff_of_false Bool.false_ne_true ?_⟩
    rw [List.drop_of_length_le (by omega)]
    rintro ⟨p, hp, -⟩
    cases hp
  | succ n ih =>
    have hj : j < (s.pages i).length := by omega
    have hpage : (s.pages i)[j]? = some (s.pages i)[j] := List.getElem?_eq_getElem hj
    rw [List.drop_eq_getElem_cons hj, scanPages, State.pageAt_of_page hpage]
    by_cases hsame : pageStart addr = pageStart (s.heap (s.pages i)[j]).addr
    · refine ⟨true, if_pos hsame, iff_of_true rfl ⟨_, List.mem_cons_self, ?_⟩⟩
      exact ((pageStart_eq_iff _ _).mp hsame).symm
    · obtain ⟨found, hscan, hfound⟩ := ih (j := j + 1) (by omega)
      refine ⟨found, (if_neg hsame).trans hscan, hfound.trans ?_⟩
      rw [List.exists_mem_cons_iff, or_iff_right]
      exact fun heq => hsame ((pageStart_eq_iff _ _).mpr heq.symm)

theorem scanEntries_turn (hwell : Wellformed frame s) (htls : (s.ttpArray i).tls = some tls) :
    (Hits s addr i → scanEntries s (pageStart addr) (n + 1) i = .ok .exitThread) ∧
    (¬ Hits s addr i → scanEntries s (pageStart addr) (n + 1) i =
      scanEntries s (pageStart addr) n (i + 1)) := by
  have hlen : 0 + (toInt32 tls.pageNum).toNat = (s.pages i).length := by
    rw [Nat.zero_add, State.pages_of_tls htls, hwell.length i tls htls]
  obtain ⟨found, hscan, hfound⟩ := scanPages_eq addr hlen
  have hentry : s.tlsAt i = .ok tls := by
    unfold State.tlsAt
    rw [htls]
  rw [List.drop_zero] at hfound
  rw [scanEntries, hentry, ok_bind, hscan, ok_bind]
  constructor
  · intro hhit
    rw [if_pos (hfound.mpr hhit)]
    rfl
  · intro hmiss
    rw [if_neg fun htrue => hmiss (hfound.mp htrue)]

/-- What stops the scan at an entry: it has the page, or no storage. -/
def Stops (s : State) (addr i : Nat) : Prop := Hits s addr i ∨ (s.ttpArray i).tls = none

theorem scanEntries_pass (hwell : Wellformed frame s)
    (hpass : ∀ k, i ≤ k → k < i + n → ¬ Stops s addr k) :
    scanEntries s (pageStart addr) n i = .ok .raiseSignal := by
  induction n generalizing i with
  | zero => rfl
  | succ n ih =>
    have hi := hpass i (Nat.le_refl _) (by omega)
    obtain ⟨tls, htls⟩ := Option.ne_none_iff_exists'.mp fun hnone => hi (.inr hnone)
    rw [(scanEntries_turn hwell htls).2 fun hhit => hi (.inl hhit)]
    exact ih fun k hle hlt => hpass k (by omega) (by omega)

/-- The scan ends at the first entry that stops it. -/
theorem scanEntries_stop {k : Nat} (hwell : Wellformed frame s) (hle : i ≤ k) (hlt : k < i + n)
    (hstops : Stops s addr k) (hpass : ∀ l, i ≤ l → l < k → ¬ Stops s addr l) :
    (Hits s addr k → scanEntries s (pageStart addr) n i = .ok .exitThread) ∧
    ((s.ttpArray k).tls = none → scanEntries s (pageStart addr) n i = .error .outOfBounds) := by
  induction n generalizing i with
  | zero => omega
  | succ n ih =>
    obtain rfl | hmore := Nat.eq_or_lt_of_le hle
    · constructor
      · intro hhit
        obtain ⟨tls, htls⟩ := Option.ne_none_iff_exists'.mp (tls_of_hits hhit)
        exact (scanEntries_turn hwell htls).1 hhit
      · intro hnone
        rw [scanEntries, State.tlsAt, hnone]
        rfl
    · have hi := hpass i (Nat.le_refl _) hmore
      obtain ⟨tls, htls⟩ := Option.ne_none_iff_exists'.mp fun hnone => hi (.inr hnone)
      rw [(scanEntries_turn hwell htls).2 fun hhit => hi (.inl hhit)]
      exact ih hmore (by omega) fun l hl hl' => hpass l (by omega) hl'

/-! ### The handler -/

/-- It ends at the first entry that stops it, if there is one. -/
theorem sfHandle_cases (hwell : Wellformed frame s) (addr : Nat) :
    (∃ k, k < s.maxIndex ∧ (∀ l, l < k → ¬ Stops s addr l) ∧
      (Hits s addr k ∧ sfHandle s addr = .ok .exitThread ∨
        (s.ttpArray k).tls = none ∧ sfHandle s addr = .error .outOfBounds)) ∨
    (∀ k, k < s.maxIndex → ¬ Stops s addr k) ∧ sfHandle s addr = .ok .raiseSignal := by
  classical
  by_cases h : ∃ k, k < s.maxIndex ∧ Stops s addr k
  · obtain ⟨hk, hstops⟩ := Nat.find_spec h
    have hfirst : ∀ l, l < Nat.find h → ¬ Stops s addr l := fun l hl hstop =>
      Nat.find_min h hl ⟨hl.trans hk, hstop⟩
    obtain ⟨hexit, herror⟩ := scanEntries_stop (i := 0) hwell (Nat.zero_le _)
      (by rwa [Nat.zero_add]) hstops fun l _ hl => hfirst l hl
    refine .inl ⟨Nat.find h, hk, hfirst, ?_⟩
    obtain hhit | hnone := hstops
    · exact .inl ⟨hhit, hexit hhit⟩
    · exact .inr ⟨hnone, herror hnone⟩
  · have hpass : ∀ k, k < s.maxIndex → ¬ Stops s addr k := fun k hk hstop => h ⟨k, hk, hstop⟩
    exact .inr ⟨hpass, scanEntries_pass hwell fun k _ hk => hpass k (by omega)⟩

/-- The handler is right about an address exactly if the page comes first. -/
theorem classifies_iff (hwell : Wellformed frame s) : Classifies s addr ↔ HitsFirst s addr := by
  obtain ⟨k, hk, hfirst, ⟨hhit, hexit⟩ | ⟨hnone, herror⟩⟩ | ⟨hpass, hraise⟩ :=
    sfHandle_cases hwell addr
  · refine iff_of_true ⟨fun _ => hexit, fun hmiss => absurd ⟨k, hhit⟩ hmiss⟩ ⟨fun i hi hnone => ?_,
      fun _ _ _ => ⟨k, hk, hhit⟩⟩
    obtain hlt | rfl | hgt := Nat.lt_trichotomy i k
    · exact absurd (.inr hnone) (hfirst i hlt)
    · exact absurd hnone (tls_of_hits hhit)
    · exact ⟨k, hgt, hhit⟩
  · refine iff_of_false (fun h => ?_) fun h => ?_
    · by_cases hhit : ∃ i, Hits s addr i
      · rw [h.inside hhit] at herror
        cases herror
      · rw [h.outside hhit] at herror
        cases herror
    · obtain ⟨l, hl, hhit⟩ := h.empty k hk hnone
      exact hfirst l hl (.inl hhit)
  · by_cases hhit : ∃ i, Hits s addr i
    · obtain ⟨i, hi⟩ := hhit
      refine iff_of_false (fun h => ?_) fun h => ?_
      · rw [h.inside ⟨i, hi⟩] at hraise
        cases hraise
      · by_cases hlt : i < s.maxIndex
        · exact hpass i hlt (.inl hi)
        · obtain ⟨k, hk, hhit⟩ := h.behind i (Nat.le_of_not_lt hlt) hi
          exact hpass k hk (.inl hhit)
    · exact iff_of_true ⟨fun h => absurd h hhit, fun _ => hraise⟩
        ⟨fun i hi hnone => absurd (.inr hnone) (hpass i hi), fun i _ hi => absurd ⟨i, hi⟩ hhit⟩

/-! ### Runs -/

/-- The entries that have been handed out are those that have a storage. -/
structure Filled (frame : Nat → Nat) (s : State) : Prop where
  wellformed : Wellformed frame s
  registered : Registered s
  tight : ∃ threads, Tight threads s

theorem Tight.mono {threads threads' : Finset Nat} (h : Tight threads s) (hsub : threads ⊆ threads') :
    Tight threads' s where
  bound := h.bound
  fresh := h.fresh
  taken := h.taken
  owner i hi hsome := hsub (h.owner i hi hsome)
  distinct := h.distinct

theorem Filled.initial (frame : Nat → Nat) (memory : Nat → UInt8) : Filled frame (initial memory) :=
  ⟨Wellformed.initial frame memory, Registered.initial memory, ∅, Tight.initial ∅ memory⟩

theorem Filled.step {a : Nat × Call} (h : Filled frame s) (hframe : Function.Injective frame)
    (hvalid : ValidThread a.1) (hnames : NamesKnown s a) (hstep : step frame s a = .ok s') :
    Filled frame s' := by
  obtain ⟨⟨r, s₁⟩, hcall, rfl⟩ := ok_of_map hstep
  obtain ⟨hwell, hreg⟩ := registered_call hframe h.wellformed h.registered hvalid hcall
  obtain ⟨threads, htight⟩ := h.tight
  have hmore := htight.mono (Finset.subset_insert a.1 threads)
  exact ⟨hwell, hreg, _, hmore.of_call hframe h.wellformed (Finset.mem_insert_self ..) hnames hcall⟩

theorem Filled.allClassified (h : Filled frame s) : AllClassified s := by
  intro addr _
  obtain ⟨threads, htight⟩ := h.tight
  refine (classifies_iff h.wellformed).mpr ⟨fun i hi hnone => ?_, fun i hi hhit => ?_⟩
  · have hsome := htight.taken i hi
    rw [hnone] at hsome
    cases hsome
  · exact absurd (h.registered.free i hi) (tls_of_hits hhit)

/-- The page frames of all storages. -/
def hitFrames (s : State) : Finset Nat :=
  (Finset.range maxThreads).biUnion fun i =>
    ((s.pages i).map fun p => State.frameOf (s.heap p).addr).toFinset

theorem card_hitFrames_le (hwell : Wellformed frame s) : (hitFrames s).card ≤ maxThreads * 2 ^ 31 := by
  unfold hitFrames
  refine (Finset.card_biUnion_le_card_mul _ _ (2 ^ 31) fun i _ => ?_).trans ?_
  · refine (List.toFinset_card_le _).trans ?_
    rw [List.length_map]
    cases htls : (s.ttpArray i).tls with
    | none =>
      rw [State.pages, htls]
      exact Nat.zero_le _
    | some tls =>
      have hlt := (le_toInt32 tls.pageNum).2
      rw [State.pages_of_tls htls, hwell.length i tls htls]
      omega
  · rw [Finset.card_range]

theorem exists_miss (hwell : Wellformed frame s) (hreg : Registered s) :
    ∃ addr, addr < 2 ^ 64 ∧ ¬ ∃ i, Hits s addr i := by
  have hcard : (hitFrames s).card < (Finset.range (2 ^ 52)).card := by
    have hle := card_hitFrames_le hwell
    rw [Finset.card_range]
    unfold maxThreads at hle
    omega
  obtain ⟨f, hf, hnot⟩ := Finset.exists_mem_notMem_of_card_lt_card hcard
  have hlt := Finset.mem_range.mp hf
  refine ⟨f * pageSize, ?_, ?_⟩
  · unfold pageSize
    omega
  · rintro ⟨i, hhit⟩
    have hi : i < s.maxIndex := by
      by_contra hge
      exact tls_of_hits hhit (hreg.free i (Nat.le_of_not_lt hge))
    obtain ⟨p, hp, hsame⟩ := hhit
    have hframe : State.frameOf (f * pageSize) = f := Nat.mul_div_cancel f (by decide)
    rw [hframe] at hsame
    apply hnot
    rw [hitFrames, Finset.mem_biUnion]
    refine ⟨i, Finset.mem_range.mpr (hi.trans hreg.bound), ?_⟩
    rw [List.mem_toFinset, List.mem_map]
    exact ⟨p, hp, hsame⟩

/-- A failing call that does not find its threads leaves an entry without a storage. -/
theorem Filled.exists_empty {a : Nat × Call} (h : Filled frame s) (hvalid : ValidThread a.1)
    (hnames : ¬ NamesKnown s a) (hstep : Storage.step frame s a = .ok s') :
    ∃ i, i < s'.maxIndex ∧ (s'.ttpArray i).tls = none := by
  obtain ⟨self, c⟩ := a
  obtain ⟨hfail, hknown⟩ := Classical.not_imp.mp hnames
  obtain ⟨⟨r, s₁⟩, hcall, rfl⟩ := ok_of_map hstep
  rw [call_of_refuses hfail] at hcall
  obtain ⟨s₂, hsearch, heq⟩ := ok_of_map hcall
  cases heq
  obtain ⟨hstore, hle⟩ := sameStore_searches hsearch
  by_cases hmore : s.maxIndex < s₁.maxIndex
  · refine ⟨s.maxIndex, hmore, ?_⟩
    obtain hkept | hempty := hstore.entry s.maxIndex
    · rw [hkept]
      exact h.registered.free _ (Nat.le_refl _)
    · rw [hempty]
      rfl
  · -- No entry has been handed out, so all threads have been found, the caller in its own.
    have hmax : s₁.maxIndex = s.maxIndex := by omega
    have hfirst : s.firstCall = false := by
      by_contra htrue
      rw [Bool.not_eq_false] at htrue
      obtain ⟨threads, htight⟩ := h.tight
      obtain ⟨hreg, -⟩ := h.registered.started
      rw [State.searches] at hsearch
      cases hfind : s.findIndex self with
      | error e =>
        rw [hfind] at hsearch
        cases hsearch
      | ok found =>
        obtain ⟨i, s₂⟩ := found
        rw [hfind] at hsearch
        have hrest := (sameStore_searches hsearch).2
        obtain ⟨hlook, -⟩ := found_of_maxIndex hfind (by omega)
        have hzero : s.started.maxIndex = 0 := by
          rw [s.maxIndex_started]
          exact (htight.fresh htrue).1
        have hvacant := hreg.vacant i (hreg.free i (by omega))
        rw [show (s.started.ttpArray i).tid = self by simpa using List.find?_some hlook] at hvacant
        exact hvacant hvalid
    exact absurd ⟨hfirst, lookUp_of_searches hfirst hsearch hmax⟩ hknown

theorem Filled.not_classified {a : Nat × Call} (h : Filled frame s) (hframe : Function.Injective frame)
    (hvalid : ValidThread a.1) (hnames : ¬ NamesKnown s a) (hstep : Storage.step frame s a = .ok s') :
    ¬ AllClassified s' := by
  obtain ⟨i, hi, hnone⟩ := h.exists_empty hvalid hnames hstep
  obtain ⟨⟨r, s₁⟩, hcall, rfl⟩ := ok_of_map hstep
  obtain ⟨hwell, hreg⟩ := registered_call hframe h.wellformed h.registered hvalid hcall
  obtain ⟨addr, hlt, hmiss⟩ := exists_miss hwell hreg
  intro hall
  obtain ⟨k, -, hhit⟩ := ((classifies_iff hwell).mp (hall addr hlt)).empty i hi hnone
  exact hmiss ⟨k, hhit⟩

/-- In every state the handler is right about exactly the addresses whose page comes first. With ids that
do not stand for a free entry it is right about all addresses exactly if every failing call finds the
threads it names. -/
theorem faults_classified_iff (hframe : Function.Injective frame) (memory : Nat → UInt8)
    {run : List ((Nat × Call) × State)}
    (h : EachStep (fun s a s' => Storage.step frame s a = .ok s') (initial memory) run) :
    Always (fun s => ∀ addr, Classifies s addr ↔ HitsFirst s addr) (initial memory) run ∧
    (EachStep (fun _ a _ => ValidThread a.1) (initial memory) run →
      (Always AllClassified (initial memory) run ↔
        EachStep (fun s a _ => NamesKnown s a) (initial memory) run)) := by
  constructor
  · have hwell : Always (Wellformed frame) (initial memory) run := by
      refine EachStep.always (fun s a s' hs hstep => ?_) (Wellformed.initial frame memory) h
      obtain ⟨⟨r, s₁⟩, hcall, rfl⟩ := ok_of_map hstep
      exact wellformed_call hframe hs hcall
    exact hwell.mono fun s hs addr => classifies_iff hs
  · intro hvalid
    refine always_iff_eachStep (fun _ => Filled.allClassified) ?_ ?_
      (Filled.initial frame memory) (h.and hvalid)
    · intro s a s' hs hnames hstep
      exact hs.step hframe hstep.2 hnames hstep.1
    · intro s a s' hs hnames hstep
      exact hs.not_classified hframe hstep.2 hnames hstep.1

/-- Two threads share pages, and one of them writes. -/
def sharedPages : List ((Nat × Call) × State) :=
  trail (step id) (initial fun _ => 0) [(7, .create 5000), (8, .clone 7), (7, .write 0 1 [65])]

theorem faults_classified_shared : sharedPages.length = 3 ∧
    Always AllClassified (initial fun _ => 0) sharedPages := by
  obtain ⟨hvalid, hnames, hlength⟩ :
      EachStep (fun _ a _ => ValidThread a.1) (initial fun _ => 0) sharedPages ∧
      EachStep (fun s a _ => NamesKnown s a) (initial fun _ => 0) sharedPages ∧
      sharedPages.length = 3 := by
    decide +kernel
  obtain ⟨-, hiff⟩ := faults_classified_iff Function.injective_id (fun _ => 0)
    (eachStep_trail (step id) (initial fun _ => 0)
      [(7, .create 5000), (8, .clone 7), (7, .write 0 1 [65])])
  exact ⟨hlength, (hiff hvalid).mpr hnames⟩

/-- A thread that has no storage reads. From then on the handler itself faults. -/
theorem not_allClassified_read :
    sfHandle (last (initial fun _ => 0) (trail (step id) (initial fun _ => 0) [(5, .read 100 26)])) 0 =
      .error .outOfBounds ∧
    ¬ AllClassified (last (initial fun _ => 0)
      (trail (step id) (initial fun _ => 0) [(5, .read 100 26)])) := by
  have herror : sfHandle (last (initial fun _ => 0)
      (trail (step id) (initial fun _ => 0) [(5, .read 100 26)])) 0 = .error .outOfBounds := by
    rfl
  refine ⟨herror, fun hall => ?_⟩
  have h := hall 0 (by decide)
  by_cases hhit : ∃ i, Hits (last (initial fun _ => 0)
      (trail (step id) (initial fun _ => 0) [(5, .read 100 26)])) 0 i
  · rw [h.inside hhit] at herror
    cases herror
  · rw [h.outside hhit] at herror
    cases herror

end OSChallenges.Storage
