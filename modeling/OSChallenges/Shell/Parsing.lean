import Mathlib.Data.List.GetD
import OSChallenges.Library.Outcomes
import OSChallenges.Shell.Drafts

/-!
# The parser and its drafts

The buffers of a command hold the words of its draft, each from its start on, and behind them what has
been there before. Every turn of the loop keeps this, so the loop reads a text as the draft does.
-/

namespace OSChallenges.Shell

open Outcomes

/-- The blocks of the arguments of a command whose own block is `k`; the two between the first and the
second are for the paths. -/
def argBlock (k : Nat) : Nat → Nat
  | 0 => k + 1
  | i + 1 => k + 4 + i

/-- The bytes of a buffer into which a word has been written. -/
def filled (old : Heap) (b : Nat) (w : List UInt8) : Nat → UInt8 :=
  if w = [] then Function.update (old b) 0 ampersand else fun o => w.getD o (old b o)

/-- Every word fits its buffer, without a zero behind it. -/
structure Draft.Short (d : Draft) : Prop where
  words : ∀ w ∈ d.words, w.length ≤ bufferSize
  last : d.last.length ≤ bufferSize
  input : d.input.length ≤ bufferSize
  output : d.output.length ≤ bufferSize

theorem Draft.short_of_letters {d : Draft} {cs : List UInt8} (h : (d.letters cs).Short) : d.Short := by
  obtain ⟨words, last, input, output, mode, inputs, outputs⟩ := d
  obtain ⟨hwords, hlast, hinput, houtput⟩ := h
  have hshorter : ∀ w : List UInt8, (w ++ cs).length ≤ bufferSize → w.length ≤ bufferSize := by
    intro w hw
    rw [List.length_append] at hw
    exact Nat.le_of_add_right_le hw
  cases mode with
  | args => exact ⟨hwords, hshorter _ hlast, hinput, houtput⟩
  | input => exact ⟨hwords, hlast, hshorter _ hinput, houtput⟩
  | output => exact ⟨hwords, hlast, hinput, hshorter _ houtput⟩

theorem Draft.clean_letters {d : Draft} {c : UInt8}
    (h : ∀ ch ∈ d.last ++ d.input ++ d.output, ch ≠ ampersand) (hc : c ≠ ampersand) :
    ∀ ch ∈ (d.letters [c]).last ++ (d.letters [c]).input ++ (d.letters [c]).output, ch ≠ ampersand := by
  obtain ⟨words, last, input, output, mode, inputs, outputs⟩ := d
  simp only [List.forall_mem_append] at h
  obtain ⟨⟨hlast, hinput⟩, houtput⟩ := h
  have hmore : ∀ w : List UInt8, (∀ ch ∈ w, ch ≠ ampersand) → ∀ ch ∈ w ++ [c], ch ≠ ampersand :=
    fun w hw => List.forall_mem_append.mpr ⟨hw, List.forall_mem_singleton.mpr hc⟩
  simp only [List.forall_mem_append]
  cases mode with
  | args => exact ⟨⟨hmore _ hlast, hinput⟩, houtput⟩
  | input => exact ⟨⟨hlast, hmore _ hinput⟩, houtput⟩
  | output => exact ⟨⟨hlast, hinput⟩, hmore _ houtput⟩

theorem Draft.short_of_spaced {d : Draft} (h : d.spaced.Short) : d.Short := by
  unfold Draft.spaced at h
  split at h
  · exact ⟨fun w hw => h.words w (List.mem_append_left _ hw),
      h.words _ (List.mem_append_right _ List.mem_cons_self), h.input, h.output⟩
  · exact h

/-- The parser `s` has read `n` characters of a command since `s₀`. -/
structure Writing (old : Heap) (s₀ : Parser) (k n : Nat) (d : Draft) (s : Parser) : Prop where
  mallocCheck : s.mallocCheck = false
  allocated : s.allocated = k + 4 + d.words.length
  args : ∀ i, i ≤ d.words.length → s.currentCommand.commandArgs i = .block (argBlock k i)
  redirectIn : s.currentCommand.redirectInPath = .block (k + 2)
  redirectOut : s.currentCommand.redirectOutPath = .block (k + 3)
  commandArgPos : s.commandArgPos = d.words.length
  argStorePos : s.argStorePos = d.last.length
  redirectInPos : s.redirectInPos = d.input.length
  redirectOutPos : s.redirectOutPos = d.output.length
  inCheck : s.inCheck = decide (d.mode = .input)
  outCheck : s.outCheck = decide (d.mode = .output)
  riCheck : s.riCheck = s₀.riCheck + d.inputs
  roCheck : s.roCheck = s₀.roCheck + d.outputs
  inputPos : s.inputPos = s₀.inputPos + n
  words : ∀ i w, d.words[i]? = some w → s.heap (argBlock k i) = filled old (argBlock k i) w
  last : s.heap (argBlock k d.words.length) = filled old (argBlock k d.words.length) d.last
  input : s.heap (k + 2) = filled old (k + 2) d.input
  output : s.heap (k + 3) = filled old (k + 3) d.output
  fresh : ∀ b, s.allocated ≤ b → s.heap b = old b
  below : ∀ b, b < k → s.heap b = s₀.heap b
  clean : ∀ c ∈ d.last ++ d.input ++ d.output, c ≠ ampersand
  before : s.before = s₀.before
  isBackground : s.isBackground = s₀.isBackground
  doubleRedirectCheck : s.doubleRedirectCheck = s₀.doubleRedirectCheck
  ampersandPosCheck : s.ampersandPosCheck = s₀.ampersandPosCheck
  overflow : d.Short → s.overflow = s₀.overflow

section

variable {old : Heap} {s₀ s s' : Parser} {k n : Nat} {d : Draft} {c : UInt8} {w : List UInt8} {b : Nat}

theorem update_filled (old : Heap) (b : Nat) (w : List UInt8) (c : UInt8) :
    Function.update (filled old b w) w.length c = filled old b (w ++ [c]) := by
  funext o
  have hnew : filled old b (w ++ [c]) o = (w ++ [c]).getD o (old b o) := by
    rw [filled, if_neg (by simp)]
  rw [hnew]
  obtain hlt | rfl | hgt := Nat.lt_trichotomy o w.length
  · have hne : w ≠ [] := by
      intro hnil
      rw [hnil] at hlt
      exact absurd hlt (Nat.not_lt_zero _)
    rw [Function.update_of_ne (Nat.ne_of_lt hlt), filled, if_neg hne, List.getD_append _ _ _ _ hlt]
  · rw [Function.update_self, List.getD_append_right _ _ _ _ (Nat.le_refl _), Nat.sub_self]
    rfl
  · rw [Function.update_of_ne (Nat.ne_of_gt hgt),
      List.getD_eq_default _ _ (by rw [List.length_append]; exact hgt)]
    unfold filled
    split
    · rename_i hnil
      rw [Function.update_of_ne (by omega)]
    · exact List.getD_eq_default _ _ (Nat.le_of_lt hgt)

/-- The ampersand at the start of a buffer says that nothing is in it. -/
theorem filled_zero (h : ∀ c ∈ w, c ≠ ampersand) : filled old b w 0 = ampersand ↔ w = [] := by
  cases w with
  | nil =>
    rw [filled, if_pos rfl, Function.update_self]
    exact ⟨fun _ => rfl, fun _ => rfl⟩
  | cons c rest =>
    rw [filled, if_neg (by simp)]
    exact ⟨fun hc => absurd hc (h c List.mem_cons_self), fun hnil => by cases hnil⟩

theorem argBlock_lt {i j : Nat} (h : i ≤ j) : argBlock k i < k + 4 + j := by
  cases i with
  | zero =>
    show k + 1 < _
    omega
  | succ i =>
    show k + 4 + i < _
    omega

theorem argBlock_ne {i j : Nat} (h : i ≠ j) : argBlock k i ≠ argBlock k j := by
  cases i with
  | zero =>
    cases j with
    | zero => exact absurd rfl h
    | succ j =>
      show k + 1 ≠ k + 4 + j
      omega
  | succ i =>
    cases j with
    | zero =>
      show k + 4 + i ≠ k + 1
      omega
    | succ j =>
      show k + 4 + i ≠ k + 4 + j
      omega

theorem argBlock_path (k i : Nat) : k < argBlock k i ∧ argBlock k i ≠ k + 2 ∧ argBlock k i ≠ k + 3 := by
  cases i with
  | zero =>
    show k < k + 1 ∧ k + 1 ≠ k + 2 ∧ k + 1 ≠ k + 3
    omega
  | succ i =>
    show k < k + 4 + i ∧ k + 4 + i ≠ k + 2 ∧ k + 4 + i ≠ k + 3
    omega

/-! ### One turn -/

theorem Writing.allocateRedirects (h : Writing old s₀ k n d s) : s.allocateRedirects = s := by
  rw [Parser.allocateRedirects, h.mallocCheck]
  rfl

/-- A sign decides where the next letters go. -/
theorem Writing.turn_less (h : Writing old s₀ k n d s) (hfirst : s₀.riCheck + d.inputs = 0)
    (inSize : Int) : ∃ s', s.turn inSize less = .ok (true, s') ∧
      Writing old s₀ k (n + 1) (d.type less) s' := by
  have hri : ¬ 1 < s.riCheck + 1 := by
    have hri := h.riCheck
    omega
  let s' : Parser := { s with
    inCheck := true
    outCheck := false
    riCheck := s.riCheck + 1
    inputPos := s.inputPos + 1 }
  refine ⟨s', ?_, ?_⟩
  · rw [Parser.turn, h.allocateRedirects, if_neg (by decide), if_pos rfl]
    show (if 1 < s.riCheck + 1 then _ else _) = _
    rw [if_neg hri]
    rfl
  · rw [Draft.type, if_pos rfl]
    exact { h with
      inCheck := rfl
      outCheck := rfl
      overflow := fun hshort => h.overflow ⟨hshort.words, hshort.last, hshort.input, hshort.output⟩
      riCheck := by
        show s.riCheck + 1 = _
        rw [h.riCheck]
        rfl
      inputPos := by
        show s.inputPos + 1 = _
        rw [h.inputPos]
        rfl }

theorem Writing.turn_greater (h : Writing old s₀ k n d s) (hfirst : s₀.roCheck + d.outputs = 0)
    (inSize : Int) : ∃ s', s.turn inSize greater = .ok (true, s') ∧
      Writing old s₀ k (n + 1) (d.type greater) s' := by
  have hro : ¬ 1 < s.roCheck + 1 := by
    have hro := h.roCheck
    omega
  let s' : Parser := { s with
    inCheck := false
    outCheck := true
    roCheck := s.roCheck + 1
    inputPos := s.inputPos + 1 }
  refine ⟨s', ?_, ?_⟩
  · rw [Parser.turn, h.allocateRedirects, if_neg (by decide), if_neg (by decide), if_pos rfl]
    show (if 1 < s.roCheck + 1 then _ else _) = _
    rw [if_neg hro]
    rfl
  · rw [Draft.type, if_neg (by decide), if_pos rfl]
    exact { h with
      inCheck := rfl
      outCheck := rfl
      overflow := fun hshort => h.overflow ⟨hshort.words, hshort.last, hshort.input, hshort.output⟩
      roCheck := by
        show s.roCheck + 1 = _
        rw [h.roCheck]
        rfl
      inputPos := by
        show s.inputPos + 1 = _
        rw [h.inputPos]
        rfl }

theorem Writing.moved (h : Writing old s₀ k n d s) :
    Writing old s₀ k (n + 1) d { s with inputPos := s.inputPos + 1 } :=
  { h with
    inputPos := by
      show s.inputPos + 1 = _
      rw [h.inputPos]
      rfl }

theorem Writing.arg (h : Writing old s₀ k n d s) (hroom : d.words.length < maxArgvLength) :
    s.currentCommand.arg s.commandArgPos = .ok (.block (argBlock k d.words.length)) := by
  rw [PipelineCommand.arg, h.commandArgPos, if_pos hroom, h.args _ (Nat.le_refl _)]

theorem Writing.firstByte (h : Writing old s₀ k n d s) :
    ∃ first, s.firstByte (.block (argBlock k d.words.length)) = .ok first ∧
      (first = ampersand ↔ d.last = []) := by
  refine ⟨_, rfl, ?_⟩
  rw [h.last]
  exact filled_zero fun c hc => h.clean c (by simp [hc])

theorem Writing.word (h : Writing old s₀ k n d s) {i : Nat}
    (hw : (d.words ++ [d.last])[i]? = some w) :
    i ≤ d.words.length ∧ s.heap (argBlock k i) = filled old (argBlock k i) w := by
  obtain hlt | rfl | hgt := Nat.lt_trichotomy i d.words.length
  · rw [List.getElem?_append_left hlt] at hw
    exact ⟨Nat.le_of_lt hlt, h.words i w hw⟩
  · rw [List.getElem?_append_right (Nat.le_refl _), Nat.sub_self] at hw
    cases hw
    exact ⟨Nat.le_refl _, h.last⟩
  · rw [List.getElem?_eq_none (by rw [List.length_append]; exact hgt)] at hw
    cases hw

theorem Writing.nextArg (h : Writing old s₀ k n d s) (hroom : d.words.length + 1 < maxArgvLength) :
    ∃ s', s.nextArg = .ok s' ∧ Writing old s₀ k n d.spaced s' := by
  have harg := h.arg (Nat.lt_of_succ_lt hroom)
  obtain ⟨first, hfirst, hempty⟩ := h.firstByte
  have hmode : d.mode = .args ↔ (!s.inCheck) = true ∧ (!s.outCheck) = true := by
    rw [h.inCheck, h.outCheck]
    cases d.mode with
    | args => simp
    | input => simp
    | output => simp
  by_cases hboth : d.last ≠ [] ∧ d.mode = .args
  · have hnext : first ≠ ampersand ∧ (!s.inCheck) = true ∧ (!s.outCheck) = true :=
      ⟨fun hc => hboth.1 (hempty.mp hc), hmode.mp hboth.2⟩
    have hset : s.currentCommand.setArg (s.commandArgPos + 1) (.block s.allocated) =
        .ok { s.currentCommand with
          commandArgs := Function.update s.currentCommand.commandArgs (s.commandArgPos + 1)
            (.block s.allocated) } := by
      rw [PipelineCommand.setArg, h.commandArgPos, if_pos hroom]
    let s' : Parser := { s with
      heap := Function.update s.heap s.allocated (Function.update (s.heap s.allocated) 0 ampersand)
      allocated := s.allocated + 1
      commandArgPos := s.commandArgPos + 1
      currentCommand := { s.currentCommand with
        commandArgs := Function.update s.currentCommand.commandArgs (s.commandArgPos + 1)
          (.block s.allocated) }
      argStorePos := 0 }
    refine ⟨s', ?_, ?_⟩
    · rw [Parser.nextArg, harg, ok_bind, hfirst, ok_bind, if_pos hnext]
      show (s.currentCommand.setArg (s.commandArgPos + 1) (.block s.allocated) >>= _) = _
      rw [hset]
      rfl
    · have hspaced : d.spaced = { d with words := d.words ++ [d.last], last := [] } := if_pos hboth
      have hblock : s.allocated = argBlock k (d.words.length + 1) := h.allocated
      have hheap : ∀ b, b ≠ s.allocated → s'.heap b = s.heap b := fun b hb => Function.update_of_ne hb _ _
      rw [hspaced]
      exact { h with
        allocated := by
          show s.allocated + 1 = _
          rw [h.allocated, List.length_append]
          rfl
        args := by
          intro i hi
          rw [List.length_append, List.length_singleton] at hi
          by_cases hnew : i = d.words.length + 1
          · subst hnew
            show Function.update s.currentCommand.commandArgs (s.commandArgPos + 1) _ _ = _
            rw [h.commandArgPos, Function.update_self, hblock]
          · show Function.update s.currentCommand.commandArgs (s.commandArgPos + 1) _ _ = _
            rw [h.commandArgPos, Function.update_of_ne hnew]
            exact h.args i (by omega)
        commandArgPos := by
          show s.commandArgPos + 1 = _
          rw [h.commandArgPos, List.length_append]
          rfl
        argStorePos := rfl
        words := by
          intro i w hw
          obtain ⟨hi, hheld⟩ := h.word hw
          have hlt := argBlock_lt (k := k) hi
          rw [hheap _ (by rw [h.allocated]; exact Nat.ne_of_lt hlt), hheld]
        last := by
          rw [List.length_append, List.length_singleton, ← hblock, filled, if_pos rfl,
            ← h.fresh _ (Nat.le_refl _)]
          exact Function.update_self _ _ _
        input := by
          rw [hheap _ (by rw [h.allocated]; omega), h.input]
        output := by
          rw [hheap _ (by rw [h.allocated]; omega), h.output]
        fresh := by
          intro b hb
          rw [hheap _ (Nat.ne_of_gt hb)]
          exact h.fresh b (Nat.le_of_succ_le hb)
        below := by
          intro b hb
          rw [hheap _ (by rw [h.allocated]; omega)]
          exact h.below b hb
        clean := fun c hc => h.clean c (by
          rw [List.append_assoc]
          exact List.mem_append_right _ hc)
        overflow := fun hshort => h.overflow (Draft.short_of_spaced (by rwa [hspaced])) }
  · refine ⟨s, ?_, ?_⟩
    · have hstay : ¬ (first ≠ ampersand ∧ (!s.inCheck) = true ∧ (!s.outCheck) = true) := by
        rintro ⟨hletter, hchecks⟩
        exact hboth ⟨fun hnil => hletter (hempty.mpr hnil), hmode.mpr hchecks⟩
      rw [Parser.nextArg, harg, ok_bind, hfirst, ok_bind, if_neg hstay]
      rfl
    · rw [Draft.spaced, if_neg hboth]
      exact h

/-- A letter goes behind those that its buffer holds already. -/
theorem stored (c : UInt8) {pos : Nat} (hw : s.heap b = filled old b w) (hpos : pos = w.length) :
    ∃ heap overflow, s.store c pos (.block b) = .ok { s with
      heap := heap
      overflow := overflow } ∧
    heap b = filled old b (w ++ [c]) ∧ (∀ b', b' ≠ b → heap b' = s.heap b') ∧
    ((w ++ [c]).length ≤ bufferSize → overflow = s.overflow) := by
  subst hpos
  refine ⟨_, _, rfl, ?_, fun b' hb' => Function.update_of_ne hb' _ _, ?_⟩
  · rw [Function.update_self, hw, update_filled]
  · intro hfits
    rw [List.length_append] at hfits
    rw [decide_eq_false (Nat.not_le.mpr hfits), Bool.or_false]

theorem Writing.insert (h : Writing old s₀ k n d s) (hroom : d.words.length < maxArgvLength)
    (hc : c ≠ ampersand) : ∃ s', s.insert c = .ok s' ∧ Writing old s₀ k n (d.letters [c]) s' := by
  have hpaths := argBlock_path k d.words.length
  have hbuffer := argBlock_lt (k := k) (Nat.le_refl d.words.length)
  have hallocated := h.allocated
  have hinsert : s.insert c = s.characterInsert (.block (argBlock k d.words.length)) (.block (k + 2))
      (.block (k + 3)) c := by
    rw [Parser.insert, h.arg hroom, ok_bind, h.redirectIn, h.redirectOut]
  have hclean := Draft.clean_letters h.clean hc
  have hshorter : (d.letters [c]).Short → d.Short := Draft.short_of_letters
  cases hmode : d.mode with
  | args =>
    have hletters : d.letters [c] = { d with last := d.last ++ [c] } := by
      rw [Draft.letters, hmode]
    have hin : ¬ s.inCheck = true := by simp [h.inCheck, hmode]
    have hout : ¬ s.outCheck = true := by simp [h.outCheck, hmode]
    obtain ⟨heap, overflow, hstore, hheld, hother, hover⟩ := stored c h.last h.argStorePos
    refine ⟨{ s with
      heap := heap
      overflow := overflow
      argStorePos := s.argStorePos + 1 }, ?_, ?_⟩
    · rw [hinsert, Parser.characterInsert, if_neg hin, if_neg hout, hstore]
      rfl
    · rw [hletters] at hclean hshorter ⊢
      exact { h with
        argStorePos := by
          show s.argStorePos + 1 = _
          rw [h.argStorePos, List.length_append]
          rfl
        words := by
          intro i w hw
          have hi : i < d.words.length := (List.getElem?_eq_some_iff.mp hw).1
          exact (hother _ (argBlock_ne (Nat.ne_of_lt hi))).trans (h.words i w hw)
        last := hheld
        input := (hother _ (Ne.symm hpaths.2.1)).trans h.input
        output := (hother _ (Ne.symm hpaths.2.2)).trans h.output
        fresh := fun b (hb : s.allocated ≤ b) => (hother b (by omega)).trans (h.fresh b hb)
        below := fun b hb => (hother b (by omega)).trans (h.below b hb)
        clean := hclean
        overflow := fun hshort => (hover hshort.last).trans (h.overflow (hshorter hshort)) }
  | input =>
    have hletters : d.letters [c] = { d with input := d.input ++ [c] } := by
      rw [Draft.letters, hmode]
    have hin : s.inCheck = true := by simp [h.inCheck, hmode]
    obtain ⟨heap, overflow, hstore, hheld, hother, hover⟩ := stored c h.input h.redirectInPos
    refine ⟨{ s with
      heap := heap
      overflow := overflow
      redirectInPos := s.redirectInPos + 1 }, ?_, ?_⟩
    · rw [hinsert, Parser.characterInsert, if_pos hin, hstore]
      rfl
    · rw [hletters] at hclean hshorter ⊢
      exact { h with
        redirectInPos := by
          show s.redirectInPos + 1 = _
          rw [h.redirectInPos, List.length_append]
          rfl
        words := fun i w hw => (hother _ (argBlock_path k i).2.1).trans (h.words i w hw)
        last := (hother _ hpaths.2.1).trans h.last
        input := hheld
        output := (hother _ (by omega)).trans h.output
        fresh := fun b (hb : s.allocated ≤ b) => (hother b (by omega)).trans (h.fresh b hb)
        below := fun b hb => (hother b (by omega)).trans (h.below b hb)
        clean := hclean
        overflow := fun hshort => (hover hshort.input).trans (h.overflow (hshorter hshort)) }
  | output =>
    have hletters : d.letters [c] = { d with output := d.output ++ [c] } := by
      rw [Draft.letters, hmode]
    have hin : ¬ s.inCheck = true := by simp [h.inCheck, hmode]
    have hout : s.outCheck = true := by simp [h.outCheck, hmode]
    obtain ⟨heap, overflow, hstore, hheld, hother, hover⟩ := stored c h.output h.redirectOutPos
    refine ⟨{ s with
      heap := heap
      overflow := overflow
      redirectOutPos := s.redirectOutPos + 1 }, ?_, ?_⟩
    · rw [hinsert, Parser.characterInsert, if_neg hin, if_pos hout, hstore]
      rfl
    · rw [hletters] at hclean hshorter ⊢
      exact { h with
        redirectOutPos := by
          show s.redirectOutPos + 1 = _
          rw [h.redirectOutPos, List.length_append]
          rfl
        words := fun i w hw => (hother _ (argBlock_path k i).2.2).trans (h.words i w hw)
        last := (hother _ hpaths.2.2).trans h.last
        input := (hother _ (by omega)).trans h.input
        output := hheld
        fresh := fun b (hb : s.allocated ≤ b) => (hother b (by omega)).trans (h.fresh b hb)
        below := fun b hb => (hother b (by omega)).trans (h.below b hb)
        clean := hclean
        overflow := fun hshort => (hover hshort.output).trans (h.overflow (hshorter hshort)) }

theorem Writing.turn_type (h : Writing old s₀ k n d s) (hamp : c ≠ ampersand) (hbar : c ≠ bar)
    (hroom : d.words.length + 1 < maxArgvLength) (hin : s₀.riCheck + (d.type c).inputs ≤ 1)
    (hout : s₀.roCheck + (d.type c).outputs ≤ 1) (inSize : Int) :
    ∃ s', s.turn inSize c = .ok (true, s') ∧ Writing old s₀ k (n + 1) (d.type c) s' := by
  by_cases hless : c = less
  · subst hless
    exact h.turn_less (Nat.le_zero.mp (Nat.le_of_succ_le_succ hin)) inSize
  · by_cases hgreater : c = greater
    · subst hgreater
      exact h.turn_greater (Nat.le_zero.mp (Nat.le_of_succ_le_succ hout)) inSize
    · rw [Parser.turn, h.allocateRedirects, if_neg hamp, if_neg hless, if_neg hgreater, if_neg hbar,
        Draft.type, if_neg hless, if_neg hgreater]
      by_cases hspace : c = space
      · obtain ⟨s', hnext, hwriting⟩ := h.nextArg hroom
        rw [if_pos hspace, if_pos hspace, hnext]
        exact ⟨_, rfl, hwriting.moved⟩
      · obtain ⟨s', hinsert, hwriting⟩ := h.insert (Nat.lt_of_succ_lt hroom) hamp
        rw [if_neg hspace, if_neg hspace, hinsert]
        exact ⟨_, rfl, hwriting.moved⟩

/-! ### The text of a command -/

theorem loop_of_turn {inSize : Int} {rest : List UInt8} (hc : c ≠ newline)
    (h : s.turn inSize c = .ok (true, s')) :
    Parser.loop inSize (c :: rest) s = Parser.loop inSize rest s' := by
  rw [Parser.loop, if_neg hc, h]
  rfl

/-- The loop goes over a text as the draft does. -/
theorem Writing.typed {cs : List UInt8} (h : Writing old s₀ k n d s) (hcs : ∀ c ∈ cs, Inner c)
    (hin : s₀.riCheck + (d.typed cs).inputs ≤ 1) (hout : s₀.roCheck + (d.typed cs).outputs ≤ 1)
    (hsize : d.size + cs.length < 2 * maxArgvLength - 2) (inSize : Int) :
    ∃ s', (∀ rest, Parser.loop inSize (cs ++ rest) s = Parser.loop inSize rest s') ∧
      Writing old s₀ k (n + cs.length) (d.typed cs) s' := by
  induction cs generalizing d n s with
  | nil => exact ⟨s, fun _ => rfl, h⟩
  | cons c cs ih =>
    obtain ⟨⟨hnewline, hamp, hbar⟩, hrest⟩ := List.forall_mem_cons.mp hcs
    obtain ⟨hinputs, houtputs⟩ := (d.type c).signs_typed cs
    rw [Draft.typed_cons] at hin hout
    rw [List.length_cons] at hsize
    have hroom : d.words.length + 1 < maxArgvLength := by
      unfold Draft.size at hsize
      omega
    obtain ⟨s₁, hturn, hwriting⟩ := h.turn_type hamp hbar hroom
      (Nat.le_trans (Nat.add_le_add_left hinputs _) hin)
      (Nat.le_trans (Nat.add_le_add_left houtputs _) hout) inSize
    have hgrown := d.size_type c
    obtain ⟨s', hloop, hwritten⟩ := ih hwriting hrest hin hout (by omega)
    refine ⟨s', ?_, ?_⟩
    · intro rest
      rw [List.cons_append, loop_of_turn hnewline hturn]
      exact hloop rest
    · rw [List.length_cons, Nat.add_comm cs.length 1, ← Nat.add_assoc]
      exact hwritten

end

end OSChallenges.Shell
