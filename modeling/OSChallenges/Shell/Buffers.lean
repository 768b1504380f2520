import OSChallenges.Shell.Endings
import OSChallenges.Shell.Parsing
import OSChallenges.Shell.Steps

/-!
# What fits into the buffers

The parser stores the letters of a word one behind the other, and no position is checked. Where they go
depends on the characters alone, so the drafts of the commands say which word leaves its buffer. A line is
handled if it has an end and its words up to there fit.
-/

namespace OSChallenges.Shell

open Outcomes Words

/-- One more character of a line: the commands before the last bar, and the one behind it. An ampersand is
not stored. -/
def readOn (drafts : List Draft × Draft) (c : UInt8) : List Draft × Draft :=
  if c = ampersand then drafts
  else if c = bar then (drafts.1 ++ [drafts.2], .empty)
  else (drafts.1, drafts.2.type c)

/-- What the commands of a line are so far. -/
def drafts (cs : List UInt8) : List Draft × Draft := cs.foldl readOn ([], .empty)

/-- The word to which the next letter goes. -/
def Draft.typing (d : Draft) : List UInt8 :=
  match d.mode with
  | .args => d.last
  | .input => d.input
  | .output => d.output

/-- No argument and no path of these commands has more than 30 letters. -/
def Fits (drafts : List Draft × Draft) : Prop := (∀ d ∈ drafts.1, d.Short) ∧ drafts.2.Short

/-- `pipeline_build` returns without having read behind the line or looked at a path that nobody has
assigned, and returns no such path. No character is stored behind its buffer, where `malloc` could find it
and end the process. -/
def Parses (heap : Heap) (line : List UInt8) : Prop :=
  ∃ s, pipelineBuild heap line = .ok s ∧ (∀ c ∈ s.pipeline.commands, c.Assigned) ∧ s.overflow = false

/-- The parser gives up before the newline, or a command is before it, and all words up to there fit. -/
def HasEnd (line : List UInt8) : Prop :=
  ∃ i, i < line.length ∧ newline ∉ line.take i ∧ (GivesUp line i ∨ EndsCommand line i) ∧
    Fits (drafts (line.take i))

/-- The positions of the parser are the lengths of the words that are being typed, and the first byte of
an argument shows whether it has been begun. -/
structure Stores (drafts : List Draft × Draft) (s : Parser) : Prop where
  arg : ∃ b, s.currentCommand.commandArgs s.commandArgPos = .block b ∧ b < s.allocated ∧
    (s.heap b 0 = ampersand ↔ drafts.2.last = []) ∧
    s.currentCommand.redirectInPath ≠ .block b ∧ s.currentCommand.redirectOutPath ≠ .block b
  paths : ∀ b, s.currentCommand.redirectInPath = .block b ∨ s.currentCommand.redirectOutPath = .block b →
    b < s.allocated
  argStorePos : s.argStorePos = drafts.2.last.length
  redirectInPos : s.redirectInPos = drafts.2.input.length
  redirectOutPos : s.redirectOutPos = drafts.2.output.length
  inCheck : s.inCheck = decide (drafts.2.mode = .input)
  outCheck : s.outCheck = decide (drafts.2.mode = .output)
  fits : s.overflow = false ↔ Fits drafts

variable {s s' : Parser} {cs rest input : List UInt8} {c : UInt8} {d : Draft} {ds : List Draft}
  {inSize : Int} {more : Bool} {n i j b : Nat}

/-! ### Words that grow -/

theorem drafts_concat (cs : List UInt8) (c : UInt8) : drafts (cs ++ [c]) = readOn (drafts cs) c :=
  List.foldl_append

theorem Draft.short_empty : Draft.empty.Short where
  words := fun w hw => by cases hw
  last := Nat.zero_le _
  input := Nat.zero_le _
  output := Nat.zero_le _

theorem Draft.short_spaced : d.spaced.Short ↔ d.Short := by
  refine ⟨short_of_spaced, fun h => ?_⟩
  unfold spaced
  split
  · refine ⟨?_, Nat.zero_le _, h.input, h.output⟩
    rw [List.forall_mem_append, List.forall_mem_singleton]
    exact ⟨h.words, h.last⟩
  · exact h

theorem Draft.short_of_type (h : (d.type c).Short) : d.Short := by
  unfold type at h
  split at h
  · exact ⟨h.words, h.last, h.input, h.output⟩
  · split at h
    · exact ⟨h.words, h.last, h.input, h.output⟩
    · split at h
      · exact short_of_spaced h
      · exact short_of_letters h

theorem fits_of_readOn (h : Fits (readOn (ds, d) c)) : Fits (ds, d) := by
  unfold readOn at h
  split at h
  · exact h
  · split at h
    · obtain ⟨hall, -⟩ := h
      rw [List.forall_mem_append, List.forall_mem_singleton] at hall
      exact hall
    · exact ⟨h.1, Draft.short_of_type h.2⟩

theorem fits_take (h : Fits (drafts (input.take j))) (hle : i ≤ j) : Fits (drafts (input.take i)) := by
  induction j with
  | zero => rwa [Nat.le_zero.mp hle]
  | succ j ih =>
    obtain hlt | rfl := Nat.lt_or_eq_of_le hle
    · refine ih ?_ (Nat.le_of_lt_succ hlt)
      rw [List.take_add_one] at h
      cases hj : input[j]? with
      | none =>
        rw [hj, Option.toList_none, List.append_nil] at h
        exact h
      | some c =>
        rw [hj, Option.toList_some, drafts_concat] at h
        exact fits_of_readOn h
    · exact h

/-! ### One turn -/

theorem Stores.allocateRedirects (h : Stores (ds, d) s) : Stores (ds, d) s.allocateRedirects := by
  unfold Parser.allocateRedirects
  split
  · obtain ⟨b, hb, hlt, hempty, -, -⟩ := h.arg
    refine { h with
      arg := ⟨b, hb, Nat.lt_succ_of_lt (Nat.lt_succ_of_lt hlt), ?_, ?_, ?_⟩
      paths := ?_ }
    · show Function.update (Function.update s.heap s.allocated _) (s.allocated + 1) _ b 0 = ampersand ↔ _
      rw [Function.update_of_ne (by omega), Function.update_of_ne (by omega)]
      exact hempty
    · exact fun heq => absurd (Pointer.block.inj heq) (Nat.ne_of_gt hlt)
    · exact fun heq => absurd (Pointer.block.inj heq) (Nat.ne_of_gt (Nat.lt_succ_of_lt hlt))
    · rintro b' (heq | heq)
      · cases heq
        exact Nat.lt_succ_of_lt (Nat.lt_succ_self _)
      · cases heq
        exact Nat.lt_succ_self _
  · exact h

theorem Draft.short_letter (d : Draft) (c : UInt8) :
    (d.letters [c]).Short ↔ d.Short ∧ d.typing.length < bufferSize := by
  obtain ⟨words, last, input, output, mode, inputs, outputs⟩ := d
  have hgrown : ∀ w : List UInt8, (w ++ [c]).length ≤ bufferSize ↔ w.length < bufferSize := by
    intro w
    rw [List.length_append, List.length_singleton]
    exact Nat.succ_le_iff
  refine ⟨fun h => ⟨short_of_letters h, ?_⟩, fun ⟨h, hlt⟩ => ?_⟩
  · cases mode with
    | args => exact (hgrown last).mp h.last
    | input => exact (hgrown input).mp h.input
    | output => exact (hgrown output).mp h.output
  · cases mode with
    | args => exact ⟨h.words, (hgrown last).mpr hlt, h.input, h.output⟩
    | input => exact ⟨h.words, h.last, (hgrown input).mpr hlt, h.output⟩
    | output => exact ⟨h.words, h.last, h.input, (hgrown output).mpr hlt⟩

theorem Stores.fits_letter (h : Stores (ds, d) s) {pos : Nat} (hpos : pos = d.typing.length) :
    (s.overflow || decide (bufferSize ≤ pos)) = false ↔ Fits (ds, d.letters [c]) := by
  rw [Bool.or_eq_false_iff, decide_eq_false_iff_not, Nat.not_le, h.fits, Fits, Fits, Draft.short_letter,
    hpos, ← and_assoc]

theorem Stores.insert (h : Stores (ds, d) s) (hamp : c ≠ ampersand) (hinsert : s.insert c = .ok s') :
    Stores (ds, d.letters [c]) s' := by
  obtain ⟨b, hb, hlt, hempty, hin, hout⟩ := h.arg
  have hgrown : ∀ {w : List UInt8} {pos : Nat}, pos = w.length → pos + 1 = (w ++ [c]).length := by
    intro w pos hpos
    rw [List.length_append, hpos]
    rfl
  have hother : ∀ {b' pos}, b' ≠ b → ((s.stored b' pos c).heap b 0 = ampersand ↔ d.last = []) := by
    intro b' pos hne
    show Function.update s.heap b' _ b 0 = ampersand ↔ _
    rw [Function.update_of_ne hne.symm]
    exact hempty
  obtain ⟨words, last, input, output, mode, inputs, outputs⟩ := d
  have hcheckIn : s.inCheck = decide (mode = .input) := h.inCheck
  have hcheckOut : s.outCheck = decide (mode = .output) := h.outCheck
  cases Parser.inserted hinsert with
  | input hmode hpath =>
    obtain rfl : mode = .input := of_decide_eq_true (hcheckIn.symm.trans hmode)
    refine ⟨⟨b, hb, hlt, hother ?_, hin, hout⟩, h.paths, h.argStorePos, hgrown h.redirectInPos,
      h.redirectOutPos, hcheckIn, hcheckOut, h.fits_letter h.redirectInPos⟩
    rintro rfl
    exact hin hpath
  | output hbefore hmode hpath =>
    obtain rfl : mode = .output := of_decide_eq_true (hcheckOut.symm.trans hmode)
    refine ⟨⟨b, hb, hlt, hother ?_, hin, hout⟩, h.paths, h.argStorePos, h.redirectInPos,
      hgrown h.redirectOutPos, hcheckIn, hcheckOut, h.fits_letter h.redirectOutPos⟩
    rintro rfl
    exact hout hpath
  | arg hbefore hmode harg =>
    obtain rfl : mode = .args := by
      have hnotIn := of_decide_eq_false (hcheckIn.symm.trans hbefore)
      have hnotOut := of_decide_eq_false (hcheckOut.symm.trans hmode)
      cases mode with
      | args => rfl
      | input => exact absurd rfl hnotIn
      | output => exact absurd rfl hnotOut
    cases hb.symm.trans harg
    refine ⟨⟨b, hb, hlt, ?_, hin, hout⟩, h.paths, hgrown h.argStorePos, h.redirectInPos, h.redirectOutPos,
      hcheckIn, hcheckOut, h.fits_letter h.argStorePos⟩
    -- The letter is the first one, or that one is there already.
    show Function.update s.heap b (Function.update (s.heap b) s.argStorePos c) b 0 = ampersand ↔
      last ++ [c] = []
    rw [Function.update_self, h.argStorePos]
    refine iff_of_false ?_ (List.append_ne_nil_of_right_ne_nil _ (List.cons_ne_nil _ _))
    by_cases hnil : last = []
    · rw [hnil]
      exact hamp
    · have hpos : 0 ≠ last.length := fun hzero => hnil (List.length_eq_zero_iff.mp hzero.symm)
      show Function.update (s.heap b) last.length c 0 ≠ ampersand
      rw [Function.update_of_ne hpos]
      exact mt hempty.mp hnil

theorem Stores.fits_mode (h : Stores (ds, d) s) (mode : Mode) (inputs outputs : Nat) :
    s.overflow = false ↔
      Fits (ds, { d with mode := mode, inputs := inputs, outputs := outputs }) := by
  refine h.fits.trans (and_congr_right fun _ => ⟨fun hd => ?_, fun hd => ?_⟩)
  · exact ⟨hd.words, hd.last, hd.input, hd.output⟩
  · exact ⟨hd.words, hd.last, hd.input, hd.output⟩

theorem Stores.nextArg (h : Stores (ds, d) s) (hnext : s.nextArg = .ok s') :
    Stores (ds, d.spaced) s' := by
  obtain ⟨b, hb, hlt, hempty, hin, hout⟩ := h.arg
  have hfits : s.overflow = false ↔ Fits (ds, d.spaced) :=
    h.fits.trans (and_congr_right fun _ => Draft.short_spaced.symm)
  obtain ⟨b', hb', ⟨rfl, hstays⟩ | ⟨hletter, hcheckIn, hcheckOut, rfl⟩⟩ := Parser.of_nextArg hnext
  · cases hb.symm.trans hb'
    have hspaced : d.spaced = d := by
      rw [Draft.spaced, if_neg]
      rintro ⟨hlast, hmode⟩
      have hin' : s'.inCheck = false := by rw [h.inCheck, hmode]; rfl
      have hout' : s'.outCheck = false := by rw [h.outCheck, hmode]; rfl
      obtain hnil | hcheck | hcheck := hstays
      · exact hlast (hempty.mp hnil)
      · cases hin'.symm.trans hcheck
      · cases hout'.symm.trans hcheck
    rw [hspaced]
    exact h
  · cases hb.symm.trans hb'
    have hmode : d.mode = .args := by
      have hnotIn := of_decide_eq_false (h.inCheck.symm.trans hcheckIn)
      have hnotOut := of_decide_eq_false (h.outCheck.symm.trans hcheckOut)
      cases hd : d.mode with
      | args => rfl
      | input => exact absurd hd hnotIn
      | output => exact absurd hd hnotOut
    have hspaced : d.spaced = { d with words := d.words ++ [d.last], last := [] } :=
      if_pos ⟨mt hempty.mpr hletter, hmode⟩
    rw [hspaced] at hfits ⊢
    refine { h with
      arg := ⟨s.allocated, Function.update_self .., Nat.lt_succ_self _,
        iff_of_true (first_of_newBuffer ..) rfl, fun heq => ?_, fun heq => ?_⟩
      paths := fun b' hb' => Nat.lt_succ_of_lt (h.paths b' hb')
      argStorePos := rfl
      fits := hfits }
    · exact absurd (h.paths _ (.inl heq)) (Nat.lt_irrefl _)
    · exact absurd (h.paths _ (.inr heq)) (Nat.lt_irrefl _)

/-- Behind a bar nothing of the next command has been stored. -/
theorem Stores.nextCommand (h : Stores (ds, d) s) (hnext : s.nextCommand = .ok s') :
    Stores (ds ++ [d], .empty) s' := by
  obtain ⟨s₁, s₂, hargs, hredirects, rfl⟩ := Parser.of_nextCommand hnext
  obtain ⟨b, k, -, -, -, rfl⟩ := Parser.of_closeArgs hargs
  obtain ⟨redirectIn, redirectOut, rfl⟩ := Parser.of_closeRedirects hredirects
  refine ⟨⟨s.allocated + 1, rfl, Nat.lt_succ_self _, iff_of_true (first_of_newBuffer ..) rfl, nofun, nofun⟩,
    ?_, rfl, rfl, rfl, rfl, rfl, ?_⟩
  · rintro b' (heq | heq)
    · cases heq
    · cases heq
  · refine h.fits.trans ?_
    rw [Fits, Fits, List.forall_mem_append, List.forall_mem_singleton]
    exact (and_iff_left Draft.short_empty).symm

/-- A turn that goes on stores what the drafts say. -/
theorem Stores.turned (h : Stores (ds, d) s) (hturned : Parser.Turned s inSize c true s') :
    Stores (readOn (ds, d) c) s' := by
  unfold readOn
  cases hturned with
  | background last =>
    rw [if_pos rfl]
    exact { h with }
  | input =>
    rw [if_neg (by decide), if_neg (by decide), Draft.type, if_pos rfl]
    exact { h with
      inCheck := rfl
      outCheck := rfl
      fits := h.fits_mode .. }
  | output =>
    rw [if_neg (by decide), if_neg (by decide), Draft.type, if_neg (by decide), if_pos rfl]
    exact { h with
      inCheck := rfl
      outCheck := rfl
      fits := h.fits_mode .. }
  | bar next =>
    rw [if_neg (by decide), if_pos rfl]
    exact { h.nextCommand next with }
  | space next =>
    rw [if_neg (by decide), if_neg (by decide), Draft.type_space]
    exact { h.nextArg next with }
  | letter other plain next =>
    obtain ⟨hless, hgreater, hbar, hspace⟩ := plain
    rw [if_neg other, if_neg hbar, Draft.type, if_neg hless, if_neg hgreater, if_neg hspace]
    exact { h.insert other next with }

/-- Where a sign makes the parser give up it has stored nothing more. -/
theorem overflow_of_stops (hturned : Parser.Turned s inSize c false s') : s'.overflow = s.overflow := by
  cases hturned with
  | misplaced => rfl
  | secondInput => rfl
  | secondOutput => rfl

theorem overflow_allocateRedirects (s : Parser) : s.allocateRedirects.overflow = s.overflow := by
  unfold Parser.allocateRedirects
  split
  · rfl
  · rfl

/-! ### The loop -/

theorem stores_start (heap : Heap) : Stores (drafts []) (Parser.start heap) where
  arg := ⟨2, rfl, Nat.lt_succ_self 2, iff_of_true (first_of_newBuffer heap 2) rfl, nofun, nofun⟩
  paths := fun b hb => by
    rcases hb with hb | hb
    · cases hb
    · cases hb
  argStorePos := rfl
  redirectInPos := rfl
  redirectOutPos := rfl
  inCheck := rfl
  outCheck := rfl
  fits := iff_of_true rfl ⟨fun d hd => absurd hd List.not_mem_nil, Draft.short_empty⟩

/-- The position at which the loop ends, for a loop that has come to `n`: the first sign at which the parser
gives up, or the newline. -/
structure LoopEnds (input : List UInt8) (n i : Nat) : Prop where
  le : n ≤ i
  lt : i < input.length
  before : newline ∉ input.take i
  first : ∀ j, n ≤ j → j < i → ¬ GivesUp input j
  here : GivesUp input i ∨ input[i]? = some newline

theorem loopEnds_here (hnew : newline ∉ cs)
    (hhere : GivesUp (cs ++ c :: rest) cs.length ∨ c = newline) :
    LoopEnds (cs ++ c :: rest) cs.length cs.length where
  le := Nat.le_refl _
  lt := by
    rw [List.length_append, List.length_cons]
    omega
  before := by
    rw [List.take_left]
    exact hnew
  first := fun j hle hlt => absurd hlt (Nat.not_lt.mpr hle)
  here := hhere.imp_right fun hc => by rw [getElem?_next, hc]

theorem LoopEnds.of_succ (h : LoopEnds input (n + 1) i) (hgoes : ¬ GivesUp input n) :
    LoopEnds input n i where
  le := Nat.le_of_succ_le h.le
  lt := h.lt
  before := h.before
  first := fun j hle hlt => by
    obtain rfl | hbehind := Nat.eq_or_lt_of_le hle
    · exact hgoes
    · exact h.first j hbehind hlt
  here := h.here

/-- Up to the place where the loop ends the words fit exactly if nothing has been stored behind a buffer. -/
theorem Midway.loop_fits (h : Midway cs s) (hstores : Stores (drafts cs) s) (hnew : newline ∉ cs)
    (hlength : (cs ++ rest).length ≤ maxArgSize)
    (hloop : Parser.loop (cs ++ rest).length rest s = .ok s') :
    ∃ i, LoopEnds (cs ++ rest) cs.length i ∧
      (s'.overflow = false ↔ Fits (drafts ((cs ++ rest).take i))) := by
  -- What is left of the line gets shorter, and the drafts of what has been read say what is stored.
  induction rest generalizing cs s with
  | nil =>
    obtain ⟨p, -, hover⟩ := ok_of_bind hloop
    cases hover
  | cons c rest ih =>
    have hcs : cs.length < maxArgSize := by
      rw [List.length_append, List.length_cons] at hlength
      omega
    rw [Parser.loop] at hloop
    split at hloop
    · rename_i hc
      cases hloop
      refine ⟨cs.length, loopEnds_here hnew (.inr hc), ?_⟩
      rw [List.take_left]
      exact hstores.fits
    rename_i hc
    obtain ⟨⟨more, s₁⟩, hturn, hloop⟩ := ok_of_bind hloop
    have hturned := Parser.turned hturn
    by_cases hstops : Stops (cs ++ c :: rest).length cs c
    · obtain ⟨s₂, hturn', -⟩ := h.stops hcs hstops
      cases hturn.symm.trans hturn'
      cases hloop
      refine ⟨cs.length, loopEnds_here hnew (.inl (givesUp_iff.mpr hstops)), ?_⟩
      rw [List.take_left, overflow_of_stops hturned, overflow_allocateRedirects]
      exact hstores.fits
    · obtain ⟨s₂, hturn', hmid, -⟩ := h.goesOn hcs hstops
      cases hturn.symm.trans hturn'
      have hnext : Stores (drafts (cs ++ [c])) s₁ := by
        rw [drafts_concat]
        exact hstores.allocateRedirects.turned hturned
      have hline : cs ++ c :: rest = cs ++ [c] ++ rest := by
        rw [List.append_assoc, List.singleton_append]
      have hgoes : ¬ GivesUp (cs ++ c :: rest) cs.length := mt givesUp_iff.mp hstops
      rw [hline] at hlength hloop hgoes ⊢
      obtain ⟨i, hends, hfits⟩ := ih hmid hnext (by simp [hnew, Ne.symm hc]) hlength hloop
      rw [List.length_append, List.length_singleton] at hends
      exact ⟨i, hends.of_succ hgoes, hfits⟩

theorem overflow_finish (h : s.finish = .ok s') : s'.overflow = s.overflow := by
  obtain ⟨s₁, hredirects, hargs⟩ := ok_of_bind h
  obtain ⟨redirectIn, redirectOut, rfl⟩ := Parser.of_closeRedirects hredirects
  obtain ⟨b, k, -, -, -, rfl⟩ := Parser.of_closeArgs hargs
  rfl

/-- The loop ends where the line has its first end. -/
theorem LoopEnds.le_of_end (h : LoopEnds input 0 i) (hend : GivesUp input j ∨ EndsCommand input j) :
    i ≤ j := by
  by_contra hlt
  rw [Nat.not_le] at hlt
  obtain hgives | hends := hend
  · exact h.first j (Nat.zero_le j) hlt hgives
  · refine h.before (List.mem_iff_getElem?.mpr ⟨j, ?_⟩)
    rw [List.getElem?_take_of_lt hlt]
    exact hends.1

/-- The parser handles a line exactly when the line has an end and its words up to there fit. -/
theorem parses_iff (heap : Heap) (line : InputLine) : Parses heap line.chars ↔ HasEnd line.chars := by
  have hfits : ∀ {s}, pipelineBuild heap line.chars = .ok s → ∃ i, LoopEnds line.chars 0 i ∧
      (s.overflow = false ↔ Fits (drafts (line.chars.take i))) := by
    intro s hs
    rw [pipelineBuild, line.inSize] at hs
    obtain ⟨s₁, hloop, hfinish⟩ := ok_of_bind hs
    rw [overflow_finish hfinish]
    exact (midway_start heap).loop_fits (stores_start heap) List.not_mem_nil (Nat.le_of_lt line.fits) hloop
  constructor
  · rintro ⟨s, hs, hassigned, hover⟩
    obtain ⟨i, hends, hiff⟩ := hfits hs
    obtain ⟨j, -, hlt, hnew, hend⟩ := (assigned_iff heap line).mp ⟨s, hs, hassigned⟩
    have hle := hends.le_of_end hend
    refine ⟨i, hends.lt, hends.before, ?_, hiff.mp hover⟩
    obtain hgives | hnewline := hends.here
    · exact .inl hgives
    · obtain rfl | hbehind := Nat.eq_or_lt_of_le hle
      · exact hend
      · refine absurd (List.mem_iff_getElem?.mpr ⟨i, ?_⟩) hnew
        rw [List.getElem?_take_of_lt hbehind]
        exact hnewline
  · rintro ⟨j, hlt, hnew, hend, hshort⟩
    obtain ⟨s, hs, hassigned⟩ := (assigned_iff heap line).mpr ⟨j, Nat.zero_le j, hlt, hnew, hend⟩
    obtain ⟨i, hends, hiff⟩ := hfits hs
    exact ⟨s, hs, hassigned, hiff.mpr (fits_take hshort (hends.le_of_end hend))⟩

/-- An empty line leaves the paths of its command as they were. -/
theorem not_forall_parses : ¬ ∀ (heap : Heap) (line : InputLine), Parses heap line.chars := by
  intro h
  obtain ⟨s, hs, -⟩ := h (fun _ _ => 0) ⟨[newline], by decide, by decide⟩
  cases hs

end OSChallenges.Shell
