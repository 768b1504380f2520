import Mathlib.Algebra.GroupWithZero.Nat
import OSChallenges.Shell.Parsing

/-!
# What the parser makes of a line

From the text of each command comes one command of the list; the blocks of the commands lie behind
one another, in an order that the line alone decides.
-/

namespace OSChallenges.Shell

open Outcomes

/-! ### The blocks of a command -/

instance (c : TypedCommand) : Decidable c.gapped := inferInstanceAs (Decidable (_ = _))

/-- The block behind those of a command. A space behind the last argument has taken a buffer that
nothing comes into. -/
def TypedCommand.next (c : TypedCommand) (k : Nat) : Nat :=
  k + 3 + c.args.length + if c.gapped then 1 else 0

/-- Each command with its block. -/
def layout : Nat → List TypedCommand → List (Nat × TypedCommand)
  | _, [] => []
  | k, c :: rest => (k, c) :: layout (c.next k) rest

/-- A path that is in its buffer, or is not there. -/
def PathParsed (old heap : Heap) (b : Nat) (p : Pointer) : Option Redirect → Prop
  | none => p = .null
  | some r => p = .block b ∧ heap b = filled old b r.path.chars

/-- The command of the list that comes from a typed one. -/
structure Parsed (old heap : Heap) (k : Nat) (c : TypedCommand) (command : PipelineCommand) : Prop where
  args : ∀ i w, c.args[i]? = some w → command.commandArgs i = .block (argBlock k i) ∧
    heap (argBlock k i) = filled old (argBlock k i) w.chars
  ended : command.commandArgs c.args.length = .null
  redirectIn : PathParsed old heap (k + 2) command.redirectInPath c.input
  redirectOut : PathParsed old heap (k + 3) command.redirectOutPath c.output

/-- A command of which nothing has been read. -/
structure Fresh (old : Heap) (k : Nat) (s : Parser) : Prop where
  mallocCheck : s.mallocCheck = true
  allocated : s.allocated = k + 2
  arg : s.currentCommand.commandArgs 0 = .block (k + 1)
  commandArgPos : s.commandArgPos = 0
  argStorePos : s.argStorePos = 0
  redirectInPos : s.redirectInPos = 0
  redirectOutPos : s.redirectOutPos = 0
  inCheck : s.inCheck = false
  outCheck : s.outCheck = false
  first : s.heap (k + 1) = filled old (k + 1) []
  fresh : ∀ b, s.allocated ≤ b → s.heap b = old b

section

variable {old heap heap' : Heap} {s₀ s s' : Parser} {k n : Nat} {d : Draft} {c : TypedCommand}
  {command : PipelineCommand}

theorem TypedCommand.lt_next (c : TypedCommand) (k : Nat) : k + 3 < c.next k := by
  rw [TypedCommand.next, TypedCommand.args, List.length_cons]
  omega

theorem TypedCommand.argBlock_lt {i : Nat} (h : i < c.args.length) : argBlock k i < c.next k := by
  have hnext := c.lt_next k
  unfold TypedCommand.next at hnext ⊢
  cases i with
  | zero =>
    show k + 1 < _
    omega
  | succ i =>
    show k + 4 + i < _
    omega

theorem PathParsed.of_heap {b : Nat} {p : Pointer} {r : Option Redirect}
    (h : PathParsed old heap b p r) (hheap : heap' b = heap b) : PathParsed old heap' b p r := by
  cases r with
  | none => exact h
  | some r => exact ⟨h.1, hheap.trans h.2⟩

theorem Parsed.of_heap (h : Parsed old heap k c command) (hheap : ∀ b, b < c.next k → heap' b = heap b) :
    Parsed old heap' k c command where
  args := by
    intro i w hw
    obtain ⟨harg, hheld⟩ := h.args i w hw
    exact ⟨harg, (hheap _ (c.argBlock_lt (List.getElem?_eq_some_iff.mp hw).1)).trans hheld⟩
  ended := h.ended
  redirectIn := h.redirectIn.of_heap (hheap _ (Nat.lt_of_succ_lt (c.lt_next k)))
  redirectOut := h.redirectOut.of_heap (hheap _ (c.lt_next k))

/-! ### The first character of a command -/

theorem allocateRedirects_twice (s : Parser) :
    s.allocateRedirects.allocateRedirects = s.allocateRedirects := by
  unfold Parser.allocateRedirects
  split
  · rfl
  · rfl

/-- The paths are allocated at the first turn, so they might as well be there before it. -/
theorem loop_allocateRedirects {inSize : Int} {ch : UInt8} {rest : List UInt8} (hch : ch ≠ newline) :
    Parser.loop inSize (ch :: rest) s = Parser.loop inSize (ch :: rest) s.allocateRedirects := by
  have hturn : s.turn inSize ch = s.allocateRedirects.turn inSize ch := by
    rw [Parser.turn, Parser.turn, allocateRedirects_twice]
  rw [Parser.loop, Parser.loop, hturn, if_neg hch, if_neg hch]

theorem Fresh.writing (h : Fresh old k s) : Writing old s k 0 Draft.empty s.allocateRedirects := by
  have hgiven : s.allocateRedirects = { s with
      heap := Function.update (Function.update s.heap (k + 2) (Function.update (s.heap (k + 2)) 0 ampersand))
        (k + 3) (Function.update (s.heap (k + 3)) 0 ampersand)
      allocated := k + 4
      currentCommand := { s.currentCommand with
        redirectInPath := .block (k + 2)
        redirectOutPath := .block (k + 3) }
      mallocCheck := false } := by
    rw [Parser.allocateRedirects, if_pos h.mallocCheck]
    simp only [Parser.newBuffer, h.allocated]
    rw [Function.update_of_ne (by omega : k + 2 + 1 ≠ k + 2)]
  have hfresh := h.fresh
  rw [h.allocated] at hfresh
  have hother : ∀ b, b ≠ k + 2 → b ≠ k + 3 → s.allocateRedirects.heap b = s.heap b := by
    intro b hin hout
    rw [hgiven]
    exact (Function.update_of_ne hout _ _).trans (Function.update_of_ne hin _ _)
  rw [hgiven] at hother ⊢
  exact {
    mallocCheck := rfl
    allocated := rfl
    args := by
      intro i hi
      rw [Nat.le_zero.mp hi]
      exact h.arg
    redirectIn := rfl
    redirectOut := rfl
    commandArgPos := h.commandArgPos
    argStorePos := h.argStorePos
    redirectInPos := h.redirectInPos
    redirectOutPos := h.redirectOutPos
    inCheck := h.inCheck
    outCheck := h.outCheck
    riCheck := rfl
    roCheck := rfl
    inputPos := rfl
    words := fun i w hw => by cases hw
    last := (hother _ (by show k + 1 ≠ k + 2; omega) (by show k + 1 ≠ k + 3; omega)).trans h.first
    input := by
      show Function.update (Function.update s.heap (k + 2) _) (k + 3) _ (k + 2) = _
      rw [Function.update_of_ne (by omega), Function.update_self, hfresh _ (Nat.le_refl _)]
      rfl
    output := by
      show Function.update (Function.update s.heap (k + 2) _) (k + 3) _ (k + 3) = _
      rw [Function.update_self, hfresh _ (Nat.le_succ _)]
      rfl
    fresh := fun b (hb : k + 4 ≤ b) => (hother b (by omega) (by omega)).trans (hfresh b (by omega))
    below := fun b hb => hother b (by omega) (by omega)
    clean := fun c hc => by cases hc
    before := rfl
    isBackground := rfl
    doubleRedirectCheck := rfl
    ampersandPosCheck := rfl
    overflow := fun _ => rfl }

/-! ### The end of a command -/

/-- The command of the list, out of its draft. -/
def closed (k : Nat) (d : Draft) (commandArgs : Nat → Pointer) : PipelineCommand where
  commandArgs := Function.update commandArgs d.args.length .null
  redirectInPath := if d.input = [] then .null else .block (k + 2)
  redirectOutPath := if d.output = [] then .null else .block (k + 3)

theorem Draft.length_args (d : Draft) :
    d.args.length = if d.last = [] then d.words.length else d.words.length + 1 := by
  unfold Draft.args
  split
  · rfl
  · exact List.length_append

/-- The null pointer comes behind the arguments, whether or not a buffer has been taken for one more. -/
theorem Writing.closeArgs (h : Writing old s₀ k n d s) (hroom : d.words.length + 1 < maxArgvLength)
    (redirectIn redirectOut : Pointer) :
    Parser.closeArgs { s with
      currentCommand := ⟨s.currentCommand.commandArgs, redirectIn, redirectOut⟩ } = .ok { s with
      currentCommand :=
        ⟨Function.update s.currentCommand.commandArgs d.args.length .null, redirectIn, redirectOut⟩ } := by
  obtain ⟨first, hfirst, hempty⟩ := h.firstByte
  have hat : (if first = ampersand then s.commandArgPos else s.commandArgPos + 1) = d.args.length := by
    rw [d.length_args, h.commandArgPos]
    by_cases hlast : d.last = []
    · rw [if_pos (hempty.mpr hlast), if_pos hlast]
    · rw [if_neg (fun hc => hlast (hempty.mp hc)), if_neg hlast]
  have hlt : d.args.length < maxArgvLength := by
    rw [d.length_args]
    split
    · exact Nat.lt_of_succ_lt hroom
    · exact hroom
  have harg : PipelineCommand.arg ⟨s.currentCommand.commandArgs, redirectIn, redirectOut⟩ s.commandArgPos =
      .ok (.block (argBlock k d.words.length)) := h.arg (Nat.lt_of_succ_lt hroom)
  rw [Parser.closeArgs, harg, ok_bind]
  show (s.firstByte (.block (argBlock k d.words.length)) >>= _) = _
  rw [hfirst, ok_bind]
  show (PipelineCommand.setArg _ (if first = ampersand then s.commandArgPos else s.commandArgPos + 1) _
    >>= _) = _
  rw [hat, PipelineCommand.setArg, if_pos hlt]
  rfl

theorem Writing.closePath (h : Writing old s₀ k n d s) (command : PipelineCommand) :
    Parser.closePath { s with currentCommand := command } (.block (k + 2)) =
        .ok (if d.input = [] then .null else .block (k + 2)) ∧
      Parser.closePath { s with currentCommand := command } (.block (k + 3)) =
        .ok (if d.output = [] then .null else .block (k + 3)) := by
  have hinput : s.heap (k + 2) 0 = ampersand ↔ d.input = [] := by
    rw [h.input]
    exact filled_zero fun c hc => h.clean c (by simp [hc])
  have houtput : s.heap (k + 3) 0 = ampersand ↔ d.output = [] := by
    rw [h.output]
    exact filled_zero fun c hc => h.clean c (by simp [hc])
  constructor
  · show Except.ok (if s.heap (k + 2) 0 = ampersand then _ else _) = _
    rw [if_congr hinput rfl rfl]
  · show Except.ok (if s.heap (k + 3) 0 = ampersand then _ else _) = _
    rw [if_congr houtput rfl rfl]

theorem Writing.closeRedirects (h : Writing old s₀ k n d s) (commandArgs : Nat → Pointer) :
    Parser.closeRedirects { s with
      currentCommand := ⟨commandArgs, s.currentCommand.redirectInPath, s.currentCommand.redirectOutPath⟩ } =
    .ok { s with
      currentCommand := ⟨commandArgs, if d.input = [] then .null else .block (k + 2),
        if d.output = [] then .null else .block (k + 3)⟩ } := by
  rw [h.redirectIn, h.redirectOut, Parser.closeRedirects, (h.closePath _).1, ok_bind, (h.closePath _).2]
  rfl

theorem Writing.finish (h : Writing old s₀ k n d s) (hroom : d.words.length + 1 < maxArgvLength) :
    s.finish = .ok { s with currentCommand := closed k d s.currentCommand.commandArgs } := by
  have hredirects := h.closeRedirects s.currentCommand.commandArgs
  rw [Parser.finish, hredirects, ok_bind]
  exact h.closeArgs hroom _ _

/-- The parser with `command` in the list and a new command behind it. -/
def Parser.renewed (s : Parser) (command : PipelineCommand) : Parser :=
  { Parser.newCommand { s with currentCommand := command } with
    mallocCheck := true
    argStorePos := 0
    redirectInPos := 0
    redirectOutPos := 0
    commandArgPos := 0
    inCheck := false
    outCheck := false }

theorem Writing.nextCommand (h : Writing old s₀ k n d s) (hroom : d.words.length + 1 < maxArgvLength) :
    s.nextCommand = .ok (s.renewed (closed k d s.currentCommand.commandArgs)) := by
  have hargs := h.closeArgs hroom s.currentCommand.redirectInPath s.currentCommand.redirectOutPath
  have hredirects := h.closeRedirects
    (Function.update s.currentCommand.commandArgs d.args.length .null)
  rw [Parser.nextCommand, hargs, ok_bind, hredirects]
  rfl

theorem renewed_heap {b : Nat} (s : Parser) (command : PipelineCommand) (hb : b ≠ s.allocated + 1) :
    (s.renewed command).heap b = s.heap b := Function.update_of_ne hb _ _

theorem fresh_renewed (command : PipelineCommand) (h : ∀ b, s.allocated ≤ b → s.heap b = old b) :
    Fresh old s.allocated (s.renewed command) where
  mallocCheck := rfl
  allocated := rfl
  arg := rfl
  commandArgPos := rfl
  argStorePos := rfl
  redirectInPos := rfl
  redirectOutPos := rfl
  inCheck := rfl
  outCheck := rfl
  first := by
    show Function.update s.heap (s.allocated + 1) _ (s.allocated + 1) = _
    rw [Function.update_self, h _ (Nat.le_succ _)]
    rfl
  fresh := by
    intro b (hb : s.allocated + 2 ≤ b)
    rw [renewed_heap s command (by omega)]
    exact h b (by omega)

/-! ### One command -/

theorem Writing.held (h : Writing old s₀ k n d s) {i : Nat} {w : List UInt8} (hw : d.args[i]? = some w) :
    s.currentCommand.commandArgs i = .block (argBlock k i) ∧
      s.heap (argBlock k i) = filled old (argBlock k i) w := by
  have hall : (d.words ++ [d.last])[i]? = some w := by
    unfold Draft.args at hw
    split at hw
    · rw [List.getElem?_append_left (List.getElem?_eq_some_iff.mp hw).1]
      exact hw
    · exact hw
  obtain ⟨hi, hheld⟩ := h.word hall
  exact ⟨h.args i hi, hheld⟩

theorem pathParsed {b : Nat} {cs : List UInt8} {r : Option Redirect} (hcs : cs = pathChars r)
    (hheld : heap b = filled old b cs) :
    PathParsed old heap b (if cs = [] then .null else .block b) r := by
  subst hcs
  cases r with
  | none => exact if_pos rfl
  | some r => exact ⟨if_neg r.path.nonempty, hheld⟩

theorem Writing.parsed (h : Writing old s₀ k n d s) (hdraft : Drafted c d) :
    Parsed old s.heap k c (closed k d s.currentCommand.commandArgs) where
  args := by
    intro i w hw
    have htyped : d.args[i]? = some w.chars := by
      rw [hdraft.args, List.getElem?_map, hw]
      rfl
    obtain ⟨harg, hheld⟩ := h.held htyped
    have hi := (List.getElem?_eq_some_iff.mp htyped).1
    exact ⟨(Function.update_of_ne (Nat.ne_of_lt hi) _ _).trans harg, hheld⟩
  ended := by
    have hlength : d.args.length = c.args.length := by
      rw [hdraft.args, List.length_map]
    show Function.update s.currentCommand.commandArgs d.args.length .null c.args.length = _
    rw [hlength, Function.update_self]
  redirectIn := pathParsed hdraft.input h.input
  redirectOut := pathParsed hdraft.output h.output

theorem Writing.next (h : Writing old s₀ k n d s) (hdraft : Drafted c d) : s.allocated = c.next k := by
  have hlength : d.args.length = c.args.length := by
    rw [hdraft.args, List.length_map]
  rw [d.length_args] at hlength
  rw [h.allocated, TypedCommand.next]
  by_cases hgapped : c.gapped
  · rw [if_pos (hdraft.last.mpr hgapped)] at hlength
    rw [if_pos hgapped]
    omega
  · rw [if_neg (fun hlast => hgapped (hdraft.last.mp hlast))] at hlength
    rw [if_neg hgapped]
    omega

/-- Every word of the command fits its buffer. -/
def TypedCommand.Short (c : TypedCommand) : Prop :=
  (∀ w ∈ c.args, w.chars.length ≤ bufferSize) ∧ (pathChars c.input).length ≤ bufferSize ∧
    (pathChars c.output).length ≤ bufferSize

theorem Drafted.short (hdraft : Drafted c d) (hshort : c.Short) : d.Short := by
  obtain ⟨hargs, hinput, houtput⟩ := hshort
  have hall : ∀ w ∈ d.args, w.length ≤ bufferSize := by
    rw [hdraft.args]
    intro w hw
    obtain ⟨arg, harg, rfl⟩ := List.mem_map.mp hw
    exact hargs arg harg
  rw [← hdraft.input] at hinput
  rw [← hdraft.output] at houtput
  unfold Draft.args at hall
  split at hall
  · rename_i hlast
    exact ⟨hall, by rw [hlast]; exact Nat.zero_le _, hinput, houtput⟩
  · exact ⟨fun w hw => hall w (List.mem_append_left _ hw),
      hall _ (List.mem_append_right _ List.mem_cons_self), hinput, houtput⟩

theorem Fresh.typed (h : Fresh old k s) (c : TypedCommand) (hin : s.riCheck + signs c.input ≤ 1)
    (hout : s.roCheck + signs c.output ≤ 1) (hsize : c.text.length < 2 * maxArgvLength - 2)
    (inSize : Int) : ∃ s' d, (∀ rest, Parser.loop inSize (c.text ++ rest) s = Parser.loop inSize rest s') ∧
      Drafted c d ∧ d.words.length + 1 < maxArgvLength ∧ Writing old s k c.text.length d s' := by
  have hdraft := Draft.drafted c
  have hroom := Draft.empty.size_typed c.text
  have hempty : Draft.empty.size = 0 := rfl
  rw [hempty, Nat.zero_add] at hroom
  obtain ⟨s', hloop, hwriting⟩ := h.writing.typed c.inner (by rw [hdraft.inputs]; exact hin)
    (by rw [hdraft.outputs]; exact hout) (by omega) inSize
  refine ⟨s', _, ?_, hdraft, ?_, Nat.zero_add c.text.length ▸ hwriting⟩
  · intro rest
    obtain ⟨ch, cs, htext⟩ := List.exists_cons_of_ne_nil c.text_ne_nil
    have hch : ch ≠ newline := (c.inner ch (by rw [htext]; exact List.mem_cons_self)).1
    have hrest := hloop rest
    rw [htext, List.cons_append] at hrest ⊢
    rw [loop_allocateRedirects hch, hrest]
  · unfold Draft.size at hroom
    omega

/-- A bar passes the command on to the list. -/
theorem Writing.bar {inSize : Int} {rest : List UInt8} (h : Writing old s₀ k n d s)
    (hroom : d.words.length + 1 < maxArgvLength) :
    Parser.loop inSize (bar :: rest) s = Parser.loop inSize rest
      { s.renewed (closed k d s.currentCommand.commandArgs) with inputPos := s.inputPos + 1 } := by
  apply loop_of_turn (by decide)
  rw [Parser.turn, h.allocateRedirects, if_neg (by decide), if_neg (by decide), if_neg (by decide),
    if_pos rfl, h.nextCommand hroom]
  rfl

/-- The end of a line. -/
def lineEnd (background : Bool) : List UInt8 := (if background then [ampersand] else []) ++ [newline]

/-- An ampersand right before the newline, and nowhere else, is for the whole pipeline. -/
theorem Writing.lineEnd {inSize : Int} {background : Bool} (h : Writing old s₀ k n d s)
    (hpos : background = true → s.inputPos = inSize - 2) :
    ∃ s' n', Parser.loop inSize (lineEnd background) s = .ok s' ∧
      Writing old { s₀ with isBackground := background || s₀.isBackground } k n' d s' := by
  cases background with
  | false => exact ⟨s, n, rfl, h⟩
  | true =>
    let s' : Parser := { s with
      isBackground := true
      inputPos := s.inputPos + 1 }
    have hturn : s.turn inSize ampersand = .ok (true, s') := by
      rw [Parser.turn, h.allocateRedirects, if_pos rfl]
      show (if (s.inputPos : Int) ≠ inSize - 2 then _ else _) = _
      rw [if_neg (fun hne => hne (hpos rfl))]
      rfl
    refine ⟨s', n + 1, ?_, ?_⟩
    · exact loop_of_turn (by decide) hturn
    · exact { h.moved with isBackground := rfl }

/-! ### All commands -/

/-- What has become of the commands since `s`. -/
structure Built (old : Heap) (k : Nat) (commands : List TypedCommand) (background : Bool)
    (s s' : Parser) : Prop where
  list : ∃ new, s'.before ++ [s'.currentCommand] = s.before ++ new ∧
    List.Forall₂ (fun c command => Parsed old s'.heap c.1 c.2 command) (layout k commands) new
  below : ∀ b, b < k → s'.heap b = s.heap b
  isBackground : s'.isBackground = (background || s.isBackground)
  doubleRedirectCheck : s'.doubleRedirectCheck = s.doubleRedirectCheck
  ampersandPosCheck : s'.ampersandPosCheck = s.ampersandPosCheck
  overflow : (∀ c ∈ commands, c.Short) → s'.overflow = s.overflow

/-- A command has been read, and the next one begins. -/
structure Passed (old : Heap) (k : Nat) (c : TypedCommand) (s s' : Parser) : Prop where
  next : Fresh old (c.next k) s'
  list : ∃ command, s'.before = s.before ++ [command] ∧ Parsed old s'.heap k c command
  below : ∀ b, b < k → s'.heap b = s.heap b
  riCheck : s'.riCheck = s.riCheck + signs c.input
  roCheck : s'.roCheck = s.roCheck + signs c.output
  inputPos : s'.inputPos = s.inputPos + c.text.length + 1
  isBackground : s'.isBackground = s.isBackground
  doubleRedirectCheck : s'.doubleRedirectCheck = s.doubleRedirectCheck
  ampersandPosCheck : s'.ampersandPosCheck = s.ampersandPosCheck
  overflow : c.Short → s'.overflow = s.overflow

/-- How many commands have an input path, and how many an output path. -/
def allInputs (commands : List TypedCommand) : Nat := (commands.map fun c => signs c.input).sum

def allOutputs (commands : List TypedCommand) : Nat := (commands.map fun c => signs c.output).sum

theorem Fresh.last {inSize : Int} {background : Bool} (h : Fresh old k s) (c : TypedCommand)
    (hin : s.riCheck + signs c.input ≤ 1) (hout : s.roCheck + signs c.output ≤ 1)
    (hsize : c.text.length < 2 * maxArgvLength - 2)
    (hpos : background = true → ((s.inputPos + c.text.length : Nat) : Int) = inSize - 2) :
    ∃ s', (Parser.loop inSize (c.text ++ lineEnd background) s >>= Parser.finish) = .ok s' ∧
      Built old k [c] background s s' := by
  obtain ⟨s₁, d, hloop, hdraft, hroom, hwriting⟩ := h.typed c hin hout hsize inSize
  obtain ⟨s₂, n, hend, hwritten⟩ := hwriting.lineEnd fun hset => (hwriting.inputPos ▸ hpos hset)
  refine ⟨{ s₂ with currentCommand := closed k d s₂.currentCommand.commandArgs }, ?_, ?_⟩
  · rw [hloop, hend, ok_bind]
    exact hwritten.finish hroom
  · exact {
      list := ⟨_, congrArg (· ++ _) hwritten.before, .cons (hwritten.parsed hdraft) .nil⟩
      below := hwritten.below
      isBackground := hwritten.isBackground
      doubleRedirectCheck := hwritten.doubleRedirectCheck
      ampersandPosCheck := hwritten.ampersandPosCheck
      overflow := fun hshort => hwritten.overflow (hdraft.short (hshort c List.mem_cons_self)) }

theorem Fresh.passed (h : Fresh old k s) (c : TypedCommand) (hin : s.riCheck + signs c.input ≤ 1)
    (hout : s.roCheck + signs c.output ≤ 1) (hsize : c.text.length < 2 * maxArgvLength - 2)
    (inSize : Int) : ∃ s', (∀ rest, Parser.loop inSize (c.text ++ bar :: rest) s =
      Parser.loop inSize rest s') ∧ Passed old k c s s' := by
  obtain ⟨s₁, d, hloop, hdraft, hroom, hwriting⟩ := h.typed c hin hout hsize inSize
  have hnext := hwriting.next hdraft
  have hkept : ∀ b, b < c.next k →
      (s₁.renewed (closed k d s₁.currentCommand.commandArgs)).heap b = s₁.heap b :=
    fun b hb => renewed_heap s₁ _ (by omega)
  have hbelow := c.lt_next k
  refine ⟨_, fun rest => (hloop _).trans (hwriting.bar hroom), ?_⟩
  exact {
    next := by
      have hfresh := fresh_renewed (closed k d s₁.currentCommand.commandArgs) hwriting.fresh
      rw [hnext] at hfresh
      exact { hfresh with mallocCheck := rfl }
    list := ⟨_, congrArg (· ++ _) hwriting.before, (hwriting.parsed hdraft).of_heap hkept⟩
    below := fun b hb => (hkept b (by omega)).trans (hwriting.below b hb)
    riCheck := by
      rw [← hdraft.inputs]
      exact hwriting.riCheck
    roCheck := by
      rw [← hdraft.outputs]
      exact hwriting.roCheck
    inputPos := congrArg (· + 1) hwriting.inputPos
    isBackground := hwriting.isBackground
    doubleRedirectCheck := hwriting.doubleRedirectCheck
    ampersandPosCheck := hwriting.ampersandPosCheck
    overflow := fun hshort => hwriting.overflow (hdraft.short hshort) }

theorem Passed.built {commands : List TypedCommand} {background : Bool} {s₁ : Parser}
    (h : Passed old k c s s₁) (hrest : Built old (c.next k) commands background s₁ s') :
    Built old k (c :: commands) background s s' := by
  obtain ⟨command, hbefore, hparsed⟩ := h.list
  obtain ⟨new, hlist, hnew⟩ := hrest.list
  have hnext := c.lt_next k
  exact {
    list := ⟨command :: new, by rw [hlist, hbefore, List.append_assoc]; rfl,
      .cons (hparsed.of_heap hrest.below) hnew⟩
    below := fun b hb => (hrest.below b (by omega)).trans (h.below b hb)
    isBackground := by rw [hrest.isBackground, h.isBackground]
    doubleRedirectCheck := hrest.doubleRedirectCheck.trans h.doubleRedirectCheck
    ampersandPosCheck := hrest.ampersandPosCheck.trans h.ampersandPosCheck
    overflow := by
      intro hshort
      obtain ⟨hfirst, hothers⟩ := List.forall_mem_cons.mp hshort
      exact (hrest.overflow hothers).trans (h.overflow hfirst) }

theorem length_barred_cons (c e : TypedCommand) (rest : List TypedCommand) :
    (barred (c :: e :: rest)).length = c.text.length + 1 + (barred (e :: rest)).length := by
  rw [barred, List.length_append, List.length_cons]
  omega

theorem Fresh.build {inSize : Int} {background : Bool} {commands : List TypedCommand} (h : Fresh old k s)
    (hne : commands ≠ []) (hin : s.riCheck + allInputs commands ≤ 1)
    (hout : s.roCheck + allOutputs commands ≤ 1)
    (hsize : (barred commands).length < 2 * maxArgvLength - 2)
    (hpos : background = true → ((s.inputPos + (barred commands).length : Nat) : Int) = inSize - 2) :
    ∃ s', (Parser.loop inSize (barred commands ++ lineEnd background) s >>= Parser.finish) = .ok s' ∧
      Built old k commands background s s' := by
  induction commands generalizing k s with
  | nil => exact absurd rfl hne
  | cons c commands ih =>
    have hins : allInputs (c :: commands) = signs c.input + allInputs commands := List.sum_cons
    have houts : allOutputs (c :: commands) = signs c.output + allOutputs commands := List.sum_cons
    cases commands with
    | nil => exact h.last c (by omega) (by omega) hsize hpos
    | cons e rest =>
      have hlength := length_barred_cons c e rest
      obtain ⟨s₁, hloop, hpassed⟩ := h.passed c (by omega) (by omega) (by omega) inSize
      have hri := hpassed.riCheck
      have hro := hpassed.roCheck
      have hat := hpassed.inputPos
      obtain ⟨s', hbuild, hbuilt⟩ := ih hpassed.next (List.cons_ne_nil _ _) (by omega) (by omega)
        (by omega) (fun hset => by rw [← hpos hset]; congr 1; omega)
      refine ⟨s', ?_, hpassed.built hbuilt⟩
      rw [barred, List.append_assoc, List.cons_append, hloop, hbuild]

theorem fresh_start (old : Heap) : Fresh old 1 (Parser.start old) where
  mallocCheck := rfl
  allocated := rfl
  arg := rfl
  commandArgPos := rfl
  argStorePos := rfl
  redirectInPos := rfl
  redirectOutPos := rfl
  inCheck := rfl
  outCheck := rfl
  first := by
    show Function.update old 2 _ 2 = _
    rw [Function.update_self]
    rfl
  fresh := fun b (hb : 3 ≤ b) => Function.update_of_ne (by omega) _ _

theorem signs_le (r : Option Redirect) : signs r ≤ 1 := by
  unfold signs
  split
  · exact Nat.le_refl _
  · exact Nat.zero_le _

theorem sum_signs_of_none {commands : List TypedCommand} (path : TypedCommand → Option Redirect)
    (h : ∀ c ∈ commands, path c = none) : (commands.map fun c => signs (path c)).sum = 0 := by
  induction commands with
  | nil => rfl
  | cons c rest ih =>
    obtain ⟨hc, hrest⟩ := List.forall_mem_cons.mp h
    rw [List.map_cons, List.sum_cons, ih hrest, hc]
    rfl

/-- The paths of a line are one at each end. -/
theorem TypedLine.signs_le_one (l : TypedLine) : allInputs l.commands ≤ 1 ∧ allOutputs l.commands ≤ 1 := by
  constructor
  · obtain ⟨c, rest, hcommands⟩ := List.exists_cons_of_ne_nil l.nonempty
    have hnone := l.inputFirst
    rw [hcommands] at hnone ⊢
    rw [List.tail_cons] at hnone
    rw [allInputs, List.map_cons, List.sum_cons, sum_signs_of_none TypedCommand.input hnone]
    exact signs_le _
  · have hnone := l.outputLast
    rw [← List.dropLast_concat_getLast l.nonempty, allOutputs, List.map_append, List.sum_append,
      sum_signs_of_none TypedCommand.output hnone, Nat.zero_add]
    exact signs_le _

/-- The parser goes over every line to its end. -/
theorem TypedLine.built (l : TypedLine) (old : Heap) (hlength : l.text.length ≤ 511) :
    ∃ s, pipelineBuild old l.text = .ok s ∧
      Built old 1 l.commands l.background (Parser.start old) s := by
  obtain ⟨hin, hout⟩ := l.signs_le_one
  have htext : l.text = barred l.commands ++ Shell.lineEnd l.background := rfl
  have hsize : l.text.length = (barred l.commands).length + (Shell.lineEnd l.background).length := by
    rw [htext, List.length_append]
  have hend : 0 < (Shell.lineEnd l.background).length := by
    rw [Shell.lineEnd, List.length_append]
    exact Nat.succ_pos _
  have hwide : Words.toInt32 l.text.length = l.text.length := Words.toInt32_of_lt (by omega)
  unfold pipelineBuild
  rw [hwide, htext]
  refine (fresh_start old).build l.nonempty (by show 0 + _ ≤ 1; omega) (by show 0 + _ ≤ 1; omega)
    (by show _ < 2 * 257 - 2; omega) (fun hset => ?_)
  rw [← htext, hsize, hset]
  show ((0 + (barred l.commands).length : Nat) : Int) = ((barred l.commands).length + 2 : Nat) - 2
  omega

end

end OSChallenges.Shell
