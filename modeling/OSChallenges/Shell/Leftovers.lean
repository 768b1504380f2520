import OSChallenges.Shell.RoundTrip

/-!
# What has been left in memory

The parser writes no zero behind a word, and without an ampersand it does not write `is_background`.
Whether the strings of a pipeline end where they should is up to the bytes that an earlier owner has
left in the buffers.
-/

namespace OSChallenges.Shell

open Outcomes

/-- A string with its zero, inside its buffer. -/
def IsString (heap : Heap) (p : Pointer) (w : Word) : Prop :=
  ∃ b, p = .block b ∧ w.chars.length < bufferSize ∧ (∀ o c, w.chars[o]? = some c → heap b o = c) ∧
    heap b w.chars.length = 0

def IsPath (heap : Heap) (p : Pointer) : Option Redirect → Prop
  | none => p = .null
  | some r => IsString heap p r.path

/-- The strings of a command are the words of the typed one. -/
structure InStrings (heap : Heap) (c : TypedCommand) (command : PipelineCommand) : Prop where
  args : ∀ i w, c.args[i]? = some w → IsString heap (command.commandArgs i) w
  ended : command.commandArgs c.args.length = .null
  redirectIn : IsPath heap command.redirectInPath c.input
  redirectOut : IsPath heap command.redirectOutPath c.output

/-- The pipeline is the one that has been typed. -/
def TypedLine.InMemory (l : TypedLine) (old : Heap) : Prop :=
  ∃ s, pipelineBuild old l.text = .ok s ∧ s.overflow = false ∧
    List.Forall₂ (InStrings s.heap) l.commands s.pipeline.commands ∧
    (s.pipeline.isBackground = true ↔ l.background = true)

/-! ### Two runs -/

/-- The strings are equal, to their zeros. -/
def SameString (heap heap' : Heap) : Pointer → Pointer → Prop
  | .block b, .block b' => ∀ o, (∀ i, i < o → heap b i ≠ 0) → heap b o = heap' b' o
  | p, p' => p = p'

/-- The arguments are equal, to the null pointer, and so are the paths. -/
def SameCommand (heap heap' : Heap) (c c' : PipelineCommand) : Prop :=
  (∀ i, (∀ j, j < i → c.commandArgs j ≠ .null) →
    SameString heap heap' (c.commandArgs i) (c'.commandArgs i)) ∧
  SameString heap heap' c.redirectInPath c'.redirectInPath ∧
  SameString heap heap' c.redirectOutPath c'.redirectOutPath

/-- Whatever is left in memory, the pipelines of the line are equal. -/
def TypedLine.SamePipeline (l : TypedLine) (old old' : Heap) : Prop :=
  ∀ s s', pipelineBuild old l.text = .ok s → pipelineBuild old' l.text = .ok s' →
    List.Forall₂ (SameCommand s.heap s'.heap) s.pipeline.commands s'.pipeline.commands ∧
    s.pipeline.isBackground = s'.pipeline.isBackground

/-! ### The condition -/

/-- The buffers of a command, with the words that come into them. -/
def TypedCommand.buffers (k : Nat) (c : TypedCommand) : List (Nat × Word) :=
  c.args.zipIdx.map (fun w => (argBlock k w.2, w.1)) ++
    (c.input.map fun r => (k + 2, r.path)).toList ++ (c.output.map fun r => (k + 3, r.path)).toList

/-- The word is not too long for its buffer, and a zero has been left behind it. -/
def Ends (old : Heap) (buffer : Nat × Word) : Prop :=
  buffer.2.chars.length < bufferSize ∧ old buffer.1 buffer.2.chars.length = 0

def TypedLine.Clear (l : TypedLine) (old : Heap) : Prop :=
  (∀ c ∈ layout 1 l.commands, ∀ buffer ∈ c.2.buffers c.1, Ends old buffer) ∧
    (l.background = false → old 0 Parser.isBackgroundOffset = 0)

instance (old : Heap) (buffer : Nat × Word) : Decidable (Ends old buffer) :=
  inferInstanceAs (Decidable (_ ∧ _))

instance (l : TypedLine) (old : Heap) : Decidable (l.Clear old) :=
  inferInstanceAs (Decidable ((∀ c ∈ layout 1 l.commands, ∀ buffer ∈ c.2.buffers c.1, Ends old buffer) ∧
    (l.background = false → old 0 Parser.isBackgroundOffset = 0)))

section

variable {old heap heap' : Heap} {k b b' : Nat} {w : Word} {c : TypedCommand}
  {command command' : PipelineCommand} {p p' : Pointer} {r : Option Redirect}

/-- A word in its buffer is a string if there is a zero behind it already. -/
theorem isString_iff (hheld : heap b = filled old b w.chars) :
    IsString heap (.block b) w ↔ Ends old (b, w) := by
  have hend : heap b w.chars.length = old b w.chars.length := by
    rw [hheld, filled_chars]
    exact List.getD_eq_default _ _ (Nat.le_refl _)
  have hchars : ∀ o ch, w.chars[o]? = some ch → heap b o = ch := by
    intro o ch hch
    rw [hheld, filled_chars]
    show w.chars.getD o (old b o) = ch
    rw [List.getD_eq_getElem?_getD, hch, Option.getD_some]
  constructor
  · rintro ⟨b', hb, hshort, -, hzero⟩
    cases hb
    exact ⟨hshort, hend ▸ hzero⟩
  · rintro ⟨hshort, hzero⟩
    exact ⟨b, rfl, hshort, hchars, hend.trans hzero⟩

theorem PathParsed.isPath_iff (h : PathParsed old heap b p r) :
    IsPath heap p r ↔ ∀ path ∈ r.map Redirect.path, Ends old (b, path) := by
  cases r with
  | none => exact ⟨fun _ path hpath => (by cases hpath), fun _ => h⟩
  | some r =>
    obtain ⟨rfl, hheld⟩ := h
    rw [IsPath, isString_iff hheld]
    simp

theorem forall_buffers {P : Nat × Word → Prop} : (∀ buffer ∈ c.buffers k, P buffer) ↔
    (∀ i w, c.args[i]? = some w → P (argBlock k i, w)) ∧
      (∀ path ∈ c.input.map Redirect.path, P (k + 2, path)) ∧
      ∀ path ∈ c.output.map Redirect.path, P (k + 3, path) := by
  have hargs : (∀ buffer ∈ c.args.zipIdx.map fun w => (argBlock k w.2, w.1), P buffer) ↔
      ∀ i w, c.args[i]? = some w → P (argBlock k i, w) := by
    constructor
    · intro h i w hw
      exact h _ (List.mem_map.mpr ⟨(w, i), List.mem_zipIdx_iff_getElem?.mpr hw, rfl⟩)
    · intro h buffer hbuffer
      obtain ⟨⟨w, i⟩, hw, rfl⟩ := List.mem_map.mp hbuffer
      exact h i w (List.mem_zipIdx_iff_getElem?.mp hw)
  have hpath : ∀ (r : Option Redirect) n, (∀ buffer ∈ (r.map fun r => (n, r.path)).toList, P buffer) ↔
      ∀ path ∈ r.map Redirect.path, P (n, path) := by
    intro r n
    cases r with
    | none => simp
    | some r => simp
  rw [TypedCommand.buffers, List.forall_mem_append, List.forall_mem_append, hargs, hpath, hpath,
    and_assoc]

theorem Parsed.inStrings_iff (h : Parsed old heap k c command) :
    InStrings heap c command ↔ ∀ buffer ∈ c.buffers k, Ends old buffer := by
  have harg : ∀ i w, c.args[i]? = some w →
      (IsString heap (command.commandArgs i) w ↔ Ends old (argBlock k i, w)) := by
    intro i w hw
    obtain ⟨hblock, hheld⟩ := h.args i w hw
    rw [hblock, isString_iff hheld]
  rw [forall_buffers, ← h.redirectIn.isPath_iff, ← h.redirectOut.isPath_iff]
  constructor
  · intro hstrings
    exact ⟨fun i w hw => (harg i w hw).mp (hstrings.args i w hw), hstrings.redirectIn,
      hstrings.redirectOut⟩
  · rintro ⟨hargs, hin, hout⟩
    exact ⟨fun i w hw => (harg i w hw).mpr (hargs i w hw), h.ended, hin, hout⟩

theorem inStrings_iff {commands : List TypedCommand} {new : List PipelineCommand}
    (h : List.Forall₂ (fun c command => Parsed old heap c.1 c.2 command) (layout k commands) new) :
    List.Forall₂ (InStrings heap) commands new ↔
      ∀ c ∈ layout k commands, ∀ buffer ∈ c.2.buffers c.1, Ends old buffer := by
  induction commands generalizing k new with
  | nil =>
    cases h with
    | nil => exact ⟨fun _ c hc => (by cases hc), fun _ => .nil⟩
  | cons c rest ih =>
    cases h with
    | cons hfirst hrest =>
      rw [List.forall₂_cons, hfirst.inStrings_iff, ih hrest, layout, List.forall_mem_cons]

theorem InStrings.short (h : InStrings heap c command) : c.Short := by
  have hfits : ∀ {p w}, IsString heap p w → w.chars.length ≤ bufferSize := by
    rintro p w ⟨-, -, hshort, -⟩
    exact Nat.le_of_lt hshort
  have hpath : ∀ {p r}, IsPath heap p r → (pathChars r).length ≤ bufferSize := by
    intro p r hr
    cases r with
    | none => exact Nat.zero_le _
    | some r => exact hfits hr
  refine ⟨?_, hpath h.redirectIn, hpath h.redirectOut⟩
  intro w hw
  obtain ⟨i, hi⟩ := List.mem_iff_getElem?.mp hw
  exact hfits (h.args i w hi)

theorem short_of_inStrings {commands : List TypedCommand} {new : List PipelineCommand}
    (h : List.Forall₂ (InStrings heap) commands new) : ∀ c ∈ commands, c.Short := by
  induction h with
  | nil =>
    intro c hc
    cases hc
  | cons hfirst _ ih => exact List.forall_mem_cons.mpr ⟨hfirst.short, ih⟩

theorem TypedLine.inMemory_iff (l : TypedLine) (hlength : l.text.length ≤ 511) :
    l.InMemory old ↔ l.Clear old := by
  obtain ⟨s, hbuild, hbuilt⟩ := l.built old hlength
  obtain ⟨new, hlist, hparsed⟩ := hbuilt.list
  have hcommands : s.pipeline.commands = new := hlist
  have hstrings := inStrings_iff hparsed
  have hflag : (s.pipeline.isBackground = true ↔ l.background = true) ↔
      (l.background = false → old 0 Parser.isBackgroundOffset = 0) := by
    have hset : s.pipeline.isBackground =
        (l.background || decide (old 0 Parser.isBackgroundOffset ≠ 0)) := hbuilt.isBackground
    rw [hset]
    cases l.background with
    | false => simp
    | true => simp
  constructor
  · rintro ⟨s', hbuild', -, hlines, hback⟩
    rw [hbuild] at hbuild'
    cases hbuild'
    rw [hcommands] at hlines
    exact ⟨hstrings.mp hlines, hflag.mp hback⟩
  · rintro ⟨hends, hback⟩
    have hlines := hstrings.mpr hends
    exact ⟨s, hbuild, hbuilt.overflow (short_of_inStrings hlines), hcommands ▸ hlines, hflag.mpr hback⟩

/-! ### Equal pipelines -/

theorem IsString.same (h : IsString heap p w) (h' : IsString heap' p' w) :
    SameString heap heap' p p' := by
  obtain ⟨b, rfl, -, hchars, hzero⟩ := h
  obtain ⟨b', rfl, -, hchars', hzero'⟩ := h'
  intro o hbefore
  obtain hlt | rfl | hgt := Nat.lt_trichotomy o w.chars.length
  · have hch := List.getElem?_eq_getElem hlt
    rw [hchars _ _ hch, hchars' _ _ hch]
  · rw [hzero, hzero']
  · exact absurd hzero (hbefore _ hgt)

theorem IsPath.same (h : IsPath heap p r) (h' : IsPath heap' p' r) : SameString heap heap' p p' := by
  cases r with
  | none =>
    have hp : p = .null := h
    have hp' : p' = .null := h'
    subst hp hp'
    rfl
  | some r => exact IsString.same h h'

theorem InStrings.same (h : InStrings heap c command) (h' : InStrings heap' c command') :
    SameCommand heap heap' command command' := by
  refine ⟨?_, h.redirectIn.same h'.redirectIn, h.redirectOut.same h'.redirectOut⟩
  intro i hbefore
  obtain hlt | rfl | hgt := Nat.lt_trichotomy i c.args.length
  · have hw := List.getElem?_eq_getElem hlt
    exact (h.args _ _ hw).same (h'.args _ _ hw)
  · rw [h.ended, h'.ended]
    rfl
  · exact absurd h.ended (hbefore _ hgt)

theorem same_of_inStrings {commands : List TypedCommand} {new new' : List PipelineCommand}
    (h : List.Forall₂ (InStrings heap) commands new) (h' : List.Forall₂ (InStrings heap') commands new') :
    List.Forall₂ (SameCommand heap heap') new new' := by
  induction h generalizing new' with
  | nil =>
    cases h' with
    | nil => exact .nil
  | cons hfirst _ ih =>
    cases h' with
    | cons hfirst' hrest' => exact .cons (hfirst.same hfirst') (ih hrest')

theorem TypedLine.InMemory.same {l : TypedLine} {old' : Heap} (h : l.InMemory old)
    (h' : l.InMemory old') : l.SamePipeline old old' := by
  obtain ⟨t, hbuild, -, hlines, hback⟩ := h
  obtain ⟨t', hbuild', -, hlines', hback'⟩ := h'
  intro s s' hs hs'
  rw [hbuild] at hs
  rw [hbuild'] at hs'
  cases hs
  cases hs'
  exact ⟨same_of_inStrings hlines hlines', Bool.eq_iff_iff.mpr (hback.trans hback'.symm)⟩

end

/-- The pipelines of two runs are the line, and equal, if and only if zeros have been left behind the
words. -/
theorem TypedLine.determined_iff (l : TypedLine) (old old' : Heap) (hlength : l.text.length ≤ 511) :
    (l.InMemory old ∧ l.InMemory old' ∧ l.SamePipeline old old') ↔ l.Clear old ∧ l.Clear old' := by
  rw [← l.inMemory_iff hlength, ← l.inMemory_iff hlength]
  constructor
  · rintro ⟨h, h', -⟩
    exact ⟨h, h'⟩
  · rintro ⟨h, h'⟩
    exact ⟨h, h', h.same h'⟩

theorem counting_determined : counting.InMemory (fun _ _ => 0) ∧
    counting.InMemory (fun _ o => if o < 20 then 0 else 255) ∧
    counting.SamePipeline (fun _ _ => 0) (fun _ o => if o < 20 then 0 else 255) :=
  (counting.determined_iff _ _ (by decide)).mpr (by decide)

/-- `ls`. -/
def listing : TypedLine where
  commands := [
    { lead := 0
      first := ⟨[108, 115], by decide, plain_of_all (by decide)⟩
      more := []
      input := none
      output := none
      outputFirst := false
      trail := 0 }]
  background := false
  nonempty := by simp
  inputFirst := by simp
  outputLast := by simp

/-- In a buffer full of an earlier argument the string does not end behind `ls`. -/
theorem listing_not_inMemory : listing.text.length ≤ 511 ∧ ¬ listing.InMemory fun _ _ => 120 := by
  have hlength : listing.text.length ≤ 511 := by decide
  refine ⟨hlength, ?_⟩
  rw [listing.inMemory_iff hlength]
  decide

end OSChallenges.Shell
