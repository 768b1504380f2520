import OSChallenges.Shell.Lines

/-!
# What a command is so far

The words of the current command as far as they are typed, by the characters alone: no buffers and no
positions. `Draft.typed` reads characters into a draft; for the text of a command it comes to the
arguments and the paths of the command.
-/

namespace OSChallenges.Shell

/-- Where the next letter goes. -/
inductive Mode
  | args
  | input
  | output
  deriving DecidableEq, Repr

/-- `words` are followed by a space; `last` is the argument that is being typed. -/
structure Draft where
  words : List (List UInt8)
  last : List UInt8
  input : List UInt8
  output : List UInt8
  mode : Mode
  inputs : Nat
  outputs : Nat

namespace Draft

def empty : Draft := ⟨[], [], [], [], .args, 0, 0⟩

/-- All arguments. -/
def args (d : Draft) : List (List UInt8) := if d.last = [] then d.words else d.words ++ [d.last]

def letters (d : Draft) (cs : List UInt8) : Draft :=
  match d.mode with
  | .args => { d with last := d.last ++ cs }
  | .input => { d with input := d.input ++ cs }
  | .output => { d with output := d.output ++ cs }

def spaced (d : Draft) : Draft :=
  if d.last ≠ [] ∧ d.mode = .args then { d with words := d.words ++ [d.last], last := [] } else d

/-- One character that is neither a bar nor an ampersand. -/
def type (d : Draft) (c : UInt8) : Draft :=
  if c = less then { d with mode := .input, inputs := d.inputs + 1 }
  else if c = greater then { d with mode := .output, outputs := d.outputs + 1 }
  else if c = space then d.spaced
  else d.letters [c]

def typed (d : Draft) (cs : List UInt8) : Draft := cs.foldl type d

section

variable {d : Draft} {c : UInt8} {cs cs' : List UInt8}

@[simp] theorem typed_nil : d.typed [] = d := rfl

@[simp] theorem typed_cons : d.typed (c :: cs) = (d.type c).typed cs := rfl

theorem typed_append : d.typed (cs ++ cs') = (d.typed cs).typed cs' := List.foldl_append

theorem type_plain (h : Plain c) : d.type c = d.letters [c] := by
  obtain ⟨-, -, hspace, -, hless, hgreater, -⟩ := h
  rw [type, if_neg hless, if_neg hgreater, if_neg hspace]

theorem type_space : d.type space = d.spaced := by
  rw [type, if_neg (by decide), if_neg (by decide), if_pos rfl]

theorem letters_nil : d.letters [] = d := by
  obtain ⟨words, last, input, output, mode, inputs, outputs⟩ := d
  cases mode
  · simp [letters]
  · simp [letters]
  · simp [letters]

theorem letters_letters : (d.letters cs).letters cs' = d.letters (cs ++ cs') := by
  obtain ⟨words, last, input, output, mode, inputs, outputs⟩ := d
  cases mode
  · simp [letters]
  · simp [letters]
  · simp [letters]

/-- The letters of a word go where the mode says. -/
theorem typed_plain (h : ∀ c ∈ cs, Plain c) : d.typed cs = d.letters cs := by
  induction cs generalizing d with
  | nil => exact letters_nil.symm
  | cons c rest ih =>
    obtain ⟨hc, hrest⟩ := List.forall_mem_cons.mp h
    rw [typed_cons, type_plain hc, ih hrest, letters_letters]
    rfl

theorem spaced_spaced : d.spaced.spaced = d.spaced := by
  unfold spaced
  split
  · simp
  · rfl

theorem typed_spaces (n : Nat) : d.typed (spaces n) = if n = 0 then d else d.spaced := by
  induction n generalizing d with
  | zero => rfl
  | succ n ih =>
    rw [spaces, List.replicate_succ, typed_cons, type_space, ← spaces, ih, spaced_spaced, ite_self,
      if_neg (Nat.succ_ne_zero n)]

theorem spaced_of_mode (h : d.mode ≠ .args) : d.spaced = d := by
  rw [spaced, if_neg (fun hboth => h hboth.2)]

theorem args_spaced : d.spaced.args = d.args := by
  unfold spaced args
  split
  · rename_i hboth
    rw [if_neg hboth.1, if_pos rfl]
  · rfl

/-- What the arguments take of a line at least: each of them a letter and, but for the last, a space. -/
def size (d : Draft) : Nat := 2 * d.words.length + if d.last = [] then 0 else 1

theorem size_type (d : Draft) (c : UInt8) : (d.type c).size ≤ d.size + 1 := by
  have hletters : (d.letters [c]).size ≤ d.size + 1 := by
    obtain ⟨words, last, input, output, mode, inputs, outputs⟩ := d
    cases mode with
    | args =>
      show 2 * words.length + _ ≤ 2 * words.length + _ + 1
      split <;> split <;> omega
    | input => exact Nat.le_succ _
    | output => exact Nat.le_succ _
  have hspaced : d.spaced.size ≤ d.size + 1 := by
    unfold spaced
    split
    · rename_i hboth
      rw [size, size, List.length_append, List.length_singleton, if_pos rfl, if_neg hboth.1]
      omega
    · exact Nat.le_succ _
  unfold type
  split
  · exact Nat.le_succ _
  · split
    · exact Nat.le_succ _
    · split
      · exact hspaced
      · exact hletters

theorem size_typed (d : Draft) (cs : List UInt8) : (d.typed cs).size ≤ d.size + cs.length := by
  induction cs generalizing d with
  | nil => exact Nat.le_refl _
  | cons c rest ih =>
    have hrest := ih (d.type c)
    have hfirst := d.size_type c
    rw [typed_cons, List.length_cons]
    omega

theorem signs_type (d : Draft) (c : UInt8) :
    d.inputs ≤ (d.type c).inputs ∧ d.outputs ≤ (d.type c).outputs := by
  have hletters : (d.letters [c]).inputs = d.inputs ∧ (d.letters [c]).outputs = d.outputs := by
    obtain ⟨words, last, input, output, mode, inputs, outputs⟩ := d
    cases mode with
    | args => exact ⟨rfl, rfl⟩
    | input => exact ⟨rfl, rfl⟩
    | output => exact ⟨rfl, rfl⟩
  unfold type
  split
  · exact ⟨Nat.le_succ _, Nat.le_refl _⟩
  · split
    · exact ⟨Nat.le_refl _, Nat.le_succ _⟩
    · split
      · unfold spaced
        split
        · exact ⟨Nat.le_refl _, Nat.le_refl _⟩
        · exact ⟨Nat.le_refl _, Nat.le_refl _⟩
      · rw [hletters.1, hletters.2]
        exact ⟨Nat.le_refl _, Nat.le_refl _⟩

theorem signs_typed (d : Draft) (cs : List UInt8) :
    d.inputs ≤ (d.typed cs).inputs ∧ d.outputs ≤ (d.typed cs).outputs := by
  induction cs generalizing d with
  | nil => exact ⟨Nat.le_refl _, Nat.le_refl _⟩
  | cons c rest ih =>
    obtain ⟨hin, hout⟩ := d.signs_type c
    obtain ⟨hin', hout'⟩ := ih (d.type c)
    exact ⟨hin.trans hin', hout.trans hout'⟩

/-- A draft with arguments only. -/
def ofArgs (words : List (List UInt8)) (last : List UInt8) : Draft := ⟨words, last, [], [], .args, 0, 0⟩

theorem typed_further (words : List (List UInt8)) {last : List UInt8} (more : List (Nat × Word))
    (hlast : last ≠ []) : ∃ words' last', last' ≠ [] ∧
      (ofArgs words last).typed (further more) = ofArgs words' last' ∧
      words' ++ [last'] = words ++ last :: more.map fun m => m.2.chars := by
  induction more generalizing words last with
  | nil => exact ⟨words, last, hlast, rfl, rfl⟩
  | cons m rest ih =>
    obtain ⟨n, w⟩ := m
    have hspaced : (ofArgs words last).spaced = ofArgs (words ++ [last]) [] := by
      rw [spaced, if_pos ⟨hlast, rfl⟩]
      rfl
    have hword : (ofArgs (words ++ [last]) []).letters w.chars = ofArgs (words ++ [last]) w.chars := rfl
    obtain ⟨words', last', hlast', htyped, hargs⟩ :=
      ih (words ++ [last]) w.nonempty
    refine ⟨words', last', hlast', ?_, ?_⟩
    · rw [further, typed_append, typed_append, typed_spaces, if_neg (Nat.succ_ne_zero n), hspaced,
        typed_plain w.plain, hword, htyped]
    · rw [hargs, List.append_assoc]
      rfl

/-- Spaces that come or do not. -/
def gapped (d : Draft) (n : Nat) : Draft := if n = 0 then d else d.spaced

theorem gapped_of_mode (h : d.mode ≠ .args) (n : Nat) : d.gapped n = d := by
  rw [gapped, spaced_of_mode h, ite_self]

theorem last_gapped (hlast : d.last ≠ []) (hmode : d.mode = .args) (n : Nat) :
    (d.gapped n).last = [] ↔ n ≠ 0 := by
  unfold gapped
  by_cases hn : n = 0
  · rw [if_pos hn]
    exact ⟨fun h => absurd h hlast, fun h => absurd hn h⟩
  · rw [if_neg hn, spaced, if_pos ⟨hlast, hmode⟩]
    exact ⟨fun _ => hn, fun _ => rfl⟩

theorem typed_less (r : Redirect) : d.typed (signed less (some r)) =
    { d.gapped r.lead with
      mode := .input
      inputs := (d.gapped r.lead).inputs + 1
      input := (d.gapped r.lead).input ++ r.path.chars } := by
  have hsign : (d.gapped r.lead).type less =
      { d.gapped r.lead with mode := .input, inputs := (d.gapped r.lead).inputs + 1 } := by
    rw [type, if_pos rfl]
  rw [signed, typed_append, typed_spaces, ← gapped, typed_cons, hsign, typed_append, typed_spaces,
    spaced_of_mode (by simp), ite_self, typed_plain r.path.plain]
  rfl

theorem typed_greater (r : Redirect) : d.typed (signed greater (some r)) =
    { d.gapped r.lead with
      mode := .output
      outputs := (d.gapped r.lead).outputs + 1
      output := (d.gapped r.lead).output ++ r.path.chars } := by
  have hsign : (d.gapped r.lead).type greater =
      { d.gapped r.lead with mode := .output, outputs := (d.gapped r.lead).outputs + 1 } := by
    rw [type, if_neg (by decide), if_pos rfl]
  rw [signed, typed_append, typed_spaces, ← gapped, typed_cons, hsign, typed_append, typed_spaces,
    spaced_of_mode (by simp), ite_self, typed_plain r.path.plain]
  rfl

end

end Draft

/-- A space is behind the last argument. -/
def TypedCommand.gapped (c : TypedCommand) : Prop := c.ending.head? = some space

def pathChars (r : Option Redirect) : List UInt8 := (r.map fun r => r.path.chars).getD []

/-- How often a redirect is there. -/
def signs (r : Option Redirect) : Nat := if r.isSome then 1 else 0

/-- What the text of a command comes to. -/
structure Drafted (c : TypedCommand) (d : Draft) : Prop where
  args : d.args = c.args.map Word.chars
  last : d.last = [] ↔ c.gapped
  input : d.input = pathChars c.input
  output : d.output = pathChars c.output
  inputs : d.inputs = signs c.input
  outputs : d.outputs = signs c.output

/-- Text behind the arguments: it adds to the paths and signs. -/
structure Adds (d d' : Draft) (input output : List UInt8) (inputs outputs : Nat) : Prop where
  args : d'.args = d.args
  input : d'.input = d.input ++ input
  output : d'.output = d.output ++ output
  inputs : d'.inputs = d.inputs + inputs
  outputs : d'.outputs = d.outputs + outputs

theorem Adds.trans {d d' d'' : Draft} {i o i' o' : List UInt8} {n m n' m' : Nat}
    (h : Adds d d' i o n m) (h' : Adds d' d'' i' o' n' m') :
    Adds d d'' (i ++ i') (o ++ o') (n + n') (m + m') where
  args := h'.args.trans h.args
  input := by rw [h'.input, h.input, List.append_assoc]
  output := by rw [h'.output, h.output, List.append_assoc]
  inputs := by rw [h'.inputs, h.inputs, Nat.add_assoc]
  outputs := by rw [h'.outputs, h.outputs, Nat.add_assoc]

namespace Draft

theorem adds_gapped (d : Draft) (n : Nat) : Adds d (d.gapped n) [] [] 0 0 := by
  unfold gapped
  split
  · exact ⟨rfl, (List.append_nil _).symm, (List.append_nil _).symm, rfl, rfl⟩
  · have hargs : d.spaced.args = d.args := args_spaced
    unfold spaced at hargs ⊢
    split at hargs
    · rename_i hboth
      rw [if_pos hboth]
      exact ⟨hargs, (List.append_nil _).symm, (List.append_nil _).symm, rfl, rfl⟩
    · rename_i hnot
      rw [if_neg hnot]
      exact ⟨rfl, (List.append_nil _).symm, (List.append_nil _).symm, rfl, rfl⟩

theorem adds_less (d : Draft) (r : Option Redirect) :
    Adds d (d.typed (signed less r)) (pathChars r) [] (signs r) 0 := by
  cases r with
  | none => exact d.adds_gapped 0
  | some r =>
    have hspaces := d.adds_gapped r.lead
    have hpath : Adds (d.gapped r.lead) (d.typed (signed less (some r))) r.path.chars [] 1 0 := by
      rw [typed_less]
      exact ⟨rfl, rfl, (List.append_nil _).symm, rfl, rfl⟩
    exact hspaces.trans hpath

theorem adds_greater (d : Draft) (r : Option Redirect) :
    Adds d (d.typed (signed greater r)) [] (pathChars r) 0 (signs r) := by
  cases r with
  | none => exact d.adds_gapped 0
  | some r =>
    have hspaces := d.adds_gapped r.lead
    have hpath : Adds (d.gapped r.lead) (d.typed (signed greater (some r))) [] r.path.chars 0 1 := by
      rw [typed_greater]
      exact ⟨rfl, (List.append_nil _).symm, rfl, rfl, rfl⟩
    exact hspaces.trans hpath

theorem head?_spaces (n : Nat) {c : UInt8} (cs : List UInt8) (hc : c ≠ space) :
    (spaces n ++ c :: cs).head? = some space ↔ n ≠ 0 := by
  cases n with
  | zero => simp [spaces, hc]
  | succ n => simp [spaces, List.replicate_succ]

/-- Behind a sign nothing ends an argument any more. -/
theorem last_of_mode {d : Draft} (h : d.mode ≠ .args) (r : Option Redirect) (n : Nat) :
    ((d.typed (signed less r)).typed (spaces n)).last = d.last ∧
      ((d.typed (signed greater r)).typed (spaces n)).last = d.last := by
  have hspaces : ∀ d : Draft, d.mode ≠ .args → (d.typed (spaces n)).last = d.last := by
    intro d hd
    rw [typed_spaces, ← gapped, gapped_of_mode hd]
  cases r with
  | none => exact ⟨hspaces d h, hspaces d h⟩
  | some r =>
    constructor
    · rw [typed_less, hspaces _ (by simp), gapped_of_mode h]
    · rw [typed_greater, hspaces _ (by simp), gapped_of_mode h]

theorem last_ending {d : Draft} (c : TypedCommand) (hlast : d.last ≠ []) (hmode : d.mode = .args) :
    (d.typed c.ending).last = [] ↔ c.gapped := by
  obtain ⟨lead, first, more, input, output, outputFirst, trail⟩ := c
  have hempty : (d.typed (spaces trail)).last = [] ↔ (spaces trail).head? = some space := by
    rw [typed_spaces, ← gapped, last_gapped hlast hmode]
    cases trail with
    | zero => simp [spaces]
    | succ n => simp [spaces, List.replicate_succ]
  have hin : ∀ r : Redirect, ∀ cs, ((d.typed (signed less (some r))).last = [] ↔
      (signed less (some r) ++ cs).head? = some space) ∧
        (d.typed (signed less (some r))).mode ≠ .args := by
    intro r cs
    rw [typed_less, signed, List.append_assoc, List.cons_append, head?_spaces _ _ (by decide)]
    exact ⟨last_gapped hlast hmode r.lead, by simp⟩
  have hout : ∀ r : Redirect, ∀ cs, ((d.typed (signed greater (some r))).last = [] ↔
      (signed greater (some r) ++ cs).head? = some space) ∧
        (d.typed (signed greater (some r))).mode ≠ .args := by
    intro r cs
    rw [typed_greater, signed, List.append_assoc, List.cons_append, head?_spaces _ _ (by decide)]
    exact ⟨last_gapped hlast hmode r.lead, by simp⟩
  unfold TypedCommand.gapped TypedCommand.ending TypedCommand.redirects
  cases outputFirst with
  | false =>
    simp only [Bool.false_eq_true, if_false, List.append_assoc]
    cases input with
    | none =>
      rw [signed, List.nil_append]
      cases output with
      | none => exact hempty
      | some o =>
        obtain ⟨hhead, hpath⟩ := hout o (spaces trail)
        rw [← hhead, typed_append]
        have hnone := (last_of_mode hpath none trail).1
        rw [signed, typed_nil] at hnone
        rw [hnone]
    | some i =>
      obtain ⟨hhead, hpath⟩ := hin i (signed greater output ++ spaces trail)
      rw [← hhead, typed_append, typed_append, (last_of_mode hpath output trail).2]
  | true =>
    simp only [if_true, List.append_assoc]
    cases output with
    | none =>
      rw [signed, List.nil_append]
      cases input with
      | none => exact hempty
      | some i =>
        obtain ⟨hhead, hpath⟩ := hin i (spaces trail)
        rw [← hhead, typed_append]
        have hnone := (last_of_mode hpath none trail).1
        rw [signed, typed_nil] at hnone
        rw [hnone]
    | some o =>
      obtain ⟨hhead, hpath⟩ := hout o (signed less input ++ spaces trail)
      rw [← hhead, typed_append, typed_append, (last_of_mode hpath input trail).1]

theorem drafted_ending {c : TypedCommand} {words : List (List UInt8)} {last : List UInt8}
    (hlast : last ≠ []) (hargs : words ++ [last] = c.args.map Word.chars) :
    Drafted c ((ofArgs words last).typed c.ending) := by
  have hstart : (ofArgs words last).args = c.args.map Word.chars := (if_neg hlast).trans hargs
  have hfinal := last_ending c (d := ofArgs words last) hlast rfl
  have hadds : Adds (ofArgs words last) ((ofArgs words last).typed c.ending) (pathChars c.input)
      (pathChars c.output) (signs c.input) (signs c.output) := by
    rw [TypedCommand.ending, typed_append, typed_spaces, ← gapped, TypedCommand.redirects]
    split
    · rw [typed_append]
      simpa using ((adds_greater _ c.output).trans (adds_less _ c.input)).trans (adds_gapped _ c.trail)
    · rw [typed_append]
      simpa using ((adds_less _ c.input).trans (adds_greater _ c.output)).trans (adds_gapped _ c.trail)
  exact ⟨hadds.args.trans hstart, hfinal, hadds.input, hadds.output,
    hadds.inputs.trans (Nat.zero_add _), hadds.outputs.trans (Nat.zero_add _)⟩

theorem drafted (c : TypedCommand) : Drafted c (empty.typed c.text) := by
  have hlead : empty.typed (spaces c.lead) = ofArgs [] [] := by
    rw [typed_spaces]
    split
    · rfl
    · rfl
  have hfirst : (ofArgs [] []).letters c.first.chars = ofArgs [] c.first.chars := rfl
  obtain ⟨words, last, hlast, htyped, hargs⟩ :=
    typed_further [] c.more c.first.nonempty
  rw [TypedCommand.text, typed_append, typed_append, typed_append, hlead, typed_plain c.first.plain,
    hfirst, htyped]
  apply drafted_ending hlast
  rw [hargs, TypedCommand.args, List.map_cons, List.map_map]
  rfl

end Draft

end OSChallenges.Shell
