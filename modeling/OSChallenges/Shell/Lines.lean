import OSChallenges.Shell.Model

/-!
# Lines as they are typed

A pipeline together with the spaces that somebody has typed around its words and signs, and the line
that this makes.
-/

namespace OSChallenges.Shell

/-- A character that can be in a word. -/
def Plain (c : UInt8) : Prop :=
  c ≠ 0 ∧ c ≠ newline ∧ c ≠ space ∧ c ≠ ampersand ∧ c ≠ less ∧ c ≠ greater ∧ c ≠ bar

instance (c : UInt8) : Decidable (Plain c) := inferInstanceAs (Decidable (_ ∧ _))

/-- An argument or a path. -/
structure Word where
  chars : List UInt8
  nonempty : chars ≠ []
  plain : ∀ c ∈ chars, Plain c

theorem plain_of_all {cs : List UInt8} (h : cs.all (fun c => decide (Plain c)) = true) :
    ∀ c ∈ cs, Plain c := by
  intro c hc
  exact of_decide_eq_true (List.all_eq_true.mp h c hc)

/-- A path with the numbers of spaces before and behind its sign. -/
structure Redirect where
  lead : Nat
  gap : Nat
  path : Word

/-- A command: each further argument comes with the number of spaces before it, less one, and the
redirects are in either order. -/
structure TypedCommand where
  lead : Nat
  first : Word
  more : List (Nat × Word)
  input : Option Redirect
  output : Option Redirect
  outputFirst : Bool
  trail : Nat

/-- A pipeline: only the first command can have an input path, only the last one an output path. -/
structure TypedLine where
  commands : List TypedCommand
  background : Bool
  nonempty : commands ≠ []
  inputFirst : ∀ c ∈ commands.tail, c.input = none
  outputLast : ∀ c ∈ commands.dropLast, c.output = none

/-! ### The text -/

def spaces (n : Nat) : List UInt8 := List.replicate n space

/-- A sign with its path, if there is one. -/
def signed (sign : UInt8) : Option Redirect → List UInt8
  | none => []
  | some r => spaces r.lead ++ sign :: (spaces r.gap ++ r.path.chars)

def further : List (Nat × Word) → List UInt8
  | [] => []
  | (n, w) :: rest => spaces (n + 1) ++ w.chars ++ further rest

namespace TypedCommand

def args (c : TypedCommand) : List Word := c.first :: c.more.map Prod.snd

def redirects (c : TypedCommand) : List UInt8 :=
  if c.outputFirst then signed greater c.output ++ signed less c.input
  else signed less c.input ++ signed greater c.output

/-- What is behind the last argument. -/
def ending (c : TypedCommand) : List UInt8 := c.redirects ++ spaces c.trail

def text (c : TypedCommand) : List UInt8 :=
  spaces c.lead ++ c.first.chars ++ further c.more ++ c.ending

end TypedCommand

/-- A character inside a command. -/
def Inner (c : UInt8) : Prop := c ≠ newline ∧ c ≠ ampersand ∧ c ≠ bar

instance (c : UInt8) : Decidable (Inner c) := inferInstanceAs (Decidable (_ ∧ _))

theorem Word.inner (w : Word) : ∀ c ∈ w.chars, Inner c := by
  intro c hc
  obtain ⟨-, hnewline, -, hamp, -, -, hbar⟩ := w.plain c hc
  exact ⟨hnewline, hamp, hbar⟩

theorem inner_spaces (n : Nat) : ∀ c ∈ spaces n, Inner c := by
  intro c hc
  rw [List.eq_of_mem_replicate hc]
  decide

theorem inner_signed {sign : UInt8} (hsign : Inner sign) (r : Option Redirect) :
    ∀ c ∈ signed sign r, Inner c := by
  cases r with
  | none =>
    intro c hc
    cases hc
  | some r =>
    rw [signed, List.forall_mem_append, List.forall_mem_cons, List.forall_mem_append]
    exact ⟨inner_spaces _, hsign, inner_spaces _, r.path.inner⟩

theorem inner_further (more : List (Nat × Word)) : ∀ c ∈ further more, Inner c := by
  induction more with
  | nil =>
    intro c hc
    cases hc
  | cons m rest ih =>
    rw [further, List.forall_mem_append, List.forall_mem_append]
    exact ⟨⟨inner_spaces _, m.2.inner⟩, ih⟩

theorem TypedCommand.inner (c : TypedCommand) : ∀ ch ∈ c.text, Inner ch := by
  have hredirects : ∀ ch ∈ c.redirects, Inner ch := by
    unfold redirects
    split
    · exact List.forall_mem_append.mpr ⟨inner_signed (by decide) _, inner_signed (by decide) _⟩
    · exact List.forall_mem_append.mpr ⟨inner_signed (by decide) _, inner_signed (by decide) _⟩
  rw [text, ending, List.forall_mem_append, List.forall_mem_append, List.forall_mem_append,
    List.forall_mem_append]
  exact ⟨⟨⟨inner_spaces _, c.first.inner⟩, inner_further _⟩, hredirects, inner_spaces _⟩

theorem TypedCommand.text_ne_nil (c : TypedCommand) : c.text ≠ [] := by
  have hfirst := c.first.nonempty
  simp [text, hfirst]

/-- Commands with bars between them. -/
def barred : List TypedCommand → List UInt8
  | [] => []
  | [c] => c.text
  | c :: d :: rest => c.text ++ bar :: barred (d :: rest)

/-- The line, with its newline. -/
def TypedLine.text (l : TypedLine) : List UInt8 :=
  barred l.commands ++ ((if l.background then [ampersand] else []) ++ [newline])

end OSChallenges.Shell
