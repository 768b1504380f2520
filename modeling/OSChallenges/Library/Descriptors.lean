import Mathlib.Data.Nat.Find
import Mathlib.Logic.Function.Basic

/-!
# Tables of descriptors

What the descriptors of a process stand for, and what `open`, `close`, `dup2` and `pipe` do to them. A
new descriptor is the lowest one that is closed.
-/

namespace Descriptors

universe u

/-- The descriptors of a process; those that are closed stand for nothing. -/
abbrev Table (τ : Type u) := Nat → Option τ

namespace Table

variable {τ : Type u}

def close (t : Table τ) (fd : Nat) : Table τ := Function.update t fd none

/-- A descriptor stands for something from now on. -/
def put (t : Table τ) (fd : Nat) (target : τ) : Table τ := Function.update t fd (some target)

/-- Nothing happens if `old` is closed. -/
def dup2 (t : Table τ) (old new : Nat) : Table τ :=
  match t old with
  | some target => t.put new target
  | none => t

/-- The lowest descriptor that is closed. -/
def IsLowest (t : Table τ) (fd : Nat) : Prop := t fd = none ∧ ∀ x < fd, t x ≠ none

/-- These are the two lowest descriptors that are closed, in any order. -/
def AreLowest (t : Table τ) (fd fd' : Nat) : Prop :=
  fd ≠ fd' ∧ t fd = none ∧ t fd' = none ∧ ∀ x < max fd fd', t x = none → x = fd ∨ x = fd'

instance [DecidableEq τ] (t : Table τ) (fd : Nat) : Decidable (t.IsLowest fd) :=
  inferInstanceAs (Decidable (t fd = none ∧ ∀ x < fd, t x ≠ none))

instance [DecidableEq τ] (t : Table τ) (fd fd' : Nat) : Decidable (t.AreLowest fd fd') :=
  inferInstanceAs (Decidable (fd ≠ fd' ∧ t fd = none ∧ t fd' = none ∧
    ∀ x < max fd fd', t x = none → x = fd ∨ x = fd'))

/-- Both ends of a pipe. -/
def pipe (t : Table τ) (readEnd writeEnd : τ) (fd fd' : Nat) : Table τ :=
  (t.put fd readEnd).put fd' writeEnd

variable {t : Table τ} {target : τ} {fd std x : Nat}

theorem put_self (t : Table τ) (fd : Nat) (target : τ) : t.put fd target fd = some target :=
  Function.update_self ..

theorem put_of_ne (h : x ≠ fd) : t.put fd target x = t x := Function.update_of_ne h ..

theorem close_self (t : Table τ) (fd : Nat) : t.close fd fd = none := Function.update_self ..

theorem close_of_ne (h : x ≠ fd) : t.close fd x = t x := Function.update_of_ne h ..

theorem IsLowest.ne (h : t.IsLowest fd) (hx : t x ≠ none) : fd ≠ x := by
  rintro rfl
  exact hx h.1

theorem close_apply (t : Table τ) (fd x : Nat) : t.close fd x = if x = fd then none else t x :=
  Function.update_apply ..

theorem put_apply (t : Table τ) (fd : Nat) (target : τ) (x : Nat) :
    t.put fd target x = if x = fd then some target else t x :=
  Function.update_apply ..

theorem dup2_apply {old : Nat} (h : t old = some target) (new x : Nat) :
    t.dup2 old new x = if x = new then some target else t x := by
  rw [dup2, h]
  exact put_apply ..

theorem dup2_closed {old : Nat} (h : t old = none) (new : Nat) : t.dup2 old new = t := by
  rw [dup2, h]

theorem pipe_apply (t : Table τ) (readEnd writeEnd : τ) (fd fd' x : Nat) :
    t.pipe readEnd writeEnd fd fd' x =
      if x = fd' then some writeEnd else if x = fd then some readEnd else t x := by
  rw [pipe, put_apply, put_apply]

theorem close_dup2 (h : t fd = some target) (hne : fd ≠ std) :
    (t.close std).dup2 fd std = t.put std target := by
  have hfd : t.close std fd = some target := (close_of_ne hne).trans h
  rw [dup2, hfd]
  exact Function.update_idem ..

/-- What has been opened and then moved is in its new place alone. -/
theorem open_move (h : t.IsLowest fd) (hne : fd ≠ std) :
    (((t.put fd target).close std).dup2 fd std).close fd = t.put std target := by
  rw [close_dup2 (put_self t fd target) hne]
  funext x
  by_cases hx : x = fd
  · rw [hx, close_self, put_of_ne hne, h.1]
  · rw [close_of_ne hx]
    by_cases hstd : x = std
    · rw [hstd, put_self, put_self]
    · rw [put_of_ne hstd, put_of_ne hstd, put_of_ne hx]

theorem close_write_pipe {readEnd writeEnd : τ} {fd' : Nat} (h : t.AreLowest fd fd') :
    (t.pipe readEnd writeEnd fd fd').close fd' = t.put fd readEnd := by
  obtain ⟨hne, -, hclosed, -⟩ := h
  funext x
  rw [close_apply, pipe_apply, put_apply]
  split
  · rename_i hx
    rw [hx, if_neg hne.symm, hclosed]
  · rfl

/-- A pipe whose ends have both been closed has never been there. -/
theorem close_pipe {readEnd writeEnd : τ} {fd' : Nat} (h : t.AreLowest fd fd') :
    ((t.pipe readEnd writeEnd fd fd').close fd').close fd = t := by
  rw [close_write_pipe h]
  funext x
  rw [close_apply, put_apply]
  split
  · rename_i hx
    rw [hx]
    exact h.2.1.symm
  · rfl

/-- If there are descriptors enough, `pipe` finds two, the lower one first. -/
theorem exists_areLowest (h : ∀ low, ∃ fd, low ≤ fd ∧ t fd = none) :
    ∃ fd fd', t.AreLowest fd fd' ∧ fd < fd' := by
  classical
  obtain ⟨-, hclosed⟩ := Nat.find_spec (h 0)
  obtain ⟨hlt, hclosed'⟩ := Nat.find_spec (h (Nat.find (h 0) + 1))
  refine ⟨Nat.find (h 0), Nat.find (h (Nat.find (h 0) + 1)), ⟨Nat.ne_of_lt hlt, hclosed, hclosed', ?_⟩, hlt⟩
  intro x hx hnone
  rw [Nat.max_eq_right (Nat.le_of_lt hlt)] at hx
  obtain hle | hgt := Nat.lt_or_ge (Nat.find (h 0)) x
  · exact absurd ⟨hle, hnone⟩ (Nat.find_min (h (Nat.find (h 0) + 1)) hx)
  · exact .inl (Nat.le_antisymm hgt (Nat.find_min' (h 0) ⟨Nat.zero_le x, hnone⟩))

end Table

end Descriptors
