import Mathlib.Tactic.ByContra

/-!
# Runs of a transition system

A run is the list of its steps: each entry is an action and the state it leads to. Recursion on
that list gives every notion below: what holds in each state of a run, what holds of each step of
it, and the rules that lift a fact about one step to every run.
-/

namespace Runs

universe u v w

variable {σ : Type u} {α : Type v}

/-- Every step of a run, as the state it starts from, its action and the state it leads to. -/
def EachStep (R : σ → α → σ → Prop) : σ → List (α × σ) → Prop
  | _, [] => True
  | s, (a, s') :: rest => R s a s' ∧ EachStep R s' rest

/-- `P` holds in every state of a run, the first one included. -/
def Always (P : σ → Prop) : σ → List (α × σ) → Prop
  | s, [] => P s
  | s, (_, s') :: rest => P s ∧ Always P s' rest

/-- The state in which a run ends. -/
def last : σ → List (α × σ) → σ
  | s, [] => s
  | _, (_, s') :: rest => last s' rest

/-- There is a run from one state to the other. -/
def Reaches (R : σ → α → σ → Prop) (s s' : σ) : Prop := ∃ run, EachStep R s run ∧ last s run = s'

/-- What is kept in mind along a run and brought up to date by each step. -/
def carry {γ : Type w} (f : γ → σ → α → γ) : γ → σ → List (α × σ) → γ
  | g, _, [] => g
  | g, s, (a, s') :: rest => carry f (f g s a) s' rest

/-- The steps that a list of actions makes, up to the first one the system does not allow. -/
def trail {ε : Type w} (f : σ → α → Except ε σ) : σ → List α → List (α × σ)
  | _, [] => []
  | s, a :: rest =>
    match f s a with
    | .ok s' => (a, s') :: trail f s' rest
    | .error _ => []

/-- What holds each time an action is tried, up to the first one the system does not allow. -/
def EachTry {ε : Type w} (f : σ → α → Except ε σ) (C : σ → α → Prop) : σ → List α → Prop
  | _, [] => True
  | s, a :: rest => C s a ∧
    match f s a with
    | .ok s' => EachTry f C s' rest
    | .error _ => True

instance EachStep.decidable (R : σ → α → σ → Prop) [h : ∀ s a s', Decidable (R s a s')] :
    (s : σ) → (run : List (α × σ)) → Decidable (EachStep R s run)
  | _, [] => isTrue trivial
  | s, (a, s') :: rest => @instDecidableAnd _ _ (h s a s') (EachStep.decidable R s' rest)

instance EachTry.decidable {ε : Type w} (f : σ → α → Except ε σ) (C : σ → α → Prop)
    [h : ∀ s a, Decidable (C s a)] : (s : σ) → (actions : List α) → Decidable (EachTry f C s actions)
  | _, [] => isTrue trivial
  | s, a :: rest => @instDecidableAnd _ _ (h s a) (match f s a with
    | .ok s' => EachTry.decidable f C s' rest
    | .error _ => isTrue trivial)

instance Always.decidable (P : σ → Prop) [h : ∀ s, Decidable (P s)] :
    (s : σ) → (run : List (α × σ)) → Decidable (Always P s run)
  | s, [] => h s
  | s, (_, s') :: rest => @instDecidableAnd _ _ (h s) (Always.decidable P s' rest)

variable {R Q C : σ → α → σ → Prop} {P I : σ → Prop}

theorem eachStep_trail {ε : Type w} (f : σ → α → Except ε σ) (s : σ) (actions : List α) :
    EachStep (fun s a s' => f s a = .ok s') s (trail f s actions) := by
  induction actions generalizing s with
  | nil => trivial
  | cons a rest ih =>
    rw [trail]
    split
    · rename_i s' h
      exact ⟨h, ih s'⟩
    · trivial

theorem eachStep_trail_forall {ε : Type w} {f : σ → α → Except ε σ} {A : α → Prop} {s : σ}
    {actions : List α} (h : ∀ a ∈ actions, A a) :
    EachStep (fun s a s' => A a ∧ f s a = .ok s') s (trail f s actions) := by
  induction actions generalizing s with
  | nil => trivial
  | cons a rest ih =>
    obtain ⟨ha, hrest⟩ := List.forall_mem_cons.mp h
    rw [trail]
    split
    · rename_i s' hstep
      exact ⟨⟨ha, hstep⟩, ih hrest⟩
    · trivial

theorem Always.head {s : σ} {run : List (α × σ)} (h : Always P s run) : P s := by
  cases run with
  | nil => exact h
  | cons entry rest => exact h.1

theorem Always.last {s : σ} {run : List (α × σ)} (h : Always P s run) : P (last s run) := by
  induction run generalizing s with
  | nil => exact h
  | cons entry rest ih => exact ih h.2

theorem Always.mono (himp : ∀ s, P s → I s) {s : σ} {run : List (α × σ)}
    (h : Always P s run) : Always I s run := by
  induction run generalizing s with
  | nil => exact himp _ h
  | cons entry rest ih => exact ⟨himp _ h.1, ih h.2⟩

theorem EachStep.mono (himp : ∀ s a s', R s a s' → Q s a s') {s : σ} {run : List (α × σ)}
    (h : EachStep R s run) : EachStep Q s run := by
  induction run generalizing s with
  | nil => trivial
  | cons entry rest ih => exact ⟨himp _ _ _ h.1, ih h.2⟩

theorem EachStep.and {s : σ} {run : List (α × σ)} (hR : EachStep R s run)
    (hQ : EachStep Q s run) : EachStep (fun s a s' => R s a s' ∧ Q s a s') s run := by
  induction run generalizing s with
  | nil => trivial
  | cons entry rest ih => exact ⟨⟨hR.1, hQ.1⟩, ih hR.2 hQ.2⟩

theorem Always.eachStep {s : σ} {run : List (α × σ)} (h : Always P s run) :
    EachStep (fun s _ s' => P s ∧ P s') s run := by
  induction run generalizing s with
  | nil => trivial
  | cons entry rest ih => exact ⟨⟨h.1, h.2.head⟩, ih h.2⟩

/-- The invariant rule: what every step of a run preserves holds in every state of it. -/
theorem EachStep.always (hstep : ∀ s a s', I s → R s a s' → I s') {s : σ}
    {run : List (α × σ)} (hs : I s) (h : EachStep R s run) : Always I s run := by
  induction run generalizing s with
  | nil => exact hs
  | cons entry rest ih => exact ⟨hs, ih (hstep _ _ _ hs h.1) h.2⟩

/-- A run goes on. -/
theorem EachStep.concat {s s' : σ} {a : α} {run : List (α × σ)} (h : EachStep R s run)
    (hstep : R (last s run) a s') : EachStep R s (run ++ [(a, s')]) := by
  induction run generalizing s with
  | nil => exact ⟨hstep, trivial⟩
  | cons entry rest ih => exact ⟨h.1, ih h.2 hstep⟩

theorem last_concat (s s' : σ) (a : α) (run : List (α × σ)) : last s (run ++ [(a, s')]) = s' := by
  induction run generalizing s with
  | nil => rfl
  | cons entry rest ih => exact ih entry.2

theorem Reaches.refl (s : σ) : Reaches R s s := ⟨[], trivial, rfl⟩

theorem Reaches.tail {s m s' : σ} {a : α} (h : Reaches R s m) (hstep : R m a s') : Reaches R s s' := by
  obtain ⟨run, hrun, rfl⟩ := h
  exact ⟨run ++ [(a, s')], hrun.concat hstep, last_concat s s' a run⟩

/-- What is so in every run from a state is so where a run leads. -/
theorem Reaches.of_always {s s' : σ} (h : Reaches R s s')
    (halways : ∀ run, EachStep R s run → Always P s run) : P s' := by
  obtain ⟨run, hrun, rfl⟩ := h
  exact (halways run hrun).last

/-- What every step brings up to date together with the state is so at the end of a run. -/
theorem EachStep.carry {γ : Type w} {f : γ → σ → α → γ} {J : γ → σ → Prop}
    (hstep : ∀ g s a s', J g s → R s a s' → J (f g s a) s') {g : γ} {s : σ} {run : List (α × σ)}
    (hs : J g s) (h : EachStep R s run) : J (carry f g s run) (Runs.last s run) := by
  induction run generalizing g s with
  | nil => exact hs
  | cons entry rest ih => exact ih (hstep _ _ _ _ hs h.1) h.2

/-- A property of steps gives another one where an invariant says so, if steps with the other one
preserve the invariant. -/
theorem EachStep.of_inv (hstep : ∀ s a s', I s → C s a s' → R s a s' → I s')
    (himp : ∀ s a s', I s → Q s a s' → R s a s' → C s a s') {s : σ} {run : List (α × σ)}
    (hs : I s) (h : EachStep R s run) (hQ : EachStep Q s run) : EachStep C s run := by
  induction run generalizing s with
  | nil => trivial
  | cons entry rest ih =>
    have hC := himp _ _ _ hs hQ.1 h.1
    exact ⟨hC, ih (hstep _ _ _ hs hC h.1) h.2 hQ.2⟩

/-- The same for actions that are tried: what is said of each try, and an invariant that the tries of
which it is said preserve, say something else of each. -/
theorem EachTry.of_inv {ε : Type w} {f : σ → α → Except ε σ} {C Q : σ → α → Prop} {A : α → Prop}
    (hstep : ∀ s a s', I s → A a → C s a → f s a = .ok s' → I s')
    (himp : ∀ s a, I s → A a → C s a → Q s a) {s : σ} {actions : List α} (hs : I s)
    (hA : ∀ a ∈ actions, A a) (h : EachTry f C s actions) : EachTry f Q s actions := by
  induction actions generalizing s with
  | nil => trivial
  | cons a rest ih =>
    obtain ⟨ha, hrest⟩ := List.forall_mem_cons.mp hA
    obtain ⟨hC, hnext⟩ := h
    refine ⟨himp s a hs ha hC, ?_⟩
    cases hf : f s a with
    | error e => trivial
    | ok s' =>
      rw [hf] at hnext
      exact ih (hstep s a s' hs ha hC hf) hrest hnext

/-- The invariant rule for actions that are tried. -/
theorem EachTry.always {ε : Type w} {f : σ → α → Except ε σ} {C : σ → α → Prop} {A : α → Prop}
    (hstep : ∀ s a s', I s → A a → C s a → f s a = .ok s' → I s') {s : σ} {actions : List α} (hs : I s)
    (hA : ∀ a ∈ actions, A a) (h : EachTry f C s actions) : Always I s (trail f s actions) := by
  induction actions generalizing s with
  | nil => exact hs
  | cons a rest ih =>
    obtain ⟨ha, hrest⟩ := List.forall_mem_cons.mp hA
    obtain ⟨hC, hnext⟩ := h
    rw [trail]
    cases hf : f s a with
    | error e => exact hs
    | ok s' =>
      rw [hf] at hnext
      exact ⟨hs, ih (hstep s a s' hs ha hC hf) hrest hnext⟩

/-- The exact condition of a property of runs: when steps that meet `C` preserve an invariant that
gives `P`, and a step from the invariant that does not meet `C` ends outside `P`, a run stays in `P`
exactly when all its steps meet `C`. -/
theorem always_iff_eachStep (hinv : ∀ s, I s → P s)
    (hstep : ∀ s a s', I s → C s a s' → R s a s' → I s')
    (hbreak : ∀ s a s', I s → ¬ C s a s' → R s a s' → ¬ P s') {s : σ} {run : List (α × σ)}
    (hs : I s) (h : EachStep R s run) : Always P s run ↔ EachStep C s run := by
  constructor
  · intro halways
    induction run generalizing s with
    | nil => trivial
    | cons entry rest ih =>
      have hmeets : C s entry.1 entry.2 := by
        by_contra hnot
        exact hbreak _ _ _ hs hnot h.1 halways.2.head
      exact ⟨hmeets, ih (hstep _ _ _ hs hmeets h.1) h.2 halways.2⟩
  · intro hsteps
    exact (EachStep.always (fun s a s' hs h => hstep s a s' hs h.2 h.1) hs (h.and hsteps)).mono hinv

/-- The same for a property of steps. -/
theorem eachStep_iff_eachStep (hstep : ∀ s a s', I s → C s a s' → R s a s' → I s' ∧ Q s a s')
    (hbreak : ∀ s a s', I s → ¬ C s a s' → R s a s' → ¬ Q s a s') {s : σ} {run : List (α × σ)}
    (hs : I s) (h : EachStep R s run) : EachStep Q s run ↔ EachStep C s run := by
  induction run generalizing s with
  | nil => exact Iff.rfl
  | cons entry rest ih =>
    constructor
    · rintro ⟨hQ, hrest⟩
      have hmeets : C s entry.1 entry.2 := by
        by_contra hnot
        exact hbreak _ _ _ hs hnot h.1 hQ
      exact ⟨hmeets, (ih (hstep _ _ _ hs hmeets h.1).1 h.2).mp hrest⟩
    · rintro ⟨hmeets, hrest⟩
      obtain ⟨hnext, hQ⟩ := hstep _ _ _ hs hmeets h.1
      exact ⟨hQ, (ih hnext h.2).mpr hrest⟩

end Runs
