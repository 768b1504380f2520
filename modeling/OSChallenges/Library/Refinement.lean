import OSChallenges.Library.Outcomes

/-!
# Refinement between machines

A machine takes one action after the other and answers each; the machine of the code can fail, the one that
says what the answers mean cannot, but it does not allow every action. If each allowed action takes related
states to related states with the same answer, then so does every list of allowed actions, and nothing fails
on the way.
-/

namespace Refinement

open Outcomes

universe u v w

variable {ε : Type w} {σ τ α : Type u} {β : Type u}

/-- The answers to a list of actions, and the state after them. -/
def answers (step : σ → α → Except ε (β × σ)) : σ → List α → Except ε (List β × σ)
  | s, [] => .ok ([], s)
  | s, a :: rest => do
    let (b, s) ← step s a
    let (bs, s) ← answers step s rest
    return (b :: bs, s)

/-- The same for a machine that cannot fail. -/
def replay (next : τ → α → β × τ) : τ → List α → List β × τ
  | t, [] => ([], t)
  | t, a :: rest =>
    let (b, t) := next t a
    let (bs, t) := replay next t rest
    (b :: bs, t)

/-- What holds of each action in the state it meets. -/
def Each (next : τ → α → β × τ) (P : τ → α → Prop) : τ → List α → Prop
  | _, [] => True
  | t, a :: rest => P t a ∧ Each next P (next t a).2 rest

instance Each.decidable (next : τ → α → β × τ) (P : τ → α → Prop) [h : ∀ t a, Decidable (P t a)] :
    (t : τ) → (actions : List α) → Decidable (Each next P t actions)
  | _, [] => isTrue trivial
  | t, a :: rest => @instDecidableAnd _ _ (h t a) (Each.decidable next P (next t a).2 rest)

/-- Each allowed action succeeds with the answer it should have, and the states stay related. -/
def Refines (step : σ → α → Except ε (β × σ)) (next : τ → α → β × τ) (allows : τ → α → Prop)
    (R : σ → τ → Prop) : Prop :=
  ∀ s t a, R s t → allows t a → ∃ s', step s a = .ok ((next t a).1, s') ∧ R s' (next t a).2

variable {step : σ → α → Except ε (β × σ)} {next : τ → α → β × τ} {allows P Q : τ → α → Prop}
  {R : σ → τ → Prop} {s : σ} {t : τ} {actions more : List α}

/-- The rule for lists of actions. -/
theorem Refines.answers (h : Refines step next allows R) (hrel : R s t)
    (hall : Each next allows t actions) :
    ∃ s', answers step s actions = .ok ((replay next t actions).1, s') ∧
      R s' (replay next t actions).2 := by
  induction actions generalizing s t with
  | nil => exact ⟨s, rfl, hrel⟩
  | cons a rest ih =>
    obtain ⟨s₁, hstep, hrel₁⟩ := h s t a hrel hall.1
    obtain ⟨s₂, hrest, hrel₂⟩ := ih hrel₁ hall.2
    refine ⟨s₂, ?_, hrel₂⟩
    simp only [Refinement.answers, hstep, ok_bind, hrest]
    rfl

theorem answers_append {bs cs : List β} {s₁ s₂ : σ} (h : answers step s actions = .ok (bs, s₁))
    (h' : answers step s₁ more = .ok (cs, s₂)) : answers step s (actions ++ more) = .ok (bs ++ cs, s₂) := by
  induction actions generalizing s bs with
  | nil =>
    cases h
    exact h'
  | cons a rest ih =>
    obtain ⟨⟨b, s'⟩, hstep, h⟩ := ok_of_bind h
    obtain ⟨⟨bs', s''⟩, hrest, h⟩ := ok_of_bind h
    cases ok_of_pure h
    simp only [List.cons_append, answers, hstep, ok_bind, ih hrest]
    rfl

theorem replay_append : replay next t (actions ++ more) =
    ((replay next t actions).1 ++ (replay next (replay next t actions).2 more).1,
      (replay next (replay next t actions).2 more).2) := by
  induction actions generalizing t with
  | nil => rfl
  | cons a rest ih =>
    simp only [List.cons_append, replay, ih]

theorem Each.append : Each next P t (actions ++ more) ↔
    Each next P t actions ∧ Each next P (replay next t actions).2 more := by
  induction actions generalizing t with
  | nil => exact (and_iff_right trivial).symm
  | cons a rest ih =>
    simp only [List.cons_append, Each, replay, ih, and_assoc]

theorem Each.and (hP : Each next P t actions) (hQ : Each next Q t actions) :
    Each next (fun t a => P t a ∧ Q t a) t actions := by
  induction actions generalizing t with
  | nil => trivial
  | cons a rest ih => exact ⟨⟨hP.1, hQ.1⟩, ih hP.2 hQ.2⟩

theorem Each.of_forall {A : α → Prop} (h : ∀ a ∈ actions, A a) : Each next (fun _ a => A a) t actions := by
  induction actions generalizing t with
  | nil => trivial
  | cons a rest ih =>
    obtain ⟨ha, hrest⟩ := List.forall_mem_cons.mp h
    exact ⟨ha, ih hrest⟩

/-- The invariant rule. -/
theorem Each.keeps {I : τ → Prop} (hstep : ∀ t a, I t → P t a → I (next t a).2) (hI : I t)
    (h : Each next P t actions) : I (replay next t actions).2 := by
  induction actions generalizing t with
  | nil => exact hI
  | cons a rest ih => exact ih (hstep t a hI h.1) h.2

end Refinement
