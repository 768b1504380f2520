/-!
# Programs as trees of atomic operations

A program is a result, or an operation with what follows for each answer. `run` executes it without
interruption against a state; the same tree, taken one operation at a time, is what a scheduler
interleaves with other programs. `wp` folds a rule for each operation over the tree: with `total` it
says that the run ends and meets its postcondition, and with a rule over some other state it is an
abstract interpretation of the program.
-/

namespace Program

universe u v w

/-- Programs over operations `O` with answers `Res`. -/
inductive Prog {O : Type u} (Res : O → Type v) (α : Type w) : Type (max u v w)
  | ret (a : α)
  | op (o : O) (k : Res o → Prog Res α)

variable {O : Type u} {Res : O → Type v} {α β : Type w} {σ : Type v} {ε : Type v}

/-- What a postcondition requires before an operation. -/
abbrev Rule (Res : O → Type v) (σ : Type v) : Type (max u v) :=
  (o : O) → (Res o → σ → Prop) → σ → Prop

/-- The operation succeeds and meets the postcondition. -/
def total (exec : (o : O) → σ → Except ε (Res o × σ)) : Rule Res σ := fun o Q s =>
  ∃ r s', exec o s = .ok (r, s') ∧ Q r s'

namespace Prog

def bind : Prog Res α → (α → Prog Res β) → Prog Res β
  | .ret a, f => f a
  | .op o k, f => .op o fun r => (k r).bind f

instance : Monad (Prog Res) where
  pure := .ret
  bind := Prog.bind

/-- One operation. -/
def perform (o : O) : Prog Res (Res o) := .op o .ret

/-- A program without interruption. -/
def run (exec : (o : O) → σ → Except ε (Res o × σ)) : Prog Res α → σ → Except ε (α × σ)
  | .ret a, s => .ok (a, s)
  | .op o k, s =>
    match exec o s with
    | .error e => .error e
    | .ok (r, s') => (k r).run exec s'

/-- The weakest precondition of a program for a postcondition. -/
def wp (rule : Rule Res σ) : Prog Res α → (α → σ → Prop) → σ → Prop
  | .ret a, Q, s => Q a s
  | .op o k, Q, s => rule o (fun r s' => (k r).wp rule Q s') s

section

variable {rule : Rule Res σ} {Q Q' : α → σ → Prop}

@[simp] theorem wp_pure (a : α) : (pure a : Prog Res α).wp rule Q = Q a := rfl

@[simp] theorem wp_perform {o : O} {Q : Res o → σ → Prop} :
    (perform o : Prog Res (Res o)).wp rule Q = rule o Q := rfl

@[simp] theorem wp_bind (p : Prog Res α) (f : α → Prog Res β) (Q : β → σ → Prop) :
    (p >>= f).wp rule Q = p.wp rule fun a s => (f a).wp rule Q s := by
  change (p.bind f).wp rule Q = _
  funext s
  induction p generalizing s with
  | ret a => rfl
  | op o k ih =>
    show rule o _ s = rule o _ s
    congr 1
    funext r s'
    exact ih r s'

/-- A weaker postcondition has a weaker precondition, if that is so for each operation. -/
theorem wp_mono (hrule : ∀ o (R R' : Res o → σ → Prop) s, (∀ r s', R r s' → R' r s') →
      rule o R s → rule o R' s)
    (hQ : ∀ a s, Q a s → Q' a s) {p : Prog Res α} {s : σ} (h : p.wp rule Q s) :
    p.wp rule Q' s := by
  induction p generalizing s with
  | ret a => exact hQ a s h
  | op o k ih => exact hrule o _ _ s (fun r s' => ih r) h

end

section

variable {exec : (o : O) → σ → Except ε (Res o × σ)} {Q Q' : α → σ → Prop}

theorem wp_total_iff {p : Prog Res α} {s : σ} :
    p.wp (total exec) Q s ↔ ∃ a s', p.run exec s = .ok (a, s') ∧ Q a s' := by
  induction p generalizing s with
  | ret a => simp [wp, run, Prod.ext_iff, and_assoc]
  | op o k ih =>
    simp only [wp, total, run, ih]
    cases hexec : exec o s with
    | error e => simp
    | ok r => simp [Prod.ext_iff, and_assoc]

/-- A run meets what total correctness promises of it. -/
theorem of_wp_total {p : Prog Res α} {s s' : σ} {a : α} (h : p.wp (total exec) Q s)
    (hrun : p.run exec s = .ok (a, s')) : Q a s' := by
  obtain ⟨b, t, hrun', hQ⟩ := wp_total_iff.mp h
  rw [hrun] at hrun'
  cases hrun'
  exact hQ

/-- A run that starts with an operation comes past it. -/
theorem ok_of_run_bind {γ : Type v} {o : O} {k : Res o → Prog Res γ} {s s' : σ} {a : γ}
    (h : (perform o >>= k).run exec s = .ok (a, s')) :
    ∃ r t, exec o s = .ok (r, t) ∧ (k r).run exec t = .ok (a, s') := by
  change (Prog.op o fun r => (Prog.ret r).bind k).run exec s = _ at h
  rw [run] at h
  cases hexec : exec o s with
  | error e =>
    rw [hexec] at h
    cases h
  | ok r =>
    rw [hexec] at h
    exact ⟨r.1, r.2, rfl, h⟩

/-- A run that starts with an operation fails there, or behind it. -/
theorem error_of_run_bind {γ : Type v} {o : O} {k : Res o → Prog Res γ} {s : σ} {e : ε}
    (h : (perform o >>= k).run exec s = .error e) :
    exec o s = .error e ∨ ∃ r t, exec o s = .ok (r, t) ∧ (k r).run exec t = .error e := by
  change (Prog.op o fun r => (Prog.ret r).bind k).run exec s = _ at h
  rw [run] at h
  cases hexec : exec o s with
  | error e' =>
    rw [hexec] at h
    cases h
    exact .inl rfl
  | ok r =>
    rw [hexec] at h
    exact .inr ⟨r.1, r.2, rfl, h⟩

theorem wp_total_of_eq {o : O} {Q : Res o → σ → Prop} {s s' : σ} {r : Res o}
    (h : exec o s = .ok (r, s')) : (perform o).wp (total exec) Q s ↔ Q r s' := by
  simp [wp, perform, total, h, Prod.ext_iff, and_assoc]

theorem wp_total_mono (hQ : ∀ a s, Q a s → Q' a s) {p : Prog Res α} {s : σ}
    (h : p.wp (total exec) Q s) : p.wp (total exec) Q' s :=
  wp_mono (fun _ _ _ _ himp ⟨r, s', hexec, hR⟩ => ⟨r, s', hexec, himp r s' hR⟩) hQ h

end

/-! ### Two machines -/

/-- The program performs only such operations, whatever they answer. -/
def Uses (A : O → Prop) : Prog Res α → Prop
  | .ret _ => True
  | .op o k => A o ∧ ∀ r, (k r).Uses A

section

variable {τ : Type v} {A : O → Prop} {exec : (o : O) → σ → Except ε (Res o × σ)}
  {exec' : (o : O) → τ → Except ε (Res o × τ)} {R : σ → τ → Prop}

theorem uses_pure (a : α) : (pure a : Prog Res α).Uses A := trivial

theorem uses_perform {o : O} (h : A o) : (perform o : Prog Res (Res o)).Uses A :=
  ⟨h, fun _ => trivial⟩

theorem uses_bind {p : Prog Res α} {f : α → Prog Res β} (hp : p.Uses A) (hf : ∀ a, (f a).Uses A) :
    (p >>= f).Uses A := by
  induction p with
  | ret a => exact hf a
  | op o k ih => exact ⟨hp.1, fun r => ih r (hp.2 r)⟩

/-- A run that ends is a run of another machine that simulates the operations of the program. -/
theorem run_of_simulates (hsim : ∀ o, A o → ∀ s t r s', R s t → exec o s = .ok (r, s') →
      ∃ t', exec' o t = .ok (r, t') ∧ R s' t')
    {p : Prog Res α} (huses : p.Uses A) {s s' : σ} {t : τ} {a : α} (hR : R s t)
    (hrun : p.run exec s = .ok (a, s')) : ∃ t', p.run exec' t = .ok (a, t') ∧ R s' t' := by
  induction p generalizing s t with
  | ret b =>
    cases hrun
    exact ⟨t, rfl, hR⟩
  | op o k ih =>
    rw [run] at hrun
    cases hexec : exec o s with
    | error e =>
      rw [hexec] at hrun
      cases hrun
    | ok r =>
      rw [hexec] at hrun
      obtain ⟨t₁, hexec', hR₁⟩ := hsim o huses.1 s t r.1 r.2 hR hexec
      obtain ⟨t', hrun', hR'⟩ := ih r.1 (huses.2 r.1) hR₁ hrun
      refine ⟨t', ?_, hR'⟩
      rw [run, hexec']
      exact hrun'

end

end Prog

end Program
