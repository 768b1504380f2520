import Mathlib.Logic.Function.Basic
import OSChallenges.Library.Program
import OSChallenges.Library.Runs

/-!
# Interleaved programs

Threads run programs over one shared state; a step is one operation of one thread. A thread notes
something about the operations of the program it is in. The thread-modular rule: each program is
verified alone, by a rule over a local state, as long as a view connects the local state to the
shared one and no other thread's operation breaks the view.
-/

namespace Interleaving

open Program Runs

universe u v w

variable {O : Type u} {Res : O → Type v} {ι : Type w} {σ γ α Λ ε : Type v}

/-- A program that has begun, and what its thread has noted in it. -/
structure Thread {O : Type u} (Res : O → Type v) (γ α : Type v) where
  code : Prog Res α
  note : γ

/-- The shared state, and the threads that are inside a program. -/
structure Machine {O : Type u} (Res : O → Type v) (ι : Type w) (σ γ α : Type v) where
  store : σ
  running : ι → Option (Thread Res γ α)

inductive Action {O : Type u} (Res : O → Type v) (ι : Type w) (α : Type v)
  | start (t : ι) (p : Prog Res α)
  | advance (t : ι)

/-- What is left to run: nothing of a program that has come to its result. -/
def unfinished (p : Prog Res α) (note : γ) : Option (Thread Res γ α) :=
  match p with
  | .ret _ => none
  | .op o k => some ⟨.op o k, note⟩

/-- How the operations of a thread change its note. -/
structure Noting {O : Type u} (Res : O → Type v) (γ : Type v) where
  fresh : γ
  after : (o : O) → Res o → γ → γ

section

variable [DecidableEq ι] (exec : (o : O) → σ → Except ε (Res o × σ)) (noting : Noting Res γ)

/-- One step; there is none if a thread that starts is not idle, or if one that is idle should
advance. -/
def step (m : Machine Res ι σ γ α) : Action Res ι α → Except (Option ε) (Machine Res ι σ γ α)
  | .start t p =>
    match m.running t with
    | some _ => .error none
    | none => .ok { m with running := Function.update m.running t (unfinished p noting.fresh) }
  | .advance t =>
    match m.running t with
    | none => .error none
    | some ⟨.ret _, _⟩ => .error none
    | some ⟨.op o k, note⟩ =>
      match exec o m.store with
      | .error e => .error (some e)
      | .ok (r, s) =>
        .ok ⟨s, Function.update m.running t (unfinished (k r) (noting.after o r note))⟩

end

/-! ### The thread-modular rule -/

/-- The programs of the threads are verified from local states that the views connect to the shared
state. -/
structure Covered (rule : ι → Rule Res Λ) (view : ι → Λ → γ → σ → Prop) (inv : σ → Prop)
    (m : Machine Res ι σ γ α) : Prop where
  inv : inv m.store
  threads : ∀ t code note, m.running t = some ⟨code, note⟩ →
    ∃ l, view t l note m.store ∧ code.wp (rule t) (fun _ _ => True) l

section

variable {rule : ι → Rule Res Λ} {view : ι → Λ → γ → σ → Prop} {inv : σ → Prop}
  {m m' : Machine Res ι σ γ α}

theorem eq_of_unfinished {p code : Prog Res α} {note note' : γ}
    (h : unfinished p note = some ⟨code, note'⟩) : code = p ∧ note' = note := by
  unfold unfinished at h
  split at h
  · cases h
  · cases h
    exact ⟨rfl, rfl⟩

/-- What the operation of a thread does to its own view and to those of the others. -/
def Sound (exec : (o : O) → σ → Except ε (Res o × σ)) (noting : Noting Res γ)
    (rule : ι → Rule Res Λ) (view : ι → Λ → γ → σ → Prop) (inv : σ → Prop)
    (m : Machine Res ι σ γ α) (t : ι) : Prop :=
  ∀ o k note l r s', m.running t = some ⟨.op o k, note⟩ → inv m.store → view t l note m.store →
    rule t o (fun r l => (k r).wp (rule t) (fun _ _ => True) l) l →
    exec o m.store = .ok (r, s') →
    inv s' ∧ (∃ l', view t l' (noting.after o r note) s' ∧
      (k r).wp (rule t) (fun _ _ => True) l') ∧
    ∀ u code' note' l', u ≠ t → m.running u = some ⟨code', note'⟩ →
      view u l' note' m.store → view u l' note' s'

variable [DecidableEq ι] {exec : (o : O) → σ → Except ε (Res o × σ)} {noting : Noting Res γ}

theorem running_of_step {a : Action Res ι α} {t u : ι} (hu : u ≠ t)
    (ha : a = .advance t ∨ ∃ p, a = .start t p) (h : step exec noting m a = .ok m') :
    m'.running u = m.running u := by
  obtain rfl | ⟨p, rfl⟩ := ha
  · unfold step at h
    simp only at h
    split at h
    · cases h
    · cases h
    · split at h
      · cases h
      · cases h
        exact Function.update_of_ne hu ..
  · unfold step at h
    simp only at h
    split at h
    · cases h
    · cases h
      exact Function.update_of_ne hu ..

theorem Covered.advance {t : ι} (h : Covered rule view inv m)
    (hsound : Sound exec noting rule view inv m t)
    (hstep : step exec noting m (.advance t) = .ok m') : Covered rule view inv m' := by
  unfold step at hstep
  simp only at hstep
  split at hstep
  · cases hstep
  · cases hstep
  · rename_i o k note hrun
    split at hstep
    · cases hstep
    · rename_i r s' hexec
      cases hstep
      obtain ⟨l, hview, hwp⟩ := h.threads t _ note hrun
      obtain ⟨hinv, ⟨l', hview', hwp'⟩, hothers⟩ :=
        hsound o k note l r s' hrun h.inv hview hwp hexec
      refine ⟨hinv, ?_⟩
      intro u code note' hu
      by_cases hut : u = t
      · subst hut
        simp only [Function.update_self] at hu
        obtain ⟨rfl, rfl⟩ := eq_of_unfinished hu
        exact ⟨l', hview', hwp'⟩
      · simp only [Function.update_of_ne hut] at hu
        obtain ⟨lu, hviewu, hwpu⟩ := h.threads u code note' hu
        exact ⟨lu, hothers u code note' lu hut hu hviewu, hwpu⟩

theorem Covered.start {t : ι} {p : Prog Res α} (h : Covered rule view inv m)
    (hp : ∃ l, view t l noting.fresh m.store ∧ p.wp (rule t) (fun _ _ => True) l)
    (hstep : step exec noting m (.start t p) = .ok m') : Covered rule view inv m' := by
  unfold step at hstep
  simp only at hstep
  split at hstep
  · cases hstep
  · cases hstep
    refine ⟨h.inv, ?_⟩
    intro u code note hu
    by_cases hut : u = t
    · subst hut
      simp only [Function.update_self] at hu
      obtain ⟨rfl, rfl⟩ := eq_of_unfinished hu
      exact hp
    · simp only [Function.update_of_ne hut] at hu
      exact h.threads u code note hu

end

end Interleaving
