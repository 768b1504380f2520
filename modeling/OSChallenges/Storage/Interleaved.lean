import OSChallenges.Library.Interleaving
import OSChallenges.Storage.OwnPages
import OSChallenges.Storage.Owners

/-!
# Interleaved reads and writes

Threads are inside `tls_read` and `tls_write` at the same time, one operation after the other. Each
locks its own storage only, while a page that storages share has one protection. So a copy finds its
page open as long as no thread closes a page that another thread has opened.
-/

namespace OSChallenges.Storage

open Program Words Runs Interleaving Outcomes

/-- The states between whole calls of threads with valid ids. -/
inductive Reachable (frame : Nat → Nat) : State → Prop
  | initial (memory : Nat → UInt8) : Reachable frame (initial memory)
  | call {s s' : State} {self : Nat} {c : Call} {r : Result} (h : Reachable frame s)
    (hself : ValidThread self) (hcall : call frame s self c = .ok (r, s')) : Reachable frame s'

section

variable {frame : Nat → Nat} {s s' s₀ : State} {self tid offset length : Nat} {r : Result}

theorem shape_tlsRead (hwell : Wellformed frame s₀)
    (h : (tlsRead self offset length).run (exec frame) s₀ = .ok (r, s')) :
    Wellformed frame s' ∧ ∃ index s, s₀.findIndex self = .ok (index, s) ∧ SameShape s s' := by
  obtain ⟨-, index, hindex, -⟩ | ⟨s, index, p, tls, hacc⟩ := tlsRead_cases h
  · exact ⟨(SameStore.findIndex hindex).wellformed hwell, index, s', hindex, SameShape.refl s'⟩
  · have hs : Wellformed frame s := (SameStore.findIndex hacc.found).wellformed hwell
    have hboth : Wellformed frame s' ∧ SameShape s s' := by
      refine Prog.of_wp_total (Q := fun _ s' => Wellformed frame s' ∧ SameShape s s')
        (wp_tlsRead hacc hs rfl rfl rfl rfl ?_) h
      have hopen := SameShape.setProt (s.setMutex index true) (frame p) .read
      have hwell₁ := (hs.setMutex index true).setProt (frame p) .read
      split
      · exact ⟨(hwell₁.getPages ..).setMutex index false,
          SameShape.unlock hacc.owned hacc.free (hopen.trans (SameShape.getPages ..))⟩
      · exact ⟨hwell₁.setMutex index false, SameShape.unlock hacc.owned hacc.free hopen⟩
    exact ⟨hboth.1, index, s, hacc.found, hboth.2⟩

theorem shape_tlsWrite {buffer : List UInt8} (hframe : Function.Injective frame)
    (hwell : Wellformed frame s₀)
    (h : (tlsWrite self offset length buffer).run (exec frame) s₀ = .ok (r, s')) :
    Wellformed frame s' ∧ ∃ index s, s₀.findIndex self = .ok (index, s) ∧ SameShape s s' := by
  obtain ⟨-, index, hindex, -⟩ | ⟨s, index, p, tls, hacc⟩ := tlsWrite_cases h
  · exact ⟨(SameStore.findIndex hindex).wellformed hwell, index, s', hindex, SameShape.refl s'⟩
  · have hs : Wellformed frame s := (SameStore.findIndex hacc.found).wellformed hwell
    have hboth : Wellformed frame s' ∧ SameShape s s' := by
      refine Prog.of_wp_total (Q := fun _ s' => Wellformed frame s' ∧ SameShape s s')
        (wp_tlsWrite hacc hs hframe rfl rfl rfl rfl ?_) h
      have hopen := SameShape.openWrite frame (s.setMutex index true) index (offset / pageSize)
      have hwell₁ := (hs.setMutex index true).openWrite index (offset / pageSize)
      split
      · exact ⟨(hwell₁.putBytes ..).setMutex index false,
          SameShape.unlock hacc.owned hacc.free (hopen.trans (SameShape.putBytes ..))⟩
      · exact ⟨hwell₁.setMutex index false, SameShape.unlock hacc.owned hacc.free hopen⟩
    exact ⟨hboth.1, index, s, hacc.found, hboth.2⟩

theorem wellformed_call {c : Call} (hframe : Function.Injective frame)
    (hwell : Wellformed frame s) (hcall : call frame s self c = .ok (r, s')) :
    Wellformed frame s' := by
  cases c with
  | create size =>
    obtain ⟨made, hmade, heq⟩ := ok_of_map hcall
    cases heq
    obtain ⟨index, s₁, hindex, ⟨rfl, -⟩ | ⟨n, hlow, hhigh, -, rfl⟩⟩ := tlsCreate_cases hmade
    · exact (SameStore.findIndex hindex).wellformed hwell
    · exact ((SameStore.findIndex hindex).wellformed hwell).newStorage hlow hhigh
  | clone tid =>
    obtain ⟨made, hmade, heq⟩ := ok_of_map hcall
    cases heq
    obtain ⟨i, s₁, j, s₂, hi, hj, hr⟩ := tlsClone_cases hmade
    have hwell₂ := ((SameStore.findIndex hi).trans (SameStore.findIndex hj)).wellformed hwell
    obtain ⟨rfl, -⟩ | ⟨tls, -, htls, rfl⟩ := hr
    · exact hwell₂
    · exact hwell₂.cloneStorage htls
  | read offset length => exact (shape_tlsRead hwell hcall).1
  | write offset length buffer => exact (shape_tlsWrite hframe hwell hcall).1

theorem registered_call {c : Call} (hframe : Function.Injective frame)
    (hwell : Wellformed frame s) (h : Registered s) (hself : ValidThread self)
    (hcall : call frame s self c = .ok (r, s')) : Wellformed frame s' ∧ Registered s' := by
  refine ⟨wellformed_call hframe hwell hcall, ?_⟩
  cases c with
  | create size =>
    obtain ⟨made, hmade, heq⟩ := ok_of_map hcall
    cases heq
    obtain ⟨index, s₁, hindex, ⟨rfl, -⟩ | ⟨n, hlow, hhigh, hnone, rfl⟩⟩ := tlsCreate_cases hmade
    · exact (h.search hindex).1
    · have hpages := created frame s₁ n.toNat
      exact (h.search hindex).1.take hself (h.found hself hindex) hnone
        (State.ttpArray_newStorage ..) hpages.maxIndex hpages.firstCall
  | clone tid =>
    obtain ⟨made, hmade, heq⟩ := ok_of_map hcall
    cases heq
    obtain ⟨i, s₁, j, s₂, hi, hj, hr⟩ := tlsClone_cases hmade
    have hreg := (h.search hi).1
    obtain ⟨rfl, -⟩ | ⟨tls, hnone, htls, rfl⟩ := hr
    · exact (hreg.search hj).1
    · exact (hreg.search hj).1.take hself ((h.found hself hi).findIndex hreg hj) hnone rfl rfl rfl
  | read offset length =>
    obtain ⟨-, index, s₁, hindex, hshape⟩ := shape_tlsRead hwell hcall
    exact (h.search hindex).1.of_shape hshape
  | write offset length buffer =>
    obtain ⟨-, index, s₁, hindex, hshape⟩ := shape_tlsWrite hframe hwell hcall
    exact (h.search hindex).1.of_shape hshape

theorem Reachable.registered (h : Reachable frame s) (hframe : Function.Injective frame) :
    Wellformed frame s ∧ Registered s := by
  induction h with
  | initial memory => exact ⟨Wellformed.initial frame memory, Registered.initial memory⟩
  | call h hself hcall ih => exact registered_call hframe ih.1 ih.2 hself hcall

end

/-! ### The machine -/

/-- A thread notes the protections it has asked for in its call. -/
def asked : Noting Op.Res (Nat → Prot) where
  fresh := fun _ => .none
  after := openedAfter

abbrev Threads := Machine Op.Res Nat State (Nat → Prot) Result

/-- What a thread does: it calls `tls_read` or `tls_write`, or goes on. -/
inductive Move
  | read (offset length : Nat)
  | write (offset length : Nat) (buffer : List UInt8)
  | advance
  deriving DecidableEq, Repr

def Move.action (t : Nat) : Move → Action Op.Res Nat Result
  | .read offset length => .start t (tlsRead t offset length)
  | .write offset length buffer => .start t (tlsWrite t offset length buffer)
  | .advance => .advance t

def move (frame : Nat → Nat) (m : Threads) (a : Nat × Move) : Except (Option Fault) Threads :=
  Interleaving.step (exec frame) asked m (a.2.action a.1)

/-- No thread has begun a call. -/
def idle (s : State) : Threads := ⟨s, fun _ => none⟩

def isSegv {α : Type} : Except Fault α → Bool
  | .error .segv => true
  | _ => false

/-- The next operation of the thread is an access that its page does not allow. -/
def faults (frame : Nat → Nat) (m : Threads) (t : Nat) : Bool :=
  match m.running t with
  | some ⟨.op o _, _⟩ => isSegv (exec frame o m.store)
  | _ => false

/-- The state after whole calls, up to the first one that does not come back. -/
def afterCalls (frame : Nat → Nat) (s : State) : List (Nat × Call) → State
  | [] => s
  | (self, c) :: rest =>
    match call frame s self c with
    | .ok (_, s') => afterCalls frame s' rest
    | .error _ => s

theorem reachable_afterCalls {frame : Nat → Nat} {s : State} {calls : List (Nat × Call)}
    (h : Reachable frame s) (hvalid : ∀ a ∈ calls, ValidThread a.1) :
    Reachable frame (afterCalls frame s calls) := by
  induction calls generalizing s with
  | nil => exact h
  | cons a rest ih =>
    obtain ⟨hself, hrest⟩ := List.forall_mem_cons.mp hvalid
    rw [afterCalls]
    split
    · rename_i hcall
      exact ih (.call h hself hcall) hrest
    · exact h

/-- What one protection allows, the other one allows, too. -/
def Prot.within (a b : Prot) : Prop :=
  (a.readable = true → b.readable = true) ∧ (a.writable = true → b.writable = true)

/-- The step does not take a permission from a page that another thread has opened with it. -/
def Spares (m : Threads) (a : Nat × Move) : Prop :=
  match a.2, m.running a.1 with
  | .advance, some ⟨.op (.mprotect addr len prot) _, _⟩ =>
    ∀ u, u ≠ a.1 → ∀ thread, m.running u = some thread → ∀ f, addr % pageSize = 0 →
      addr ≤ f * pageSize → f * pageSize < addr + len → (thread.note f).within prot
  | _, _ => True

end OSChallenges.Storage
