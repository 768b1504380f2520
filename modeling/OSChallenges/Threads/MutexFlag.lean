import OSChallenges.Threads.Mutex

/-!
# The flag and the owner of a mutex

Against an abstract mutex, `__lock` says whether the mutex is free and `__owner` who holds it. The
two ways a mutex changes hands at an unlock both leave this: without waiters the flag stays 0, and a
waiter that comes back from `pthread_mutex_lock` is not written into `__owner`. Up to the first of
them the representation agrees with the abstract mutex, and after it it does not.
-/

namespace OSChallenges.Threads

open State Runs

/-- The flag and the owner of every mutex agree with its holder; a mutex that nobody holds or has
been granted is acquired by the next lock, whichever thread makes it. -/
structure Represents (s : State) : Prop where
  free : ∀ m, .mutexInit m ∈ s.trace → holders m s.trace = [] → grantees m s.trace = [] →
    (s.mutexes m).lock ≠ 0 ∧ ∀ t, ∃ s', pthreadMutexLock { s with currentThreadID := t } m = .ok s' ∧
      s'.trace = .acquired t m :: s.trace ∧ ∀ u, s'.status u = s.status u
  held : ∀ m t, .mutexInit m ∈ s.trace → t ∈ holders m s.trace →
    (s.mutexes m).lock = 0 ∧ (s.mutexes m).owner = t

/-- Behind the `schedule(14)` of `pthread_mutex_lock`. -/
def behindLock : Point → Bool
  | .resume (.mutex _) => true
  | _ => false

/-- The step is neither an unlock that finds no waiter nor the return of a thread that has waited. -/
def NoReuse (s : State) : Action → Prop
  | .mutexUnlock m => s.mutexThreadLists (s.mutexes m).count ≠ []
  | .proceed => behindLock s.cpu.point = false
  | _ => True

instance (s : State) : (a : Action) → Decidable (NoReuse s a)
  | .mutexUnlock m => inferInstanceAs (Decidable (s.mutexThreadLists (s.mutexes m).count ≠ []))
  | .proceed => inferInstanceAs (Decidable (behindLock s.cpu.point = false))
  | .compute _ | .timer | .create _ _ | .exit | .mutexInit _ | .mutexDestroy _ | .mutexLock _
  | .barrierInit _ _ | .barrierDestroy _ | .barrierWait _ => inferInstanceAs (Decidable True)

structure FlagInv (s : State) : Prop where
  free : ∀ m, .mutexInit m ∈ s.trace → holders m s.trace = [] → grantees m s.trace = [] →
    (s.mutexes m).lock ≠ 0
  held : ∀ m t, t ∈ holders m s.trace →
    .mutexInit m ∈ s.trace ∧ (s.mutexes m).lock = 0 ∧ (s.mutexes m).owner = t

private theorem FlagInv.congr {s s' : State} (h : FlagInv s)
    (hholders : ∀ m, holders m s'.trace = holders m s.trace)
    (hgrantees : ∀ m, grantees m s'.trace = grantees m s.trace)
    (hinit : ∀ m, .mutexInit m ∈ s'.trace ↔ .mutexInit m ∈ s.trace)
    (hmutexes : s'.mutexes = s.mutexes) : FlagInv s' := by
  refine ⟨fun m hm => ?_, fun m t => ?_⟩
  · rw [hholders, hgrantees, hmutexes]
    exact h.free m ((hinit m).mp hm)
  · rw [hholders, hinit, hmutexes]
    exact h.held m t

private theorem FlagInv.switch {s m s' : State} {t : Nat} (h : FlagInv s) (hswitch : Switch m s' t)
    (hmutexes : m.mutexes = s.mutexes)
    (htrace : m.trace = s.trace ∨ m.trace = .exited s.currentThreadID :: s.trace) : FlagInv s' := by
  refine h.congr (fun i => ?_) (fun i => ?_) (fun i => ?_) (hswitch.mutexes.trans hmutexes)
  · rcases htrace with htrace | htrace <;> rw [hswitch.trace, htrace] <;> rfl
  · rcases htrace with htrace | htrace <;> rw [hswitch.trace, htrace] <;> rfl
  · rcases htrace with htrace | htrace <;> simp [hswitch.trace, htrace]

private theorem FlagInv.step {s s' : State} {a : Action} (h : FlagInv s) (huse : MutexUse s a)
    (hno : NoReuse s a) (heff : Effect s a s') : FlagInv s' := by
  cases heff with
  | compute regs hpoint => exact h.congr (fun _ => rfl) (fun _ => rfl) (fun _ => Iff.rfl) rfl
  | timer hfirst hswitch => exact h.switch hswitch rfl (.inl rfl)
  | createFailed hpoint hfail => exact h.congr (fun _ => rfl) (fun _ => rfl) (fun _ => Iff.rfl) rfl
  | create hpoint hlt hfirst =>
    exact h.congr (fun _ => rfl) (fun _ => rfl) (fun _ => by simp) rfl
  | createFirst hpoint hlt hfirst =>
    exact h.congr (fun _ => rfl) (fun _ => rfl) (fun _ => by simp) rfl
  | exitSwitch hpoint hmore hswitch => exact h.switch hswitch rfl (.inr rfl)
  | exitToMain hpoint hlast hmain =>
    exact h.congr (fun _ => rfl) (fun _ => rfl) (fun _ => by simp) rfl
  | @mutexInit m hpoint hlt =>
    refine ⟨fun i hi hnone hnone' => ?_, fun i t ht => ?_⟩
    · by_cases him : i = m
      · subst i
        simp
      · simpa [him] using h.free i (by simpa [him] using hi) hnone hnone'
    · obtain ⟨hinit, hlock, howner⟩ := h.held i t ht
      have him : i ≠ m := by
        rintro rfl
        exact huse hinit
      simp [him, hinit, hlock, howner]
  | @acquire m hpoint hlock =>
    refine ⟨fun i hi hnone hnone' => ?_, fun i t ht => ?_⟩
    · by_cases him : i = m
      · subst i
        simp [holders] at hnone
      · simpa [him] using h.free i (by simpa using hi) (by simpa [holders, Ne.symm him] using hnone)
          hnone'
    · by_cases him : i = m
      · subst i
        have hinit : .mutexInit m ∈ s.trace := huse
        -- A mutex with its flag set has no holder yet.
        have hnone : ∀ u, u ∉ holders m s.trace := fun u hu => hlock (h.held m u hu).2.1
        have heq : t = s.currentThreadID := by simpa [holders, hnone] using ht
        simp [hinit, heq]
      · simpa [him] using h.held i t (by simpa [holders, Ne.symm him] using ht)
  | queue hpoint hlock =>
    exact h.congr (fun _ => rfl) (fun _ => rfl) (fun _ => by simp) rfl
  | unlockFree hpoint hlist => exact absurd hlist hno
  | @unlockGrant m t rest hpoint hlist =>
    refine ⟨fun i hi hnone hnone' => ?_, fun i u hu => ?_⟩
    · by_cases him : i = m
      · subst i
        simp [grantees] at hnone'
      · exact h.free i (by simpa using hi) (by simpa [holders, Ne.symm him] using hnone)
          (by simpa [grantees, Ne.symm him] using hnone')
    · by_cases him : i = m
      · subst i
        have hu' : u ∈ holders m s.trace ∧ u ≠ s.currentThreadID := by simpa [holders] using hu
        simpa using h.held m u hu'.1
      · simpa using h.held i u (by simpa [holders, Ne.symm him] using hu)
  | mutexDestroy hpoint => exact huse.elim
  | barrierRefused hpoint => exact huse.elim
  | barrierInit hpoint hcount hlt => exact huse.elim
  | barrierDestroy hpoint => exact huse.elim
  | arrive hpoint hcount => exact huse.elim
  | complete hpoint hcount => exact huse.elim
  | proceedSchedule hpoint hswitch => exact h.switch hswitch rfl (.inl rfl)
  | proceedReturn hpoint =>
    rw [NoReuse, hpoint] at hno
    cases hno
  | proceedLeave hpoint => exact h.congr (fun _ => rfl) (fun _ => rfl) (fun _ => by simp) rfl

/-- The owner that is left at a hand-off is not the thread that has been granted the mutex. -/
def OwnerElsewhere (s : State) : Prop :=
  ∀ m t, t ∈ grantees m s.trace → (s.mutexes m).owner ≠ t

private theorem OwnerElsewhere.congr {s s' : State} (h : OwnerElsewhere s)
    (hgrantees : ∀ m, grantees m s'.trace = grantees m s.trace)
    (howner : ∀ m, (s'.mutexes m).owner = (s.mutexes m).owner) : OwnerElsewhere s' := by
  intro m t
  rw [hgrantees, howner]
  exact h m t

private theorem OwnerElsewhere.switch {s m s' : State} {t : Nat} (h : OwnerElsewhere s)
    (hswitch : Switch m s' t) (hmutexes : m.mutexes = s.mutexes)
    (htrace : m.trace = s.trace ∨ m.trace = .exited s.currentThreadID :: s.trace) :
    OwnerElsewhere s' := by
  refine h.congr (fun i => ?_) (fun i => ?_)
  · rcases htrace with htrace | htrace <;> rw [hswitch.trace, htrace] <;> rfl
  · rw [hswitch.mutexes, hmutexes]

end OSChallenges.Threads
