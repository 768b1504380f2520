import OSChallenges.FileSystem.Frames
import OSChallenges.Library.Runs

/-!
# Runs of calls

A session is a state with the names of the disks that `make_fs` has made. As long as disks are made
and mounted only while none is mounted, every mounted disk is one that `make_fs` has made, and reads
and writes stay in the first block, the tables, the descriptors and all made disks are in order after
every call.
-/

namespace OSChallenges.FileSystem

open Records Words Outcomes Runs

structure Session where
  state : State
  /-- The disks that `make_fs` has made. -/
  made : CString → Bool

namespace Session

def boot (files : CString → File) : Session := ⟨FileSystem.boot files, fun _ => false⟩

/-- A `make_fs` that fails has spoiled the disk, unless it could not open it. -/
def madeAfter (env : Env) (made : CString → Bool) (c : Call) (r : Result) : CString → Bool :=
  match c with
  | .makeFs (some name) => fun x =>
    if x = name then decide (r.ret = 0) || made x && !env.creates else made x
  | _ => made

def step (w : Session) (a : Env × Call) : Except Fault Session :=
  (call a.1 w.state a.2).map fun p => ⟨p.2, madeAfter a.1 w.made a.2 p.1⟩

/-- What callers keep to. -/
def Allows (w : Session) (env : Env) : Call → Prop
  | .makeFs _ => w.state.readyForUse = false
  | .mountFs diskName => w.state.readyForUse = false ∧
      ∀ x ∈ diskName, env.opens = true → w.made x = true
  | .read fildes nbyte => ∀ fd : Fin maxDescriptors, fildes = fd → (w.state.fds fd).isUsed = true →
      (w.state.fds fd).offset < blockSize → (w.state.fds fd).offset + nbyte ≤ blockSize
  | .write fildes buf => ∀ fd : Fin maxDescriptors, fildes = fd → (w.state.fds fd).isUsed = true →
      buf = [] ∨ (w.state.fds fd).offset + buf.length ≤ blockSize
  | _ => True

instance (w : Session) (env : Env) : (c : Call) → Decidable (w.Allows env c)
  | .makeFs _ => inferInstanceAs (Decidable (w.state.readyForUse = false))
  | .mountFs diskName => inferInstanceAs (Decidable (w.state.readyForUse = false ∧
      ∀ x ∈ diskName, env.opens = true → w.made x = true))
  | .read fildes nbyte => inferInstanceAs (Decidable (∀ fd : Fin maxDescriptors, fildes = fd →
      (w.state.fds fd).isUsed = true → (w.state.fds fd).offset < blockSize →
      (w.state.fds fd).offset + nbyte ≤ blockSize))
  | .write fildes buf => inferInstanceAs (Decidable (∀ fd : Fin maxDescriptors, fildes = fd →
      (w.state.fds fd).isUsed = true → buf = [] ∨ (w.state.fds fd).offset + buf.length ≤ blockSize))
  | .umountFs | .create _ | .open _ | .close _ | .delete _ | .getFilesize _ | .listfiles
  | .lseek _ _ | .truncate _ _ => isTrue trivial

/-- Disks are made and mounted only while none is mounted, and a mounted one is one that `make_fs` has
made. -/
def Mounts (w : Session) (env : Env) : Call → Prop
  | .makeFs _ => w.state.readyForUse = false
  | .mountFs diskName => w.state.readyForUse = false ∧
      ∀ x ∈ diskName, env.opens = true → w.made x = true
  | _ => True

/-- One call of a session. -/
def Step (w : Session) (a : Env × Call) (w' : Session) : Prop :=
  w.Allows a.1 a.2 ∧ w.step a = .ok w'

/-- A call that only has to keep the offsets in the range of a file size. -/
def Move (w : Session) (a : Env × Call) (w' : Session) : Prop :=
  w.Mounts a.1 a.2 ∧ InRange w.state a.2 ∧ w.step a = .ok w'

theorem Allows.inRange {w : Session} {env : Env} {c : Call} (h : w.Allows env c) :
    InRange w.state c := by
  cases c with
  | read fildes nbyte =>
    intro fd i offset hfildes hopened _ hfirst
    have hroom := h fd hfildes hopened.isUsed
    rw [hopened.offset] at hroom
    unfold blockSize at *
    omega
  | write fildes buf =>
    intro fd i offset hfildes hopened
    have hlt := hopened.lt
    rcases h fd hfildes hopened.isUsed with rfl | hroom
    · exact hlt
    · rw [hopened.offset] at hroom
      unfold blockSize at hroom
      omega
  | _ => trivial

theorem Step.move {w w' : Session} {a : Env × Call} (h : w.Step a w') : w.Move a w' := by
  obtain ⟨hallows, hstep⟩ := h
  refine ⟨?_, hallows.inRange, hstep⟩
  cases hc : a.2 with
  | makeFs diskName =>
    rw [hc] at hallows
    exact hallows
  | mountFs diskName =>
    rw [hc] at hallows
    exact hallows
  | _ => trivial

end Session

variable {env : Env} {s s' : State} {n name : CString} {r : Result} {c : Call} {w w' : Session}

structure Orderly (w : Session) : Prop where
  ready : w.state.readyForUse = w.state.handle.isSome
  closed : w.state.handle = none → ∀ fd, (w.state.fds fd).isUsed = false
  empty : w.state.handle = none → w.state.directory = fun _ => .zero
  mounted : ∀ n, w.state.handle = some n → InOrder w.state n
  disks : ∀ n, w.made n = true → w.state.handle ≠ some n →
    Consistent (stored (w.state.files n)) (w.state.files n)

/-- What is true of the tables and the blocks of each disk that has been made and is not mounted. -/
def Session.Stored (P : Metadata → File → Prop) (w : Session) : Prop :=
  ∀ n, w.made n = true → w.state.handle ≠ some n → P (stored (w.state.files n)) (w.state.files n)

/-! ### Results -/

theorem ok_of_number {x : Except Fault (Int × State)} (h : x.map number = .ok (r, s')) :
    x = .ok (r.ret, s') := by
  obtain ⟨p, hx, heq⟩ := ok_of_map h
  cases heq
  exact hx

theorem eq_of_number {p : Int × State} (h : Except.ok (number p) = (.ok (r, s') : Except Fault _)) :
    p = (r.ret, s') := by
  cases h
  rfl

/-! ### Calls while no disk is mounted -/

theorem idle_call (hready : s.readyForUse = false) (hclosed : ∀ fd, (s.fds fd).isUsed = false)
    (hmake : ∀ diskName, c ≠ .makeFs diskName) (hmount : ∀ diskName, c ≠ .mountFs diskName)
    (hcall : call env s c = .ok (r, s')) :
    ∃ bitmap, s' = { s with usedBlocksBitmap := bitmap } := by
  have hnot : (!s.readyForUse) = true := by
    rw [hready]
    rfl
  have hsame : ∀ {ret : Int} {t : State}, (pure (ret, t) : Except Fault _) = .ok (r.ret, s') → s' = t :=
    fun h => (congrArg Prod.snd (ok_of_pure h)).symm
  cases c with
  | makeFs diskName => exact absurd rfl (hmake diskName)
  | mountFs diskName => exact absurd rfl (hmount diskName)
  | umountFs =>
    have hp := eq_of_number hcall
    rw [umountFs, if_pos hnot] at hp
    exact ⟨_, (congrArg Prod.snd hp).symm⟩
  | create name =>
    rw [call] at hcall
    obtain ⟨-, -, bitmap, -, ⟨-, hkept, -⟩ | ⟨i, d, hbusy, -⟩⟩ := create_spec (ok_of_number hcall)
    · exact ⟨bitmap, hkept⟩
    · rw [hready] at hbusy
      cases hbusy
  | «open» name =>
    have hp := eq_of_number hcall
    simp only [fsOpen, if_pos hnot] at hp
    exact ⟨_, (congrArg Prod.snd hp).symm⟩
  | close fildes =>
    obtain ⟨-, hstays⟩ | ⟨-, fd, -, hused, -⟩ := close_cases (ok_of_number hcall)
    · exact ⟨_, hstays⟩
    · rw [hclosed fd] at hused
      cases hused
  | delete name =>
    have hp := ok_of_number hcall
    simp only [fsDelete, if_pos hnot] at hp
    exact ⟨_, hsame hp⟩
  | read fildes nbyte =>
    rw [call, fsRead, if_pos hnot] at hcall
    exact ⟨_, (congrArg Prod.snd (ok_of_pure hcall)).symm⟩
  | write fildes buf =>
    have hp := ok_of_number hcall
    rw [fsWrite, if_pos hnot] at hp
    exact ⟨_, hsame hp⟩
  | getFilesize fildes => exact ⟨_, getFilesize_state hcall⟩
  | listfiles =>
    cases hcall
    exact ⟨_, rfl⟩
  | lseek fildes position =>
    have hp := ok_of_number hcall
    rw [fsLseek, if_pos hnot] at hp
    exact ⟨_, hsame hp⟩
  | truncate fildes length =>
    have hp := ok_of_number hcall
    rw [fsTruncate, if_pos hnot] at hp
    exact ⟨_, hsame hp⟩

/-! ### Calls on the open disk -/

theorem mounted_call (hopen : s.handle = some n) (h : InOrder s n) (hrange : InRange s c) (hmake : ∀ diskName, c ≠ .makeFs diskName)
    (hmount : ∀ diskName, c ≠ .mountFs diskName) (humount : c ≠ .umountFs)
    (hcall : call env s c = .ok (r, s')) : InOrder s' n ∧ Framed s c s' n := by
  cases c with
  | makeFs diskName => exact absurd rfl (hmake diskName)
  | mountFs diskName => exact absurd rfl (hmount diskName)
  | umountFs => exact absurd rfl humount
  | create name =>
    rw [call] at hcall
    have hp := ok_of_number hcall
    refine ⟨h.create hopen hp, ?_⟩
    obtain ⟨bitmap, -, ⟨-, rfl⟩ | ⟨-, i, d, a, b, hfound, rfl⟩⟩ := create_cases hopen hp
    · exact .mark bitmap
    · exact .create h hfound
  | «open» name =>
    have hp := eq_of_number hcall
    refine ⟨h.open hp, ?_⟩
    obtain ⟨-, rfl⟩ | ⟨d, fd, -, hfree, -, rfl⟩ := open_cases hp
    · exact .refl
    · exact .open hfree
  | close fildes =>
    have hp := ok_of_number hcall
    refine ⟨h.close hp, ?_⟩
    obtain ⟨-, rfl⟩ | ⟨-, fd, hfildes, -, rfl⟩ := close_cases hp
    · exact .refl
    · exact .close hfildes
  | delete name =>
    have hp := ok_of_number hcall
    refine ⟨h.delete hopen hp, ?_⟩
    obtain ⟨-, rfl⟩ | ⟨-, i, d, bitmap, empty, hclosed, -, rfl⟩ := delete_cases hopen h.consistent hp
    · exact .refl
    · exact .delete h hclosed
  | read fildes nbyte =>
    refine ⟨h.read hopen hrange hcall, ?_⟩
    obtain rfl | ⟨fd, i, offset, -, -, -, -, rfl⟩ := read_cases hopen h.consistent h.described hcall
    · exact .refl
    · exact .seek _
  | write fildes buf =>
    have hp := ok_of_number hcall
    refine ⟨h.write hopen hrange hp, ?_⟩
    obtain ⟨-, rfl⟩ | ⟨fd, i, offset, b, hfildes, hopened, -, -, rfl⟩ :=
      write_cases hopen h.consistent h.described hp
    · exact .refl
    · exact .write h hfildes hopened
  | getFilesize fildes =>
    rw [getFilesize_state hcall]
    exact ⟨h, .refl⟩
  | listfiles =>
    cases hcall
    exact ⟨h, .refl⟩
  | lseek fildes position =>
    have hp := ok_of_number hcall
    refine ⟨h.lseek hp, ?_⟩
    obtain ⟨-, rfl⟩ | ⟨-, fd, i, -, -, -, -, -, rfl⟩ := lseek_cases hp
    · exact .refl
    · exact .seek _
  | truncate fildes length =>
    have hp := ok_of_number hcall
    refine ⟨h.truncate hp, ?_⟩
    obtain ⟨-, rfl⟩ | ⟨-, fd, i, -, -, -, -, rfl⟩ := truncate_cases hp
    · exact .refl
    · exact .resize _

/-! ### Runs -/

theorem Orderly.boot (files : CString → File) : Orderly (.boot files) where
  ready := rfl
  closed := fun _ _ => rfl
  empty := fun _ => rfl
  mounted := fun _ hopen => by cases hopen
  disks := fun _ hmade => by cases hmade

theorem Orderly.handle_eq_none (h : Orderly w) (hready : w.state.readyForUse = false) :
    w.state.handle = none := by
  have hsome := h.ready
  rw [hready] at hsome
  cases hhandle : w.state.handle with
  | none => rfl
  | some n =>
    rw [hhandle] at hsome
    cases hsome

theorem Orderly.ready_of_open (h : Orderly w) (hopen : w.state.handle = some n) :
    w.state.readyForUse = true := by
  rw [h.ready, hopen]
  rfl

theorem Orderly.not_ready_of_closed (h : Orderly w) (hopen : w.state.handle = none) :
    w.state.readyForUse = false := by
  rw [h.ready, hopen]
  rfl

/-- On an open disk no disk is made or mounted. -/
theorem Orderly.mounts_nothing (h : Orderly w) (hopen : w.state.handle = some n)
    (hmounts : w.Mounts env c) :
    (∀ diskName, c ≠ .makeFs diskName) ∧ ∀ diskName, c ≠ .mountFs diskName := by
  have hready : w.state.readyForUse ≠ false := by
    rw [h.ready_of_open hopen]
    exact Bool.noConfusion
  constructor
  · rintro diskName rfl
    exact hready hmounts
  · rintro diskName rfl
    exact hready hmounts.1

theorem Session.step_cases {a : Env × Call} (h : w.step a = .ok w') :
    ∃ r, call a.1 w.state a.2 = .ok (r, w'.state) ∧ w'.made = madeAfter a.1 w.made a.2 r := by
  obtain ⟨p, hp, rfl⟩ := ok_of_map h
  exact ⟨p.1, hp, rfl⟩

/-! ### Disks that are not mounted -/

section

variable {P : Metadata → File → Prop} {diskName : Option CString} {ret : Int}

theorem Session.Stored.make (h : w.Stored P) (hclosed : w.state.handle = none)
    (hfresh : ∀ bitmap, Fresh bitmap → P (emptyMetadata bitmap) (madeFile env bitmap))
    (hcall : makeFs env w.state diskName = .ok (ret, s')) :
    Session.Stored P ⟨s', Session.madeAfter env w.made (.makeFs diskName) (.of ret)⟩ := by
  obtain ⟨hkept, hfiles, hret⟩ := make_cases hclosed hcall
  intro n hmade _
  have hkeep : diskName ≠ some n ∨ env.creates = false → w.made n = true →
      P (stored (s'.files n)) (s'.files n) := by
    intro hstays hold
    rw [hfiles n hstays]
    refine h n hold ?_
    rw [hclosed]
    exact fun heq => by cases heq
  cases diskName with
  | none => exact hkeep (.inl (fun heq => by cases heq)) hmade
  | some x =>
    by_cases hx : n = x
    · subst hx
      simp only [Session.madeAfter, if_true, Bool.or_eq_true, Bool.and_eq_true,
        decide_eq_true_eq] at hmade
      obtain hzero | ⟨hold, hfails⟩ := hmade
      · obtain rfl | ⟨-, y, bitmap, hy, -, hnew, hfile⟩ := hret
        · cases hzero
        · cases hy
          rw [hfile, show stored (madeFile env bitmap) = emptyMetadata bitmap from stored_write ..]
          exact hfresh bitmap hnew
      · exact hkeep (.inr (by simpa using hfails)) hold
    · simp only [Session.madeAfter, if_neg hx] at hmade
      exact hkeep (.inl (fun heq => hx (Option.some.inj heq).symm)) hmade

theorem Session.Stored.of_files {made : CString → Bool} (h : w.Stored P) (hmade : made = w.made)
    (hfiles : ∀ x, s'.handle ≠ some x → s'.files x = w.state.files x)
    (hhandle : ∀ x, w.state.handle = some x → s'.handle = some x) :
    Session.Stored P ⟨s', made⟩ := by
  intro x hx hclosed
  rw [hmade] at hx
  show P (stored (s'.files x)) (s'.files x)
  rw [hfiles x hclosed]
  exact h x hx fun hopen => hclosed (hhandle x hopen)

theorem Session.Stored.umount (h : w.Stored P) (hopen : w.state.handle = some n)
    (hstore : P w.state.toMetadata ((w.state.files n).write 0 (writeBuf env w.state.toMetadata))) :
    Session.Stored P ⟨unmounted env w.state n, w.made⟩ := by
  intro x hx _
  by_cases hxn : x = n
  · subst hxn
    have hfile : (unmounted env w.state x).files x =
        (w.state.files x).write 0 (writeBuf env w.state.toMetadata) := Function.update_self ..
    show P (stored ((unmounted env w.state x).files x)) _
    rw [hfile, stored_write]
    exact hstore
  · have hfile : (unmounted env w.state n).files x = w.state.files x := Function.update_of_ne hxn ..
    show P (stored ((unmounted env w.state n).files x)) _
    rw [hfile]
    refine h x hx ?_
    rw [hopen]
    exact fun heq => hxn (Option.some.inj heq).symm

end

theorem Orderly.make {diskName : Option CString} {ret : Int} (h : Orderly w)
    (hready : w.state.readyForUse = false) (hcall : makeFs env w.state diskName = .ok (ret, s')) :
    Orderly ⟨s', Session.madeAfter env w.made (.makeFs diskName) (.of ret)⟩ := by
  have hclosed := h.handle_eq_none hready
  obtain ⟨hkept, -, -⟩ := make_cases hclosed hcall
  have hnone : s'.handle = none := hkept.handle.trans hclosed
  refine ⟨?_, ?_, fun _ => hkept.directory, ?_, ?_⟩
  · rw [hkept.ready, hkept.handle]
    exact h.ready
  · intro _ fd
    rw [hkept.fds]
    exact h.closed hclosed fd
  · intro n hopen
    rw [hnone] at hopen
    cases hopen
  · have hdisks : w.Stored Consistent := h.disks
    exact hdisks.make hclosed
      (fun bitmap hfresh => consistent_empty hfresh (File.write_size (by decide) _)) hcall

theorem Orderly.mount_found {diskName : Option CString} {ret : Int} (h : Orderly w)
    (hready : w.state.readyForUse = false)
    (hmade : ∀ x ∈ diskName, env.opens = true → w.made x = true)
    (hcall : mountFs env w.state diskName = (ret, s')) :
    Kept w.state s' ∧ s'.files = w.state.files ∨ ∃ x, w.made x = true ∧ s' = { w.state with
      toMetadata := stored (w.state.files x)
      readyForUse := true
      handle := some x } := by
  have hclosed := h.handle_eq_none hready
  obtain ⟨-, hkept, hfiles⟩ | ⟨-, x, hx, hopens, hstate⟩ := mount_cases hclosed hcall
  · exact .inl ⟨hkept, hfiles⟩
  · have hother : w.state.handle ≠ some x := by
      rw [hclosed]
      exact fun heq => by cases heq
    have hdisk := h.disks x (hmade x hx hopens) hother
    exact .inr ⟨x, hmade x hx hopens, hstate (by rw [hdisk.size]; decide)⟩

theorem Orderly.mount {diskName : Option CString} {ret : Int} (h : Orderly w)
    (hready : w.state.readyForUse = false)
    (hmade : ∀ x ∈ diskName, env.opens = true → w.made x = true)
    (hcall : mountFs env w.state diskName = (ret, s')) : Orderly ⟨s', w.made⟩ := by
  have hclosed := h.handle_eq_none hready
  have hother : ∀ n, w.state.handle ≠ some n := by
    intro n hopen
    rw [hclosed] at hopen
    cases hopen
  have hdisks : w.Stored Consistent := h.disks
  obtain ⟨hkept, hfiles⟩ | ⟨x, hx, rfl⟩ := h.mount_found hready hmade hcall
  · refine ⟨?_, ?_, fun _ => hkept.directory, ?_, ?_⟩
    · rw [hkept.ready, hkept.handle]
      exact h.ready
    · intro _ fd
      rw [hkept.fds]
      exact h.closed hclosed fd
    · intro n hopen
      rw [hkept.handle] at hopen
      exact absurd hopen (hother n)
    · exact hdisks.of_files rfl (fun x _ => by rw [hfiles]) fun x hx => absurd hx (hother x)
  · refine ⟨rfl, (fun hnone => by cases hnone), (fun hnone => by cases hnone), ?_,
      hdisks.of_files rfl (fun _ _ => rfl) fun x hx => absurd hx (hother x)⟩
    rintro n ⟨rfl⟩
    refine ⟨h.disks x hx (hother x), ?_⟩
    intro fd hfd
    rw [h.closed hclosed fd] at hfd
    cases hfd

theorem Orderly.umount {ret : Int} (h : Orderly w) (hopen : w.state.handle = some n)
    (hcall : umountFs env w.state = (ret, s')) : Orderly ⟨s', w.made⟩ := by
  obtain ⟨-, rfl⟩ | ⟨-, rfl⟩ := umount_cases hopen hcall
  · exact h
  · have hdisks : w.Stored Consistent := h.disks
    exact ⟨rfl, fun _ _ => rfl, fun _ => rfl, (fun _ hnone => by cases hnone),
      hdisks.umount hopen ((h.mounted n hopen).consistent.store env)⟩

theorem Orderly.mounted_step (h : Orderly w) (hopen : w.state.handle = some n)
    (hstep : w.Move (env, c) w') (humount : c ≠ .umountFs) :
    InOrder w'.state n ∧ Framed w.state c w'.state n ∧ w'.made = w.made := by
  obtain ⟨hmounts, hrange, hstep⟩ := hstep
  obtain ⟨r, hcall, hmade⟩ := Session.step_cases hstep
  obtain ⟨hmake, hmount⟩ := h.mounts_nothing hopen hmounts
  obtain ⟨horder, hframe⟩ :=
    mounted_call hopen (h.mounted n hopen) hrange hmake hmount humount hcall
  refine ⟨horder, hframe, ?_⟩
  rw [hmade]
  cases c with
  | makeFs diskName => exact absurd rfl (hmake diskName)
  | _ => rfl

theorem Orderly.working (h : Orderly w) (hopen : w.state.handle = some n)
    (hstep : w.Move (env, c) w') (humount : c ≠ .umountFs) : Orderly w' := by
  obtain ⟨horder, hframe, hmade⟩ := h.mounted_step hopen hstep humount
  have hopen' : w'.state.handle = some n := hframe.handle.trans hopen
  have hnone : w'.state.handle ≠ none := by
    rw [hopen']
    exact Option.some_ne_none n
  have hdisks : w.Stored Consistent := h.disks
  refine ⟨?_, fun hclosed => absurd hclosed hnone, fun hclosed => absurd hclosed hnone, ?_, ?_⟩
  · rw [hframe.ready, hframe.handle]
    exact h.ready
  · intro x hx
    rw [hopen'] at hx
    cases hx
    exact horder
  · refine hdisks.of_files hmade (fun x hx => hframe.files x ?_) fun x hx => hframe.handle.trans hx
    rintro rfl
    exact hx hopen'

theorem Orderly.move {a : Env × Call} (h : Orderly w) (hstep : w.Move a w') : Orderly w' := by
  obtain ⟨env, c⟩ := a
  have hall := hstep
  obtain ⟨s', made'⟩ := w'
  obtain ⟨hmounts, -, hstep⟩ := hstep
  obtain ⟨r, hcall, rfl⟩ := Session.step_cases hstep
  cases hopen : w.state.handle with
  | none =>
    by_cases hmake : ∃ diskName, c = .makeFs diskName
    · obtain ⟨diskName, rfl⟩ := hmake
      exact h.make hmounts (ok_of_number hcall)
    by_cases hmount : ∃ diskName, c = .mountFs diskName
    · obtain ⟨diskName, rfl⟩ := hmount
      exact h.mount hmounts.1 hmounts.2 (eq_of_number hcall)
    have hkeeps : Session.madeAfter env w.made c r = w.made := by
      cases c with
      | makeFs diskName => exact absurd ⟨diskName, rfl⟩ hmake
      | _ => rfl
    rw [hkeeps]
    obtain ⟨bitmap, heq⟩ := idle_call (h.not_ready_of_closed hopen) (h.closed hopen) (fun x hx => hmake ⟨x, hx⟩)
      (fun x hx => hmount ⟨x, hx⟩) hcall
    cases heq
    refine ⟨h.ready, h.closed, h.empty, ?_, h.disks⟩
    intro n hsome
    rw [hopen] at hsome
    cases hsome
  | some n =>
    by_cases humount : c = .umountFs
    · subst humount
      exact h.umount hopen (eq_of_number hcall)
    · exact h.working hopen hall humount

theorem Orderly.step {a : Env × Call} (h : Orderly w) (hstep : w.Step a w') : Orderly w' :=
  h.move hstep.move

/-- After every call of a session everything is in order. -/
theorem always_orderly {files : CString → File} {run : List ((Env × Call) × Session)}
    (h : EachStep Session.Step (.boot files) run) : Always Orderly (.boot files) run :=
  EachStep.always (fun _ _ _ horder hstep => horder.step hstep) (Orderly.boot files) h

/-! ### Runs of fixed calls -/

/-- The host does what it is asked for, all memory is zero, and `empty` is before the array. -/
def Env.plain : Env where
  creates := true
  written := diskBlocks
  opens := true
  heap := fun _ => 0
  stack := fun _ => 0
  emptyAt := -blockSize

def disk0 : CString := ⟨"disk".toList.map fun c => c.toNat.toUInt8, by decide⟩

def nameA : CString := ⟨[97], by decide⟩

def descriptor0 : Fin maxDescriptors := ⟨0, by decide⟩

/-- A file is created on a new disk. -/
def oneFile : List ((Env × Call) × Session) :=
  trail Session.step (.boot fun _ => .empty) ([.makeFs (some disk0), .mountFs (some disk0),
    .create nameA].map fun c => (Env.plain, c))

end OSChallenges.FileSystem
