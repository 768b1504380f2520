import OSChallenges.FileSystem.Answers
import OSChallenges.Library.Refinement

/-!
# The file system refines the store of files

A session has a store: the volumes of the disks that have been made, as they stand in block 0, and the one that
is mounted. Each call leads to the store that it should lead to, as long as callers keep to what the store
allows and free blocks hold zeros when files are created.
-/

namespace OSChallenges.FileSystem

open Records Words Outcomes Runs Refinement

/-- The disks that are not mounted have the volumes that stand in their block 0. -/
structure Session.Represents (P : Metadata → File → Prop) (w : Session) (st : FileStore) : Prop where
  throughout : w.Throughout P
  volumes : ∀ x, w.state.handle ≠ some x → st.volumes x =
    if w.made x then some (.of (stored (w.state.files x)) (w.state.files x)) else none
  closed : st.mounted = none → w.state.handle = none
  mounted : ∀ m, st.mounted = some m →
    w.state.handle = some m.disk ∧ w.made m.disk = true ∧ Views w.state m

/-- All disks keep the property in calls of the kind. -/
def Stays (P : Metadata → File → Prop) (A : Env × Call → Prop) : Prop :=
  ∀ (w w' : Session) (a : Env × Call), w.Throughout P → A a → w.Step a w' → w'.Throughout P

variable {env : Env} {s s' : State} {w w' : Session} {st : FileStore} {m : Mount} {c : Call}
  {n name x : CString} {ret : Int} {P : Metadata → File → Prop} {A : Env × Call → Prop}

theorem represents_boot (files : CString → File) : Session.Represents P (.boot files) .empty where
  throughout := .boot files
  volumes := fun _ _ => rfl
  closed := fun _ => rfl
  mounted := fun _ hm => by cases hm

theorem Session.Represents.working (h : w.Represents P st) (hm : st.mounted = some m) :
    Working w.state m := by
  obtain ⟨hopen, -, hviews⟩ := h.mounted m hm
  exact ⟨hopen, h.throughout.orderly.ready_of_open hopen, h.throughout.orderly.mounted _ hopen, hviews⟩

theorem Session.Represents.isSome_volumes (h : w.Represents P st) (hopen : w.state.handle ≠ some x) :
    (st.volumes x).isSome = w.made x := by
  rw [h.volumes x hopen]
  cases w.made x with
  | true => rfl
  | false => rfl

theorem Session.Represents.allows (h : w.Represents P st) (hallows : st.Allows (env, c)) :
    w.Allows env c := by
  have hidle : st.mounted.isNone → w.state.handle = none := fun hnone =>
    h.closed (Option.isNone_iff_eq_none.mp hnone)
  have horderly := h.throughout.orderly
  cases c with
  | makeFs diskName => exact horderly.not_ready_of_closed (hidle hallows)
  | mountFs diskName =>
    obtain ⟨hnone, hvolume⟩ := hallows
    refine ⟨horderly.not_ready_of_closed (hidle hnone), fun x hx hopens => ?_⟩
    rw [← h.isSome_volumes (by rw [hidle hnone]; exact fun heq => by cases heq)]
    exact hvolume x hx hopens
  | read fildes nbyte =>
    obtain ⟨hin, hroom⟩ := hallows
    intro fd hfildes hused hfirst
    cases hm : st.mounted with
    | none =>
      rw [horderly.closed (h.closed hm) fd] at hused
      cases hused
    | some m =>
      obtain ⟨fd', hfd', ⟨-, hunused⟩ | ⟨d, i, offset, hfile, -, -, hopened⟩⟩ :=
        (h.working hm).views.file_cases hin
      · obtain rfl : fd = fd' := Fin.ext (by omega)
        rw [hunused] at hused
        cases hused
      · obtain rfl : fd = fd' := Fin.ext (by omega)
        rw [hopened.offset] at hfirst ⊢
        have hle : offset < blockSize → offset + nbyte ≤ blockSize := hroom m hm _ hfile
        omega
  | write fildes buf =>
    obtain ⟨hin, hroom⟩ := hallows
    intro fd hfildes hused
    cases hm : st.mounted with
    | none =>
      rw [horderly.closed (h.closed hm) fd] at hused
      cases hused
    | some m =>
      obtain ⟨fd', hfd', ⟨-, hunused⟩ | ⟨d, i, offset, hfile, -, -, hopened⟩⟩ :=
        (h.working hm).views.file_cases hin
      · obtain rfl : fd = fd' := Fin.ext (by omega)
        rw [hunused] at hused
        cases hused
      · obtain rfl : fd = fd' := Fin.ext (by omega)
        rw [hopened.offset]
        have hle : buf = [] ∨ offset + buf.length ≤ blockSize := hroom m hm _ hfile
        exact hle.imp_right fun hle => by omega
  | _ => trivial

theorem Mount.onFile_disk {fildes : Int} {answer : OpenFile → Result × Mount}
    (h : ∀ f, (answer f).2.disk = m.disk) : (m.onFile fildes answer).2.disk = m.disk := by
  unfold Mount.onFile
  split
  · rfl
  · exact h _

theorem Mount.call_disk (m : Mount) (c : Call) : (m.call c).2.disk = m.disk := by
  cases c with
  | «open» name =>
    simp only [Mount.call]
    split
    · rfl
    · rfl
  | delete name =>
    simp only [Mount.call]
    split
    · rfl
    · split
      · rfl
      · rfl
  | read fildes nbyte =>
    refine Mount.onFile_disk fun f => ?_
    split
    · rfl
    · rfl
  | lseek fildes position =>
    refine Mount.onFile_disk fun f => ?_
    split
    · rfl
    · rfl
  | truncate fildes length =>
    refine Mount.onFile_disk fun f => ?_
    split
    · rfl
    · rfl
  | close fildes => exact Mount.onFile_disk fun f => rfl
  | write fildes buf => exact Mount.onFile_disk fun f => rfl
  | getFilesize fildes => exact Mount.onFile_disk fun f => rfl
  | _ => rfl

theorem Session.Represents.answers (h : w.Represents P st) (hm : st.mounted = some m)
    (hallows : w.Allows env c) (hstays : Stays P A) (hkind : A (env, c)) (humount : c ≠ .umountFs)
    (hanswers : Answers env w.state m c) : ∃ s', call env w.state c = .ok ((m.call c).1, s') ∧
      Session.Represents P ⟨s', w.made⟩ { st with mounted := some (m.call c).2 } := by
  obtain ⟨hopen, hmade, -⟩ := h.mounted m hm
  obtain ⟨s', hcall, hviews⟩ := hanswers
  have hstep : w.Step (env, c) ⟨s', Session.madeAfter env w.made c (m.call c).1⟩ := by
    refine ⟨hallows, ?_⟩
    rw [Session.step, hcall]
    rfl
  obtain ⟨-, hframe, hsame⟩ := h.throughout.orderly.mounted_step hopen hstep.move humount
  have hnext := hstays _ _ _ h.throughout hkind hstep
  rw [show Session.madeAfter env w.made c (m.call c).1 = w.made from hsame] at hnext
  have hopen' : s'.handle = some m.disk := hframe.handle.trans hopen
  refine ⟨s', hcall, hnext, fun x hx => ?_, (fun hnone => by cases hnone), ?_⟩
  · have hx' : s'.handle ≠ some x := hx
    have hne : x ≠ m.disk := by
      rintro rfl
      exact hx' hopen'
    have hfile : s'.files x = w.state.files x := hframe.files x hne
    show st.volumes x = if w.made x then some (.of (stored (s'.files x)) (s'.files x)) else none
    rw [hfile]
    refine h.volumes x ?_
    rw [hopen]
    exact fun heq => hne (Option.some.inj heq).symm
  · rintro m' ⟨rfl⟩
    rw [Mount.call_disk]
    exact ⟨hopen', hmade, hviews⟩

theorem Session.Represents.mounted_step (h : w.Represents P st) (hm : st.mounted = some m)
    (hallows : st.Allows (env, c)) (hstays : Stays P A) (hkind : A (env, c)) (humount : c ≠ .umountFs)
    (hclean : ∀ name, c = .create name → Clean w.state.toMetadata (w.state.files m.disk)) :
    ∃ s', call env w.state c = .ok ((m.call c).1, s') ∧
      Session.Represents P ⟨s', w.made⟩ { st with mounted := some (m.call c).2 } := by
  refine h.answers hm (h.allows hallows) hstays hkind humount ?_
  have hworking := h.working hm
  have hbusy : ¬ st.mounted.isNone := by
    rw [hm]
    exact Bool.false_ne_true
  cases c with
  | makeFs diskName => exact absurd hallows hbusy
  | mountFs diskName => exact absurd hallows.1 hbusy
  | umountFs => exact absurd rfl humount
  | create name => exact hworking.create (hclean name rfl)
  | «open» name => exact hworking.open
  | close fildes => exact hworking.close hallows
  | delete name => exact hworking.delete
  | read fildes nbyte => exact hworking.read hallows.1 (hallows.2 m hm)
  | write fildes buf => exact hworking.write hallows.1 (hallows.2 m hm)
  | getFilesize fildes => exact hworking.getFilesize hallows
  | listfiles => exact hworking.listfiles
  | lseek fildes position => exact hworking.lseek hallows
  | truncate fildes length => exact hworking.truncate hallows

theorem umount_eq (hopen : s.handle = some n) (hready : s.readyForUse = true) :
    umountFs env s = (0, unmounted env s n) := by
  have hwrite : s.blockWrite 0 (writeBuf env s.toMetadata) = some { s with
      files := Function.update s.files n ((s.files n).write 0 (writeBuf env s.toMetadata)) } :=
    blockWrite_eq (b := 0) hopen (by decide) _
  unfold umountFs
  simp only [hready, Bool.not_true, Bool.false_eq_true, if_false, hwrite, State.closeDisk, hopen]
  rfl

theorem Session.Represents.umount (h : w.Represents P st) (hm : st.mounted = some m) (hstays : Stays P A)
    (hkind : A (env, .umountFs)) :
    ∃ s', call env w.state .umountFs = .ok (.of 0, s') ∧ Session.Represents P ⟨s', w.made⟩
      ⟨(st.setVolume m.disk (some m.volume)).volumes, none⟩ := by
  obtain ⟨hopen, hmade, hviews⟩ := h.mounted m hm
  have hworking := h.working hm
  have hcall : call env w.state .umountFs = .ok (.of 0, unmounted env w.state m.disk) := by
    rw [call, umount_eq hopen hworking.ready]
    rfl
  have hstep : w.Step (env, .umountFs) ⟨unmounted env w.state m.disk, w.made⟩ := by
    refine ⟨trivial, ?_⟩
    rw [Session.step, hcall]
    rfl
  refine ⟨_, hcall, hstays _ _ _ h.throughout hkind hstep, fun x _ => ?_, fun _ => rfl,
    fun _ hnone => by cases hnone⟩
  show Function.update st.volumes m.disk (some m.volume) x = if w.made x then
    some (.of (stored ((unmounted env w.state m.disk).files x)) ((unmounted env w.state m.disk).files x))
    else none
  by_cases hx : x = m.disk
  · have hfile : (unmounted env w.state m.disk).files m.disk =
        (w.state.files m.disk).write 0 (writeBuf env w.state.toMetadata) := Function.update_self ..
    rw [hx, Function.update_self, if_pos hmade, hfile, stored_write, hviews.volume,
      volume_store hworking.order.consistent env]
  · have hfile : (unmounted env w.state m.disk).files x = w.state.files x := Function.update_of_ne hx ..
    rw [Function.update_of_ne hx, hfile]
    refine h.volumes x ?_
    rw [hopen]
    exact fun heq => hx (Option.some.inj heq).symm

/-! ### Calls while no disk is mounted -/

theorem idle_refuses (hready : s.readyForUse = false) (hclosed : ∀ fd, (s.fds fd).isUsed = false)
    (hmake : ∀ diskName, c ≠ .makeFs diskName) (hmount : ∀ diskName, c ≠ .mountFs diskName)
    (hallows : st.Allows (env, c)) : ∃ s', call env s c = .ok (.of (-1), s') := by
  have hdescriptor : ∀ (c : DescriptorCall) {fildes : Int}, FileStore.InTable fildes →
      ∃ s', call env s (c.on fildes) = .ok (.of (-1), s') := by
    intro c fildes hin
    have hindex : index maxDescriptors fildes = .ok ⟨fildes.toNat, by
        have hlt := hin.2
        have hpos := hin.1
        omega⟩ := dif_pos hin
    exact ⟨s, refuses_of_index hindex (hclosed _)⟩
  have hnot : (!s.readyForUse) = true := by
    rw [hready]
    rfl
  cases c with
  | makeFs diskName => exact absurd rfl (hmake diskName)
  | mountFs diskName => exact absurd rfl (hmount diskName)
  | umountFs =>
    refine ⟨s, ?_⟩
    rw [call, umountFs, if_pos hnot]
    rfl
  | create name =>
    obtain ⟨r, s', hcall⟩ := create_total env s name
    obtain ⟨-, -, -, -, ⟨rfl, -⟩ | ⟨-, -, hbusy, -⟩⟩ := create_spec hcall
    · refine ⟨s', ?_⟩
      rw [call, hcall]
      rfl
    · rw [hready] at hbusy
      cases hbusy
  | «open» name =>
    refine ⟨s, ?_⟩
    simp only [call, fsOpen, if_pos hnot]
    rfl
  | close fildes => exact hdescriptor .close hallows
  | delete name =>
    refine ⟨s, ?_⟩
    simp only [call, fsDelete, if_pos hnot]
    rfl
  | read fildes nbyte => exact hdescriptor (.read nbyte) hallows.1
  | write fildes buf => exact hdescriptor (.write buf) hallows.1
  | getFilesize fildes => exact hdescriptor .getFilesize hallows
  | listfiles =>
    refine ⟨s, ?_⟩
    rw [call, fsListfiles, if_pos hnot]
  | lseek fildes position => exact hdescriptor (.lseek position) hallows
  | truncate fildes length => exact hdescriptor (.truncate length) hallows

theorem Session.Represents.idle_step (h : w.Represents P st) (hm : st.mounted = none)
    (hmake : ∀ diskName, c ≠ .makeFs diskName) (hmount : ∀ diskName, c ≠ .mountFs diskName)
    (hallows : st.Allows (env, c)) (hstays : Stays P A) (hkind : A (env, c)) :
    ∃ s', call env w.state c = .ok (.of (-1), s') ∧ Session.Represents P ⟨s', w.made⟩ st := by
  have hopen := h.closed hm
  have hready := h.throughout.orderly.not_ready_of_closed hopen
  have hclosed := h.throughout.orderly.closed hopen
  obtain ⟨s', hcall⟩ := idle_refuses hready hclosed hmake hmount hallows
  have hstep : w.Step (env, c) ⟨s', Session.madeAfter env w.made c (.of (-1))⟩ := by
    refine ⟨h.allows hallows, ?_⟩
    rw [Session.step, hcall]
    rfl
  have hnext := hstays _ _ _ h.throughout hkind hstep
  have hsame : Session.madeAfter env w.made c (.of (-1)) = w.made := by
    cases c with
    | makeFs diskName => exact absurd rfl (hmake diskName)
    | _ => rfl
  rw [hsame] at hnext
  obtain ⟨bitmap, rfl⟩ := idle_call hready hclosed hmake hmount hcall
  refine ⟨_, hcall, hnext, h.volumes, h.closed, fun m hm' => ?_⟩
  rw [hm] at hm'
  cases hm'

/-! ### Making and mounting -/

/-- `make_fs` succeeds if the host does all that it asks for. -/
theorem make_outcome (env : Env) (hclosed : s.handle = none) (x : CString) :
    ∃ s', makeFs env s (some x) = .ok (if env.creates = true ∧ diskBlocks ≤ env.written ∧
      env.opens = true then 0 else -1, s') := by
  obtain ⟨bitmap, hwrite, -⟩ := exists_fresh
  unfold makeFs
  rw [hwrite, ok_bind]
  by_cases hcreates : env.creates = true
  · by_cases hwritten : diskBlocks ≤ env.written
    · by_cases hopens : env.opens = true
      · rw [if_pos ⟨hcreates, hwritten, hopens⟩]
        simp only [State.makeDisk, hcreates, if_true, decide_eq_true hwritten, Bool.not_true,
          Bool.false_eq_true, if_false, State.openDisk, hclosed, if_pos hopens, State.blockWrite,
          State.closeDisk]
        rw [if_neg (by decide)]
        exact ⟨_, rfl⟩
      · rw [if_neg fun hall => hopens hall.2.2]
        simp only [State.makeDisk, hcreates, if_true, decide_eq_true hwritten, Bool.not_true,
          Bool.false_eq_true, if_false, State.openDisk, hclosed, if_neg hopens]
        exact ⟨_, rfl⟩
    · rw [if_neg fun hall => hwritten hall.2.1]
      simp only [State.makeDisk, hcreates, if_true, decide_eq_false hwritten, Bool.not_false]
      exact ⟨_, rfl⟩
  · rw [if_neg fun hall => hcreates hall.1]
    simp only [State.makeDisk, if_neg hcreates, Bool.not_false, if_true]
    exact ⟨_, rfl⟩

theorem Session.Represents.make (h : w.Represents P st) (hm : st.mounted = none) (hstays : Stays P A)
    (hkind : A (env, .makeFs (some x))) :
    ∃ s' made, call env w.state (.makeFs (some x)) = .ok ((st.make env x).1, s') ∧
      Session.Represents P ⟨s', made⟩ (st.make env x).2 := by
  have hopen := h.closed hm
  obtain ⟨s', hmakes⟩ := make_outcome env hopen x
  generalize hret : (if env.creates = true ∧ diskBlocks ≤ env.written ∧ env.opens = true then (0 : Int)
    else -1) = ret at hmakes
  have hcall : call env w.state (.makeFs (some x)) = .ok (.of ret, s') := by
    rw [call, hmakes]
    rfl
  have hstep : w.Step (env, .makeFs (some x))
      ⟨s', Session.madeAfter env w.made (.makeFs (some x)) (.of ret)⟩ := by
    refine ⟨h.throughout.orderly.not_ready_of_closed hopen, ?_⟩
    rw [Session.step, hcall]
    rfl
  have hnext := hstays _ _ _ h.throughout hkind hstep
  obtain ⟨hkept, hfiles, hresult⟩ := make_cases hopen hmakes
  have hclosed' : s'.handle = none := hkept.handle.trans hopen
  have hnone : ∀ y, w.state.handle ≠ some y := by
    intro y hy
    rw [hopen] at hy
    cases hy
  have hmount : (st.make env x).2.mounted = none := by
    unfold FileStore.make
    split
    · exact hm
    · split
      · exact hm
      · exact hm
  have hanswer : (st.make env x).1 = .of ret := by
    rw [← hret, FileStore.make]
    split
    · rename_i hfails
      rw [if_neg fun hall => hfails hall.1]
    · split
      · rename_i hcreates hall
        rw [if_pos ⟨not_not.mp hcreates, hall⟩]
      · rename_i hfails
        rw [if_neg fun hall => hfails hall.2]
  refine ⟨s', _, by rw [hanswer]; exact hcall, hnext, fun y _ => ?_, fun _ => hclosed',
    fun m hm' => by rw [hmount] at hm'; cases hm'⟩
  -- The other disks stay; this one is new or spoiled, if it could be opened.
  have hold : some x ≠ some y ∨ env.creates = false → w.made y = Session.madeAfter env w.made
      (.makeFs (some x)) (.of ret) y → st.volumes y = if Session.madeAfter env w.made
        (.makeFs (some x)) (.of ret) y then some (.of (stored (s'.files y)) (s'.files y)) else none := by
    intro hstays hmade
    rw [← hmade, hfiles y hstays]
    exact h.volumes y (hnone y)
  have hother : y ≠ x → w.made y =
      Session.madeAfter env w.made (.makeFs (some x)) (.of ret) y := by
    intro hne
    simp only [Session.madeAfter, if_neg hne]
  unfold FileStore.make
  split
  · rename_i hcreates
    have hfails : env.creates = false := by simpa using hcreates
    refine hold (.inr hfails) ?_
    by_cases hy : y = x
    · rw [if_neg fun hall => hcreates hall.1] at hret
      simp [Session.madeAfter, hy, hfails, ← hret, Result.of]
    · exact hother hy
  · rename_i hcreates
    have hcan : env.creates = true := not_not.mp hcreates
    split
    · rename_i hall
      rw [if_pos ⟨hcan, hall⟩] at hret
      show Function.update st.volumes x (some .empty) y = _
      by_cases hy : y = x
      · obtain hfails | ⟨-, z, bitmap, hz, -, hfresh, hfile⟩ := hresult
        · rw [← hret] at hfails
          cases hfails
        · cases hz
          have hmade : Session.madeAfter env w.made (.makeFs (some x)) (.of ret) y = true := by
            simp [Session.madeAfter, hy, ← hret, Result.of]
          rw [if_pos hmade, hy, Function.update_self, hfile,
            show stored (madeFile env bitmap) = emptyMetadata bitmap from stored_write ..,
            volume_empty hfresh]
      · rw [Function.update_of_ne hy]
        exact hold (.inl fun heq => hy (Option.some.inj heq).symm) (hother hy)
    · rename_i hall
      rw [if_neg fun hboth => hall hboth.2] at hret
      show Function.update st.volumes x none y = _
      by_cases hy : y = x
      · have hspoiled : ¬ Session.madeAfter env w.made (.makeFs (some x)) (.of ret) y = true := by
          simp [Session.madeAfter, hy, hcan, ← hret, Result.of]
        rw [show Function.update st.volumes x none y = none by rw [hy, Function.update_self]]
        exact (if_neg hspoiled).symm
      · rw [Function.update_of_ne hy]
        exact hold (.inl fun heq => hy (Option.some.inj heq).symm) (hother hy)

theorem mount_eq (hclosed : s.handle = none) (hopens : env.opens = true) (hsize : 0 < (s.files x).size) :
    mountFs env s (some x) =
      (0, { s with toMetadata := stored (s.files x), readyForUse := true, handle := some x }) := by
  unfold mountFs
  simp only [State.openDisk, hclosed, if_pos hopens, State.blockRead]
  rw [if_neg (by decide)]
  have hread : (s.files x).read 0 env.buffer = (s.files x).block 0 := if_pos hsize
  simp only [Int.toNat_zero, hread]
  rfl

theorem Session.Represents.kept {r : Result} (h : w.Represents P st) (hm : st.mounted = none)
    (hallows : st.Allows (env, c)) (hstays : Stays P A) (hkind : A (env, c))
    (hcall : call env w.state c = .ok (r, s')) (hmade : Session.madeAfter env w.made c r = w.made)
    (hkept : Kept w.state s') (hfiles : s'.files = w.state.files) :
    Session.Represents P ⟨s', w.made⟩ st := by
  have hopen := h.closed hm
  have hstep : w.Step (env, c) ⟨s', w.made⟩ := by
    refine ⟨h.allows hallows, ?_⟩
    rw [Session.step, hcall]
    exact congrArg (fun made => Except.ok (⟨s', made⟩ : Session)) hmade
  refine ⟨hstays _ _ _ h.throughout hkind hstep, fun x _ => ?_, fun _ => hkept.handle.trans hopen,
    fun m hm' => by rw [hm] at hm'; cases hm'⟩
  show st.volumes x = if w.made x then some (.of (stored (s'.files x)) (s'.files x)) else none
  rw [hfiles]
  refine h.volumes x ?_
  rw [hopen]
  exact fun heq => by cases heq

theorem Session.Represents.unmade (h : w.Represents P st) (hm : st.mounted = none) (hstays : Stays P A)
    (hkind : A (env, .makeFs none)) :
    ∃ s', call env w.state (.makeFs none) = .ok (.of (-1), s') ∧ Session.Represents P ⟨s', w.made⟩ st := by
  have hopen := h.closed hm
  have hallows : st.Allows (env, .makeFs none) := Option.isNone_iff_eq_none.mpr hm
  obtain ⟨bitmap, hwrite, -⟩ := exists_fresh
  have hmakes : makeFs env w.state none =
      .ok (-1, { w.state with toMetadata := emptyMetadata bitmap }) := by
    unfold makeFs
    rw [hwrite, ok_bind]
    rfl
  have hcall : call env w.state (.makeFs none) =
      .ok (.of (-1), { w.state with toMetadata := emptyMetadata bitmap }) := by
    rw [call, hmakes]
    rfl
  exact ⟨_, hcall, h.kept hm hallows hstays hkind hcall rfl (make_cases hopen hmakes).1 rfl⟩

theorem Session.Represents.unopened {diskName : Option CString} (h : w.Represents P st)
    (hm : st.mounted = none) (hallows : st.Allows (env, .mountFs diskName)) (hstays : Stays P A)
    (hkind : A (env, .mountFs diskName)) (hnot : ∀ x ∈ diskName, env.opens = false) :
    ∃ s', call env w.state (.mountFs diskName) = .ok (.of (-1), s') ∧
      Session.Represents P ⟨s', w.made⟩ st := by
  have hopen := h.closed hm
  obtain ⟨⟨ret, s'⟩, hmounts⟩ : ∃ p, mountFs env w.state diskName = p := ⟨_, rfl⟩
  obtain ⟨rfl, hkept, hfiles⟩ | ⟨-, x, hx, hopens, -⟩ := mount_cases hopen hmounts
  · have hcall : call env w.state (.mountFs diskName) = .ok (.of (-1), s') := by
      rw [call, hmounts]
      rfl
    exact ⟨s', hcall, h.kept hm hallows hstays hkind hcall rfl hkept hfiles⟩
  · rw [hnot x hx] at hopens
    cases hopens

theorem Session.Represents.mount (h : w.Represents P st) (hm : st.mounted = none)
    (hallows : st.Allows (env, .mountFs (some x))) (hstays : Stays P A)
    (hkind : A (env, .mountFs (some x))) :
    ∃ s', call env w.state (.mountFs (some x)) = .ok ((st.mount env x).1, s') ∧
      Session.Represents P ⟨s', w.made⟩ (st.mount env x).2 := by
  have hopen := h.closed hm
  have hnone : ∀ y, w.state.handle ≠ some y := by
    intro y hy
    rw [hopen] at hy
    cases hy
  by_cases hopens : env.opens = true
  · have hmade : w.made x = true := (h.allows hallows).2 x rfl hopens
    have hdisk := h.throughout.orderly.disks x hmade (hnone x)
    have hvolume := h.volumes x (hnone x)
    rw [if_pos hmade] at hvolume
    have hmount : st.mount env x = (.of 0, ⟨st.volumes, some
        ⟨x, .of (stored (w.state.files x)) (w.state.files x), fun _ => none⟩⟩) := by
      unfold FileStore.mount
      rw [hvolume]
      exact if_pos hopens
    rw [hmount]
    have hcall : call env w.state (.mountFs (some x)) = .ok (.of 0, { w.state with
        toMetadata := stored (w.state.files x), readyForUse := true, handle := some x }) := by
      rw [call, mount_eq hopen hopens (by rw [hdisk.size]; decide)]
      rfl
    have hstep : w.Step (env, .mountFs (some x)) ⟨{ w.state with
        toMetadata := stored (w.state.files x), readyForUse := true, handle := some x }, w.made⟩ := by
      refine ⟨h.allows hallows, ?_⟩
      rw [Session.step, hcall]
      rfl
    refine ⟨_, hcall, hstays _ _ _ h.throughout hkind hstep, fun y _ => h.volumes y (hnone y),
      (fun hnot => by cases hnot), ?_⟩
    rintro m ⟨rfl⟩
    exact ⟨rfl, hmade, rfl, fun fd => h.throughout.orderly.closed hopen fd⟩
  · have hfails : env.opens = false := by simpa using hopens
    have hmount : st.mount env x = (.of (-1), st) := by
      unfold FileStore.mount
      split
      · rfl
      · exact if_neg hopens
    rw [hmount]
    exact h.unopened hm hallows hstays hkind fun _ _ => hfails

/-! ### The refinement -/

/-- What one call leads to, if free blocks hold zeros whenever a file may be created. -/
theorem Session.Represents.step (h : w.Represents P st) (hallows : st.Allows (env, c)) (hstays : Stays P A)
    (hkind : A (env, c)) (hclean : ∀ name, c = .create name → ∀ m f, P m f → Clean m f) :
    ∃ s' made, call env w.state c = .ok ((st.call (env, c)).1, s') ∧
      Session.Represents P ⟨s', made⟩ (st.call (env, c)).2 := by
  cases hm : st.mounted with
  | none =>
    by_cases hmake : ∃ diskName, c = .makeFs diskName
    · obtain ⟨diskName, rfl⟩ := hmake
      cases diskName with
      | none =>
        obtain ⟨s', hcall, hnext⟩ := h.unmade hm hstays hkind
        simp only [FileStore.call, hm]
        exact ⟨s', w.made, hcall, hnext⟩
      | some x =>
        obtain ⟨s', made, hcall, hnext⟩ := h.make hm hstays hkind
        simp only [FileStore.call, hm]
        exact ⟨s', made, hcall, hnext⟩
    by_cases hmount : ∃ diskName, c = .mountFs diskName
    · obtain ⟨diskName, rfl⟩ := hmount
      cases diskName with
      | none =>
        obtain ⟨s', hcall, hnext⟩ := h.unopened hm hallows hstays hkind fun _ hx => by cases hx
        simp only [FileStore.call, hm]
        exact ⟨s', w.made, hcall, hnext⟩
      | some x =>
        obtain ⟨s', hcall, hnext⟩ := h.mount hm hallows hstays hkind
        simp only [FileStore.call, hm]
        exact ⟨s', w.made, hcall, hnext⟩
    have hother : (∀ diskName, c ≠ .makeFs diskName) ∧ ∀ diskName, c ≠ .mountFs diskName :=
      ⟨fun x hx => hmake ⟨x, hx⟩, fun x hx => hmount ⟨x, hx⟩⟩
    obtain ⟨s', hcall, hnext⟩ := h.idle_step hm hother.1 hother.2 hallows hstays hkind
    have hstore : st.call (env, c) = (.of (-1), st) := by
      cases c with
      | makeFs diskName => exact absurd ⟨diskName, rfl⟩ hmake
      | mountFs diskName => exact absurd ⟨diskName, rfl⟩ hmount
      | _ => simp only [FileStore.call, hm]
    rw [hstore]
    exact ⟨s', w.made, hcall, hnext⟩
  | some m =>
    by_cases humount : c = .umountFs
    · subst humount
      obtain ⟨s', hcall, hnext⟩ := h.umount hm hstays hkind
      simp only [FileStore.call, hm]
      exact ⟨s', w.made, hcall, hnext⟩
    · obtain ⟨s', hcall, hnext⟩ := h.mounted_step hm hallows hstays hkind humount fun name hcreate =>
        hclean name hcreate _ _ (h.throughout.mounted _ (h.mounted m hm).1)
      have hstore : st.call (env, c) = ((m.call c).1, { st with mounted := some (m.call c).2 }) := by
        cases c with
        | umountFs => exact absurd rfl humount
        | _ => simp only [FileStore.call, hm]
      rw [hstore]
      exact ⟨s', w.made, hcall, hnext⟩

/-- A state of the process with some disks made. -/
def Represents (s : State) (st : FileStore) : Prop := ∃ made, Session.Represents Clean ⟨s, made⟩ st

/-- `empty` is in a place of the frame that `fs_delete` does not reach when it reads the index block, so
that zeros are written. -/
def SparesEmpty (a : Env × Call) : Prop := ∀ name, a.2 = .delete name → ∀ k, ¬ a.1.Overwrites k

/-- What callers keep to, and deletions write zeros. -/
def FileStore.Keeps (st : FileStore) (a : Env × Call) : Prop := st.Allows a ∧ SparesEmpty a

theorem clean_stays : Stays Clean SparesEmpty := by
  rintro w w' ⟨env, c⟩ h hspares hstep
  refine h.clean_step (fun n _ => ?_) hstep
  cases c with
  | delete name => exact fun i d _ k hk => absurd hk (hspares name rfl k)
  | _ => trivial

theorem sparesEmpty_plain (c : Call) : SparesEmpty (.plain, c) := fun _ _ => not_overwrites_plain

theorem refines_store :
    Refines (fun s a => call a.1 s a.2) FileStore.call FileStore.Keeps Represents := by
  rintro s st ⟨env, c⟩ ⟨made, h⟩ ⟨hallows, hspares⟩
  obtain ⟨s', made', hcall, hnext⟩ := h.step hallows clean_stays hspares fun _ _ _ _ hclean => hclean
  exact ⟨s', hcall, made', hnext⟩

/-- Whatever the host holds at first, nothing that callers may do is undefined, and every answer is the one
of the store. -/
theorem refines_from_boot (files : CString → File) {calls : List (Env × Call)}
    (h : Each FileStore.call FileStore.Keeps .empty calls) :
    ∃ s', answers (fun s a => call a.1 s a.2) (boot files) calls =
        .ok ((replay FileStore.call .empty calls).1, s') ∧
      Represents s' (replay FileStore.call .empty calls).2 :=
  refines_store.answers ⟨_, represents_boot files⟩ h

/-- A file is written and found again after its disk has been mounted a second time. -/
def remountedFile : List (Env × Call) :=
  [.makeFs (some disk0), .mountFs (some disk0), .create nameA, .create nameA, .open nameA,
    .write 0 [1, 2, 3], .delete nameA, .umountFs, .mountFs (some disk0), .listfiles, .open nameA,
    .lseek 0 1, .read 0 2, .close 0, .delete nameA, .open nameA].map fun c => (Env.plain, c)

theorem refines_from_boot_remountedFile :
    ∃ s', answers (fun s a => call a.1 s a.2) (boot fun _ => .empty) remountedFile =
        .ok ([.of 0, .of 0, .of 0, .of (-1), .of 0, .of 3, .of (-1), .of 0, .of 0, ⟨0, [], [[97]]⟩,
          .of 0, .of 0, ⟨2, [2, 3], []⟩, .of 0, .of 0, .of (-1)], s') ∧
      Represents s' (replay FileStore.call .empty remountedFile).2 := by
  have hallows : Each FileStore.call (fun st a => st.Allows (a.1, a.2)) .empty remountedFile := by
    decide +kernel
  have hspares : ∀ a ∈ remountedFile, SparesEmpty a := by
    intro a ha
    obtain ⟨c, -, rfl⟩ := List.mem_map.mp ha
    exact sparesEmpty_plain c
  have hresults : (replay FileStore.call .empty remountedFile).1 =
      [.of 0, .of 0, .of 0, .of (-1), .of 0, .of 3, .of (-1), .of 0, .of 0, ⟨0, [], [[97]]⟩,
        .of 0, .of 0, ⟨2, [2, 3], []⟩, .of 0, .of 0, .of (-1)] := by
    decide +kernel
  rw [← hresults]
  exact refines_from_boot (fun _ => .empty) (hallows.and (.of_forall hspares))

end OSChallenges.FileSystem
