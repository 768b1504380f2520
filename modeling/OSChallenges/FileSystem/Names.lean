import OSChallenges.FileSystem.Sessions
import Mathlib.Data.List.TakeWhile

/-!
# Names, inodes and descriptors

In every session the names of the directory are different strings, each leads to a used inode of its
own, and each used descriptor refers to an inode with a name. What a descriptor refers to stays the
same until it is closed.
-/

namespace OSChallenges.FileSystem

open Records Words Outcomes Runs

/-- The three tables fit together. -/
structure Linked (s : State) : Prop where
  names : ∀ d e, s.named d → s.named e → (s.directory d).cName = (s.directory e).cName → d = e
  length : ∀ d, (s.directory d).cName.length ≤ 15
  entries : ∀ d, s.named d → ∃ i, s.leadsTo d i ∧ s.used i
  inodes : ∀ d e i, s.named d → s.named e → s.leadsTo d i → s.leadsTo e i → d = e
  descriptors : ∀ fd, (s.fds fd).isUsed = true → ∃ i d, (s.fds fd).inodeNum.toNat = i.val ∧
    s.used i ∧ s.named d ∧ s.leadsTo d i

/-- The descriptor refers to the file of this name, with these places in the tables and on the
disk. -/
structure RefersTo (s : State) (fd : Fin maxDescriptors) (name : CString) (d i : Fin maxFiles)
    (block : Nat) : Prop where
  isUsed : (s.fds fd).isUsed = true
  inodeNum : (s.fds fd).inodeNum.toNat = i
  used : s.used i
  index : s.indexAt i = block
  named : s.named d
  name : (s.directory d).cName = name.chars
  leads : s.leadsTo d i

theorem length_cName {e : DirEntry} (h : e.name 15 = 0) : e.cName.length ≤ 15 := by
  by_contra hlong
  have hsub : e.cName.length ≤ (List.ofFn e.name).length := (List.takeWhile_prefix _).length_le
  rw [List.length_ofFn] at hsub
  have hall : e.cName = List.ofFn e.name := by
    apply List.IsPrefix.eq_of_length (List.takeWhile_prefix _)
    show e.cName.length = _
    rw [List.length_ofFn]
    omega
  have hmem : e.name 15 ∈ e.cName := by
    rw [hall, List.mem_ofFn]
    exact ⟨15, rfl⟩
  have hne := List.mem_takeWhile_imp hmem
  rw [h] at hne
  exact absurd hne (by decide)

variable {env : Env} {w w' : Session} {n name : CString} {c : Call} {fd : Fin maxDescriptors}
  {i d : Fin maxFiles} {block : Nat}

theorem Orderly.linked (h : Orderly w) : Linked w.state := by
  cases hopen : w.state.handle with
  | none =>
    have hnamed : ∀ d, ¬ w.state.named d := by
      intro d hd
      rw [Metadata.named, h.empty hopen] at hd
      exact hd rfl
    refine ⟨fun d _ hd => absurd hd (hnamed d), ?_, fun d hd => absurd hd (hnamed d),
      fun d _ _ hd => absurd hd (hnamed d), ?_⟩
    · intro d
      rw [h.empty hopen]
      exact length_cName rfl
    · intro fd hfd
      rw [h.closed hopen fd] at hfd
      cases hfd
  | some n =>
    obtain ⟨hcons, hdesc⟩ := h.mounted n hopen
    refine ⟨hcons.names, fun d => length_cName (hcons.terminated d), hcons.named, hcons.unique, ?_⟩
    intro fd hfd
    obtain ⟨i, offset, hopened⟩ := hdesc fd hfd
    obtain ⟨d, hnamed, hleads⟩ := hopened.named
    exact ⟨i, d, hopened.inodeNum, hopened.used, hnamed, hleads⟩

/-- What `fs_open` returns refers to the file of the name. -/
theorem Orderly.opened (h : Orderly w) (hstep : w.Step (env, .open name) w')
    (hret : (fsOpen w.state name).1 = fd) : ∃ d i block, RefersTo w'.state fd name d i block := by
  obtain ⟨r, hcall, -⟩ := Session.step_cases hstep.2
  have hp := eq_of_number hcall
  have hr : r.ret = fd := by
    rw [← hret, hp]
  obtain ⟨hfails, -⟩ | ⟨d, fd', hentry, -, hfd, heq⟩ := open_cases hp
  · rw [hfails] at hr
    exact absurd hr (by omega)
  · have hsame : fd' = fd := Fin.ext (by omega)
    subst hsame
    obtain ⟨hnamed, hname⟩ := findDirectory_old hentry
    obtain ⟨i, hleads, hi⟩ := h.linked.entries d hnamed
    rw [heq]
    refine ⟨d, i, w.state.indexAt i, ?_, ?_, hi, rfl, hnamed, hname.symm, hleads⟩
    · simp only [Function.update_self]
    · simp only [Function.update_self]
      exact hleads

theorem Orderly.refersTo (h : Orderly w) (hstep : w.Step (env, c) w') (hclose : c ≠ .close fd)
    (humount : c ≠ .umountFs) (hrefers : RefersTo w.state fd name d i block) :
    RefersTo w'.state fd name d i block := by
  cases hopen : w.state.handle with
  | none =>
    have hused := hrefers.isUsed
    rw [h.closed hopen fd] at hused
    cases hused
  | some n =>
    obtain ⟨j, offset, hopened⟩ := (h.mounted n hopen).described fd hrefers.isUsed
    have hji : j = i := Fin.ext (hopened.inodeNum.symm.trans hrefers.inodeNum)
    subst hji
    obtain ⟨-, hframe, -⟩ := h.mounted_step hopen hstep.move humount
    have hstill := hframe.stillOpen fd j offset hopened hclose
    have hentry := hstill.entry d hrefers.named hrefers.leads
    refine ⟨hstill.isUsed, ?_, hstill.used, hstill.index.trans hrefers.index, ?_, ?_, ?_⟩
    · rw [hstill.inodeNum]
      exact hrefers.inodeNum
    · rw [Metadata.named, hentry]
      exact hrefers.named
    · rw [hentry]
      exact hrefers.name
    · rw [Metadata.leadsTo, hentry]
      exact hrefers.leads

theorem Session.step_open (w : Session) (env : Env) (name : CString) :
    w.Step (env, .open name) ⟨(fsOpen w.state name).2, w.made⟩ := ⟨trivial, rfl⟩

/-- A step that leaves the descriptor open. -/
def Session.KeepsOpen (fd : Fin maxDescriptors) (w : Session) (a : Env × Call) (w' : Session) : Prop :=
  w.Step a w' ∧ a.2 ≠ .close fd ∧ a.2 ≠ .umountFs

/-- In every state of a session the tables fit together; and a descriptor that `fs_open` returns at
its end refers to the file of that name as long as it is not closed. -/
theorem names_and_descriptors {files : CString → File} {run : List ((Env × Call) × Session)}
    (h : EachStep Session.Step (.boot files) run) :
    Always (fun w => Linked w.state) (.boot files) run ∧
    ∀ env name w' (fd : Fin maxDescriptors), (last (.boot files) run).Step (env, .open name) w' →
      (fsOpen (last (.boot files) run).state name).1 = fd →
      ∀ rest, EachStep (Session.KeepsOpen fd) w' rest →
        ∃ d i block, Always (fun w => RefersTo w.state fd name d i block) w' rest := by
  have horderly := always_orderly h
  refine ⟨horderly.mono fun w hw => hw.linked, ?_⟩
  intro env name w' fd hstep hret rest hrest
  obtain ⟨d, i, block, hrefers⟩ := horderly.last.opened hstep hret
  have hboth : Always (fun w => Orderly w ∧ RefersTo w.state fd name d i block) w' rest := by
    refine EachStep.always ?_ ⟨horderly.last.step hstep, hrefers⟩ hrest
    intro w a w' hw hkeeps
    exact ⟨hw.1.step hkeeps.1, hw.1.refersTo hkeeps.1 hkeeps.2.1 hkeeps.2.2 hw.2⟩
  exact ⟨d, i, block, hboth.mono fun w hw => hw.2⟩

@[irreducible] def openedFile : Session :=
  ⟨(fsOpen (last (.boot fun _ => .empty) oneFile).state nameA).2,
    (last (.boot fun _ => .empty) oneFile).made⟩

/-- The file cannot be deleted while it is open. -/
def keptOpen : List ((Env × Call) × Session) :=
  trail Session.step openedFile ([.delete nameA, .write 0 [7], .open nameA].map fun c => (Env.plain, c))

theorem names_and_descriptors_keptOpen : oneFile.length = 3 ∧ keptOpen.length = 3 ∧
    Always (fun w => Linked w.state) (.boot fun _ => .empty) oneFile ∧
    ∃ d i block, Always (fun w => RefersTo w.state descriptor0 nameA d i block) openedFile keptOpen := by
  have hallows : EachStep (fun w a _ => Session.Allows w a.1 a.2) (.boot fun _ => .empty) oneFile := by
    decide +kernel
  have hkeeps : EachStep (fun w a _ => Session.Allows w a.1 a.2 ∧ a.2 ≠ .close descriptor0 ∧
      a.2 ≠ .umountFs) openedFile keptOpen := by
    decide +kernel
  obtain ⟨hlinked, hopened⟩ := names_and_descriptors (hallows.and (eachStep_trail ..))
  have hstep : (last (.boot fun _ => .empty) oneFile).Step (.plain, .open nameA) openedFile := by
    unfold openedFile
    exact Session.step_open ..
  have hret : (fsOpen (last (.boot fun _ => .empty) oneFile).state nameA).1 = (descriptor0 : Nat) := by
    decide +kernel
  have htrail : EachStep (fun w a w' => Session.step w a = .ok w') openedFile keptOpen := by
    unfold keptOpen
    apply eachStep_trail
  have hrest : EachStep (Session.KeepsOpen descriptor0) openedFile keptOpen := by
    apply (hkeeps.and htrail).mono
    intro w a w' hstep
    exact ⟨⟨hstep.1.1, hstep.2⟩, hstep.1.2⟩
  have hrefers := hopened .plain nameA openedFile descriptor0 hstep hret keptOpen hrest
  refine ⟨?_, ?_, hlinked, hrefers⟩
  · decide +kernel
  · decide +kernel

end OSChallenges.FileSystem
