import OSChallenges.FileSystem.Sessions

/-!
# What calls do to the open disk

Only creations, deletions and writes change the blocks or the bitmap of the open disk. So a property of
the tables and the blocks of disks holds along every session if these three keep it, new disks have it and
storing the tables in block 0 does not lose it.
-/

namespace OSChallenges.FileSystem

open Records Words Outcomes Runs

/-- What a call on the open disk does, `umount_fs` apart. -/
inductive Effect (env : Env) (s : State) (n : CString) : Call → State → Prop
  /-- Descriptors and sizes may have changed. -/
  | tables (c : Call) (s' : State) (bitmap : s'.usedBlocksBitmap = s.usedBlocksBitmap)
      (directory : s'.directory = s.directory) (files : s'.files = s.files)
      (inodes : ∀ i, (s'.used i ↔ s.used i) ∧ s'.indexAt i = s.indexAt i) : Effect env s n c s'
  /-- A creation that fails has marked what it found. -/
  | mark (name : CString) (loc num : Int) (bitmap : Bitmap)
      (reserves : Reserves s.usedBlocksBitmap loc num bitmap)
      (fails : ¬ (s.readyForUse = true ∧ Creatable s name)) :
      Effect env s n (.create name) { s with usedBlocksBitmap := bitmap }
  | create (name : CString) (i d : Fin maxFiles) (a b : Nat) (bitmap : Bitmap)
      (reserves : Reserves s.usedBlocksBitmap a b bitmap) (lt : a < b)
      (found : Found s name i d a b bitmap) :
      Effect env s n (.create name) (created env s n name i d a b bitmap)
  | delete (name : CString) (i d : Fin maxFiles) (bitmap : Bitmap) (closed : Closed s name i d)
      (cleared : ∀ q, taken bitmap q = if q = s.indexAt i ∨ q = s.dataAt (s.files n) i then false
        else taken s.usedBlocksBitmap q) :
      Effect env s n (.delete name) (deleted s n i d (s.indexAt i) (s.dataAt (s.files n) i)
        (env.empty ((s.files n).block (s.indexAt i))) bitmap)
  | write (fildes : Int) (buf : List UInt8) (fd : Fin maxDescriptors) (i : Fin maxFiles)
      (offset : Nat) (b : Block) (opened : Opened s fd i offset) :
      Effect env s n (.write fildes buf)
        (written s n fd i (target s.toMetadata (s.files n) i offset) b (toInt32 buf.length))

variable {env : Env} {s s' : State} {n name : CString} {r : Result} {c : Call} {w w' : Session}

theorem Effect.refl (env : Env) (s : State) (n : CString) (c : Call) : Effect env s n c s :=
  .tables c s rfl rfl rfl fun _ => ⟨Iff.rfl, rfl⟩

theorem Effect.resize (env : Env) (s : State) (n : CString) (c : Call) (i : Fin maxFiles)
    (fileSize : BitVec 16) : Effect env s n c (resize s i fileSize) := by
  refine .tables c _ rfl rfl rfl fun j => ?_
  obtain ⟨hused, hindex⟩ := inodes_resize s i j fileSize
  exact ⟨hused, hindex⟩

theorem call_effect (hopen : s.handle = some n) (h : InOrder s n)
    (hmake : ∀ diskName, c ≠ .makeFs diskName) (hmount : ∀ diskName, c ≠ .mountFs diskName)
    (humount : c ≠ .umountFs) (hcall : call env s c = .ok (r, s')) : Effect env s n c s' := by
  cases c with
  | makeFs diskName => exact absurd rfl (hmake diskName)
  | mountFs diskName => exact absurd rfl (hmount diskName)
  | umountFs => exact absurd rfl humount
  | create name =>
    rw [call] at hcall
    obtain ⟨loc, num, bitmap, hreserves, ⟨-, rfl, hfails⟩ |
      ⟨-, i, d, a, b, rfl, rfl, hab, hfound, rfl⟩⟩ := create_reserves hopen (ok_of_number hcall)
    · exact .mark name loc num bitmap hreserves hfails
    · exact .create name i d a b bitmap hreserves hab hfound
  | «open» name =>
    obtain ⟨-, rfl⟩ | ⟨d, fd, -, -, -, rfl⟩ := open_cases (eq_of_number hcall)
    · exact .refl ..
    · exact .tables _ _ rfl rfl rfl fun _ => ⟨Iff.rfl, rfl⟩
  | close fildes =>
    obtain ⟨-, rfl⟩ | ⟨-, fd, -, -, rfl⟩ := close_cases (ok_of_number hcall)
    · exact .refl ..
    · exact .tables _ _ rfl rfl rfl fun _ => ⟨Iff.rfl, rfl⟩
  | delete name =>
    obtain ⟨-, rfl⟩ | ⟨-, i, d, bitmap, hclosed, htaken, rfl⟩ :=
      delete_spec hopen h.consistent (ok_of_number hcall)
    · exact .refl ..
    · exact .delete name i d bitmap hclosed htaken
  | read fildes nbyte =>
    obtain rfl | ⟨fd, i, offset, -, -, -, -, rfl⟩ := read_cases hopen h.consistent h.described hcall
    · exact .refl ..
    · exact .tables _ _ rfl rfl rfl fun _ => ⟨Iff.rfl, rfl⟩
  | write fildes buf =>
    obtain ⟨-, rfl⟩ | ⟨fd, i, offset, b, -, hopened, -, -, rfl⟩ :=
      write_cases hopen h.consistent h.described (ok_of_number hcall)
    · exact .refl ..
    · exact .write fildes buf fd i offset b hopened
  | getFilesize fildes =>
    rw [getFilesize_state hcall]
    exact .refl ..
  | listfiles =>
    cases hcall
    exact .refl ..
  | lseek fildes position =>
    obtain ⟨-, rfl⟩ | ⟨-, fd, i, -, -, -, -, -, rfl⟩ := lseek_cases (ok_of_number hcall)
    · exact .refl ..
    · exact .tables _ _ rfl rfl rfl fun _ => ⟨Iff.rfl, rfl⟩
  | truncate fildes length =>
    obtain ⟨-, rfl⟩ | ⟨-, fd, i, -, -, -, -, rfl⟩ := truncate_cases (ok_of_number hcall)
    · exact .refl ..
    · exact .resize ..

/-! ### Properties of all disks -/

/-- Everything is in order, and the open disk and those that have been made have the property. -/
structure Session.Throughout (P : Metadata → File → Prop) (w : Session) : Prop where
  orderly : Orderly w
  mounted : ∀ n, w.state.handle = some n → P w.state.toMetadata (w.state.files n)
  disks : w.Stored P

section

variable {P : Metadata → File → Prop}

theorem Session.Throughout.boot (files : CString → File) : Session.Throughout P (.boot files) :=
  ⟨.boot files, (fun _ hopen => by cases hopen), fun _ hmade => by cases hmade⟩

theorem Session.Throughout.idle (h : w.Throughout P)
    (hfresh : ∀ env bitmap, Fresh bitmap → P (emptyMetadata bitmap) (madeFile env bitmap))
    (hopen : w.state.handle = none) (hstep : w.Step (env, c) w') : w'.Throughout P := by
  suffices hdisks : (∀ n, w'.state.handle = some n →
      P w'.state.toMetadata (w'.state.files n)) ∧ w'.Stored P from
    ⟨h.orderly.step hstep, hdisks.1, hdisks.2⟩
  obtain ⟨hmounts, -, hcalled⟩ := hstep.move
  obtain ⟨s', made'⟩ := w'
  obtain ⟨r, hcall, rfl⟩ := Session.step_cases hcalled
  have hnone : ∀ x, w.state.handle ≠ some x := by
    intro x hx
    rw [hopen] at hx
    cases hx
  have hready := h.orderly.not_ready_of_closed hopen
  by_cases hmake : ∃ diskName, c = .makeFs diskName
  · obtain ⟨diskName, rfl⟩ := hmake
    have hcall' := ok_of_number hcall
    obtain ⟨hkept, -, -⟩ := make_cases hopen hcall'
    exact ⟨fun n hn => absurd (hkept.handle.symm.trans hn) (hnone n),
      h.disks.make hopen (fun bitmap hnew => hfresh env bitmap hnew) hcall'⟩
  by_cases hmount : ∃ diskName, c = .mountFs diskName
  · obtain ⟨diskName, rfl⟩ := hmount
    obtain ⟨hkept, hfiles⟩ | ⟨x, hx, rfl⟩ :=
      h.orderly.mount_found hready hmounts.2 (eq_of_number hcall)
    · exact ⟨fun n hn => absurd (hkept.handle.symm.trans hn) (hnone n),
        h.disks.of_files rfl (fun _ _ => by rw [hfiles]) fun x hx => absurd hx (hnone x)⟩
    · refine ⟨?_, h.disks.of_files rfl (fun _ _ => rfl) fun x hx => absurd hx (hnone x)⟩
      rintro n ⟨rfl⟩
      exact h.disks x hx (hnone x)
  obtain ⟨bitmap, rfl⟩ := idle_call hready (h.orderly.closed hopen) (fun x hx => hmake ⟨x, hx⟩)
    (fun x hx => hmount ⟨x, hx⟩) hcall
  refine ⟨fun n hn => absurd hn (hnone n), h.disks.of_files ?_ (fun _ _ => rfl) fun _ hx => hx⟩
  cases c with
  | makeFs diskName => exact absurd ⟨diskName, rfl⟩ hmake
  | _ => rfl

theorem Session.Throughout.working (h : w.Throughout P)
    (hstore : ∀ env m f, Consistent m f → P m f → P m (f.write 0 (writeBuf env m)))
    (hopen : w.state.handle = some n)
    (hnext : Effect env w.state n c w'.state → P w'.state.toMetadata (w'.state.files n))
    (hstep : w.Step (env, c) w') : w'.Throughout P := by
  suffices hdisks : (∀ n, w'.state.handle = some n →
      P w'.state.toMetadata (w'.state.files n)) ∧ w'.Stored P from
    ⟨h.orderly.step hstep, hdisks.1, hdisks.2⟩
  have horder := h.orderly.mounted n hopen
  obtain ⟨hmounts, -, hcalled⟩ := hstep.move
  by_cases humount : c = .umountFs
  · subst humount
    obtain ⟨s', made'⟩ := w'
    obtain ⟨r, hcall, rfl⟩ := Session.step_cases hcalled
    obtain ⟨-, rfl⟩ | ⟨-, rfl⟩ := umount_cases hopen (eq_of_number hcall)
    · exact ⟨h.mounted, h.disks⟩
    · exact ⟨(fun _ hnone => by cases hnone),
        h.disks.umount hopen (hstore env _ _ horder.consistent (h.mounted n hopen))⟩
  · obtain ⟨-, hframe, hmade⟩ := h.orderly.mounted_step hopen hstep.move humount
    obtain ⟨r, hcall, -⟩ := Session.step_cases hcalled
    have hopen' : w'.state.handle = some n := hframe.handle.trans hopen
    obtain ⟨hmake, hmount⟩ := h.orderly.mounts_nothing hopen hmounts
    constructor
    · intro x hx
      rw [hopen'] at hx
      cases hx
      exact hnext (call_effect hopen horder hmake hmount humount hcall)
    · refine h.disks.of_files hmade (fun x hx => hframe.files x ?_) fun x hx => hframe.handle.trans hx
      rintro rfl
      exact hx hopen'

end

end OSChallenges.FileSystem
