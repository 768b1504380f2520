import OSChallenges.FileSystem.Persistence

/-!
# What is left when the process ends

The tables of a mounted disk are in memory, and only `umount_fs` stores them. If the process ends before, block
0 has the tables of the last mount. As long as no file that they have has been deleted since, these files are
still on the disk, with the sizes that they had and the bytes that have been written since, and what has been
created is gone. A new process finds just that. But a file that they have and that has been deleted comes back
with an index block of zeros, and then its first block is block 0.
-/

namespace OSChallenges.FileSystem

open Records Words Outcomes Runs Refinement

/-! ### Volumes -/

/-- The files of an old volume with the bytes that they have now. -/
def Volume.crashed (old now : Volume) : Volume where
  entries d :=
    match old.entries d, now.entries d with
    | some (name, c), some (_, c') => some (name, ⟨c.size, c'.data⟩)
    | _, _ => none
  inodesFree := old.inodesFree
  blocksFree := old.blocksFree

/-- The store that a new process finds. -/
def FileStore.crashed (st : FileStore) : FileStore where
  volumes :=
    match st.mounted with
    | none => st.volumes
    | some m => Function.update st.volumes m.disk ((st.volumes m.disk).map fun v => v.crashed m.volume)
  mounted := none

/-- The call deletes no file that block 0 has. -/
def FileStore.Spares (st : FileStore) (a : Env × Call) : Prop :=
  match a.2 with
  | .delete name => ∀ m ∈ st.mounted, ∀ v ∈ st.volumes m.disk, (v.find name.chars).isSome →
      (m.call (.delete name)).1.ret ≠ 0
  | _ => True

instance FileStore.Spares.decidable (st : FileStore) (env : Env) :
    (c : Call) → Decidable (st.Spares (env, c))
  | .delete name => inferInstanceAs (Decidable (∀ m ∈ st.mounted, ∀ v ∈ st.volumes m.disk,
      (v.find name.chars).isSome → (m.call (.delete name)).1.ret ≠ 0))
  | .makeFs _ | .mountFs _ | .umountFs | .create _ | .open _ | .close _ | .read _ _ | .write _ _
  | .getFilesize _ | .listfiles | .lseek _ _ | .truncate _ _ => isTrue trivial

/-! ### Tables -/

/-- The files of the tables `t` are still there in the tables `m`, with the same names and blocks. -/
structure Behind (t m : Metadata) (f : File) : Prop where
  consistent : Consistent t f
  used : ∀ i, t.used i → m.used i ∧ m.indexAt i = t.indexAt i
  directory : ∀ d, t.named d → m.directory d = t.directory d
  leads : ∀ d i, m.named d → m.leadsTo d i → t.used i → t.named d

variable {env : Env} {s s' : State} {t m m' : Metadata} {f f' : File} {n name : CString} {c : Call}
  {r : Result} {i d : Fin maxFiles} {bitmap : Bitmap}

theorem Behind.refl (h : Consistent m f) : Behind m m f :=
  ⟨h, fun _ hi => ⟨hi, rfl⟩, fun _ _ => rfl, fun _ _ hd _ _ => hd⟩

theorem Behind.named (h : Behind t m f) (hd : t.named d) : m.named d := by
  rw [Metadata.named, h.directory d hd]
  exact hd

theorem Behind.inUse (h : Behind t m f) (hcons : Consistent m f) (hi : t.used i) :
    m.InUse (t.indexAt i) := by
  obtain ⟨hused, hindex⟩ := h.used i hi
  rw [← hindex]
  exact hcons.index i hused

theorem Behind.tables (h : Behind t m f)
    (hinodes : ∀ i, (m'.used i ↔ m.used i) ∧ m'.indexAt i = m.indexAt i)
    (hdirectory : m'.directory = m.directory) : Behind t m' f where
  consistent := h.consistent
  used i hi := by
    obtain ⟨hused, hindex⟩ := h.used i hi
    exact ⟨(hinodes i).1.mpr hused, (hinodes i).2.trans hindex⟩
  directory d hd := by
    rw [hdirectory]
    exact h.directory d hd
  leads d i hd hleads hi := by
    rw [Metadata.named, hdirectory] at hd
    rw [Metadata.leadsTo, hdirectory] at hleads
    exact h.leads d i hd hleads hi

theorem Behind.blocks (h : Behind t m f) (hsize : f'.size = f.size)
    (hblock : ∀ i, t.used i → f'.block (t.indexAt i) = f.block (t.indexAt i)) : Behind t m f' :=
  ⟨h.consistent.of_index hsize hblock, h.used, h.directory, h.leads⟩

theorem Behind.create {a b : Nat} (h : Behind t s.toMetadata (s.files n))
    (hcons : Consistent s.toMetadata (s.files n))
    (hold : ∀ q, taken s.usedBlocksBitmap q = true → taken bitmap q = true)
    (hfound : Found s name i d a b bitmap) :
    Behind t (created env s n name i d a b bitmap).toMetadata
      ((created env s n name i d a b bitmap).files n) := by
  have hadd : Added s.toMetadata (s.files n) i d a b (created env s n name i d a b bitmap).toMetadata
      ((created env s n name i d a b bitmap).files n) := hfound.added hcons hold
  have hne : ∀ j, t.used j → j ≠ i := by
    rintro j hj rfl
    exact hadd.fresh (h.used j hj).1
  have hblocks : Behind t s.toMetadata ((created env s n name i d a b bitmap).files n) :=
    h.blocks hadd.size fun j hj =>
      hadd.blocks _ (h.inUse hcons hj).2.1 ((h.inUse hcons hj).ne_of_free hadd.indexFree)
  refine ⟨hblocks.consistent, fun j hj => ?_, fun e he => ?_, fun e j he hleads hj => ?_⟩
  · obtain ⟨hused, hindex⟩ := h.used j hj
    exact ⟨(hadd.used_iff (hne j hj)).mpr hused, (hadd.indexAt_eq (hne j hj)).trans hindex⟩
  · have hed : e ≠ d := by
      rintro rfl
      exact hadd.free (h.named he)
    rw [hadd.directory e hed]
    exact h.directory e he
  · by_cases hed : e = d
    · subst hed
      exact absurd (Fin.ext (hleads.symm.trans hadd.leads)) (hne j hj)
    · rw [Metadata.leadsTo, hadd.directory e hed] at hleads
      exact h.leads e j ((hadd.named_iff hed).mp he) hleads hj

theorem Behind.delete {empty : Block} (h : Behind t s.toMetadata (s.files n))
    (hcons : Consistent s.toMetadata (s.files n)) (hclosed : Closed s name i d) (hspared : ¬ t.named d) :
    Behind t (deleted s n i d (s.indexAt i) (s.dataAt (s.files n) i) empty bitmap).toMetadata
      ((deleted s n i d (s.indexAt i) (s.dataAt (s.files n) i) empty bitmap).files n) := by
  have hnamed := (findDirectory_old hclosed.entry).1
  have hused := hclosed.used hcons
  have hlta := (hcons.index i hused).2.1
  have hltb := (hcons.data i hused).2.1
  have hsize := hcons.size
  have hne : ∀ j, t.used j → j ≠ i := by
    rintro j hj rfl
    exact hspared (h.leads d j hnamed hclosed.leads hj)
  have hblocks : Behind t s.toMetadata
      ((deleted s n i d (s.indexAt i) (s.dataAt (s.files n) i) empty bitmap).files n) := by
    refine h.blocks (deleted_size (by omega) (by omega)) fun j hj => ?_
    obtain ⟨hu, hindex⟩ := h.used j hj
    have hlt := (hcons.index j hu).2.1
    rw [← hindex]
    exact deleted_block empty (by omega) (by omega)
      (fun heq => hne j hj (hcons.index_inj j i hu hused heq)) (hcons.apart j i hu hused)
  refine ⟨hblocks.consistent, fun j hj => ?_, fun e he => ?_, fun e j he hleads hj => ?_⟩
  · obtain ⟨hu, hindex⟩ := h.used j hj
    exact ⟨(deleted_used_iff (hne j hj)).mpr hu, (deleted_indexAt (hne j hj)).trans hindex⟩
  · have hed : e ≠ d := by
      rintro rfl
      exact hspared he
    rw [deleted_entry hed]
    exact h.directory e he
  · have hed : e ≠ d := by
      rintro rfl
      exact deleted_not_named he
    rw [Metadata.named, deleted_entry hed] at he
    rw [Metadata.leadsTo, deleted_entry hed] at hleads
    exact h.leads e j he hleads hj

theorem written_zero {offset : Nat} {buf : List UInt8} {b : Block} (h : InOrder s n) (hi : s.used i)
    (hroom : buf = [] ∨ offset + buf.length ≤ blockSize)
    (hcopy : copyInto ((s.files n).block (target s.toMetadata (s.files n) i offset))
      (offset % blockSize : Nat) buf = .ok b) :
    ((s.files n).write (target s.toMetadata (s.files n) i offset) b).block 0 = (s.files n).block 0 := by
  have hsize := h.consistent.size
  have hzero : 0 < (s.files n).size := by
    rw [hsize]
    decide
  by_cases hfirst : offset < blockSize
  · obtain ⟨hpos, -, -⟩ := h.consistent.data i hi
    rw [target, if_pos hfirst]
    exact File.write_other (by omega) hzero b
  · rw [target, if_neg hfirst] at hcopy ⊢
    obtain rfl : buf = [] := by
      rcases hroom with hnil | hroom
      · exact hnil
      · exact List.length_eq_zero_iff.mp (by omega)
    have hlt : offset % blockSize < blockSize := Nat.mod_lt _ (by decide)
    obtain ⟨b', hcopy', hbytes⟩ := copyInto_of_le (b := (s.files n).block 0) (Nat.le_of_lt hlt :
      offset % blockSize + ([] : List UInt8).length ≤ blockSize)
    obtain rfl : b' = b := Except.ok.inj (hcopy'.symm.trans hcopy)
    rw [File.write_self]
    funext p
    have hbyte := hbytes p p.isLt
    rw [if_neg (by simp only [List.length_nil]; omega), Block.byte, dif_pos p.isLt, Block.byte,
      dif_pos p.isLt] at hbyte
    exact hbyte

theorem Behind.write {fd : Fin maxDescriptors} {offset : Nat} {b : Block} {nbyte : Int}
    (h : Behind t s.toMetadata (s.files n)) (horder : InOrder s n) (hi : s.used i) :
    Behind t (written s n fd i (target s.toMetadata (s.files n) i offset) b nbyte).toMetadata
      ((written s n fd i (target s.toMetadata (s.files n) i offset) b nbyte).files n) := by
  have hfile : (written s n fd i (target s.toMetadata (s.files n) i offset) b nbyte).files n =
      (s.files n).write (target s.toMetadata (s.files n) i offset) b := Function.update_self ..
  have hsize := horder.consistent.size
  have htarget : target s.toMetadata (s.files n) i offset < diskBlocks := target_lt horder.consistent hi
  rw [hfile]
  refine Behind.blocks (f := s.files n) ?_ (File.write_size (by omega) b) fun j hj => ?_
  · exact h.tables (fun j => inodes_resize s i j _) rfl
  · obtain ⟨hu, hindex⟩ := h.used j hj
    have hlt := (horder.consistent.index j hu).2.1
    rw [← hindex]
    exact File.write_other (horder.index_ne_target offset hi hu) (by omega) b

/-- No call but `umount_fs` changes block 0 of the mounted disk. -/
theorem Behind.call (h : Behind t s.toMetadata (s.files n)) (hopen : s.handle = some n)
    (horder : InOrder s n) (hmake : ∀ diskName, c ≠ .makeFs diskName)
    (hmount : ∀ diskName, c ≠ .mountFs diskName)
    (humount : c ≠ .umountFs) (hcall : call env s c = .ok (r, s'))
    (hroom : ∀ fildes buf, c = .write fildes buf → ∀ (fd : Fin maxDescriptors) i offset, fildes = fd →
      Opened s fd i offset → buf = [] ∨ offset + buf.length ≤ blockSize)
    (hspared : ∀ name, c = .delete name → ∀ i d, Closed s name i d → ¬ t.named d) :
    Behind t s'.toMetadata (s'.files n) ∧ (s'.files n).block 0 = (s.files n).block 0 := by
  have hcons := horder.consistent
  have hsize := hcons.size
  by_cases hwrite : ∃ fildes buf, c = .write fildes buf
  · obtain ⟨fildes, buf, rfl⟩ := hwrite
    obtain ⟨-, rfl⟩ | ⟨fd, i, offset, b, hfildes, hopened, hcopy, -, rfl⟩ :=
      write_cases hopen hcons horder.described (ok_of_number hcall)
    · exact ⟨h, rfl⟩
    · refine ⟨h.write horder hopened.used, ?_⟩
      have hroom := hroom fildes buf rfl fd i offset hfildes hopened
      exact (congrArg (fun f : File => f.block 0) (Function.update_self ..)).trans
        (written_zero horder hopened.used hroom hcopy)
  have heffect := call_effect hopen horder hmake hmount humount hcall
  cases heffect with
  | tables c s' hbitmap hdirectory hfiles hinodes =>
    rw [hfiles]
    exact ⟨h.tables hinodes hdirectory, rfl⟩
  | mark name loc num bitmap hreserves hfails =>
    exact ⟨h.tables (fun _ => ⟨Iff.rfl, rfl⟩) rfl, rfl⟩
  | create name i d a b bitmap hreserves hlt hfound =>
    refine ⟨h.create hcons (fun q hq => (hreserves.marked q).mpr (.inl hq)) hfound, ?_⟩
    rw [created_file]
    refine File.write_other ?_ (by rw [hsize]; decide) _
    rintro rfl
    have hmarked := hcons.metadata
    rw [hfound.indexFree] at hmarked
    cases hmarked
  | delete name i d bitmap hclosed hcleared =>
    obtain ⟨hposa, hlta, -⟩ := hcons.index i (hclosed.used hcons)
    obtain ⟨hposb, hltb, -⟩ := hcons.data i (hclosed.used hcons)
    exact ⟨h.delete hcons hclosed (hspared name rfl i d hclosed),
      deleted_block _ (by omega) (by omega) (by omega) (by omega)⟩
  | write fildes buf => exact absurd ⟨fildes, buf, rfl⟩ hwrite

/-- The files of the tables with the bytes that are on the disk now. -/
theorem Behind.crashed {f₀ : File} (h : Behind t m f) :
    (Volume.of t f₀).crashed (Volume.of m f) = Volume.of t f := by
  refine Volume.ext (funext fun d => ?_) rfl rfl
  by_cases hd : t.named d
  · obtain ⟨i, hleads, hi⟩ := h.consistent.named d hd
    have hentry := h.directory d hd
    have hleads' : m.leadsTo d i := by
      rw [Metadata.leadsTo, hentry]
      exact hleads
    have hdata : m.dataAt f i = t.dataAt f i := by
      rw [Metadata.dataAt, entryAt_congr (h.used i hi).2 rfl, Metadata.dataAt]
    unfold Volume.crashed
    simp only [entries_of_named hd hleads, entries_of_named (h.named hd) hleads', Metadata.contents, hdata]
  · unfold Volume.crashed
    simp only [entries_of_not_named hd]

/-! ### Runs -/

/-- The store of a session, with block 0 of the mounted disk as it was at the mount. -/
def Recoverable (s : State) (st : FileStore) : Prop :=
  Represents s st ∧ ∀ m, st.mounted = some m →
    ∃ f, st.volumes m.disk = some (.of (stored (s.files m.disk)) f) ∧
      Behind (stored (s.files m.disk)) s.toMetadata (s.files m.disk)

variable {st : FileStore} {m : Mount} {disk : CString}

theorem mounted_cases {m' : Mount} (hm : st.mounted = none)
    (hm' : (st.call (env, c)).2.mounted = some m') : ∃ v, c = .mountFs (some m'.disk) ∧ env.opens = true ∧
      st.volumes m'.disk = some v ∧ (st.call (env, c)).2.volumes = st.volumes := by
  cases c with
  | makeFs diskName =>
    cases diskName with
    | none =>
      simp only [FileStore.call, hm] at hm'
      cases hm'
    | some x =>
      have hnone : (st.make env x).2.mounted = none := by
        unfold FileStore.make
        split
        · exact hm
        · split
          · exact hm
          · exact hm
      simp only [FileStore.call, hm, hnone] at hm'
      cases hm'
  | mountFs diskName =>
    cases diskName with
    | none =>
      simp only [FileStore.call, hm] at hm'
      cases hm'
    | some x =>
      cases hx : st.volumes x with
      | none =>
        simp only [FileStore.call, hm, FileStore.mount, hx] at hm'
        cases hm'
      | some v =>
        by_cases hopens : env.opens = true
        · have hcall : st.call (env, .mountFs (some x)) =
              (.of 0, ⟨st.volumes, some ⟨x, v, fun _ => none⟩⟩) := by
            simp only [FileStore.call, hm, FileStore.mount, hx, if_pos hopens]
          rw [hcall] at hm' ⊢
          cases hm'
          exact ⟨v, rfl, hopens, hx, rfl⟩
        · simp only [FileStore.call, hm, FileStore.mount, hx, if_neg hopens] at hm'
          cases hm'
  | _ =>
    simp only [FileStore.call, hm] at hm'
    cases hm'

theorem call_mounted (hm : st.mounted = some m) (humount : c ≠ .umountFs) :
    st.call (env, c) = ((m.call c).1, ⟨st.volumes, some (m.call c).2⟩) := by
  cases c with
  | umountFs => exact absurd rfl humount
  | _ => simp only [FileStore.call, hm]

theorem Working.behind {t : Metadata} {f : File} (h : Working s m)
    (hbehind : Behind t s.toMetadata (s.files m.disk)) (hm : st.mounted = some m)
    (hvolume : st.volumes m.disk = some (.of t f)) (hallows : st.Allows (env, c))
    (hspares : st.Spares (env, c)) (humount : c ≠ .umountFs)
    (hcall : call env s c = .ok ((m.call c).1, s')) :
    Behind t s'.toMetadata (s'.files m.disk) ∧
      (s'.files m.disk).block 0 = (s.files m.disk).block 0 := by
  have hbusy : ¬ st.mounted.isNone := by
    rw [hm]
    exact Bool.false_ne_true
  refine hbehind.call h.handle h.order ?_ ?_ humount hcall ?_ ?_
  · rintro diskName rfl
    exact hbusy hallows
  · rintro diskName rfl
    exact hbusy hallows.1
  · rintro fildes buf rfl fd i offset rfl hopened
    obtain ⟨fd', hfd', ⟨-, hunused⟩ | ⟨d, j, offset', hfile, -, -, hopened'⟩⟩ :=
      h.views.file_cases hallows.1
    · obtain rfl : fd = fd' := Fin.ext (by omega)
      rw [hopened.isUsed] at hunused
      cases hunused
    · obtain rfl : fd = fd' := Fin.ext (by omega)
      have hsame : offset' = offset := by
        have hint := hopened'.offset.symm.trans hopened.offset
        omega
      exact hsame ▸ hallows.2 m hm _ hfile
  · rintro name rfl i d hclosed hnamed
    -- The deletion succeeds, and block 0 has the name.
    obtain ⟨bitmap, -, hdeletes⟩ := delete_closed env h.ready h.handle h.order.consistent hclosed
    have hzero : (m.call (.delete name)).1.ret = 0 := by
      rw [call, hdeletes] at hcall
      have hresult := congrArg Prod.fst (Except.ok.inj hcall)
      rw [← hresult]
      rfl
    refine hspares m hm _ hvolume ?_ hzero
    refine List.find?_isSome.mpr ⟨d, List.mem_finRange d, decide_eq_true (entry_name_iff.mpr ⟨hnamed, ?_⟩)⟩
    rw [← hbehind.directory d hnamed]
    exact (findDirectory_old hclosed.entry).2.symm

theorem refines_recoverable : Refines (fun s a => call a.1 s a.2) FileStore.call
    (fun st a => st.Keeps a ∧ st.Spares a) Recoverable := by
  rintro s st ⟨env, c⟩ ⟨hrepresents, hbehind⟩ ⟨hkeeps, hspares⟩
  obtain ⟨s', hcall, hnext⟩ := refines_store s st (env, c) hrepresents hkeeps
  refine ⟨s', hcall, hnext, fun m' hm' => ?_⟩
  obtain ⟨made, h⟩ := hrepresents
  cases hm : st.mounted with
  | none =>
    obtain ⟨v, rfl, hopens, hv, hvolumes⟩ := mounted_cases hm hm'
    have hopen : s.handle = none := h.closed hm
    have hclosed : s.handle ≠ some m'.disk := by
      rw [hopen]
      exact fun heq => by cases heq
    have hmade : made m'.disk = true := by
      have hsome := h.isSome_volumes hclosed
      rw [hv] at hsome
      exact hsome.symm
    have hdisk := h.throughout.orderly.disks m'.disk hmade hclosed
    have hvolume := h.volumes m'.disk hclosed
    rw [if_pos hmade] at hvolume
    have hmounts : call env s (.mountFs (some m'.disk)) = .ok (.of 0, { s with
        toMetadata := stored (s.files m'.disk), readyForUse := true, handle := some m'.disk }) := by
      rw [call, mount_eq hopen hopens (by rw [hdisk.size]; decide)]
      rfl
    obtain rfl := congrArg Prod.snd (Except.ok.inj (hmounts.symm.trans hcall))
    rw [hvolumes]
    exact ⟨_, hvolume, .refl hdisk⟩
  | some m =>
    by_cases humount : c = .umountFs
    · subst humount
      simp only [FileStore.call, hm] at hm'
      cases hm'
    · rw [call_mounted hm humount] at hcall hm' ⊢
      cases hm'
      obtain ⟨f, hvolume, hbehind⟩ := hbehind m hm
      obtain ⟨hnext, hzero⟩ :=
        (h.working hm).behind hbehind hm hvolume hkeeps.1 hspares humount hcall
      have hstored : stored (s'.files m.disk) = stored (s.files m.disk) := by
        unfold stored
        rw [hzero]
      rw [Mount.call_disk, hstored]
      exact ⟨f, hvolume, hnext⟩

/-- What a new process finds, if free blocks need not hold zeros. -/
def Finds (s : State) (st : FileStore) : Prop := ∃ made, Session.Represents (fun _ _ => True) ⟨s, made⟩ st

theorem finds_stays : Stays (fun _ _ => True) fun _ => True := fun _ _ _ h _ hstep =>
  ⟨h.orderly.step hstep, fun _ _ => trivial, fun _ _ _ => trivial⟩

/-- Without creations it does not matter what free blocks hold. -/
theorem refines_finds : Refines (fun s a => call a.1 s a.2) FileStore.call
    (fun st a => st.Allows a ∧ ∀ name, a.2 ≠ .create name) Finds := by
  rintro s st ⟨env, c⟩ ⟨made, h⟩ ⟨hallows, hcreate⟩
  obtain ⟨s', made', hcall, hnext⟩ :=
    h.step hallows finds_stays trivial fun name heq => absurd heq (hcreate name)
  exact ⟨s', hcall, made', hnext⟩

theorem Recoverable.crashed (h : Recoverable s st) : Finds (boot s.files) st.crashed := by
  obtain ⟨⟨made, h⟩, hbehind⟩ := h
  have horderly := h.throughout.orderly
  have hboot := Orderly.boot s.files
  have hopened : ∀ x, s.handle = some x → ∃ m, st.mounted = some m ∧ m.disk = x := by
    intro x hx
    cases hm : st.mounted with
    | none => cases hx.symm.trans (h.closed hm)
    | some m => exact ⟨m, rfl, Option.some.inj ((h.mounted m hm).1.symm.trans hx)⟩
  refine ⟨made, ⟨⟨hboot.ready, hboot.closed, hboot.empty, hboot.mounted, fun x hmade _ => ?_⟩,
    fun _ _ => trivial, fun _ _ _ => trivial⟩, fun x _ => ?_, fun _ => rfl, fun m hm => by cases hm⟩
  · by_cases hx : s.handle = some x
    · obtain ⟨m, hm, rfl⟩ := hopened x hx
      obtain ⟨f, -, hbehind⟩ := hbehind m hm
      exact hbehind.consistent
    · exact horderly.disks x hmade hx
  · show st.crashed.volumes x = if made x then some (.of (stored (s.files x)) (s.files x)) else none
    by_cases hx : s.handle = some x
    · obtain ⟨m, hm, rfl⟩ := hopened x hx
      obtain ⟨-, hmade, hviews⟩ := h.mounted m hm
      obtain ⟨f, hvolume, hbehind⟩ := hbehind m hm
      simp only [FileStore.crashed, hm, Function.update_self, hvolume, hviews.volume]
      rw [if_pos hmade]
      exact congrArg some hbehind.crashed
    · have hsame : st.crashed.volumes x = st.volumes x := by
        cases hm : st.mounted with
        | none => simp only [FileStore.crashed, hm]
        | some m =>
          have hne : x ≠ m.disk := by
            rintro rfl
            exact hx (h.mounted m hm).1
          simp only [FileStore.crashed, hm, Function.update_of_ne hne]
      rw [hsame]
      exact h.volumes x hx

theorem recoverable_from_boot (files : CString → File) {before since : List (Env × Call)}
    (h : Each FileStore.call FileStore.Keeps .empty (before ++ since))
    (hidle : (replay FileStore.call .empty before).2.mounted = none)
    (hspares : Each FileStore.call FileStore.Spares (replay FileStore.call .empty before).2 since) :
    ∃ s, answers (fun s a => call a.1 s a.2) (boot files) (before ++ since) =
        .ok ((replay FileStore.call .empty (before ++ since)).1, s) ∧
      Recoverable s (replay FileStore.call .empty (before ++ since)).2 := by
  obtain ⟨hbefore, hsince⟩ := Each.append.mp h
  obtain ⟨s₁, hfirst, hrepresents⟩ := refines_from_boot files hbefore
  have hrecoverable : Recoverable s₁ (replay FileStore.call .empty before).2 :=
    ⟨hrepresents, fun m hm => by rw [hidle] at hm; cases hm⟩
  obtain ⟨s, hsecond, hrecoverable⟩ := refines_recoverable.answers hrecoverable (hsince.and hspares)
  rw [replay_append]
  exact ⟨s, answers_append hfirst hsecond, hrecoverable⟩

/-- A process that ends at any time, without a deletion of a file that block 0 has, leaves the old files to the
next one, with the bytes that have been written. -/
theorem crash_recovers (files : CString → File) {before since after : List (Env × Call)}
    (h : Each FileStore.call FileStore.Keeps .empty (before ++ since))
    (hidle : (replay FileStore.call .empty before).2.mounted = none)
    (hspares : Each FileStore.call FileStore.Spares (replay FileStore.call .empty before).2 since)
    (hafter : Each FileStore.call (fun st a => st.Allows a ∧ ∀ name, a.2 ≠ .create name)
      (replay FileStore.call .empty (before ++ since)).2.crashed after) :
    ∃ s s', answers (fun s a => call a.1 s a.2) (boot files) (before ++ since) =
        .ok ((replay FileStore.call .empty (before ++ since)).1, s) ∧
      answers (fun s a => call a.1 s a.2) (boot s.files) after =
        .ok ((replay FileStore.call
          (replay FileStore.call .empty (before ++ since)).2.crashed after).1, s') := by
  obtain ⟨s, hcalls, hrecoverable⟩ := recoverable_from_boot files h hidle hspares
  obtain ⟨s', hlater, -⟩ := refines_finds.answers hrecoverable.crashed hafter
  exact ⟨s, s', hcalls, hlater⟩

/-- A file of three bytes is stored. -/
def storedFile : List (Env × Call) :=
  [.makeFs (some disk0), .mountFs (some disk0), .create nameA, .open nameA, .write 0 [1, 2, 3],
    .umountFs].map fun c => (Env.plain, c)

/-- It is overwritten, and another file is made and written. -/
def lostCalls : List (Env × Call) :=
  [.mountFs (some disk0), .open nameA, .write 0 [7, 8], .getFilesize 0, .create nameC, .open nameC,
    .write 1 [9]].map fun c => (Env.plain, c)

def foundCalls : List (Env × Call) :=
  [.mountFs (some disk0), .listfiles, .open nameA, .getFilesize 0, .read 0 3, .open nameC].map
    fun c => (Env.plain, c)

theorem crash_recovers_storedFile : ∃ s s', answers (fun s a => call a.1 s a.2) (boot fun _ => .empty)
    (storedFile ++ lostCalls) = .ok ([.of 0, .of 0, .of 0, .of 0, .of 3, .of 0, .of 0, .of 0, .of 2,
      .of 5, .of 0, .of 1, .of 1], s) ∧
    answers (fun s a => call a.1 s a.2) (boot s.files) foundCalls =
      .ok ([.of 0, ⟨0, [], [[97]]⟩, .of 0, .of 3, ⟨3, [7, 8, 3], []⟩, .of (-1)], s') := by
  have hallows : Each FileStore.call (fun st a => st.Allows (a.1, a.2)) .empty
      (storedFile ++ lostCalls) := by
    decide +kernel
  have hempty : ∀ a ∈ storedFile ++ lostCalls, SparesEmpty a := by
    rw [storedFile, lostCalls, ← List.map_append]
    intro a ha
    obtain ⟨c, -, rfl⟩ := List.mem_map.mp ha
    exact sparesEmpty_plain c
  have hspares : Each FileStore.call (fun st a => st.Spares (a.1, a.2))
      (replay FileStore.call .empty storedFile).2 lostCalls := by
    decide +kernel
  have hafter : Each FileStore.call (fun st a => st.Allows (a.1, a.2))
      (replay FileStore.call .empty (storedFile ++ lostCalls)).2.crashed foundCalls := by
    decide +kernel
  have hcreate : ∀ a ∈ foundCalls, ∀ name, a.2 ≠ .create name := by
    intro a ha name heq
    simp [foundCalls] at ha
    rcases ha with rfl | rfl | rfl | rfl | rfl | rfl
    all_goals cases heq
  have hresults : (replay FileStore.call .empty (storedFile ++ lostCalls)).1 =
      [.of 0, .of 0, .of 0, .of 0, .of 3, .of 0, .of 0, .of 0, .of 2, .of 5, .of 0, .of 1, .of 1] := by
    decide +kernel
  have hfound : (replay FileStore.call (replay FileStore.call .empty (storedFile ++ lostCalls)).2.crashed
      foundCalls).1 = [.of 0, ⟨0, [], [[97]]⟩, .of 0, .of 3, ⟨3, [7, 8, 3], []⟩, .of (-1)] := by
    decide +kernel
  rw [← hresults, ← hfound]
  exact crash_recovers (fun _ => .empty) (hallows.and (.of_forall hempty)) (by decide +kernel) hspares
    (hafter.and (.of_forall hcreate))

/-! ### Files that come back -/

theorem write_first {fd : Fin maxDescriptors} {inodeNum : BitVec 16} {buf : List UInt8} (env : Env)
    (hready : s.readyForUse = true) (hopen : s.handle = some n) (hsize : (s.files n).size = diskBlocks)
    (hfd : s.fds fd = ⟨true, inodeNum, 0⟩) (hinode : inodeNum.toNat = i)
    (hindex : s.indexAt i < diskBlocks) (hzero : (s.files n).block (s.indexAt i) = .zero)
    (hbuf : buf.length ≤ blockSize) :
    ∃ s', fsWrite env s fd buf = .ok ((buf.length : Int), s') ∧
      ∀ k < buf.length, ((s'.files n).block 0).byte k = buf.getD k 0 := by
  have hread : s.blockRead ((s.inodes i).singleIndirectBlock.toNat : Int) env.buffer = some .zero := by
    rw [← hzero]
    exact blockRead_eq hopen hindex hsize _
  have hi : index maxFiles (inodeNum.toNat : Int) = .ok i := by
    rw [hinode]
    exact index_of_lt i.isLt
  have hentry : inodeBlocks .zero 0 = 0 := (inodeBlocks_eq_zero_iff .zero 0).mpr fun j hj => by
    unfold Block.byte Block.zero
    split
    · rfl
    · rfl
  have hroom : 0 + buf.length ≤ blockSize := by omega
  have hblock : 0 < diskBlocks := by decide
  obtain ⟨b, hcopy, hbytes⟩ := copyInto_of_le (b := (s.files n).block 0) hroom
  have hcopy' : copyInto ((s.files n).block 0) (remOffset 0) buf = .ok b := hcopy
  have hfirst : index 256 (blockIndex 0) = .ok 0 := rfl
  have hlen : toInt32 buf.length = buf.length := toInt32_le (.inr hroom)
  have hnull : toInt32 (0 : BitVec 32).toNat = ((0 : Nat) : Int) := toInt32_of_lt (by decide)
  refine ⟨{ s with
    fds := Function.update s.fds fd ⟨true, inodeNum, buf.length⟩
    inodes := Function.update s.inodes i { s.inodes i with
      fileSize := BitVec.ofInt 16 ((s.inodes i).fileSize.toNat + buf.length) }
    files := Function.update s.files n ((s.files n).write 0 b) }, ?_, fun k hk => ?_⟩
  · unfold fsWrite
    rw [index_of_lt fd.isLt]
    simp only [hready, hfd, ok_bind, hi, hread, hfirst, hentry, hnull, blockRead_eq hopen hblock hsize,
      hcopy', blockWrite_eq hopen hblock, hlen, zero_add, Bool.not_true, Bool.false_eq_true, if_false]
    rfl
  · simp only [Function.update_self]
    rw [File.write_self, hbytes k (by omega), if_pos (by omega), Nat.sub_zero]

/-- A new process with a disk mounted and a file open. -/
def reopened (files : CString → File) (n : CString) (d : Fin maxFiles) : State :=
  { boot files with
    toMetadata := stored (files n)
    fds := Function.update (boot files).fds descriptor0
      ⟨true, ((stored (files n)).directory d).inodeNum, 0⟩
    readyForUse := true
    handle := some n }

theorem answers_reopened {files : CString → File} (hopens : env.opens = true)
    (hsize : (files n).size = diskBlocks)
    (hfind : findDirectory (stored (files n)).directory false name = some d) :
    answers (fun s a => call a.1 s a.2) (boot files) [(env, .mountFs (some n)), (env, .open name)] =
      .ok ([.of 0, .of 0], reopened files n d) := by
  have hpos : 0 < ((boot files).files n).size := lt_of_lt_of_eq (by decide) hsize.symm
  have hmount : call env (boot files) (.mountFs (some n)) = .ok (.of 0, { boot files with
      toMetadata := stored (files n), readyForUse := true, handle := some n }) := by
    rw [call, mount_eq rfl hopens hpos]
    rfl
  have hfree : findFD (boot files).fds = some descriptor0 := rfl
  have hopen : call env { boot files with
      toMetadata := stored (files n), readyForUse := true, handle := some n } (.open name) =
        .ok (.of 0, reopened files n d) := by
    simp only [call, fsOpen, hfind, hfree, Bool.not_true, Bool.false_eq_true, if_false]
    rfl
  simp only [answers, hmount, hopen, ok_bind]
  rfl

/-- A file of block 0 that has been deleted comes back when the process ends, and what is written to it then
overwrites the super block. -/
theorem deleted_comes_back (files : CString → File) (env env' : Env) (buf : List UInt8)
    {before since : List (Env × Call)} {v : Volume}
    (h : Each FileStore.call FileStore.Keeps .empty (before ++ since))
    (hidle : (replay FileStore.call .empty before).2.mounted = none)
    (hspares : Each FileStore.call FileStore.Spares (replay FileStore.call .empty before).2 since)
    (hm : (replay FileStore.call .empty (before ++ since)).2.mounted = some m)
    (hv : (replay FileStore.call .empty (before ++ since)).2.volumes m.disk = some v)
    (hold : (v.find name.chars).isSome) (hdeletes : (m.call (.delete name)).1 = .of 0)
    (hempty : ∀ k, ¬ env.Overwrites k) (hopens : env'.opens = true) (hbuf : buf.length ≤ blockSize) :
    ∃ results s s', answers (fun s a => call a.1 s a.2) (boot files)
        ((before ++ since) ++ [(env, .delete name)]) = .ok (results ++ [.of 0], s) ∧
      answers (fun s a => call a.1 s a.2) (boot s.files)
        [(env', .mountFs (some m.disk)), (env', .open name), (env', .write 0 buf)] =
        .ok ([.of 0, .of 0, .of buf.length], s') ∧
      ∀ k < buf.length, ((s'.files m.disk).block 0).byte k = buf.getD k 0 := by
  obtain ⟨s, hcalls, ⟨made, hrepresents⟩, hbehind⟩ := recoverable_from_boot files h hidle hspares
  obtain ⟨f, hvolume, hbehind⟩ := hbehind m hm
  cases hv.symm.trans hvolume
  have hworking : Working s m := hrepresents.working hm
  have hcons := hworking.order.consistent
  have hsize := hcons.size
  have hanswers : Answers env s m (.delete name) := hworking.delete
  obtain ⟨s₁, hcall, -⟩ := hanswers
  obtain ⟨hfails, -⟩ | ⟨-, i, d, bitmap, hclosed, -, rfl⟩ :=
    delete_spec hworking.handle hcons (ok_of_number hcall)
  · rw [hdeletes] at hfails
    cases hfails
  obtain ⟨hnamed, hname⟩ := findDirectory_old hclosed.entry
  have hused := hclosed.used hcons
  obtain ⟨hposa, hlta, -⟩ := hcons.index i hused
  obtain ⟨hposb, hltb, -⟩ := hcons.data i hused
  -- Block 0 has the same entry and the same inode.
  obtain ⟨e, he⟩ := Option.isSome_iff_exists.mp hold
  obtain ⟨hnamed', hname'⟩ := entry_name_iff.mp (name_of_find he)
  have hentry := hbehind.directory e hnamed'
  obtain rfl : e = d := hcons.names e d (hbehind.named hnamed') hnamed (by rw [hentry, hname', hname])
  obtain ⟨j, hleads, hj⟩ := hbehind.consistent.named e hnamed'
  obtain rfl : j = i := by
    rw [Metadata.leadsTo, ← hentry] at hleads
    exact Fin.ext (hleads.symm.trans hclosed.leads)
  have hindex := (hbehind.used j hj).2
  generalize hdeleted : deleted s m.disk j e (s.indexAt j) (s.dataAt (s.files m.disk) j)
    (env.empty ((s.files m.disk).block (s.indexAt j))) bitmap = s₁ at hcall
  have hsize₁ : (s₁.files m.disk).size = diskBlocks := by
    rw [← hdeleted, deleted_size (by omega) (by omega)]
    exact hsize
  have hstored : stored (s₁.files m.disk) = stored (s.files m.disk) := by
    unfold stored
    rw [← hdeleted, deleted_block _ (by omega) (by omega) (by omega) (by omega)]
  have hzero : (s₁.files m.disk).block ((stored (s.files m.disk)).indexAt j) = .zero := by
    rw [← hindex, ← hdeleted, deleted_index]
    exact (empty_eq_zero_iff env _).mpr fun k hk => absurd hk (hempty k)
  -- The new process finds the entry, and the index block of the inode holds zeros.
  have hfind : findDirectory (stored (s₁.files m.disk)).directory false name = some e := by
    rw [hstored]
    exact findDirectory_only hnamed' hname'.symm fun x hx heq =>
      hbehind.consistent.names x e hx hnamed' (heq.symm.trans hname'.symm)
  have hopened := answers_reopened hopens hsize₁ hfind
  obtain ⟨hindex', hzero'⟩ : (stored (s₁.files m.disk)).indexAt j < diskBlocks ∧
      (s₁.files m.disk).block ((stored (s₁.files m.disk)).indexAt j) = .zero := by
    rw [hstored]
    exact ⟨(hbehind.consistent.index j hj).2.1, hzero⟩
  have hleads' : ((stored (s₁.files m.disk)).directory e).inodeNum.toNat = j := by
    rw [hstored]
    exact hleads
  obtain ⟨s', hwrite, hbytes⟩ := write_first (s := reopened s₁.files m.disk e) env' rfl rfl hsize₁
    (Function.update_self ..) hleads' hindex' hzero' hbuf
  refine ⟨_, s₁, s', answers_append hcalls ?_, answers_append hopened ?_, hbytes⟩
  · rw [hdeletes] at hcall
    simp only [answers, hcall, ok_bind]
    rfl
  · have hcall' : call env' (reopened s₁.files m.disk e) (.write 0 buf) = .ok (.of buf.length, s') := by
      rw [call, show (0 : Int) = descriptor0 from rfl, hwrite]
      rfl
    simp only [answers, hcall', ok_bind]
    rfl

/-- The stored file is deleted in a second session. -/
theorem deleted_comes_back_storedFile : ∃ results s s', answers (fun s a => call a.1 s a.2)
      (boot fun _ => .empty) ((storedFile ++ [(.plain, .mountFs (some disk0))]) ++
        [(.plain, .delete nameA)]) = .ok (results ++ [.of 0], s) ∧
    answers (fun s a => call a.1 s a.2) (boot s.files)
      [(.plain, .mountFs (some disk0)), (.plain, .open nameA), (.plain, .write 0 [5, 5])] =
        .ok ([.of 0, .of 0, .of 2], s') ∧
    ∀ k < 2, ((s'.files disk0).block 0).byte k = [5, 5].getD k 0 := by
  have hallows : Each FileStore.call (fun st a => st.Allows (a.1, a.2)) .empty
      (storedFile ++ [(.plain, .mountFs (some disk0))]) := by
    decide +kernel
  have hempty : ∀ a ∈ storedFile ++ [(.plain, .mountFs (some disk0))], SparesEmpty a := by
    intro a ha
    rcases List.mem_append.mp ha with hstored | hmount
    · obtain ⟨c, -, rfl⟩ := List.mem_map.mp hstored
      exact sparesEmpty_plain c
    · cases List.mem_singleton.mp hmount
      exact sparesEmpty_plain _
  have hspares : Each FileStore.call (fun st a => st.Spares (a.1, a.2))
      (replay FileStore.call .empty storedFile).2 [(.plain, .mountFs (some disk0))] := by
    decide +kernel
  obtain ⟨m, hm, hdisk, hdeletes, v, hv, hold⟩ : ∃ m ∈ (replay FileStore.call .empty
      (storedFile ++ [(.plain, .mountFs (some disk0))])).2.mounted, m.disk = disk0 ∧
      (m.call (.delete nameA)).1 = .of 0 ∧ ∃ v ∈ (replay FileStore.call .empty
        (storedFile ++ [(.plain, .mountFs (some disk0))])).2.volumes m.disk,
          (v.find nameA.chars).isSome := by
    decide +kernel
  have hback := deleted_comes_back (fun _ => .empty) .plain .plain [5, 5]
    (hallows.and (.of_forall hempty)) (by decide +kernel) hspares hm hv hold hdeletes
    not_overwrites_plain rfl (by decide)
  rw [hdisk] at hback
  exact hback

end OSChallenges.FileSystem
