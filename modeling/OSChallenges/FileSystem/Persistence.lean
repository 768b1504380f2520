import OSChallenges.FileSystem.Refinement

/-!
# What has been written stays

A file is looked up by its disk and its name, mounted or not. Only writes, truncations and deletions of the file
itself and a `make_fs` of its disk change what it holds, so bytes that have been written are read again after
any other calls, the disk having been unmounted and mounted in between.
-/

namespace OSChallenges.FileSystem

open Records Words Outcomes Runs Refinement

/-- The contents of the file of a name. -/
def Volume.contents (v : Volume) (name : List UInt8) : Option Contents :=
  (v.find name).bind fun d => (v.entries d).map Prod.snd

/-- The volume of a disk. -/
def FileStore.volume (st : FileStore) (disk : CString) : Option Volume :=
  match st.mounted with
  | none => st.volumes disk
  | some m => if m.disk = disk then some m.volume else st.volumes disk

def FileStore.contents (st : FileStore) (disk name : CString) : Option Contents :=
  (st.volume disk).bind fun v => v.contents name.chars

/-- The call may change the file. -/
def FileStore.Touches (st : FileStore) (disk name : CString) (a : Env × Call) : Prop :=
  match a.2 with
  | .makeFs diskName => diskName = some disk
  | .delete name' => name' = name ∧ ∃ m ∈ st.mounted, m.disk = disk
  | .write fildes _ | .truncate fildes _ =>
    ∃ m ∈ st.mounted, m.disk = disk ∧ ∃ f ∈ m.file fildes, f.name = name.chars
  | _ => False

instance FileStore.Touches.decidable (st : FileStore) (disk name : CString) (env : Env) :
    (c : Call) → Decidable (st.Touches disk name (env, c))
  | .makeFs diskName => inferInstanceAs (Decidable (diskName = some disk))
  | .delete name' => inferInstanceAs (Decidable (name' = name ∧ ∃ m ∈ st.mounted, m.disk = disk))
  | .write fildes _ | .truncate fildes _ => inferInstanceAs (Decidable
      (∃ m ∈ st.mounted, m.disk = disk ∧ ∃ f ∈ m.file fildes, f.name = name.chars))
  | .mountFs _ | .umountFs | .create _ | .open _ | .close _ | .read _ _ | .getFilesize _ | .listfiles
  | .lseek _ _ => isFalse id

variable {v v' : Volume} {d : Fin maxFiles} {file : Option (List UInt8 × Contents)} {c : Contents}
  {key : List UInt8} {m m' : Mount} {f : OpenFile} {fildes : Int} {st : FileStore}
  {disk name : CString} {a : Env × Call}

/-! ### Volumes -/

theorem contents_congr_entries (h : v'.entries = v.entries) : v'.contents key = v.contents key := by
  unfold Volume.contents Volume.find
  rw [h]

theorem name_of_find (h : v.find key = some d) : (v.entries d).map Prod.fst = some key := by
  have hd : decide ((v.entries d).map Prod.fst = some key) = true :=
    List.find?_some (p := fun d => decide ((v.entries d).map Prod.fst = some key)) h
  exact of_decide_eq_true hd

theorem contents_put (hbefore : (v.entries d).map Prod.fst ≠ some key)
    (hafter : file.map Prod.fst ≠ some key) : (v.put d file).contents key = v.contents key := by
  have hsame : ∀ e, ((v.put d file).entries e).map Prod.fst = some key ↔
      (v.entries e).map Prod.fst = some key := by
    intro e
    unfold Volume.put
    by_cases he : e = d
    · subst he
      simp only [Function.update_self]
      exact iff_of_false hafter hbefore
    · simp only [Function.update_of_ne he]
  have hfind : (v.put d file).find key = v.find key := by
    unfold Volume.find
    simp only [hsame]
  unfold Volume.contents
  rw [hfind]
  cases hd : v.find key with
  | none => rfl
  | some e =>
    have hname : (v.entries e).map Prod.fst = some key := name_of_find hd
    have hne : e ≠ d := by
      rintro rfl
      exact hbefore hname
    unfold Volume.put
    simp only [Option.bind_some, Function.update_of_ne hne]

theorem exists_of_contents (h : v.contents key = some c) :
    ∃ d, v.find key = some d ∧ v.entries d = some (key, c) := by
  unfold Volume.contents at h
  cases hd : v.find key with
  | none =>
    rw [hd] at h
    cases h
  | some d =>
    rw [hd] at h
    have hname : (v.entries d).map Prod.fst = some key := name_of_find hd
    refine ⟨d, rfl, ?_⟩
    cases hentry : v.entries d with
    | none =>
      rw [hentry] at hname
      cases hname
    | some file =>
      simp only [hentry, Option.bind_some, Option.map_some] at h hname
      rw [← Option.some.inj h, ← Option.some.inj hname]

theorem contents_create (h : v.contents key = some c) :
    (v.create name).2.contents key = some c := by
  obtain ⟨e, hfind, -⟩ := exists_of_contents h
  have hleft : ∀ w : Volume, w.entries = v.entries → w.contents key = some c := fun w hw => by
    rw [contents_congr_entries hw, h]
  unfold Volume.create
  cases hfree : v.freeEntry with
  | none => exact hleft _ rfl
  | some d =>
    simp only
    split
    · rename_i hneeds
      split
      · exact hleft _ rfl
      · have hempty : v.entries d = none := by
          have hnone := List.find?_some hfree
          exact Option.isNone_iff_eq_none.mp hnone
        have hne : name.chars ≠ key := by
          rintro rfl
          rw [hneeds.2.1] at hfind
          cases hfind
        rw [contents_put]
        · exact hleft _ rfl
        · simp only [hempty]
          exact fun heq => by cases heq
        · exact fun heq => hne (Option.some.inj heq)
    · exact hleft _ rfl

/-! ### Calls -/

theorem file_entry (h : m.file fildes = some f) :
    m.volume.entries f.entry = some (f.name, f.contents) ∧ m.opened f.fd = some (f.entry, f.offset) := by
  unfold Mount.file at h
  split at h
  · unfold Mount.fileAt at h
    split at h
    · cases h
    · rename_i d offset hopened
      cases hentry : m.volume.entries d with
      | none =>
        rw [hentry] at h
        cases h
      | some file =>
        rw [hentry] at h
        cases h
        exact ⟨hentry, hopened⟩
  · cases h

theorem onFile_keeps {P : Mount → Prop} {answer : OpenFile → Result × Mount} (h : P m)
    (hanswer : ∀ f, m.file fildes = some f → P (answer f).2) : P (m.onFile fildes answer).2 := by
  unfold Mount.onFile
  split
  · exact h
  · rename_i f hf
    exact hanswer f hf

theorem contents_set {offset : Nat} {contents : Contents} (h : m.volume.contents key = some c)
    (hf : m.file fildes = some f) (hne : f.name ≠ key) :
    (m.set f offset contents).volume.contents key = some c := by
  have hentry := (file_entry hf).1
  rw [← h]
  refine contents_put ?_ fun heq => hne (Option.some.inj heq)
  rw [hentry]
  exact fun heq => hne (Option.some.inj heq)

theorem contents_mount_call (hm : st.mounted = some m) (h : m.volume.contents name.chars = some c)
    (hnot : ¬ st.Touches m.disk name a) : (m.call a.2).2.volume.contents name.chars = some c := by
  obtain ⟨env, call⟩ := a
  have hfile : ∀ {fildes f}, (¬ ∃ m' ∈ st.mounted, m'.disk = m.disk ∧
      ∃ f ∈ m'.file fildes, f.name = name.chars) → m.file fildes = some f → f.name ≠ name.chars :=
    fun hnone hf hname => hnone ⟨m, hm, rfl, _, hf, hname⟩
  cases call with
  | create name' => exact contents_create h
  | «open» name' =>
    show (Mount.call m (.open name')).2.volume.contents name.chars = some c
    simp only [Mount.call]
    split
    · exact h
    · exact h
  | delete name' =>
    show (Mount.call m (.delete name')).2.volume.contents name.chars = some c
    simp only [Mount.call]
    split
    · exact h
    · rename_i d hd
      split
      · exact h
      · have hne : name'.chars ≠ name.chars := by
          intro heq
          have hsame : name' = name := by
            cases name'
            cases name
            cases heq
            rfl
          exact hnot ⟨hsame, m, hm, rfl⟩
        have hname := name_of_find hd
        have hput : (m.volume.put d none).contents name.chars = some c := by
          rw [← h]
          refine contents_put ?_ fun heq => by cases heq
          rw [hname]
          exact fun heq => hne (Option.some.inj heq)
        exact (contents_congr_entries rfl).trans hput
  | close fildes =>
    exact onFile_keeps (P := fun m => m.volume.contents name.chars = some c) h fun f _ => h
  | getFilesize fildes =>
    exact onFile_keeps (P := fun m => m.volume.contents name.chars = some c) h fun f _ => h
  | read fildes nbyte =>
    refine onFile_keeps (P := fun m => m.volume.contents name.chars = some c) h fun f _ => ?_
    split
    · exact h
    · exact h
  | lseek fildes position =>
    refine onFile_keeps (P := fun m => m.volume.contents name.chars = some c) h fun f _ => ?_
    split
    · exact h
    · exact h
  | write fildes buf =>
    exact onFile_keeps (P := fun m => m.volume.contents name.chars = some c) h
      fun f hf => contents_set h hf (hfile hnot hf)
  | truncate fildes length =>
    refine onFile_keeps (P := fun m => m.volume.contents name.chars = some c) h fun f hf => ?_
    split
    · exact contents_set h hf (hfile hnot hf)
    · exact h
  | _ => exact h

theorem volume_of_mounted (hm : st.mounted = some m) : st.volume m.disk = some m.volume := by
  unfold FileStore.volume
  rw [hm]
  exact if_pos rfl

theorem contents_of_mounted (hm : st.mounted = some m) :
    st.contents m.disk name = m.volume.contents name.chars := by
  rw [FileStore.contents, volume_of_mounted hm]
  rfl

/-- The frame rule of the store. -/
theorem contents_call (h : st.contents disk name = some c) (hnot : ¬ st.Touches disk name a) :
    (st.call a).2.contents disk name = some c := by
  obtain ⟨env, call⟩ := a
  cases hm : st.mounted with
  | none =>
    have hvolume : st.volume disk = st.volumes disk := by
      unfold FileStore.volume
      rw [hm]
    have hsame : ∀ st' : FileStore, st'.volume disk = st.volumes disk → st'.contents disk name = some c :=
      fun st' hst' => by rw [← h, FileStore.contents, FileStore.contents, hst', hvolume]
    have hother : st.call (env, call) = (.of (-1), st) → (st.call (env, call)).2.contents disk name = some c :=
      fun heq => by rw [heq]; exact h
    cases call with
    | makeFs diskName =>
      cases diskName with
      | none => exact hother (by simp only [FileStore.call, hm])
      | some x =>
        have hne : disk ≠ x := fun heq => hnot (congrArg some heq.symm)
        have hset : ∀ volume, (st.setVolume x volume).volume disk = st.volumes disk := by
          intro volume
          unfold FileStore.volume FileStore.setVolume
          rw [hm]
          exact Function.update_of_ne hne ..
        simp only [FileStore.call, hm, FileStore.make]
        split
        · exact h
        · split
          · exact hsame _ (hset _)
          · exact hsame _ (hset _)
    | mountFs diskName =>
      cases diskName with
      | none => exact hother (by simp only [FileStore.call, hm])
      | some x =>
        simp only [FileStore.call, hm, FileStore.mount]
        split
        · exact h
        · rename_i volume hx
          split
          · refine hsame _ ?_
            unfold FileStore.volume
            split
            · rename_i hnone
              cases hnone
            · rename_i m' hm'
              cases hm'
              split
              · rename_i hdisk
                rw [← hdisk, hx]
              · rfl
          · exact h
    | _ => exact hother (by simp only [FileStore.call, hm])
  | some m =>
    by_cases hdisk : m.disk = disk
    · subst hdisk
      have hbefore := (contents_of_mounted hm).symm.trans h
      by_cases humount : call = .umountFs
      · subst humount
        have hafter : (st.call (env, .umountFs)).2.volume m.disk = some m.volume := by
          simp only [FileStore.call, hm, FileStore.volume, FileStore.setVolume, Function.update_self]
        rw [FileStore.contents, hafter]
        exact hbefore
      · have hstore : (st.call (env, call)).2.mounted = some (m.call call).2 := by
          cases call with
          | umountFs => exact absurd rfl humount
          | _ => simp only [FileStore.call, hm]
        have hnext := contents_mount_call hm hbefore hnot
        rw [← Mount.call_disk m call, contents_of_mounted hstore]
        exact hnext
    · -- Another disk is mounted.
      have hvolume : st.volume disk = st.volumes disk := by
        unfold FileStore.volume
        rw [hm]
        exact if_neg hdisk
      have hafter : (st.call (env, call)).2.volume disk = st.volumes disk := by
        by_cases humount : call = .umountFs
        · subst humount
          simp only [FileStore.call, hm, FileStore.volume, FileStore.setVolume]
          exact Function.update_of_ne (Ne.symm hdisk) ..
        · have hstore : (st.call (env, call)).2 = { st with mounted := some (m.call call).2 } := by
            cases call with
            | umountFs => exact absurd rfl humount
            | _ => simp only [FileStore.call, hm]
          rw [hstore, FileStore.volume]
          exact if_neg fun heq => hdisk ((Mount.call_disk m call).symm.trans heq)
      rw [← h, FileStore.contents, FileStore.contents, hafter, hvolume]

/-! ### Opening, seeking and reading -/

theorem bytes_overwrite (c : Contents) {offset : Nat} {buf : List UInt8}
    (h : offset + buf.length ≤ blockSize) : (c.overwrite offset buf).bytes offset buf.length = buf := by
  refine map_range_eq fun k hk => ?_
  simp only [Contents.overwrite]
  rw [Block.byte_ofBytes _ (by omega), if_pos (by omega), Nat.add_sub_cancel_left]

theorem file_describe {fd : Fin maxDescriptors} {offset : Nat} (h : m.volume.entries d = some (key, c)) :
    (m.describe fd (some (d, offset))).file fd = some ⟨fd, d, offset, key, c⟩ := by
  have hin : 0 ≤ (fd : Int) ∧ (fd : Int) < maxDescriptors := by
    have hlt := fd.isLt
    omega
  unfold Mount.file
  rw [dif_pos hin]
  unfold Mount.fileAt Mount.describe
  simp only [Int.toNat_natCast, Fin.eta, Function.update_self, h, Option.map_some]

theorem describe_describe_mount {fd : Fin maxDescriptors} (x y : Option (Fin maxFiles × Nat)) :
    (m.describe fd x).describe fd y = m.describe fd y := by
  unfold Mount.describe
  simp only [Function.update_idem]

/-- A file is opened, its offset is set, and bytes are read. -/
def reading (env : Env) (name : CString) (fd : Fin maxDescriptors) (offset nbyte : Nat) :
    List (Env × Call) :=
  [(env, .open name), (env, .lseek fd offset), (env, .read fd nbyte)]

theorem reading_answers {fd : Fin maxDescriptors} {offset nbyte : Nat} (env : Env)
    (hm : st.mounted = some m) (hc : m.volume.contents name.chars = some c)
    (hfree : m.freeDescriptor = some fd) (hoffset : offset < c.size.toNat) (hfirst : offset < blockSize)
    (hroom : offset + nbyte ≤ blockSize) :
    (replay FileStore.call st (reading env name fd offset nbyte)).1 =
        [.of fd, .of 0, ⟨nbyte, c.bytes offset nbyte, []⟩] ∧
      Each FileStore.call FileStore.Allows st (reading env name fd offset nbyte) := by
  obtain ⟨d, hfind, hentry⟩ := exists_of_contents hc
  have hin : FileStore.InTable fd := by
    have hlt := fd.isLt
    exact ⟨by omega, by omega⟩
  have hfile : ∀ o, (m.describe fd (some (d, o))).file fd = some ⟨fd, d, o, name.chars, c⟩ :=
    fun o => file_describe hentry
  have hopen : st.call (env, .open name) =
      (.of fd, { st with mounted := some (m.describe fd (some (d, 0))) }) := by
    simp only [FileStore.call, hm, Mount.call, hfind, hfree]
  have hseek : FileStore.call { st with mounted := some (m.describe fd (some (d, 0))) }
      (env, .lseek fd offset) =
        (.of 0, { st with mounted := some (m.describe fd (some (d, offset))) }) := by
    simp only [FileStore.call, Mount.call, Mount.onFile, hfile, describe_describe_mount,
      Int.toNat_natCast]
    rw [if_pos (by omega)]
  have hread : (FileStore.call { st with mounted := some (m.describe fd (some (d, offset))) }
      (env, .read fd nbyte)).1 = ⟨nbyte, c.bytes offset nbyte, []⟩ := by
    simp only [FileStore.call, Mount.call, Mount.onFile, hfile]
    rw [if_neg (by omega)]
  constructor
  · simp only [reading, replay, hopen, hseek, hread]
  · refine ⟨trivial, ?_, ?_, trivial⟩
    · exact hin
    · rw [hopen, hseek]
      refine ⟨hin, ?_⟩
      rintro m' ⟨rfl⟩ f hf _
      rw [hfile] at hf
      cases hf
      exact hroom

/-! ### The code -/

theorem Represents.find_entry {s : State} (h : Represents s st) (hm : st.mounted = some m)
    (hentry : m.volume.entries d = some (name.chars, c)) : m.volume.find name.chars = some d := by
  obtain ⟨made, h⟩ := h
  have hworking := h.working hm
  have hcons := hworking.order.consistent
  have hname : (m.volume.entries d).map Prod.fst = some name.chars := by
    rw [hentry]
    rfl
  unfold Volume.find
  refine find?_eq_of_only (List.mem_finRange d) hname fun e he => ?_
  rw [hworking.views.volume] at he hname
  obtain ⟨hnamed, heq⟩ := entry_name_iff.mp he
  obtain ⟨hnamed', heq'⟩ := entry_name_iff.mp hname
  exact hcons.names e d hnamed hnamed' (heq.trans heq'.symm)

theorem contents_put_self (hfind : v.find key = some d) :
    (v.put d (some (key, c))).contents key = some c := by
  have hsame : ∀ e, ((v.put d (some (key, c))).entries e).map Prod.fst = some key ↔
      (v.entries e).map Prod.fst = some key := by
    intro e
    unfold Volume.put
    by_cases he : e = d
    · subst he
      simp only [Function.update_self]
      exact iff_of_true rfl (name_of_find hfind)
    · simp only [Function.update_of_ne he]
  have hfind' : (v.put d (some (key, c))).find key = some d := by
    rw [← hfind]
    unfold Volume.find
    simp only [hsame]
  unfold Volume.contents
  rw [hfind']
  unfold Volume.put
  simp only [Option.bind_some, Function.update_self, Option.map_some]

/-- The bytes of a write are what is read at its offset after any calls that do not touch the file, once its
disk is mounted and the file is open again. -/
theorem written_stays (files : CString → File) {before between : List (Env × Call)} {env env' : Env}
    {buf : List UInt8} {fd : Fin maxDescriptors}
    (h : Each FileStore.call FileStore.Keeps .empty (before ++ (env, .write fildes buf) :: between))
    (hm : (replay FileStore.call .empty before).2.mounted = some m)
    (hf : m.file fildes = some f) (hname : f.name = name.chars) (hne : buf ≠ [])
    (hoffset : f.offset ≤ f.contents.size.toNat)
    (hsize : f.contents.size.toNat + buf.length < 2 ^ 16)
    (hspared : Each FileStore.call (fun st a => ¬ st.Touches m.disk name a)
      ((replay FileStore.call .empty before).2.call (env, .write fildes buf)).2 between)
    (hm' : (replay FileStore.call .empty (before ++ (env, .write fildes buf) :: between)).2.mounted =
      some m') (hdisk : m'.disk = m.disk) (hfree : m'.freeDescriptor = some fd) :
    ∃ results s', answers (fun s a => call a.1 s a.2) (boot files)
        ((before ++ (env, .write fildes buf) :: between) ++ reading env' name fd f.offset buf.length) =
      .ok (results ++ [.of fd, .of 0, ⟨buf.length, buf, []⟩], s') := by
  obtain ⟨hbefore, ⟨hwrite, -⟩, -⟩ := Each.append.mp h
  obtain ⟨s, -, hrepresents⟩ := refines_from_boot files hbefore
  have hpos := List.length_pos_iff.mpr hne
  obtain ⟨hentry, -⟩ := file_entry hf
  have hroom : f.offset + buf.length ≤ blockSize := (hwrite.2 m hm f hf).resolve_left hne
  have hstore : (replay FileStore.call .empty before).2.call (env, .write fildes buf) =
      (.of buf.length, ⟨(replay FileStore.call .empty before).2.volumes,
        some (m.set f (f.offset + buf.length) (f.contents.overwrite f.offset buf))⟩) := by
    simp only [FileStore.call, hm, Mount.call, Mount.onFile, hf]
  have hwritten : ((replay FileStore.call .empty before).2.call
      (env, .write fildes buf)).2.contents m.disk name =
        some (f.contents.overwrite f.offset buf) := by
    rw [hname] at hentry
    have hput := contents_put_self (c := f.contents.overwrite f.offset buf)
      (hrepresents.find_entry hm hentry)
    rw [← hname] at hput
    rw [hstore]
    refine (contents_of_mounted (m := m.set f (f.offset + buf.length)
      (f.contents.overwrite f.offset buf)) rfl).trans ?_
    rw [← hname]
    exact hput
  have hlater : (replay FileStore.call .empty
      (before ++ (env, .write fildes buf) :: between)).2.contents m.disk name =
        some (f.contents.overwrite f.offset buf) := by
    rw [replay_append]
    exact Each.keeps (I := fun st => st.contents m.disk name = _)
      (fun st a hst hnot => contents_call hst hnot) hwritten hspared
  rw [← hdisk, contents_of_mounted hm'] at hlater
  have hgrown : (f.contents.overwrite f.offset buf).size.toNat =
      f.contents.size.toNat + buf.length := by
    show (BitVec.ofNat 16 (f.contents.size.toNat + buf.length)).toNat = _
    rw [BitVec.toNat_ofNat, Nat.mod_eq_of_lt hsize]
  obtain ⟨hanswers, hallows⟩ := reading_answers env' hm' hlater hfree (by omega) (by omega) hroom
  have hkeeps : Each FileStore.call FileStore.Keeps (replay FileStore.call .empty
      (before ++ (env, .write fildes buf) :: between)).2 (reading env' name fd f.offset buf.length) := by
    refine hallows.and (.of_forall fun a ha name' hdelete => ?_)
    simp only [reading, List.mem_cons, List.not_mem_nil, or_false] at ha
    rcases ha with rfl | rfl | rfl
    · cases hdelete
    · cases hdelete
    · cases hdelete
  obtain ⟨s', hcalls, -⟩ := refines_from_boot files (Each.append.mpr ⟨h, hkeeps⟩)
  refine ⟨(replay FileStore.call .empty (before ++ (env, .write fildes buf) :: between)).1, s', ?_⟩
  rw [hcalls, replay_append, hanswers, bytes_overwrite _ hroom]

def nameC : CString := ⟨[99], by decide⟩

/-- Two files are made and one is opened. -/
def earlierCalls : List (Env × Call) :=
  [.makeFs (some disk0), .mountFs (some disk0), .create nameA, .create nameC, .open nameA].map
    fun c => (Env.plain, c)

/-- The other file is deleted, and the disk is mounted a second time. -/
def laterCalls : List (Env × Call) :=
  [.close 0, .open nameC, .write 0 [4, 5, 6, 7], .close 0, .delete nameC, .umountFs,
    .mountFs (some disk0), .open nameA, .read 0 2, .close 0].map fun c => (Env.plain, c)

theorem written_stays_laterCalls : ∃ results s', answers (fun s a => call a.1 s a.2)
    (boot fun _ => .empty) ((earlierCalls ++ (.plain, .write 0 [1, 2, 3]) :: laterCalls) ++
      reading .plain nameA ⟨0, by decide⟩ 0 3) = .ok (results ++ [.of 0, .of 0, ⟨3, [1, 2, 3], []⟩], s') := by
  have hallows : Each FileStore.call (fun st a => st.Allows (a.1, a.2)) .empty
      (earlierCalls ++ (.plain, .write 0 [1, 2, 3]) :: laterCalls) := by
    decide +kernel
  have hspares : ∀ a ∈ earlierCalls ++ (.plain, .write 0 [1, 2, 3]) :: laterCalls, SparesEmpty a := by
    have hmap : ∀ calls : List Call, ∀ a ∈ calls.map fun c => (Env.plain, c), SparesEmpty a := by
      intro calls a ha
      obtain ⟨c, -, rfl⟩ := List.mem_map.mp ha
      exact sparesEmpty_plain c
    rw [List.forall_mem_append, List.forall_mem_cons]
    exact ⟨hmap _, sparesEmpty_plain _, hmap _⟩
  obtain ⟨m, hm, f, hf, hdisk, hname, hoffset, hsize⟩ :
      ∃ m ∈ (replay FileStore.call .empty earlierCalls).2.mounted, ∃ f ∈ m.file 0, m.disk = disk0 ∧
        f.name = nameA.chars ∧ f.offset = 0 ∧ f.contents.size.toNat = 0 := by
    decide +kernel
  obtain ⟨m', hm', hdisk', hfree⟩ : ∃ m' ∈ (replay FileStore.call .empty
      (earlierCalls ++ (.plain, .write 0 [1, 2, 3]) :: laterCalls)).2.mounted, m'.disk = disk0 ∧
        m'.freeDescriptor = some ⟨0, by decide⟩ := by
    decide +kernel
  have hspared : Each FileStore.call (fun st a => ¬ st.Touches disk0 nameA (a.1, a.2))
      ((replay FileStore.call .empty earlierCalls).2.call (.plain, .write 0 [1, 2, 3])).2 laterCalls := by
    decide +kernel
  rw [← hdisk] at hspared
  obtain ⟨results, s', hanswers⟩ := written_stays (fun _ => .empty) (hallows.and (.of_forall hspares)) hm hf
    hname (by decide) (by omega) (by rw [hsize]; decide) hspared hm' (hdisk'.trans hdisk.symm) hfree
  rw [hoffset] at hanswers
  exact ⟨results, s', hanswers⟩

end OSChallenges.FileSystem
