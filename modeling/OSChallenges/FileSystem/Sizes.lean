import OSChallenges.FileSystem.Mounting
import OSChallenges.FileSystem.ReadBack

/-!
# File sizes

`fs_write` adds the bytes it has written to the size, wherever it has written them, and the field has 16
bits. The size is the largest position that has been written as long as every write starts at the end of
the file and does not pass 65535.
-/

namespace OSChallenges.FileSystem

open Records Words Outcomes Runs

/-- The size of the file of an inode. -/
def Metadata.sizeAt (m : Metadata) (i : Fin maxFiles) : Nat := (m.inodes i).fileSize.toNat

variable {env : Env} {s s' : State} {n : CString} {fd : Fin maxDescriptors} {i : Fin maxFiles}
  {c : Call} {r : Result} {fildes ret : Int} {buf : List UInt8}

/-! ### One write -/

theorem blockWrite_tables {block : Int} {b : Block} (h : s.blockWrite block b = some s') :
    s'.toMetadata = s.toMetadata ∧ s'.fds = s.fds := by
  unfold State.blockWrite at h
  split at h
  · cases h
  split at h
  · cases h
  · cases h
    exact ⟨rfl, rfl⟩

/-- A write that fails does nothing, and another one has an offset that is not negative. -/
theorem write_effect (h : fsWrite env s fildes buf = .ok (ret, s')) :
    ret = -1 ∧ s' = s ∨ ∃ (fd : Fin maxDescriptors) (i : Fin maxFiles), fildes = fd ∧
      (s.fds fd).isUsed = true ∧ (s.fds fd).inodeNum.toNat = i ∧ 0 ≤ (s.fds fd).offset ∧
      ret = buf.length ∧
      s'.fds = Function.update s.fds fd { s.fds fd with offset := (s.fds fd).offset + buf.length } ∧
      s'.inodes = Function.update s.inodes i
        { s.inodes i with fileSize := BitVec.ofNat 16 (s.sizeAt i + buf.length) } := by
  unfold fsWrite at h
  split at h
  · cases ok_of_pure h
    exact .inl ⟨rfl, rfl⟩
  obtain ⟨fd, hfd, h⟩ := ok_of_bind h
  split at h
  · cases ok_of_pure h
    exact .inl ⟨rfl, rfl⟩
  rename_i hused
  obtain ⟨i, hi, h⟩ := ok_of_bind h
  simp only at h
  split at h
  · cases ok_of_pure h
    exact .inl ⟨rfl, rfl⟩
  obtain ⟨k, hk, h⟩ := ok_of_bind h
  split at h
  · cases ok_of_pure h
    exact .inl ⟨rfl, rfl⟩
  obtain ⟨b, hb, h⟩ := ok_of_bind h
  split at h
  · cases ok_of_pure h
    exact .inl ⟨rfl, rfl⟩
  rename_i t hwrite
  obtain ⟨htables, hfds⟩ := blockWrite_tables hwrite
  have hroom : 0 ≤ remOffset (s.fds fd).offset ∧
      remOffset (s.fds fd).offset + buf.length ≤ blockSize := by
    unfold copyInto at hb
    split at hb
    · assumption
    · cases hb
  have hindex : blockIndex (s.fds fd).offset = k := eq_of_index hk
  have hoffset : 0 ≤ (s.fds fd).offset := by
    have hrem := hroom.1
    rw [remOffset, hindex] at hrem
    unfold blockSize at hrem
    omega
  have hlen : toInt32 buf.length = buf.length := by
    have hle := hroom.2
    unfold blockSize at hle
    exact toInt32_of_lt (by omega)
  cases ok_of_pure h
  refine .inr ⟨fd, i, eq_of_index hfd, by simpa using hused, ?_, hoffset, hlen, ?_, ?_⟩
  · have heq := eq_of_index hi
    omega
  · show Function.update t.fds fd { t.fds fd with offset := _ } = _
    rw [hfds, hlen]
  · show Function.update t.inodes i { t.inodes i with fileSize := _ } = _
    rw [htables, hlen, ← Int.natCast_add, BitVec.ofInt_natCast]
    rfl

theorem getFilesize_eq (hused : (s.fds fd).isUsed = true) (hinode : (s.fds fd).inodeNum.toNat = i) :
    fsGetFilesize s fd = .ok (s.sizeAt i : Int) := by
  have hindex : index maxFiles ((s.fds fd).inodeNum.toNat : Int) = .ok i := by
    rw [hinode]
    exact index_of_lt i.isLt
  unfold fsGetFilesize
  rw [index_of_lt fd.isLt]
  simp only [ok_bind, hused, Bool.not_true, Bool.false_eq_true, if_false, hindex]
  rfl

/-- `fs_get_filesize` gives the larger of the old size and the end of the write, on every descriptor of
the file. -/
def SizeIsMax (s s' : State) (fd : Fin maxDescriptors) (size : Int) (n : Nat) : Prop :=
  ∀ fd' : Fin maxDescriptors, (s'.fds fd').isUsed = true →
    (s'.fds fd').inodeNum = (s.fds fd).inodeNum →
      fsGetFilesize s' fd' = .ok (max size ((s.fds fd).offset + n))

/-- The write starts at the end of the file, or writes nothing inside it, and the size that it leaves is
in the range of the field. -/
def AtEnd (size offset : Int) (n : Nat) : Prop :=
  size + n ≤ 65535 ∧ (offset = size ∨ n = 0 ∧ offset ≤ size)

instance AtEnd.decidable (size offset : Int) (n : Nat) : Decidable (AtEnd size offset n) :=
  inferInstanceAs (Decidable (size + n ≤ 65535 ∧ (offset = size ∨ n = 0 ∧ offset ≤ size)))

/-- The sum in 16 bits is the larger of the two numbers. -/
theorem sum_eq_max_iff {size n : Nat} {offset : Int} (hsize : size < 2 ^ 16) (hoffset : 0 ≤ offset) :
    (((size + n) % 2 ^ 16 : Nat) : Int) = max (size : Int) (offset + n) ↔ AtEnd size offset n := by
  unfold AtEnd
  omega

theorem sizeIsMax_iff {size : Int} (hsize : fsGetFilesize s fd = .ok size)
    (hwrite : fsWrite env s fd buf = .ok ((buf.length : Int), s')) :
    SizeIsMax s s' fd size buf.length ↔ AtEnd size (s.fds fd).offset buf.length := by
  obtain ⟨hfails, -⟩ | ⟨fd', i, hfd, hused, hinode, hoffset, -, hfds, hinodes⟩ := write_effect hwrite
  · omega
  have hsame : fd' = fd := Fin.ext (by omega)
  subst hsame
  rw [getFilesize_eq hused hinode] at hsize
  cases hsize
  have hlt : s.sizeAt i < 2 ^ 16 := (s.inodes i).fileSize.isLt
  have hnew : s'.sizeAt i = (s.sizeAt i + buf.length) % 2 ^ 16 := by
    rw [Metadata.sizeAt, hinodes, Function.update_self]
    exact BitVec.toNat_ofNat ..
  rw [← sum_eq_max_iff hlt hoffset, ← hnew]
  constructor
  · intro hmax
    have hself : s'.fds fd' = { s.fds fd' with offset := (s.fds fd').offset + buf.length } := by
      rw [hfds, Function.update_self]
    have hreport := hmax fd' (by rw [hself]; exact hused) (by rw [hself])
    rw [getFilesize_eq (i := i) (by rw [hself]; exact hused) (by rw [hself]; exact hinode)] at hreport
    exact Except.ok.inj hreport
  · intro hmax fd'' hused' hinode'
    rw [getFilesize_eq (i := i) hused' (by rw [hinode']; exact hinode), hmax]

/-! ### Sequences of calls -/

/-- The call gives the inode a size that is not one of the positions written so far: it mounts or
unmounts, or it creates, deletes or truncates the file. -/
def StartsAnew (s : State) (i : Fin maxFiles) : Call → Prop
  | .makeFs _ | .mountFs _ | .umountFs => True
  | .create _ => findInode s.inodes = some i
  | .delete name => ∃ d, findDirectory s.directory false name = some d ∧ s.leadsTo d i
  | .truncate fildes _ => ∃ fd : Fin maxDescriptors, fildes = fd ∧ (s.fds fd).inodeNum.toNat = i
  | _ => False

/-- The position behind the last byte that the call writes to the file, if it writes it. -/
def endOf (s : State) (i : Fin maxFiles) (a : Env × Call) : Option Int :=
  match a.2 with
  | .write fildes buf =>
    match fsWrite a.1 s fildes buf, index maxDescriptors fildes with
    | .ok (ret, _), .ok fd =>
      if ret = buf.length ∧ (s.fds fd).inodeNum.toNat = i then some ((s.fds fd).offset + buf.length)
      else none
    | _, _ => none
  | _ => none

instance StartsAnew.decidable (s : State) (i : Fin maxFiles) : (c : Call) → Decidable (StartsAnew s i c)
  | .makeFs _ | .mountFs _ | .umountFs => isTrue trivial
  | .create _ => inferInstanceAs (Decidable (findInode s.inodes = some i))
  | .delete name => inferInstanceAs (Decidable (∃ d, findDirectory s.directory false name = some d ∧
      (s.directory d).inodeNum.toNat = i.val))
  | .truncate fildes _ => inferInstanceAs (Decidable (∃ fd : Fin maxDescriptors, fildes = fd ∧
      (s.fds fd).inodeNum.toNat = i))
  | .open _ | .close _ | .read _ _ | .write _ _ | .getFilesize _ | .listfiles | .lseek _ _ =>
    isFalse id

theorem clearBlocks_inodes {empty : Block} {entries : List (BitVec 32)} {cleared : Bool}
    (h : clearBlocks empty entries s = .ok (cleared, s')) : s'.inodes = s.inodes := by
  induction entries generalizing s with
  | nil =>
    cases ok_of_pure h
    rfl
  | cons entry rest ih =>
    rw [clearBlocks] at h
    split at h
    · cases ok_of_pure h
      rfl
    split at h
    · cases ok_of_pure h
      rfl
    rename_i t hwrite
    obtain ⟨bitmap, -, h⟩ := ok_of_bind h
    have hkept : t.inodes = s.inodes := congrArg Metadata.inodes (blockWrite_tables hwrite).1
    exact (ih h).trans hkept

theorem inodes_create {name : CString} (h : fsCreate env s name = .ok (ret, s'))
    (hnew : findInode s.inodes ≠ some i) : s'.inodes i = s.inodes i := by
  obtain ⟨loc, num, bitmap, -, ⟨-, hkept, -⟩ | ⟨j, d, -, -, hinode, -, hblock⟩⟩ := create_spec h
  · rw [hkept]
  have hne : i ≠ j := by
    rintro rfl
    exact hnew hinode
  have hother : (entered s name j d loc bitmap).inodes i = s.inodes i := Function.update_of_ne hne ..
  obtain ⟨-, -, hkept⟩ | ⟨hwrite, -⟩ := hblock
  · rw [hkept, hother]
  · rw [(blockWrite_tables hwrite).1, hother]

theorem inodes_delete {name : CString} (h : fsDelete env s name = .ok (ret, s'))
    (hnew : ∀ d, findDirectory s.directory false name = some d → ¬ s.leadsTo d i) :
    s'.inodes i = s.inodes i := by
  unfold fsDelete at h
  simp only at h
  split at h
  · cases ok_of_pure h
    rfl
  split at h
  · cases ok_of_pure h
    rfl
  rename_i d hentry
  split at h
  · cases ok_of_pure h
    rfl
  obtain ⟨j, hj, h⟩ := ok_of_bind h
  have hne : i ≠ j := by
    rintro rfl
    refine hnew d hentry ?_
    have heq := eq_of_index hj
    rw [Metadata.leadsTo]
    omega
  split at h
  · cases ok_of_pure h
    rfl
  obtain ⟨⟨cleared, t⟩, hclear, h⟩ := ok_of_bind h
  have hkept := clearBlocks_inodes hclear
  simp only at h
  split at h
  · cases ok_of_pure h
    rw [hkept]
  split at h
  · cases ok_of_pure h
    rw [hkept]
  rename_i u hwrite
  obtain ⟨bitmap, -, h⟩ := ok_of_bind h
  cases ok_of_pure h
  show Function.update u.inodes j _ i = _
  rw [Function.update_of_ne hne, (blockWrite_tables hwrite).1, hkept]

theorem inodes_truncate {length : Int} (h : fsTruncate s fildes length = .ok (ret, s'))
    (hnew : ∀ fd : Fin maxDescriptors, fildes = fd → (s.fds fd).inodeNum.toNat ≠ i) :
    s'.inodes i = s.inodes i := by
  obtain ⟨-, rfl⟩ | ⟨-, fd, j, hfd, -, hinode, -, rfl⟩ := truncate_cases h
  · rfl
  · have hne : i ≠ j := by
      rintro rfl
      exact hnew fd hfd hinode
    exact Function.update_of_ne hne ..

theorem read_tables {nbyte : Nat} (h : fsRead env s fildes nbyte = .ok (r, s')) :
    s'.toMetadata = s.toMetadata := by
  unfold fsRead at h
  split at h
  · cases ok_of_pure h
    rfl
  obtain ⟨fd, -, h⟩ := ok_of_bind h
  split at h
  · cases ok_of_pure h
    rfl
  obtain ⟨j, -, h⟩ := ok_of_bind h
  simp only at h
  split at h
  · cases ok_of_pure h
    rfl
  split at h
  · cases ok_of_pure h
    rfl
  obtain ⟨k, -, h⟩ := ok_of_bind h
  split at h
  · cases ok_of_pure h
    rfl
  split at h
  · cases ok_of_pure h
    rfl
  · cases ok_of_pure h
    rfl

/-- A call that starts nothing anew changes the size only as a write. -/
theorem inodes_call (hcall : call env s c = .ok (r, s')) (hnew : ¬ StartsAnew s i c)
    (hwrite : ∀ fildes buf, c ≠ .write fildes buf) : s'.inodes i = s.inodes i := by
  cases c with
  | makeFs diskName => exact absurd trivial hnew
  | mountFs diskName => exact absurd trivial hnew
  | umountFs => exact absurd trivial hnew
  | create name =>
    rw [call] at hcall
    exact inodes_create (ok_of_number hcall) hnew
  | «open» name =>
    obtain ⟨-, rfl⟩ | ⟨d, fd, -, -, -, rfl⟩ := open_cases (eq_of_number hcall)
    · rfl
    · rfl
  | close fildes =>
    obtain ⟨-, rfl⟩ | ⟨-, fd, -, -, rfl⟩ := close_cases (ok_of_number hcall)
    · rfl
    · rfl
  | delete name =>
    exact inodes_delete (ok_of_number hcall) fun d hentry hleads => hnew ⟨d, hentry, hleads⟩
  | read fildes nbyte => rw [read_tables hcall]
  | write fildes buf => exact absurd rfl (hwrite fildes buf)
  | getFilesize fildes => rw [getFilesize_state hcall]
  | listfiles =>
    cases hcall
    rfl
  | lseek fildes position =>
    obtain ⟨-, rfl⟩ | ⟨-, fd, j, -, -, -, -, -, rfl⟩ := lseek_cases (ok_of_number hcall)
    · rfl
    · rfl
  | truncate fildes length =>
    exact inodes_truncate (ok_of_number hcall) fun fd hfd hinode => hnew ⟨fd, hfd, hinode⟩

/-- The largest of a size and the positions behind the writes of a run to the file. -/
def highWater (i : Fin maxFiles) : Nat → State → List ((Env × Call) × State) → Int := fun size =>
  carry (fun top s a => match endOf s i a with
    | some position => max top position
    | none => top) (size : Int)

/-- If the call writes the file, it does so at the end. -/
def Appends (s : State) (i : Fin maxFiles) : Call → Prop
  | .write fildes buf => ∀ fd : Fin maxDescriptors, fildes = fd → (s.fds fd).inodeNum.toNat = i →
      AtEnd (s.sizeAt i) (s.fds fd).offset buf.length
  | _ => True

instance Appends.decidable (s : State) (i : Fin maxFiles) : (c : Call) → Decidable (Appends s i c)
  | .write fildes buf => inferInstanceAs (Decidable (∀ fd : Fin maxDescriptors, fildes = fd →
      (s.fds fd).inodeNum.toNat = i → AtEnd (s.sizeAt i) (s.fds fd).offset buf.length))
  | .makeFs _ | .mountFs _ | .umountFs | .create _ | .open _ | .close _ | .delete _ | .read _ _
  | .getFilesize _ | .listfiles | .lseek _ _ | .truncate _ _ => isTrue trivial

/-- A call that does not start the size of the file anew and only writes it at the end. -/
def GrowsAtEnd (i : Fin maxFiles) (s : State) (a : Env × Call) (s' : State) : Prop :=
  (¬ StartsAnew s i a.2 ∧ Appends s i a.2) ∧ (call a.1 s a.2).map Prod.snd = .ok s'

theorem size_step {a : Env × Call} (h : GrowsAtEnd i s a s') :
    (s'.sizeAt i : Int) = match endOf s i a with
      | some position => max (s.sizeAt i : Int) position
      | none => s.sizeAt i := by
  obtain ⟨env, c⟩ := a
  obtain ⟨⟨hnew, hend⟩, hstep⟩ := h
  obtain ⟨p, hcall, heq⟩ := ok_of_map hstep
  rw [show p = (p.1, s') from Prod.ext rfl heq] at hcall
  by_cases hwrite : ∃ fildes buf, c = .write fildes buf
  · obtain ⟨fildes, buf, rfl⟩ := hwrite
    have hp := ok_of_number hcall
    have hlt : s.sizeAt i < 2 ^ 16 := (s.inodes i).fileSize.isLt
    obtain ⟨hfails, rfl⟩ | ⟨fd, j, rfl, hused, hinode, hoffset, hret, -, hinodes⟩ := write_effect hp
    · have hnone : endOf s' i (env, .write fildes buf) = none := by
        simp only [endOf, hp]
        cases hindex : index maxDescriptors fildes with
        | error e => rfl
        | ok fd => exact if_neg fun hboth => absurd (hfails.symm.trans hboth.1) (by omega)
      rw [hnone]
    · simp only [endOf, hp, index_of_lt fd.isLt]
      by_cases hji : (s.fds fd).inodeNum.toNat = i
      · have hsame : j = i := Fin.ext (hinode.symm.trans hji)
        subst hsame
        rw [if_pos ⟨hret, hji⟩]
        have hnewSize : s'.sizeAt j = (s.sizeAt j + buf.length) % 2 ^ 16 := by
          rw [Metadata.sizeAt, hinodes, Function.update_self]
          exact BitVec.toNat_ofNat ..
        rw [hnewSize]
        exact (sum_eq_max_iff hlt hoffset).mpr (hend fd rfl hji)
      · rw [if_neg fun hboth => hji hboth.2, Metadata.sizeAt, hinodes, Function.update_of_ne]
        · rfl
        · rintro rfl
          exact hji hinode
  · have hnone : endOf s i (env, c) = none := by
      cases c with
      | write fildes buf => exact absurd ⟨fildes, buf, rfl⟩ hwrite
      | _ => rfl
    rw [hnone, Metadata.sizeAt, inodes_call hcall hnew fun fildes buf heq => hwrite ⟨fildes, buf, heq⟩]
    rfl

theorem size_create {name : CString} (h : fsCreate env s name = .ok (0, s')) :
    ∃ i, findInode s.inodes = some i ∧ s'.sizeAt i = 0 := by
  obtain ⟨loc, num, bitmap, -, ⟨hr, -⟩ | ⟨i, d, -, -, hinode, -, hblock⟩⟩ := create_spec h
  · exact absurd hr (by decide)
  obtain ⟨-, hr, -⟩ | ⟨hwrite, -⟩ := hblock
  · exact absurd hr (by decide)
  refine ⟨i, hinode, ?_⟩
  rw [(blockWrite_tables hwrite).1]
  unfold Metadata.sizeAt entered
  simp only [Function.update_self]
  rfl

theorem size_truncate {length : Int} (h : fsTruncate s fd length = .ok (0, s')) :
    fsGetFilesize s' fd = .ok (length % 2 ^ 16) := by
  obtain ⟨hfails, -⟩ | ⟨-, fd', i, hfd, hused, hinode, -, rfl⟩ := truncate_cases h
  · exact absurd hfails (by decide)
  have hsame : fd' = fd := Fin.ext (by omega)
  subst hsame
  have hreport := getFilesize_eq (s := resize s i (BitVec.ofInt 16 length)) hused hinode
  have hsize : (resize s i (BitVec.ofInt 16 length)).inodes i =
      { s.inodes i with fileSize := BitVec.ofInt 16 length } := Function.update_self ..
  rw [Metadata.sizeAt, hsize, BitVec.toNat_ofInt,
    Int.toNat_of_nonneg (Int.emod_nonneg _ (by decide))] at hreport
  exact hreport

/-- A write leaves the larger of the old size and its end exactly if it is at the end of the file. So the
size is the largest position written, from the one that a creation or a truncation has set, in every run
whose writes are all there. -/
theorem size_high_water_iff (s : State) (i : Fin maxFiles) :
    (∀ env s' (fd : Fin maxDescriptors) (buf : List UInt8) size, fsGetFilesize s fd = .ok size →
      fsWrite env s fd buf = .ok ((buf.length : Int), s') →
        (SizeIsMax s s' fd size buf.length ↔ AtEnd size (s.fds fd).offset buf.length)) ∧
    (∀ env s' name, fsCreate env s name = .ok (0, s') →
      ∃ j, findInode s.inodes = some j ∧ s'.sizeAt j = 0) ∧
    (∀ s' (fd : Fin maxDescriptors) length, fsTruncate s fd length = .ok (0, s') →
      fsGetFilesize s' fd = .ok (length % 2 ^ 16)) ∧
    ∀ run, EachStep (GrowsAtEnd i) s run →
      ((last s run).sizeAt i : Int) = highWater i (s.sizeAt i) s run := by
  refine ⟨fun _ _ _ _ _ hsize hwrite => sizeIsMax_iff hsize hwrite, fun _ _ _ => size_create,
    fun _ _ _ => size_truncate, fun run h => ?_⟩
  refine EachStep.carry (J := fun top s => (s.sizeAt i : Int) = top) ?_ rfl h
  intro top s a s' htop hstep
  rw [size_step hstep, htop]

def inode0 : Fin maxFiles := ⟨0, by decide⟩

/-- Two writes, one behind the other. -/
def appended : List ((Env × Call) × State) :=
  trail (fun s a => (call a.1 s a.2).map Prod.snd) oneFileState
    ([.open nameA, .write 0 [1, 2], .write 0 [3]].map fun c => (Env.plain, c))

theorem size_high_water_appended : appended.length = 3 ∧
    ((last oneFileState appended).sizeAt inode0 : Int) =
      highWater inode0 (oneFileState.sizeAt inode0) oneFileState appended ∧
    ∃ s', fsWrite .plain (last oneFileState appended) descriptor0 [4] = .ok (1, s') ∧
      SizeIsMax (last oneFileState appended) s' descriptor0 3 1 := by
  have hkeeps : EachStep (fun s a _ => ¬ StartsAnew s inode0 a.2 ∧ Appends s inode0 a.2) oneFileState
      appended := by
    decide +kernel
  have hret : passes (fun p => p.1 = 1)
      (fsWrite .plain (last oneFileState appended) descriptor0 [4]) = true := by
    decide +kernel
  obtain ⟨⟨r, s'⟩, hwrite, hr⟩ := ok_of_passes hret
  obtain rfl : r = 1 := of_decide_eq_true hr
  refine ⟨by decide +kernel, (size_high_water_iff oneFileState inode0).2.2.2 appended
    (hkeeps.and (eachStep_trail ..)), s', hwrite, ?_⟩
  have hone := (size_high_water_iff (last oneFileState appended) inode0).1
  exact (hone .plain s' descriptor0 [4] 3 (by decide +kernel) hwrite).mpr (by decide +kernel)

/-- Two bytes over the last two of three. -/
theorem not_sizeIsMax_overwrite : EachStep Session.Step (.boot fun _ => .empty) threeBytes ∧
    fsGetFilesize (last (.boot fun _ => .empty) threeBytes).state descriptor0 = .ok 3 ∧
    ∃ s', fsWrite .plain (last (.boot fun _ => .empty) threeBytes).state descriptor0 [7, 8] =
        .ok (2, s') ∧
      ¬ SizeIsMax (last (.boot fun _ => .empty) threeBytes).state s' descriptor0 3 2 := by
  have hallows : EachStep (fun w a _ => Session.Allows w a.1 a.2) (.boot fun _ => .empty)
      threeBytes := by
    decide +kernel
  have hret : passes (fun p => p.1 = 2)
      (fsWrite .plain (last (.boot fun _ => .empty) threeBytes).state descriptor0 [7, 8]) = true := by
    decide +kernel
  have hsize : fsGetFilesize (last (.boot fun _ => .empty) threeBytes).state descriptor0 = .ok 3 := by
    decide +kernel
  have hoffset : ((last (.boot fun _ => .empty) threeBytes).state.fds descriptor0).offset = 1 := by
    decide +kernel
  obtain ⟨⟨r, s'⟩, hwrite, htwo⟩ := ok_of_passes hret
  obtain rfl : r = 2 := of_decide_eq_true htwo
  refine ⟨hallows.and (eachStep_trail ..), hsize, s', hwrite, fun hmax => ?_⟩
  have hend := (sizeIsMax_iff hsize hwrite).mp hmax
  rw [hoffset] at hend
  exact absurd hend (by decide)

end OSChallenges.FileSystem
