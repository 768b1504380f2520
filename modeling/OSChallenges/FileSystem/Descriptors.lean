import OSChallenges.FileSystem.Offsets

/-!
# Calls on descriptors

Six calls take a descriptor. None of them compares it with the bounds of `fds`, so a number outside the
table is only refused where the mount is tested first and fails. `fs_truncate` compares the length with
the size and with nothing else.
-/

namespace OSChallenges.FileSystem

open Records Words Outcomes Runs

/-! ### Numbers that are no open descriptor -/

/-- The calls that are given a descriptor, without it. -/
inductive DescriptorCall
  | close
  | read (nbyte : Nat)
  | write (buf : List UInt8)
  | getFilesize
  | lseek (offset : Int)
  | truncate (length : Int)
  deriving DecidableEq

def DescriptorCall.on (fildes : Int) : DescriptorCall → Call
  | .close => .close fildes
  | .read nbyte => .read fildes nbyte
  | .write buf => .write fildes buf
  | .getFilesize => .getFilesize fildes
  | .lseek offset => .lseek fildes offset
  | .truncate length => .truncate fildes length

/-- `readyForUse` is tested before the descriptor is used. -/
def DescriptorCall.testsMount : DescriptorCall → Bool
  | .close | .getFilesize => false
  | .read _ | .write _ | .lseek _ | .truncate _ => true

def IsOpen (s : State) (fildes : Int) : Prop :=
  ∃ fd : Fin maxDescriptors, fildes = fd ∧ (s.fds fd).isUsed = true

/-- The call returns -1, has indexed nothing outside its array and leaves the tables and the disks. -/
def Refuses (env : Env) (s : State) (c : Call) : Prop := call env s c = .ok (.of (-1), s)

variable {env : Env} {s s' : State} {fildes length : Int} {c : DescriptorCall}
  {fd : Fin maxDescriptors} {i : Fin maxFiles}

theorem refuses_of_index (hfd : index maxDescriptors fildes = .ok fd)
    (hunused : (s.fds fd).isUsed = false) : Refuses env s (c.on fildes) := by
  have hnot : (!(s.fds fd).isUsed) = true := by
    rw [hunused]
    rfl
  unfold Refuses
  cases c with
  | close =>
    simp only [DescriptorCall.on, call, fsClose, hfd, ok_bind]
    rw [if_pos hnot]
    rfl
  | read nbyte =>
    simp only [DescriptorCall.on, call, fsRead, hfd, ok_bind]
    split
    · rfl
    · rfl
  | write buf =>
    simp only [DescriptorCall.on, call, fsWrite, hfd, ok_bind]
    split
    · rfl
    · rfl
  | getFilesize =>
    simp only [DescriptorCall.on, call, fsGetFilesize, hfd, ok_bind]
    rw [if_pos hnot]
    rfl
  | lseek offset =>
    simp only [DescriptorCall.on, call, fsLseek, hfd, ok_bind]
    split
    · rfl
    · rfl
  | truncate length =>
    simp only [DescriptorCall.on, call, fsTruncate, hfd, ok_bind]
    split
    · rfl
    · rfl

theorem refuses_of_not_mounted (hready : s.readyForUse = false) (htests : c.testsMount = true) :
    Refuses env s (c.on fildes) := by
  have hnot : (!s.readyForUse) = true := by
    rw [hready]
    rfl
  unfold Refuses
  cases c with
  | close => cases htests
  | getFilesize => cases htests
  | read nbyte =>
    rw [DescriptorCall.on, call, fsRead, if_pos hnot]
    rfl
  | write buf =>
    rw [DescriptorCall.on, call, fsWrite, if_pos hnot]
    rfl
  | lseek offset =>
    rw [DescriptorCall.on, call, fsLseek, if_pos hnot]
    rfl
  | truncate length =>
    rw [DescriptorCall.on, call, fsTruncate, if_pos hnot]
    rfl

theorem call_of_index_error (hfd : index maxDescriptors fildes = .error .outOfBounds)
    (hreaches : c.testsMount = true → s.readyForUse = true) :
    call env s (c.on fildes) = .error .outOfBounds := by
  cases c with
  | close =>
    simp only [DescriptorCall.on, call, fsClose, hfd]
    rfl
  | getFilesize =>
    simp only [DescriptorCall.on, call, fsGetFilesize, hfd]
    rfl
  | read nbyte =>
    simp only [DescriptorCall.on, call, fsRead, hfd, hreaches rfl, Bool.not_true, Bool.false_eq_true,
      if_false]
    rfl
  | write buf =>
    simp only [DescriptorCall.on, call, fsWrite, hfd, hreaches rfl, Bool.not_true, Bool.false_eq_true,
      if_false]
    rfl
  | lseek offset =>
    simp only [DescriptorCall.on, call, fsLseek, hfd, hreaches rfl, Bool.not_true, Bool.false_eq_true,
      if_false]
    rfl
  | truncate length =>
    simp only [DescriptorCall.on, call, fsTruncate, hfd, hreaches rfl, Bool.not_true,
      Bool.false_eq_true, if_false]
    rfl

theorem refuses_iff (env : Env) (c : DescriptorCall) (h : ¬ IsOpen s fildes) :
    Refuses env s (c.on fildes) ↔
      0 ≤ fildes ∧ fildes < 32 ∨ c.testsMount = true ∧ s.readyForUse = false := by
  by_cases hin : 0 ≤ fildes ∧ fildes < (maxDescriptors : Int)
  · have hfd : index maxDescriptors fildes = .ok ⟨fildes.toNat, by omega⟩ := dif_pos hin
    have hunused : (s.fds ⟨fildes.toNat, by omega⟩).isUsed = false := by
      rw [← Bool.not_eq_true]
      exact fun hused => h ⟨_, (Int.toNat_of_nonneg hin.1).symm, hused⟩
    exact iff_of_true (refuses_of_index hfd hunused) (.inl hin)
  · have hfd : index maxDescriptors fildes = .error .outOfBounds := dif_neg hin
    have hout : ¬ (0 ≤ fildes ∧ fildes < 32) := hin
    rw [or_iff_right hout]
    constructor
    · intro hrefuses
      by_contra hreaches
      unfold Refuses at hrefuses
      rw [call_of_index_error hfd fun htests => by simpa [htests] using hreaches] at hrefuses
      cases hrefuses
    · rintro ⟨htests, hready⟩
      exact refuses_of_not_mounted hready htests

/-- All six calls refuse a number that is no open descriptor exactly if it is in the table; a single call
also does so if it tests the mount first and no disk is mounted. -/
theorem invalid_refused_iff (env : Env) (h : ¬ IsOpen s fildes) :
    ((∀ c : DescriptorCall, Refuses env s (c.on fildes)) ↔ 0 ≤ fildes ∧ fildes < 32) ∧
      ∀ c : DescriptorCall, Refuses env s (c.on fildes) ↔
        0 ≤ fildes ∧ fildes < 32 ∨ c.testsMount = true ∧ s.readyForUse = false := by
  refine ⟨⟨fun hall => ?_, fun hin c => (refuses_iff env c h).mpr (.inl hin)⟩,
    fun c => refuses_iff env c h⟩
  obtain hin | ⟨htests, -⟩ := (refuses_iff env .close h).mp (hall .close)
  · exact hin
  · cases htests

/-- A file that does not exist is opened, which returns -1. -/
def failedOpen : List ((Env × Call) × Session) :=
  trail Session.step (.boot fun _ => .empty) ([.makeFs (some disk0), .mountFs (some disk0),
    .open nameA].map fun c => (Env.plain, c))

/-- No descriptor is open. -/
theorem not_isOpen_failedOpen (fildes : Int) :
    ¬ IsOpen (last (.boot fun _ => .empty) failedOpen).state fildes := by
  have hclosed : ∀ fd, ((last (.boot fun _ => .empty) failedOpen).state.fds fd).isUsed = false := by
    decide +kernel
  rintro ⟨fd, -, hused⟩
  rw [hclosed fd] at hused
  cases hused

theorem invalid_refused_descriptor3 :
    ¬ IsOpen (last (.boot fun _ => .empty) failedOpen).state 3 ∧ ∀ c : DescriptorCall,
      Refuses .plain (last (.boot fun _ => .empty) failedOpen).state (c.on 3) :=
  ⟨not_isOpen_failedOpen 3, (invalid_refused_iff .plain (not_isOpen_failedOpen 3)).1.mpr (by decide)⟩

/-- What `fs_open` has returned is closed. -/
theorem not_refuses_failedOpen : EachStep Session.Step (.boot fun _ => .empty) failedOpen ∧
    fsOpen (last (.boot fun _ => .empty) failedOpen).state nameA =
      (-1, (last (.boot fun _ => .empty) failedOpen).state) ∧
    ¬ IsOpen (last (.boot fun _ => .empty) failedOpen).state (-1) ∧
    call .plain (last (.boot fun _ => .empty) failedOpen).state (.close (-1)) =
      .error .outOfBounds ∧
    ¬ Refuses .plain (last (.boot fun _ => .empty) failedOpen).state (.close (-1)) := by
  have hallows : EachStep (fun w a _ => Session.Allows w a.1 a.2) (.boot fun _ => .empty)
      failedOpen := by
    decide +kernel
  have hmissing : findDirectory (last (.boot fun _ => .empty) failedOpen).state.directory false nameA =
      none := by
    decide +kernel
  have hready : (last (.boot fun _ => .empty) failedOpen).state.readyForUse = true := by
    decide +kernel
  have hfaults : call .plain (last (.boot fun _ => .empty) failedOpen).state (.close (-1)) =
      .error .outOfBounds :=
    call_of_index_error (c := .close) (by decide) fun _ => hready
  refine ⟨hallows.and (eachStep_trail ..), ?_, not_isOpen_failedOpen (-1), hfaults, fun hrefuses => ?_⟩
  · rw [fsOpen, hmissing, hready]
    rfl
  · unfold Refuses at hrefuses
    rw [hfaults] at hrefuses
    cases hrefuses

/-! ### Truncation -/

/-- The call succeeds for the lengths up to the size, and then the file has the length, no descriptor of it
is past it and no other file has changed its size; a call that fails changes nothing. -/
def TruncatesTo (s : State) (fd : Fin maxDescriptors) (i : Fin maxFiles) (length : Int) : Prop :=
  ∃ r s', fsTruncate s fd length = .ok (r, s') ∧
    (r = 0 ↔ 0 ≤ length ∧ length ≤ s.sizeAt i) ∧
    (r = 0 → (s'.sizeAt i : Int) = length ∧
      (∀ fd' : Fin maxDescriptors, (s'.fds fd').isUsed = true →
        (s'.fds fd').inodeNum.toNat = i → (s'.fds fd').offset ≤ length) ∧
      ∀ j, j ≠ i → s'.sizeAt j = s.sizeAt j) ∧
    (r ≠ 0 → s' = s)

theorem truncate_eq (hready : s.readyForUse = true) (hused : (s.fds fd).isUsed = true)
    (hinode : (s.fds fd).inodeNum.toNat = i) (length : Int) :
    fsTruncate s fd length = .ok (if (s.sizeAt i : Int) < length then (-1, s)
      else (0, resize s i (BitVec.ofInt 16 length))) := by
  have hindex : index maxFiles ((s.fds fd).inodeNum.toNat : Int) = .ok i := by
    rw [hinode]
    exact index_of_lt i.isLt
  unfold fsTruncate Metadata.sizeAt
  rw [index_of_lt fd.isLt]
  simp only [hready, hused, ok_bind, hindex, Bool.not_true, Bool.false_eq_true, if_false]
  by_cases hlong : ((s.inodes i).fileSize.toNat : Int) < length
  · rw [if_pos hlong, if_pos hlong]
    rfl
  · rw [if_neg hlong, if_neg hlong]
    simp only [resize, hready]
    rfl

/-- A length up to the size is accepted, whatever the offsets are. -/
theorem TruncatesTo.of_le (h : TruncatesTo s fd i length) (hready : s.readyForUse = true)
    (hused : (s.fds fd).isUsed = true) (hinode : (s.fds fd).inodeNum.toNat = i)
    (hle : length ≤ s.sizeAt i) : 0 ≤ length ∧
      ∀ fd' : Fin maxDescriptors, (s.fds fd').isUsed = true → (s.fds fd').inodeNum.toNat = i →
        (s.fds fd').offset ≤ length := by
  obtain ⟨r, s', hcall, hret, hdone, -⟩ := h
  rw [truncate_eq hready hused hinode, if_neg (Int.not_lt.mpr hle)] at hcall
  cases hcall
  exact ⟨(hret.mp rfl).1, (hdone rfl).2.1⟩

/-- A truncation does what is asked for exactly if the length is too large, or is not negative and no open
descriptor of the file is past it. -/
theorem truncatesTo_iff (hready : s.readyForUse = true) (hused : (s.fds fd).isUsed = true)
    (hinode : (s.fds fd).inodeNum.toNat = i) (length : Int) :
    TruncatesTo s fd i length ↔ (s.sizeAt i : Int) < length ∨ 0 ≤ length ∧
      ∀ fd' : Fin maxDescriptors, (s.fds fd').isUsed = true → (s.fds fd').inodeNum.toNat = i →
        (s.fds fd').offset ≤ length := by
  have hcall := truncate_eq hready hused hinode length
  by_cases hlong : (s.sizeAt i : Int) < length
  · rw [if_pos hlong] at hcall
    refine iff_of_true ⟨-1, s, hcall, ?_, fun hzero => absurd hzero (by decide), fun _ => rfl⟩ (.inl hlong)
    exact iff_of_false (by decide) fun hle => absurd hle.2 (Int.not_le.mpr hlong)
  · rw [if_neg hlong] at hcall
    rw [or_iff_right hlong]
    constructor
    · exact fun h => h.of_le hready hused hinode (Int.not_lt.mp hlong)
    · rintro ⟨hpos, hoffsets⟩
      have hle : length ≤ s.sizeAt i := Int.not_lt.mp hlong
      refine ⟨0, _, hcall, iff_of_true rfl ⟨hpos, hle⟩, fun _ => ⟨?_, hoffsets, ?_⟩,
        fun hne => absurd rfl hne⟩
      · have hlt : s.sizeAt i < 2 ^ 16 := (s.inodes i).fileSize.isLt
        obtain ⟨k, rfl⟩ := Int.eq_ofNat_of_zero_le hpos
        rw [sizeAt_resize, if_pos rfl, BitVec.ofInt_natCast, BitVec.toNat_ofNat,
          Nat.mod_eq_of_lt (by omega)]
      · intro j hj
        rw [sizeAt_resize, if_neg hj]

/-- The offset of the only descriptor is 1. -/
theorem truncatesTo_threeBytes :
    TruncatesTo (last (.boot fun _ => .empty) threeBytes).state descriptor0 inode0 2 :=
  (truncatesTo_iff (by decide +kernel) (by decide +kernel) (by decide +kernel) 2).mpr
    (.inr ⟨by decide, by decide +kernel⟩)

/-- A negative length is accepted and makes the size 65535; a length of 0 leaves the offset at 1. -/
theorem not_truncatesTo_negative : EachStep Session.Step (.boot fun _ => .empty) threeBytes ∧
    fsTruncate (last (.boot fun _ => .empty) threeBytes).state descriptor0 (-1) =
      .ok (0, resize (last (.boot fun _ => .empty) threeBytes).state inode0 65535) ∧
    ¬ TruncatesTo (last (.boot fun _ => .empty) threeBytes).state descriptor0 inode0 (-1) ∧
    ¬ TruncatesTo (last (.boot fun _ => .empty) threeBytes).state descriptor0 inode0 0 := by
  have hallows : EachStep (fun w a _ => Session.Allows w a.1 a.2) (.boot fun _ => .empty)
      threeBytes := by
    decide +kernel
  have hready : (last (.boot fun _ => .empty) threeBytes).state.readyForUse = true := by
    decide +kernel
  have hused : ((last (.boot fun _ => .empty) threeBytes).state.fds descriptor0).isUsed = true := by
    decide +kernel
  have hinode : ((last (.boot fun _ => .empty) threeBytes).state.fds descriptor0).inodeNum.toNat =
      inode0.val := by
    decide +kernel
  have hsize : ((last (.boot fun _ => .empty) threeBytes).state.sizeAt inode0) = 3 := by
    decide +kernel
  refine ⟨hallows.and (eachStep_trail ..), ?_, ?_, ?_⟩
  · rw [truncate_eq hready hused hinode, hsize]
    rfl
  · intro htruncates
    have hpos := (htruncates.of_le hready hused hinode (by rw [hsize]; decide)).1
    exact absurd hpos (by decide)
  · intro htruncates
    have hpast : ((last (.boot fun _ => .empty) threeBytes).state.fds descriptor0).offset = 1 := by
      decide +kernel
    have hoffsets := (htruncates.of_le hready hused hinode (by rw [hsize]; decide)).2
    have hle := hoffsets descriptor0 hused hinode
    rw [hpast] at hle
    exact absurd hle (by decide)

end OSChallenges.FileSystem
