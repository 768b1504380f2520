import OSChallenges.FileSystem.Descriptors
import OSChallenges.FileSystem.Volumes

/-!
# Calls on the mounted disk and in the store

While a disk is mounted that is in order, the store sees its volume and what is open. Each call on the tables
and the blocks answers as the store does, and the store sees what has become of them.
-/

namespace OSChallenges.FileSystem

open Records Words Outcomes Runs

/-- What a descriptor of the table is in the store. -/
def Describes (s : State) (fd : Fin maxDescriptors) : Option (Fin maxFiles × Nat) → Prop
  | none => (s.fds fd).isUsed = false
  | some (d, offset) => s.named d ∧ ∃ i, s.leadsTo d i ∧ Opened s fd i offset

/-- The mounted disk as the store has it. -/
structure Views (s : State) (m : Mount) : Prop where
  volume : m.volume = .of s.toMetadata (s.files m.disk)
  opened : ∀ fd, Describes s fd (m.opened fd)

/-- The call answers as the store does, and its state is what the store has then. -/
def Answers (env : Env) (s : State) (m : Mount) (c : Call) : Prop :=
  ∃ s', call env s c = .ok ((m.call c).1, s') ∧ Views s' (m.call c).2

section

variable {env : Env} {s s' : State} {m : Mount} {n name : CString} {c : Call} {fildes position : Int}
  {fd : Fin maxDescriptors} {i d : Fin maxFiles} {offset : Nat}

/-! ### Descriptors -/

theorem Describes.still {file : Option (Fin maxFiles × Nat)} (h : Describes s fd file)
    (hframe : Framed s c s' n) (hclose : c ≠ .close fd) (hfd : s'.fds fd = s.fds fd) :
    Describes s' fd file := by
  cases file with
  | none =>
    show (s'.fds fd).isUsed = false
    rw [hfd]
    exact h
  | some entry =>
    obtain ⟨hnamed, i, hleads, hopened⟩ := h
    have hstill := hframe.stillOpen fd i entry.2 hopened hclose
    have hentry := hstill.entry entry.1 hnamed hleads
    refine ⟨?_, i, ?_, hopened.of_eq hfd (fun _ => hstill.used) hstill.entry⟩
    · rw [Metadata.named, hentry]
      exact hnamed
    · rw [Metadata.leadsTo, hentry]
      exact hleads

theorem Describes.isNone_iff {file : Option (Fin maxFiles × Nat)} (h : Describes s fd file) :
    file.isNone ↔ (s.fds fd).isUsed = false := by
  cases file with
  | none => exact iff_of_true rfl h
  | some entry =>
    obtain ⟨-, i, -, hopened⟩ := h
    rw [hopened.isUsed]
    exact iff_of_false Bool.false_ne_true Bool.true_eq_false.mp

theorem Views.freeDescriptor (h : Views s m) : m.freeDescriptor = findFD s.fds := by
  unfold Mount.freeDescriptor findFD
  congr 1
  funext fd
  rw [Bool.eq_iff_iff, decide_eq_true_eq]
  exact (h.opened fd).isNone_iff

theorem Views.file_cases (h : Views s m) (hin : FileStore.InTable fildes) :
    ∃ fd : Fin maxDescriptors, fildes = fd ∧
      (m.file fildes = none ∧ (s.fds fd).isUsed = false ∨ ∃ d i offset,
        m.file fildes = some ⟨fd, d, offset, (s.directory d).cName, s.contents (s.files m.disk) i⟩ ∧
        s.named d ∧ s.leadsTo d i ∧ Opened s fd i offset) := by
  have hbound : fildes.toNat < maxDescriptors := by
    have hlt := hin.2
    have hpos := hin.1
    omega
  refine ⟨⟨fildes.toNat, hbound⟩, (Int.toNat_of_nonneg hin.1).symm, ?_⟩
  have hdescribes := h.opened ⟨fildes.toNat, hbound⟩
  have hfile : m.file fildes = m.fileAt ⟨fildes.toNat, hbound⟩ := dif_pos hin
  rw [hfile, Mount.fileAt]
  cases hopened : m.opened ⟨fildes.toNat, hbound⟩ with
  | none =>
    rw [hopened] at hdescribes
    exact .inl ⟨rfl, hdescribes⟩
  | some entry =>
    rw [hopened] at hdescribes
    obtain ⟨hnamed, i, hleads, hused⟩ := hdescribes
    refine .inr ⟨entry.1, i, entry.2, ?_, hnamed, hleads, hused⟩
    simp only [h.volume, entries_of_named hnamed hleads, Option.map_some]

/-! ### Calls on open files -/

/-- It is enough to look at open files. -/
theorem Views.onFile {c : DescriptorCall} (h : Views s m) (hin : FileStore.InTable fildes)
    (hopened : ∀ (fd : Fin maxDescriptors) d i offset, fildes = fd → m.file fildes =
        some ⟨fd, d, offset, (s.directory d).cName, s.contents (s.files m.disk) i⟩ →
      s.named d → s.leadsTo d i → Opened s fd i offset → Answers env s m (c.on fildes)) :
    Answers env s m (c.on fildes) := by
  obtain ⟨fd, rfl, ⟨hnone, hunused⟩ | ⟨d, i, offset, hfile, hnamed, hleads, hused⟩⟩ :=
    h.file_cases hin
  · have hrefuses : m.call (c.on fd) = (.of (-1), m) := by
      cases c with
      | _ => simp only [DescriptorCall.on, Mount.call, Mount.onFile, hnone]
    refine ⟨s, ?_, ?_⟩
    · rw [hrefuses]
      exact refuses_of_index (index_of_lt fd.isLt) hunused
    · rw [hrefuses]
      exact h
  · exact hopened fd d i offset rfl hfile hnamed hleads hused

theorem Views.seek (h : Views s m) (hnamed : s.named d) (hleads : s.leadsTo d i)
    (hopened : Opened s fd i offset) {position : Nat} (hlt : position < 2 ^ 16) :
    Views (seek s fd position) (m.describe fd (some (d, position))) := by
  refine ⟨h.volume, fun fd' => ?_⟩
  show Describes _ fd' (Function.update m.opened fd _ fd')
  by_cases hfd : fd' = fd
  · rw [hfd, Function.update_self]
    exact ⟨hnamed, i, hleads, hopened.seek hlt⟩
  · rw [Function.update_of_ne hfd]
    exact (h.opened fd').still (c := .listfiles) (n := m.disk) (.seek _) (fun heq => by cases heq)
      (Function.update_of_ne hfd ..)

/-- The mounted disk is in order. -/
structure Working (s : State) (m : Mount) : Prop where
  handle : s.handle = some m.disk
  ready : s.readyForUse = true
  order : InOrder s m.disk
  views : Views s m

theorem Working.close (h : Working s m) (hin : FileStore.InTable fildes) :
    Answers env s m (.close fildes) := by
  refine h.views.onFile (c := .close) hin fun fd d i offset hfd hfile hnamed hleads hopened => ?_
  subst hfd
  have hcall : m.call (.close fd) = (.of 0, m.describe fd none) := by
    simp only [Mount.call, Mount.onFile, hfile]
  refine ⟨describe s fd .zero, ?_, ?_⟩
  · rw [DescriptorCall.on, hcall, call, close_eq hopened.isUsed]
    rfl
  · rw [DescriptorCall.on, hcall]
    refine ⟨h.views.volume, fun fd' => ?_⟩
    show Describes _ fd' (Function.update m.opened fd none fd')
    by_cases hne : fd' = fd
    · rw [hne, Function.update_self]
      show (Function.update s.fds fd .zero fd).isUsed = false
      rw [Function.update_self]
      rfl
    · rw [Function.update_of_ne hne]
      refine (h.views.opened fd').still (c := .close fd) (n := m.disk) (.close rfl) ?_
        (Function.update_of_ne hne ..)
      intro heq
      exact hne (Fin.ext (by injection heq with heq; omega))

theorem Working.getFilesize (h : Working s m) (hin : FileStore.InTable fildes) :
    Answers env s m (.getFilesize fildes) := by
  refine h.views.onFile (c := .getFilesize) hin fun fd d i offset hfd hfile hnamed hleads hopened => ?_
  subst hfd
  have hcall : m.call (.getFilesize fd) = (.of (s.sizeAt i), m) := by
    simp only [Mount.call, Mount.onFile, hfile]
    rfl
  refine ⟨s, ?_, ?_⟩
  · rw [DescriptorCall.on, hcall, call, getFilesize_eq hopened.isUsed hopened.inodeNum]
    rfl
  · rw [DescriptorCall.on, hcall]
    exact h.views

theorem lseek_outcome (hready : s.readyForUse = true) (hopened : Opened s fd i offset) (position : Int) :
    fsLseek s fd position =
      .ok (if 0 ≤ position ∧ position ≤ s.sizeAt i then (0, seek s fd position) else (-1, s)) := by
  have hindex : index maxFiles ((s.fds fd).inodeNum.toNat : Int) = .ok i := by
    rw [hopened.inodeNum]
    exact index_of_lt i.isLt
  unfold fsLseek Metadata.sizeAt
  rw [index_of_lt fd.isLt]
  simp only [hready, hopened.isUsed, ok_bind, hindex, Bool.not_true, Bool.false_eq_true, if_false]
  by_cases hneg : position < 0
  · rw [if_pos hneg, if_neg (by omega)]
    rfl
  rw [if_neg hneg]
  by_cases hlong : ((s.inodes i).fileSize.toNat : Int) < position
  · rw [if_pos hlong, if_neg (by omega)]
    rfl
  · rw [if_neg hlong, if_pos (by omega)]
    simp only [seek, hready, hopened.isUsed]
    rfl

theorem Working.lseek (h : Working s m) (hin : FileStore.InTable fildes) :
    Answers env s m (.lseek fildes position) := by
  refine h.views.onFile (c := .lseek position) hin fun fd d i offset hfd hfile hnamed hleads hopened => ?_
  subst hfd
  have hcall : m.call (.lseek fd position) = if 0 ≤ position ∧ position ≤ s.sizeAt i then
      (.of 0, m.describe fd (some (d, position.toNat))) else (.of (-1), m) := by
    simp only [Mount.call, Mount.onFile, hfile]
    rfl
  unfold Answers
  rw [DescriptorCall.on, hcall, call, lseek_outcome h.ready hopened]
  by_cases hrange : 0 ≤ position ∧ position ≤ s.sizeAt i
  · have hlt : s.sizeAt i < 2 ^ 16 := (s.inodes i).fileSize.isLt
    have hcast : (position.toNat : Int) = position := Int.toNat_of_nonneg hrange.1
    rw [if_pos hrange, if_pos hrange]
    refine ⟨_, rfl, ?_⟩
    rw [← hcast]
    exact h.views.seek hnamed hleads hopened (by omega)
  · rw [if_neg hrange, if_neg hrange]
    exact ⟨s, rfl, h.views⟩

theorem Working.truncate {length : Int} (h : Working s m) (hin : FileStore.InTable fildes) :
    Answers env s m (.truncate fildes length) := by
  refine h.views.onFile (c := .truncate length) hin
    fun fd d i offset hfd hfile hnamed hleads hopened => ?_
  subst hfd
  have hcall : m.call (.truncate fd length) = if length ≤ s.sizeAt i then
      (.of 0, m.set ⟨fd, d, offset, (s.directory d).cName, s.contents (s.files m.disk) i⟩ offset
        { s.contents (s.files m.disk) i with size := BitVec.ofInt 16 length })
      else (.of (-1), m) := by
    simp only [Mount.call, Mount.onFile, hfile]
    rfl
  unfold Answers
  rw [DescriptorCall.on, hcall, call, truncate_eq h.ready hopened.isUsed hopened.inodeNum]
  by_cases hlong : (s.sizeAt i : Int) < length
  · rw [if_pos hlong, if_neg (by omega)]
    exact ⟨s, rfl, h.views⟩
  · rw [if_neg hlong, if_pos (by omega)]
    refine ⟨_, rfl, ?_, fun fd' => ?_⟩
    · show m.volume.put d _ = _
      rw [h.views.volume]
      exact (volume_resize h.order.consistent hnamed hleads _).symm
    · have hstill := (h.views.opened fd').still (c := .listfiles) (n := m.disk)
        (.resize (i := i) (BitVec.ofInt 16 length)) (fun heq => by cases heq) rfl
      show Describes _ fd' (Function.update m.opened fd (some (d, offset)) fd')
      by_cases hne : fd' = fd
      · rw [hne, Function.update_self]
        exact ⟨hnamed, i, hleads, hopened.of_eq rfl
          (fun hu => (inodes_resize s i i _).1.mpr hu) fun _ _ _ => rfl⟩
      · rw [Function.update_of_ne hne]
        exact hstill

theorem Working.read {nbyte : Nat} (h : Working s m) (hin : FileStore.InTable fildes)
    (hroom : ∀ f ∈ m.file fildes, f.offset < blockSize → f.offset + nbyte ≤ blockSize) :
    Answers env s m (.read fildes nbyte) := by
  refine h.views.onFile (c := .read nbyte) hin fun fd d i offset hfd hfile hnamed hleads hopened => ?_
  subst hfd
  have hcall : m.call (.read fd nbyte) =
      if (s.inodes i).fileSize.toNat ≤ offset ∨ blockSize ≤ offset then (.of 0, m)
      else (⟨nbyte, (s.contents (s.files m.disk) i).bytes offset nbyte, []⟩,
        m.describe fd (some (d, offset + nbyte))) := by
    simp only [Mount.call, Mount.onFile, hfile]
    rfl
  unfold Answers
  rw [DescriptorCall.on, hcall, call, read_eq env h.ready h.handle h.order.consistent hopened nbyte]
  by_cases hend : (s.inodes i).fileSize.toNat ≤ offset ∨ blockSize ≤ offset
  · rw [if_pos hend, if_pos hend]
    exact ⟨s, rfl, h.views⟩
  · have hfirst : offset < blockSize := Nat.lt_of_not_le (not_or.mp hend).2
    have hle : offset + nbyte ≤ blockSize := hroom _ hfile hfirst
    rw [if_neg hend, if_neg hend, toInt32_le (.inr hle), copied_of_le hle, ← Int.natCast_add]
    have hlt : offset + nbyte < 2 ^ 16 := by
      unfold blockSize at hle
      omega
    exact ⟨_, rfl, h.views.seek hnamed hleads hopened hlt⟩

theorem Working.write {buf : List UInt8} (h : Working s m) (hin : FileStore.InTable fildes)
    (hroom : ∀ f ∈ m.file fildes, buf = [] ∨ f.offset + buf.length ≤ blockSize) :
    Answers env s m (.write fildes buf) := by
  refine h.views.onFile (c := .write buf) hin fun fd d i offset hfd hfile hnamed hleads hopened => ?_
  subst hfd
  have hle : buf = [] ∨ offset + buf.length ≤ blockSize := hroom _ hfile
  have hlen : toInt32 buf.length = buf.length :=
    toInt32_le (hle.imp_left fun hnil => List.length_eq_zero_iff.mpr hnil)
  have hlt : offset + buf.length < 2 ^ 16 := by
    have hoffset := hopened.lt
    rcases hle with rfl | hle
    · exact hoffset
    · unfold blockSize at hle
      omega
  have hcall : m.call (.write fd buf) = (.of buf.length,
      m.set ⟨fd, d, offset, (s.directory d).cName, s.contents (s.files m.disk) i⟩ (offset + buf.length)
        ((s.contents (s.files m.disk) i).overwrite offset buf)) := by
    simp only [Mount.call, Mount.onFile, hfile]
  obtain ⟨block, hcopy, hvolume⟩ := volume_written h.order hnamed hleads hopened hle
  have hwrite : fsWrite env s fd buf = .ok ((buf.length : Int), written s m.disk fd i
      (target s.toMetadata (s.files m.disk) i offset) block buf.length) := by
    rw [write_eq_map env h.ready h.handle h.order.consistent hopened, hcopy, hlen]
    rfl
  unfold Answers
  rw [DescriptorCall.on, hcall, call, hwrite]
  refine ⟨_, rfl, ?_, fun fd' => ?_⟩
  · show m.volume.put d _ = _
    rw [h.views.volume]
    exact hvolume.symm
  · show Describes _ fd' (Function.update m.opened fd (some (d, offset + buf.length)) fd')
    by_cases hne : fd' = fd
    · rw [hne, Function.update_self]
      exact ⟨hnamed, i, hleads, hopened.written hlt⟩
    · rw [Function.update_of_ne hne]
      exact (h.views.opened fd').still (c := .write fd buf) (n := m.disk)
        (.write h.order rfl hopened) (fun heq => by cases heq) (Function.update_of_ne hne ..)

theorem filterMap_eq_map_filter {α β : Type} {p : α → Bool} {f : α → Option β} {g : α → β}
    (h : ∀ a, f a = if p a then some (g a) else none) (l : List α) :
    l.filterMap f = (l.filter p).map g := by
  induction l with
  | nil => rfl
  | cons a rest ih =>
    rw [List.filterMap_cons, h a, List.filter_cons]
    cases hp : p a with
    | true => simp only [if_true, List.map_cons, ih]
    | false => simp only [Bool.false_eq_true, if_false, ih]

theorem Working.listfiles (h : Working s m) : Answers env s m .listfiles := by
  refine ⟨s, ?_, h.views⟩
  have hnames : (fsListfiles s).names = m.volume.names := by
    rw [names_listfiles h.ready, h.views.volume]
    refine (filterMap_eq_map_filter (fun d => ?_) (List.finRange maxFiles)).symm
    by_cases hnamed : s.named d
    · obtain ⟨i, hleads, -⟩ := h.order.consistent.named d hnamed
      have hname : decide ((s.directory d).name 0 ≠ 0) = true := decide_eq_true hnamed
      rw [entries_of_named hnamed hleads, if_pos hname]
      rfl
    · have hname : ¬ decide ((s.directory d).name 0 ≠ 0) = true := by
        rw [decide_eq_true_eq]
        exact hnamed
      rw [entries_of_not_named hnamed, if_neg hname]
      rfl
  have hresult : fsListfiles s = ⟨0, [], m.volume.names⟩ := by
    rw [← hnames, fsListfiles, h.ready]
    rfl
  rw [call, hresult]
  rfl

theorem Working.open (h : Working s m) : Answers env s m (.open name) := by
  have hfind : m.volume.find name.chars = findDirectory s.directory false name := by
    rw [h.views.volume, find_eq h.order.consistent]
  unfold Answers
  rw [call, Mount.call, hfind, h.views.freeDescriptor]
  cases hentry : findDirectory s.directory false name with
  | none =>
    refine ⟨s, ?_, h.views⟩
    simp only [fsOpen, h.ready, hentry, Bool.not_true, Bool.false_eq_true, if_false]
    rfl
  | some d =>
    cases hfd : findFD s.fds with
    | none =>
      refine ⟨s, ?_, h.views⟩
      simp only [fsOpen, h.ready, hentry, hfd, Bool.not_true, Bool.false_eq_true, if_false]
      rfl
    | some fd =>
      obtain ⟨hnamed, -⟩ := findDirectory_old hentry
      obtain ⟨i, hleads, hi⟩ := h.order.consistent.named d hnamed
      rw [open_eq h.ready hentry hfd]
      refine ⟨_, rfl, h.views.volume, fun fd' => ?_⟩
      show Describes _ fd' (Function.update m.opened fd (some (d, 0)) fd')
      by_cases hne : fd' = fd
      · have hself : (describe s fd ⟨true, (s.directory d).inodeNum, 0⟩).fds fd =
            ⟨true, (s.directory d).inodeNum, 0⟩ := Function.update_self ..
        rw [hne, Function.update_self]
        refine ⟨hnamed, i, hleads, ?_, ?_, hi, ⟨d, hnamed, hleads⟩, by decide, ?_⟩
        · rw [hself]
        · rw [hself]
          exact hleads
        · rw [hself]
          rfl
      · rw [Function.update_of_ne hne]
        exact (h.views.opened fd').still (c := .listfiles) (n := m.disk) (.open (findFD_unused hfd))
          (fun heq => by cases heq) (Function.update_of_ne hne ..)

theorem Working.not_open_iff (h : Working s m) (hnamed : s.named d) :
    m.isOpen d = true ↔ ∃ fd, (s.fds fd).isUsed = true ∧ (s.fds fd).inodeNum = (s.directory d).inodeNum := by
  unfold Mount.isOpen
  rw [List.any_eq_true]
  constructor
  · rintro ⟨fd, -, hfd⟩
    have hdescribes := h.views.opened fd
    cases hopened : m.opened fd with
    | none =>
      rw [hopened] at hfd
      cases hfd
    | some entry =>
      rw [hopened] at hfd hdescribes
      obtain rfl : entry.1 = d := Option.some.inj (of_decide_eq_true hfd)
      obtain ⟨-, i, hleads, hused⟩ := hdescribes
      exact ⟨fd, hused.isUsed, BitVec.eq_of_toNat_eq (hused.inodeNum.trans hleads.symm)⟩
  · rintro ⟨fd, hused, hinode⟩
    refine ⟨fd, List.mem_finRange fd, decide_eq_true ?_⟩
    have hdescribes := h.views.opened fd
    cases hopened : m.opened fd with
    | none =>
      rw [hopened] at hdescribes
      have hunused : (s.fds fd).isUsed = false := hdescribes
      rw [hunused] at hused
      cases hused
    | some entry =>
      rw [hopened] at hdescribes
      obtain ⟨hnamed', i, hleads', hopened'⟩ := hdescribes
      have hleads : s.leadsTo d i := by
        rw [Metadata.leadsTo, ← hinode]
        exact hopened'.inodeNum
      rw [h.order.consistent.unique d entry.1 i hnamed hnamed' hleads hleads']
      rfl

theorem Working.delete (h : Working s m) : Answers env s m (.delete name) := by
  have hfind : m.volume.find name.chars = findDirectory s.directory false name := by
    rw [h.views.volume, find_eq h.order.consistent]
  unfold Answers
  rw [call, Mount.call, hfind]
  cases hentry : findDirectory s.directory false name with
  | none =>
    refine ⟨s, ?_, h.views⟩
    simp only [fsDelete, h.ready, hentry, Bool.not_true, Bool.false_eq_true, if_false]
    rfl
  | some d =>
    obtain ⟨hnamed, -⟩ := findDirectory_old hentry
    obtain ⟨i, hleads, hi⟩ := h.order.consistent.named d hnamed
    by_cases hopened : m.isOpen d = true
    · obtain ⟨fd, hused, hinode⟩ := (h.not_open_iff hnamed).mp hopened
      simp only [if_pos hopened]
      rw [delete_refused hentry h.ready hused hinode]
      exact ⟨s, rfl, h.views⟩
    · have hclosed : Closed s name i d :=
        ⟨hentry, hleads, fun fd hused hinode => hopened ((h.not_open_iff hnamed).mpr ⟨fd, hused, hinode⟩)⟩
      obtain ⟨bitmap, hcleared, hcall⟩ := delete_closed env h.ready h.handle h.order.consistent hclosed
      simp only [if_neg hopened]
      rw [hcall]
      refine ⟨_, rfl, ?_, fun fd => ?_⟩
      · show m.volume.remove d = _
        rw [h.views.volume]
        exact (volume_deleted h.order.consistent hclosed hcleared).symm
      · exact (h.views.opened fd).still (.delete h.order hclosed) (fun heq => by cases heq) rfl

/-- A new file has zeros if the free blocks have. -/
theorem Working.create (h : Working s m) (hclean : Clean s.toMetadata (s.files m.disk)) :
    Answers env s m (.create name) := by
  have hfind : m.volume.find name.chars = findDirectory s.directory false name := by
    rw [h.views.volume, find_eq h.order.consistent]
  have hfree : findDirectory s.directory true name =
      if m.volume.find name.chars = none then m.volume.freeEntry else none := by
    rw [h.views.volume]
    exact freeEntry_eq h.order.consistent name
  have hinodes : (findInode s.inodes).isSome ↔ 0 < m.volume.inodesFree := by
    rw [h.views.volume]
    exact findInode_isSome_iff s.inodes
  have hblocks : TwoFree s.usedBlocksBitmap ↔ 2 ≤ m.volume.blocksFree := by
    rw [h.views.volume]
    exact twoFree_iff
  obtain ⟨r, s', hcall⟩ := create_total env s name
  obtain ⟨loc, num, bitmap, hreserves, ⟨rfl, rfl, hfails⟩ | ⟨rfl, i, d, a, b, rfl, rfl, hab, hfound, rfl⟩⟩ :=
    create_reserves h.handle hcall
  · have hleft : m.volume.create name =
        (false, { m.volume with blocksFree := m.volume.blocksFree - 2 }) := by
      unfold Volume.create
      cases hentry : m.volume.freeEntry with
      | none => rfl
      | some d =>
        refine if_neg fun hneeds => hfails ⟨h.ready, hneeds.1, hinodes.mpr hneeds.2.2.1, ?_,
          hblocks.mpr hneeds.2.2.2⟩
        rw [hfree, if_pos hneeds.2.1, hentry]
        rfl
    refine ⟨{ s with usedBlocksBitmap := bitmap }, ?_, ?_, fun fd => ?_⟩
    · rw [call, hcall, Mount.call, hleft]
      rfl
    · rw [Mount.call, hleft]
      show { m.volume with blocksFree := m.volume.blocksFree - 2 } = _
      rw [h.views.volume]
      exact (volume_mark hreserves).symm
    · rw [Mount.call, hleft]
      exact (h.views.opened fd).still (.mark (c := .listfiles) (n := m.disk) bitmap)
        (fun heq => by cases heq) rfl
  · have hcreatable := hfound.creatable hab
    have hnew : m.volume.find name.chars = none := by
      by_contra hold
      rw [if_neg hold, hfound.entry] at hfree
      cases hfree
    rw [if_pos hnew, hfound.entry] at hfree
    have hdone : m.volume.create name = (true,
        let rest : Volume := ⟨m.volume.entries, m.volume.inodesFree - 1, m.volume.blocksFree - 2⟩
        if name.chars = [] then rest else rest.put d (some (name.chars, .new))) := by
      unfold Volume.create
      rw [← hfree]
      exact if_pos ⟨hfound.length, hnew, hinodes.mp hcreatable.2.1, hblocks.mp hcreatable.2.2.2⟩
    refine ⟨created env s m.disk name i d a b bitmap, ?_, ?_, fun fd => ?_⟩
    · rw [call, hcall, Mount.call, hdone]
      rfl
    · rw [Mount.call, hdone]
      show (let rest : Volume := ⟨m.volume.entries, m.volume.inodesFree - 1, m.volume.blocksFree - 2⟩
        if name.chars = [] then rest else rest.put d (some (name.chars, .new))) = _
      rw [h.views.volume]
      exact (volume_created h.order.consistent hclean hreserves hfound).symm
    · rw [Mount.call, hdone]
      exact (h.views.opened fd).still (.create (c := .listfiles) h.order hfound)
        (fun heq => by cases heq) rfl

end

end OSChallenges.FileSystem
