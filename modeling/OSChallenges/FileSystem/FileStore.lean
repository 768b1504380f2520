import OSChallenges.FileSystem.Model

/-!
# What the file system is for

Volumes of named files, without blocks, inodes or bitmaps: a volume has 64 entries for files, each with a
name, a size and 4096 bytes, and knows how many inodes and blocks are left. One volume at a time is mounted,
and its files are open at offsets. Each call has one answer and one next store.
-/

namespace OSChallenges.FileSystem

/-- What a file holds. Its bytes may go on behind its size. -/
structure Contents where
  size : BitVec 16
  data : Block

namespace Contents

def new : Contents := ⟨0, fun _ => 0⟩

def bytes (c : Contents) (offset nbyte : Nat) : List UInt8 :=
  (List.range nbyte).map fun k => c.data.byte (offset + k)

/-- The size grows by what is written, wherever that is. -/
def overwrite (c : Contents) (offset : Nat) (buf : List UInt8) : Contents where
  size := BitVec.ofNat 16 (c.size.toNat + buf.length)
  data := .ofBytes fun k =>
    if offset ≤ k ∧ k < offset + buf.length then buf.getD (k - offset) 0 else c.data.byte k

end Contents

structure Volume where
  entries : Fin maxFiles → Option (List UInt8 × Contents)
  inodesFree : Nat
  blocksFree : Nat

namespace Volume

/-- Block 0 is not free. -/
def empty : Volume := ⟨fun _ => none, maxFiles, diskBlocks - 1⟩

def find (v : Volume) (name : List UInt8) : Option (Fin maxFiles) :=
  (List.finRange maxFiles).find? fun d => (v.entries d).map Prod.fst = some name

def freeEntry (v : Volume) : Option (Fin maxFiles) :=
  (List.finRange maxFiles).find? fun d => (v.entries d).isNone

def names (v : Volume) : List (List UInt8) :=
  (List.finRange maxFiles).filterMap fun d => (v.entries d).map Prod.fst

def put (v : Volume) (d : Fin maxFiles) (file : Option (List UInt8 × Contents)) : Volume :=
  { v with entries := Function.update v.entries d file }

/-- A creation takes two blocks even if it fails. The empty name gets an inode but no entry. -/
def create (v : Volume) (name : CString) : Bool × Volume :=
  let left := { v with blocksFree := v.blocksFree - 2 }
  match v.freeEntry with
  | none => (false, left)
  | some d =>
    if name.chars.length ≤ 15 ∧ v.find name.chars = none ∧ 0 < v.inodesFree ∧ 2 ≤ v.blocksFree then
      let rest := { left with inodesFree := v.inodesFree - 1 }
      (true, if name.chars = [] then rest else rest.put d (some (name.chars, .new)))
    else (false, left)

def remove (v : Volume) (d : Fin maxFiles) : Volume where
  entries := Function.update v.entries d none
  inodesFree := v.inodesFree + 1
  blocksFree := v.blocksFree + 2

end Volume

/-- The mounted volume; each open file is an entry and an offset. -/
structure Mount where
  disk : CString
  volume : Volume
  opened : Fin maxDescriptors → Option (Fin maxFiles × Nat)

structure OpenFile where
  fd : Fin maxDescriptors
  entry : Fin maxFiles
  offset : Nat
  name : List UInt8
  contents : Contents

namespace Mount

def fileAt (m : Mount) (fd : Fin maxDescriptors) : Option OpenFile :=
  match m.opened fd with
  | none => none
  | some (d, offset) => (m.volume.entries d).map fun file => ⟨fd, d, offset, file.1, file.2⟩

def file (m : Mount) (fildes : Int) : Option OpenFile :=
  if h : 0 ≤ fildes ∧ fildes < maxDescriptors then m.fileAt ⟨fildes.toNat, by omega⟩ else none

def freeDescriptor (m : Mount) : Option (Fin maxDescriptors) :=
  (List.finRange maxDescriptors).find? fun fd => (m.opened fd).isNone

def isOpen (m : Mount) (d : Fin maxFiles) : Bool :=
  (List.finRange maxDescriptors).any fun fd => (m.opened fd).map Prod.fst = some d

def describe (m : Mount) (fd : Fin maxDescriptors) (file : Option (Fin maxFiles × Nat)) : Mount :=
  { m with opened := Function.update m.opened fd file }

/-- The offset is moved and the contents are set. -/
def set (m : Mount) (f : OpenFile) (offset : Nat) (contents : Contents) : Mount where
  disk := m.disk
  volume := m.volume.put f.entry (some (f.name, contents))
  opened := Function.update m.opened f.fd (some (f.entry, offset))

/-- A call on an open file. -/
def onFile (m : Mount) (fildes : Int) (answer : OpenFile → Result × Mount) : Result × Mount :=
  match m.file fildes with
  | none => (.of (-1), m)
  | some f => answer f

def call (m : Mount) : Call → Result × Mount
  | .makeFs _ | .mountFs _ | .umountFs => (.of (-1), m)
  | .create name =>
    let (done, volume) := m.volume.create name
    (.of (if done then 0 else -1), { m with volume := volume })
  | .open name =>
    match m.volume.find name.chars, m.freeDescriptor with
    | some d, some fd => (.of fd, m.describe fd (some (d, 0)))
    | _, _ => (.of (-1), m)
  | .close fildes => m.onFile fildes fun f => (.of 0, m.describe f.fd none)
  | .delete name =>
    match m.volume.find name.chars with
    | none => (.of (-1), m)
    | some d =>
      if m.isOpen d then (.of (-1), m) else (.of 0, { m with volume := m.volume.remove d })
  | .read fildes nbyte => m.onFile fildes fun f =>
    if f.contents.size.toNat ≤ f.offset ∨ blockSize ≤ f.offset then (.of 0, m)
    else (⟨nbyte, f.contents.bytes f.offset nbyte, []⟩, m.describe f.fd (some (f.entry, f.offset + nbyte)))
  | .write fildes buf => m.onFile fildes fun f =>
    (.of buf.length, m.set f (f.offset + buf.length) (f.contents.overwrite f.offset buf))
  | .getFilesize fildes => m.onFile fildes fun f => (.of f.contents.size.toNat, m)
  | .listfiles => (⟨0, [], m.volume.names⟩, m)
  | .lseek fildes offset => m.onFile fildes fun f =>
    if 0 ≤ offset ∧ offset ≤ f.contents.size.toNat then
      (.of 0, m.describe f.fd (some (f.entry, offset.toNat)))
    else (.of (-1), m)
  | .truncate fildes length => m.onFile fildes fun f =>
    if length ≤ f.contents.size.toNat then
      (.of 0, m.set f f.offset { f.contents with size := BitVec.ofInt 16 length })
    else (.of (-1), m)

end Mount

/-- While a volume is mounted, what `volumes` has for its disk does not count. -/
structure FileStore where
  volumes : CString → Option Volume
  mounted : Option Mount

namespace FileStore

def empty : FileStore := ⟨fun _ => none, none⟩

def setVolume (st : FileStore) (disk : CString) (volume : Option Volume) : FileStore :=
  { st with volumes := Function.update st.volumes disk volume }

/-- `make_fs` spoils a disk that it can open but not fill. -/
def make (env : Env) (st : FileStore) (disk : CString) : Result × FileStore :=
  if ¬ env.creates then (.of (-1), st)
  else if diskBlocks ≤ env.written ∧ env.opens then (.of 0, st.setVolume disk (some .empty))
  else (.of (-1), st.setVolume disk none)

def mount (env : Env) (st : FileStore) (disk : CString) : Result × FileStore :=
  match st.volumes disk with
  | none => (.of (-1), st)
  | some volume =>
    if env.opens then (.of 0, { st with mounted := some ⟨disk, volume, fun _ => none⟩ })
    else (.of (-1), st)

def call (st : FileStore) (a : Env × Call) : Result × FileStore :=
  match st.mounted, a.2 with
  | none, .makeFs (some disk) => st.make a.1 disk
  | none, .mountFs (some disk) => st.mount a.1 disk
  | none, _ => (.of (-1), st)
  | some m, .umountFs => (.of 0, ⟨(st.setVolume m.disk (some m.volume)).volumes, none⟩)
  | some m, c =>
    let (r, m) := m.call c
    (r, { st with mounted := some m })

/-- The number of a descriptor. -/
def InTable (fildes : Int) : Prop := 0 ≤ fildes ∧ fildes < maxDescriptors

instance InTable.decidable (fildes : Int) : Decidable (InTable fildes) :=
  inferInstanceAs (Decidable (_ ∧ _))

/-- What callers keep to: disks are made and mounted only while none is mounted, a disk that is mounted has a
volume, descriptors are numbers of the table, and reads and writes stay in the 4096 bytes of a file. -/
def Allows (st : FileStore) (a : Env × Call) : Prop :=
  match a.2 with
  | .makeFs _ => st.mounted.isNone
  | .mountFs diskName => st.mounted.isNone ∧
      ∀ disk ∈ diskName, a.1.opens = true → (st.volumes disk).isSome
  | .close fildes | .getFilesize fildes | .lseek fildes _ | .truncate fildes _ => InTable fildes
  | .read fildes nbyte => InTable fildes ∧ ∀ m ∈ st.mounted, ∀ f ∈ m.file fildes,
      f.offset < blockSize → f.offset + nbyte ≤ blockSize
  | .write fildes buf => InTable fildes ∧ ∀ m ∈ st.mounted, ∀ f ∈ m.file fildes,
      buf = [] ∨ f.offset + buf.length ≤ blockSize
  | .umountFs | .create _ | .open _ | .delete _ | .listfiles => True

instance Allows.decidable (st : FileStore) (env : Env) : (c : Call) → Decidable (st.Allows (env, c))
  | .makeFs _ => inferInstanceAs (Decidable (st.mounted.isNone = true))
  | .mountFs diskName => inferInstanceAs (Decidable (st.mounted.isNone = true ∧
      ∀ disk ∈ diskName, env.opens = true → (st.volumes disk).isSome = true))
  | .close fildes | .getFilesize fildes | .lseek fildes _ | .truncate fildes _ =>
    inferInstanceAs (Decidable (InTable fildes))
  | .read fildes nbyte => inferInstanceAs (Decidable (InTable fildes ∧ ∀ m ∈ st.mounted,
      ∀ f ∈ m.file fildes, f.offset < blockSize → f.offset + nbyte ≤ blockSize))
  | .write fildes buf => inferInstanceAs (Decidable (InTable fildes ∧ ∀ m ∈ st.mounted,
      ∀ f ∈ m.file fildes, buf = [] ∨ f.offset + buf.length ≤ blockSize))
  | .umountFs | .create _ | .open _ | .delete _ | .listfiles => isTrue trivial

end FileStore

end OSChallenges.FileSystem
