import Mathlib.Algebra.GroupWithZero.Nat
import Mathlib.Logic.Function.Basic
import OSChallenges.Library.Records
import OSChallenges.Library.Words

/-!
# The file system of `fs.c` on the disks of `disk.c`

Block 0 of a disk holds the super block, the bitmap and the two tables; while the disk is mounted they
are in memory. Each file has an index block, whose entries are the numbers of its data blocks. A disk
is a file of the host, given by its name. What the host answers and what the memory holds that no
statement has set are parameters of each call (`Env`). Messages are not part of the state.
-/

namespace OSChallenges.FileSystem

open Records Words

/-- `MAX_FILES`. -/
def maxFiles : Nat := 64

/-- The length of `fds`. -/
def maxDescriptors : Nat := 32

/-- `DISK_BLOCKS`. -/
def diskBlocks : Nat := 8192

/-- `BLOCK_SIZE`. -/
def blockSize : Nat := 4096

/-- A string argument: the bytes before its terminator. -/
structure CString where
  chars : List UInt8
  terminated : 0 ∉ chars
  deriving DecidableEq

abbrev Block := Fin blockSize → UInt8

namespace Block

/-- The bytes of a block by their offsets. -/
def byte (b : Block) (k : Nat) : UInt8 := if h : k < blockSize then b ⟨k, h⟩ else 0

def ofBytes (bytes : Nat → UInt8) : Block := fun k => bytes k

end Block

/-- A file of the host: so many blocks long. -/
structure File where
  size : Nat
  block : Nat → Block

/-! ### The tables -/

instance neZero_16 : NeZero 16 := ⟨Nat.succ_ne_zero 15⟩

instance neZero_256 : NeZero 256 := ⟨Nat.succ_ne_zero 255⟩

/-- `struct super_block`. -/
structure SuperBlock where
  usedBlockBitmapOffset : BitVec 16
  inodeMetadataOffset : BitVec 16
  directoryOffset : BitVec 16
  deriving DecidableEq, Repr

/-- `struct inode`, whose `bool` is a byte with another one behind it. -/
structure Inode where
  isUsed : UInt8
  padding : UInt8
  singleIndirectBlock : BitVec 16
  fileSize : BitVec 16
  deriving DecidableEq, Repr

/-- `struct dir_entry`; `name` goes one byte into the padding, where the terminator of a name of 15
characters stands. -/
structure DirEntry where
  isUsed : UInt8
  padding : UInt8
  inodeNum : BitVec 16
  name : Fin 16 → UInt8

/-- `struct file_descriptor`. -/
structure FileDescriptor where
  isUsed : Bool
  inodeNum : BitVec 16
  offset : Int
  deriving DecidableEq, Repr

abbrev Bitmap := Fin 256 → BitVec 32

/-- What block 0 holds. -/
structure Metadata where
  sb : SuperBlock
  usedBlocksBitmap : Bitmap
  inodes : Fin maxFiles → Inode
  directory : Fin maxFiles → DirEntry

structure State extends Metadata where
  fds : Fin maxDescriptors → FileDescriptor
  readyForUse : Bool
  /-- The disk that `handle` refers to, if one is `active`. -/
  handle : Option CString
  /-- The files of the host; one that does not exist has no blocks. -/
  files : CString → File

def Inode.zero : Inode := ⟨0, 0, 0, 0⟩

def DirEntry.zero : DirEntry := ⟨0, 0, 0, fun _ => 0⟩

def FileDescriptor.zero : FileDescriptor := ⟨false, 0, 0⟩

/-- The characters before the terminator. -/
def DirEntry.cName (e : DirEntry) : List UInt8 := (List.ofFn e.name).takeWhile (· ≠ 0)

/-- The process before any call. -/
def boot (files : CString → File) : State where
  sb := ⟨0, 0, 0⟩
  usedBlocksBitmap := fun _ => 0
  inodes := fun _ => .zero
  directory := fun _ => .zero
  fds := fun _ => .zero
  readyForUse := false
  handle := none
  files := files

/-! ### The bytes of block 0 -/

def u16 : Codec (BitVec 16) := word 2

def u32 : Codec (BitVec 32) := word 4

def superBlockCodec : Codec SuperBlock :=
  ofFields (pair u16 (pair u16 u16))
    (fun sb => (sb.usedBlockBitmapOffset, sb.inodeMetadataOffset, sb.directoryOffset))
    (fun f => ⟨f.1, f.2.1, f.2.2⟩) fun _ => rfl

def inodeCodec : Codec Inode :=
  ofFields (pair u8 (pair u8 (pair u16 u16)))
    (fun i => (i.isUsed, i.padding, i.singleIndirectBlock, i.fileSize))
    (fun f => ⟨f.1, f.2.1, f.2.2.1, f.2.2.2⟩) fun _ => rfl

def dirEntryCodec : Codec DirEntry :=
  ofFields (pair u8 (pair u8 (pair u16 (array 16 u8))))
    (fun e => (e.isUsed, e.padding, e.inodeNum, e.name))
    (fun f => ⟨f.1, f.2.1, f.2.2.1, f.2.2.2⟩) fun _ => rfl

/-- The order in which the tables are copied from and to block 0. -/
def metadataCodec : Codec Metadata :=
  ofFields (pair superBlockCodec (pair (array 256 u32) (pair (array maxFiles inodeCodec)
      (array maxFiles dirEntryCodec))))
    (fun m => (m.sb, m.usedBlocksBitmap, m.inodes, m.directory))
    (fun f => ⟨f.1, f.2.1, f.2.2.1, f.2.2.2⟩) fun _ => rfl

/-! ### What is outside the program -/

/-- The answers of the host to one call, and the memory that it finds. -/
structure Env where
  /-- `open` in `make_disk` succeeds. -/
  creates : Bool
  /-- How many blocks `make_disk` writes before a `write` fails. -/
  written : Nat
  /-- `open` in `open_disk` succeeds. -/
  opens : Bool
  /-- The memory around a buffer that has just been allocated, from its start. -/
  heap : Int → UInt8
  /-- The memory of `inodeBlocksArray` in `fs_create` and in `fs_delete`, and behind it. -/
  stack : Nat → UInt8
  /-- Where `empty` begins in the frame of `fs_delete`, from the start of `inodeBlocksArray` on. -/
  emptyAt : Int

def Env.buffer (env : Env) : Block := .ofBytes fun k => env.heap k

/-- The byte `k` of a block that `fs_delete` reads is behind the 1024 bytes of `inodeBlocksArray`, and
there is `empty`. -/
def Env.Overwrites (env : Env) (k : Nat) : Prop :=
  (array 256 u32).size ≤ k ∧ k < blockSize ∧ env.emptyAt ≤ k ∧ (k : Int) < env.emptyAt + blockSize

instance Env.Overwrites.decidable (env : Env) (k : Nat) : Decidable (env.Overwrites k) :=
  inferInstanceAs (Decidable (_ ∧ _))

/-- What `fs_delete` finds from the start of `inodeBlocksArray` on, after the `memset` of `empty`. -/
def Env.frame (env : Env) : Block := .ofBytes fun k => if env.Overwrites k then 0 else env.stack k

/-- `empty` in `fs_delete`: the zeros of `memset`, and over them the bytes of the block that do not fit
into `inodeBlocksArray`. -/
def Env.empty (env : Env) (b : Block) : Block :=
  .ofBytes fun k =>
    let offset := env.emptyAt + k
    if (array 256 u32).size ≤ offset ∧ offset < blockSize then b.byte offset.toNat else 0

/-- Undefined behaviour. -/
inductive Fault
  /-- An array is indexed outside its bounds. -/
  | outOfBounds
  /-- A copy goes past the end of its buffer. -/
  | overflow
  deriving DecidableEq, Repr

/-- An index into an array of length `n`. -/
def index (n : Nat) (i : Int) : Except Fault (Fin n) :=
  if h : 0 ≤ i ∧ i < n then .ok ⟨i.toNat, by omega⟩ else .error .outOfBounds

/-! ### `disk.c` -/

namespace File

def empty : File := ⟨0, fun _ _ => 0⟩

/-- Blocks of zeros. -/
def zeros (n : Nat) : File := ⟨n, fun _ _ => 0⟩

/-- A read behind the end leaves the buffer as it is. -/
def read (f : File) (block : Nat) (buf : Block) : Block :=
  if block < f.size then f.block block else buf

/-- A write behind the end fills up with zeros. -/
def write (f : File) (block : Nat) (buf : Block) : File where
  size := max f.size (block + 1)
  block := fun i => if i = block then buf else if i < f.size then f.block i else fun _ => 0

end File

namespace State

/-- `make_disk`: whether it succeeds. The file is truncated as soon as it is open. A name stands for one
file of the host: two paths of one file count as one name. -/
def makeDisk (env : Env) (s : State) (name : Option CString) : Bool × State :=
  match name with
  | none => (false, s)
  | some name =>
    if env.creates then
      (decide (diskBlocks ≤ env.written),
        { s with files := Function.update s.files name (.zeros (min env.written diskBlocks)) })
    else (false, s)

/-- `open_disk`. As in `makeDisk` a name stands for one file of the host. -/
def openDisk (env : Env) (s : State) (name : Option CString) : Option State :=
  match name, s.handle with
  | some name, none => if env.opens then some { s with handle := some name } else none
  | _, _ => none

def closeDisk (s : State) : Option State :=
  match s.handle with
  | none => none
  | some _ => some { s with handle := none }

def blockWrite (s : State) (block : Int) (buf : Block) : Option State :=
  match s.handle with
  | none => none
  | some name =>
    if block < 0 ∨ (diskBlocks : Int) ≤ block then none
    else some { s with files := Function.update s.files name ((s.files name).write block.toNat buf) }

/-- The buffer after the read. -/
def blockRead (s : State) (block : Int) (buf : Block) : Option Block :=
  match s.handle with
  | none => none
  | some name =>
    if block < 0 ∨ (diskBlocks : Int) ≤ block then none
    else some ((s.files name).read block.toNat buf)

end State

/-! ### Searching -/

def findInode (inodes : Fin maxFiles → Inode) : Option (Fin maxFiles) :=
  (List.finRange maxFiles).find? fun i => (inodes i).isUsed = 0

/-- The loop of `findDirectory`; a match ends the search for a new entry, and the last match counts in
the search for an old one. -/
def scanDirectory (directory : Fin maxFiles → DirEntry) (newEntry : Bool) (filename : CString) :
    List (Fin maxFiles) → Bool → Option (Fin maxFiles) → Option (Fin maxFiles)
  | [], _, found => found
  | i :: rest, check, found =>
    let free := (directory i).name 0 = 0
    let found' := if check ∧ free then some i else found
    let check' := if check ∧ free then false else check
    if ¬ free ∧ filename.chars = (directory i).cName then
      if newEntry then none
      else scanDirectory directory newEntry filename rest check' (some i)
    else scanDirectory directory newEntry filename rest check' found'

def findDirectory (directory : Fin maxFiles → DirEntry) (newEntry : Bool) (filename : CString) :
    Option (Fin maxFiles) :=
  scanDirectory directory newEntry filename (List.finRange maxFiles) newEntry none

def findFD (fds : Fin maxDescriptors → FileDescriptor) : Option (Fin maxDescriptors) :=
  (List.finRange maxDescriptors).find? fun i => (fds i).isUsed = false

/-- The bit of a position is tested in the word that it is in. -/
def taken (bitmap : Bitmap) (position : Nat) : Bool :=
  if h : position / 32 < 256 then (bitmap ⟨position / 32, h⟩).getLsbD (position % 32) else false

/-- The loop of `findUsedBlocksBit`, from position `i` on. -/
def scanBitmap (bitmap : Bitmap) : Nat → Nat → Int
  | 0, _ => -1
  | n + 1, i => if taken bitmap i then scanBitmap bitmap n (i + 1) else i

def findUsedBlocksBit (bitmap : Bitmap) : Int := scanBitmap bitmap diskBlocks 0

/-- The division truncates, so that the position -1 is in word 0; the shift count is taken modulo
32. -/
def writeUsedBlocksBit (bitmap : Bitmap) (position : Int) (clearSet : Bool) :
    Except Fault Bitmap := do
  let i ← index 256 (toUInt32 (position.tdiv 32))
  let flag : BitVec 32 := 1#32 <<< (toUInt32 (position.tmod 32) % 32)
  if clearSet then return Function.update bitmap i (bitmap i ||| flag)
  else return Function.update bitmap i (bitmap i &&& ~~~flag)

/-! ### Making and mounting -/

/-- A call's return value, the bytes it stores in the caller's buffer and the names it lists. -/
structure Result where
  ret : Int
  buffer : List UInt8
  names : List (List UInt8)
  deriving DecidableEq, Repr

def Result.of (ret : Int) : Result := ⟨ret, [], []⟩

/-- The tables in a buffer with garbage behind them. -/
def writeBuf (env : Env) (m : Metadata) : Block :=
  .ofBytes fun k => if k < metadataCodec.size then metadataCodec.encode m k else env.heap k

def readBuf (b : Block) : Metadata := metadataCodec.decode b.byte

/-- The tables that `make_fs` starts from. -/
def emptyMetadata (bitmap : Bitmap) : Metadata where
  sb :=
    { usedBlockBitmapOffset := superBlockCodec.size
      inodeMetadataOffset := (superBlockCodec.size + (array 256 u32).size : Nat)
      directoryOffset :=
        (superBlockCodec.size + (array 256 u32).size + (array maxFiles inodeCodec).size : Nat) }
  usedBlocksBitmap := bitmap
  inodes := fun _ => .zero
  directory := fun _ => .zero

def makeFs (env : Env) (s : State) (diskName : Option CString) : Except Fault (Int × State) := do
  let bitmap ← writeUsedBlocksBit (fun _ => 0) 0 true
  let s := { s with toMetadata := emptyMetadata bitmap }
  let (made, s) := s.makeDisk env diskName
  if !made then return (-1, s)
  else
    match s.openDisk env diskName with
    | none => return (-1, s)
    | some s =>
      match s.blockWrite 0 (writeBuf env s.toMetadata) with
      | none => return (-1, s)
      | some s =>
        match s.closeDisk with
        | none => return (-1, s)
        | some s => return (0, s)

def mountFs (env : Env) (s : State) (diskName : Option CString) : Int × State :=
  let s := { s with
    inodes := fun _ => .zero
    directory := fun _ => .zero
    usedBlocksBitmap := fun _ => 0 }
  match s.openDisk env diskName with
  | none => (-1, s)
  | some s =>
    match s.blockRead 0 env.buffer with
    | none => (-1, s)
    | some b => (0, { s with toMetadata := readBuf b, readyForUse := true })

def umountFs (env : Env) (s : State) : Int × State :=
  if !s.readyForUse then (-1, s)
  else
    match s.blockWrite 0 (writeBuf env s.toMetadata) with
    | none => (-1, s)
    | some s =>
      match s.closeDisk with
      | none => (-1, s)
      | some s =>
        (0, { s with
          inodes := fun _ => .zero
          directory := fun _ => .zero
          usedBlocksBitmap := fun _ => 0
          fds := fun _ => .zero
          readyForUse := false })

/-! ### Files -/

/-- The array of `fs_create`, 256 entries of 16 bits, and what stands behind it in memory. -/
def indexBlock (env : Env) (blockNum : Int) : Block :=
  .ofBytes fun k =>
    if k < (array 256 u16).size then
      (array 256 u16).encode (fun i => if i = 0 then BitVec.ofInt 16 blockNum else 0) k
    else env.stack k

/-- The index block as the other calls read it: 256 entries of 32 bits. -/
def inodeBlocks (b : Block) : Fin 256 → BitVec 32 := (array 256 u32).decode b.byte

/-- `strcpy` into the name of an entry. -/
def copyName (old : Fin 16 → UInt8) (name : CString) : Fin 16 → UInt8 := fun k =>
  if k.val < name.chars.length then name.chars.getD k 0
  else if k.val = name.chars.length then 0
  else old k

def fsCreate (env : Env) (s : State) (name : CString) : Except Fault (Int × State) := do
  let inodeIndex := findInode s.inodes
  let dirIndex := findDirectory s.directory true name
  let inodeBlocksArrayLoc := findUsedBlocksBit s.usedBlocksBitmap
  let bitmap ← writeUsedBlocksBit s.usedBlocksBitmap inodeBlocksArrayLoc true
  let blockNum := findUsedBlocksBit bitmap
  let bitmap ← writeUsedBlocksBit bitmap blockNum true
  let s := { s with usedBlocksBitmap := bitmap }
  if !s.readyForUse then return (-1, s)
  else if 15 < name.chars.length then return (-1, s)
  else
    match inodeIndex, dirIndex with
    | some i, some d =>
      if blockNum = -1 then return (-1, s)
      else
        let s := { s with
          inodes := Function.update s.inodes i
            { s.inodes i with
              isUsed := 1
              singleIndirectBlock := BitVec.ofInt 16 inodeBlocksArrayLoc
              fileSize := 0 }
          directory := Function.update s.directory d
            { s.directory d with
              isUsed := 1
              inodeNum := BitVec.ofNat 16 i
              name := copyName (s.directory d).name name } }
        match s.blockWrite inodeBlocksArrayLoc (indexBlock env blockNum) with
        | none => return (-1, s)
        | some s => return (0, s)
    | _, _ => return (-1, s)

def fsOpen (s : State) (name : CString) : Int × State :=
  let dirIndex := findDirectory s.directory false name
  let fdIndex := findFD s.fds
  if !s.readyForUse then (-1, s)
  else
    match dirIndex, fdIndex with
    | some d, some fd =>
      (fd, { s with fds := Function.update s.fds fd ⟨true, (s.directory d).inodeNum, 0⟩ })
    | _, _ => (-1, s)

def fsClose (s : State) (fildes : Int) : Except Fault (Int × State) := do
  let fd ← index maxDescriptors fildes
  if !(s.fds fd).isUsed then return (-1, s)
  else return (0, { s with fds := Function.update s.fds fd .zero })

/-- The loop of `fs_delete`, which ends at the first entry that is 0: false if a write fails. -/
def clearBlocks (empty : Block) : List (BitVec 32) → State → Except Fault (Bool × State)
  | [], s => return (true, s)
  | currentBlockNum :: rest, s =>
    if currentBlockNum = 0 then return (true, s)
    else
      match s.blockWrite (toInt32 currentBlockNum.toNat) empty with
      | none => return (false, s)
      | some s => do
        let bitmap ← writeUsedBlocksBit s.usedBlocksBitmap (toInt32 currentBlockNum.toNat) false
        clearBlocks empty rest { s with usedBlocksBitmap := bitmap }

def fsDelete (env : Env) (s : State) (name : CString) : Except Fault (Int × State) := do
  let dirIndex := findDirectory s.directory false name
  if !s.readyForUse then return (-1, s)
  else
    match dirIndex with
    | none => return (-1, s)
    | some d =>
      let inodeIndex := (s.directory d).inodeNum
      if (List.finRange maxDescriptors).any fun fd =>
          (s.fds fd).inodeNum = inodeIndex ∧ (s.fds fd).isUsed then return (-1, s)
      else
        let i ← index maxFiles inodeIndex.toNat
        match s.blockRead (s.inodes i).singleIndirectBlock.toNat env.frame with
        | none => return (-1, s)
        | some b =>
          let empty := env.empty b
          let (cleared, s) ← clearBlocks empty (List.ofFn (inodeBlocks b)) s
          if !cleared then return (-1, s)
          else
            let location : Int := (s.inodes i).singleIndirectBlock.toNat
            match s.blockWrite location empty with
            | none => return (-1, s)
            | some s =>
              let bitmap ← writeUsedBlocksBit s.usedBlocksBitmap location false
              return (0, { s with
                usedBlocksBitmap := bitmap
                inodes := Function.update s.inodes i
                  { s.inodes i with isUsed := 0, singleIndirectBlock := 0, fileSize := 0 }
                directory := Function.update s.directory d
                  { s.directory d with
                    isUsed := 0
                    inodeNum := 0
                    name := fun k => if k.val < 15 then 0 else (s.directory d).name k } })

/-! ### Reading and writing -/

/-- The block of a file offset in its index block, and the offset in the block. -/
def blockIndex (offset : Int) : Int := offset.tdiv blockSize

def remOffset (offset : Int) : Int := offset - blockIndex offset * blockSize

def fsRead (env : Env) (s : State) (fildes : Int) (nbyte : Nat) : Except Fault (Result × State) := do
  if !s.readyForUse then return (.of (-1), s)
  else
    let fd ← index maxDescriptors fildes
    if !(s.fds fd).isUsed then return (.of (-1), s)
    else
      let i ← index maxFiles (s.fds fd).inodeNum.toNat
      let offset := (s.fds fd).offset
      if ((s.inodes i).fileSize.toNat : Int) ≤ offset then return (.of 0, s)
      else
        match s.blockRead (s.inodes i).singleIndirectBlock.toNat env.buffer with
        | none => return (.of (-1), s)
        | some arrayRead =>
          let k ← index 256 (blockIndex offset)
          let block := inodeBlocks arrayRead k
          if block = 0 then return (.of 0, s)
          else
            match s.blockRead (toInt32 block.toNat) env.buffer with
            | none => return (.of (-1), s)
            | some b =>
              let bytes := (List.range nbyte).map fun (k : Nat) =>
                let a := remOffset offset + k
                if 0 ≤ a ∧ a < blockSize then b.byte a.toNat else env.heap a
              return (⟨toInt32 nbyte, bytes, []⟩, { s with
                fds := Function.update s.fds fd
                  { s.fds fd with offset := offset + toInt32 nbyte } })

/-- `memcpy` of bytes into the buffer of a block. -/
def copyInto (b : Block) (start : Int) (bytes : List UInt8) : Except Fault Block :=
  if 0 ≤ start ∧ start + bytes.length ≤ blockSize then
    .ok (.ofBytes fun k =>
      if start.toNat ≤ k ∧ k < start.toNat + bytes.length then bytes.getD (k - start.toNat) 0
      else b.byte k)
  else .error .overflow

/-- The bytes at `buf` are `nbyte` in number. -/
def fsWrite (env : Env) (s : State) (fildes : Int) (buf : List UInt8) :
    Except Fault (Int × State) := do
  if !s.readyForUse then return (-1, s)
  else
    let fd ← index maxDescriptors fildes
    if !(s.fds fd).isUsed then return (-1, s)
    else
      let i ← index maxFiles (s.fds fd).inodeNum.toNat
      let offset := (s.fds fd).offset
      match s.blockRead (s.inodes i).singleIndirectBlock.toNat env.buffer with
      | none => return (-1, s)
      | some arrayRead =>
        let k ← index 256 (blockIndex offset)
        let block := inodeBlocks arrayRead k
        match s.blockRead (toInt32 block.toNat) env.buffer with
        | none => return (-1, s)
        | some b =>
          let b ← copyInto b (remOffset offset) buf
          match s.blockWrite (toInt32 block.toNat) b with
          | none => return (-1, s)
          | some s =>
            let writeBytes := toInt32 buf.length
            return (writeBytes, { s with
              fds := Function.update s.fds fd { s.fds fd with offset := offset + writeBytes }
              inodes := Function.update s.inodes i
                { s.inodes i with
                  fileSize := BitVec.ofInt 16 ((s.inodes i).fileSize.toNat + writeBytes) } })

/-! ### Sizes, names and offsets -/

def fsGetFilesize (s : State) (fildes : Int) : Except Fault Int := do
  let fd ← index maxDescriptors fildes
  if !(s.fds fd).isUsed then return -1
  else
    let i ← index maxFiles (s.fds fd).inodeNum.toNat
    return (s.inodes i).fileSize.toNat

/-- The names in the array that `fs_listfiles` makes. -/
def fsListfiles (s : State) : Result :=
  if !s.readyForUse then .of (-1)
  else
    let used := (List.finRange maxFiles).filter fun i => (s.directory i).name 0 ≠ 0
    ⟨0, [], used.map fun i => (s.directory i).cName⟩

def fsLseek (s : State) (fildes offset : Int) : Except Fault (Int × State) := do
  if !s.readyForUse then return (-1, s)
  else
    let fd ← index maxDescriptors fildes
    if !(s.fds fd).isUsed then return (-1, s)
    else
      let i ← index maxFiles (s.fds fd).inodeNum.toNat
      if offset < 0 then return (-1, s)
      else if ((s.inodes i).fileSize.toNat : Int) < offset then return (-1, s)
      else return (0, { s with
        fds := Function.update s.fds fd { s.fds fd with offset := offset } })

def fsTruncate (s : State) (fildes length : Int) : Except Fault (Int × State) := do
  if !s.readyForUse then return (-1, s)
  else
    let fd ← index maxDescriptors fildes
    if !(s.fds fd).isUsed then return (-1, s)
    else
      let i ← index maxFiles (s.fds fd).inodeNum.toNat
      if ((s.inodes i).fileSize.toNat : Int) < length then return (-1, s)
      else return (0, { s with
        inodes := Function.update s.inodes i
          { s.inodes i with fileSize := BitVec.ofInt 16 length } })

/-! ### Calls -/

inductive Call
  | makeFs (diskName : Option CString)
  | mountFs (diskName : Option CString)
  | umountFs
  | create (name : CString)
  | open (name : CString)
  | close (fildes : Int)
  | delete (name : CString)
  | read (fildes : Int) (nbyte : Nat)
  | write (fildes : Int) (buf : List UInt8)
  | getFilesize (fildes : Int)
  | listfiles
  | lseek (fildes offset : Int)
  | truncate (fildes length : Int)
  deriving DecidableEq

/-- A call that returns a number only. -/
def number (r : Int × State) : Result × State := (.of r.1, r.2)

def call (env : Env) (s : State) : Call → Except Fault (Result × State)
  | .makeFs diskName => (makeFs env s diskName).map number
  | .mountFs diskName => .ok (number (mountFs env s diskName))
  | .umountFs => .ok (number (umountFs env s))
  | .create name => (fsCreate env s name).map number
  | .open name => .ok (number (fsOpen s name))
  | .close fildes => (fsClose s fildes).map number
  | .delete name => (fsDelete env s name).map number
  | .read fildes nbyte => fsRead env s fildes nbyte
  | .write fildes buf => (fsWrite env s fildes buf).map number
  | .getFilesize fildes => (fsGetFilesize s fildes).map fun size => (.of size, s)
  | .listfiles => .ok (fsListfiles s, s)
  | .lseek fildes offset => (fsLseek s fildes offset).map number
  | .truncate fildes length => (fsTruncate s fildes length).map number

end OSChallenges.FileSystem
