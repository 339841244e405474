import OsLab.Common.Prog
import OsLab.Common.Bytes
import Mathlib.Data.Fintype.Pi
import Mathlib.Tactic.FinCases
/-!
# The file system's data

The records of `os/fs.h` and the layout of their bytes: the superblock,
the 64-byte inode of the inode table, the 32-byte directory entry. An
inode in memory is the same 64 bytes followed by the cache's own fields.
The kernel's state is the memory `Mem`; blocks are reached through the
block layer, whose operations `Prog` keeps.

A block pointer is an `int32_t`, negative when there is no block. It is
kept here as the word on disk, whose sign is its top bit (`ptrNeg`).
-/

namespace OsLab

/-! ## Constants -/

def BLOCK_SIZE : ℕ := 4096
def NSECTOR_BLOCK : ℕ := 8
def FS_START_SECTOR : ℕ := 1048576  -- at 512 MB
def FS_END_SECTOR : ℕ := 2097152  -- at 1 GB
def MAX_FILE_NAME : ℕ := 28
def NUM_DIRECT_BLOCKS : ℕ := 10
def NUM_INDIRECT_BLOCKS : ℕ := 1024
def NUM_DOUBLE_INDIRECT_BLOCKS : ℕ := 1048576
def NBLOCK_BLOCK_MAP : ℕ := 32
def NBLOCK_INODE_MAP : ℕ := 1
def NUM_INODES : ℕ := 32768
def INODE_PER_BLOCK : ℕ := 64
def NBLOCK_INODE_TABLE : ℕ := 512
def ROOT_INODE : ℕ := 1
def NINODE : ℕ := 64
def NUM_FDESCS : ℕ := 32
def NUM_MAX_PROC_FD : ℕ := 8
def DENTRY_CACHE_BUCKETS : ℕ := 256
def SUPERBLOCK_MAGIC : ℕ := 0xDF4C4459

def FS_TYPE_DIR : UInt16 := 1
def FS_TYPE_FILE : UInt16 := 2
def FS_TYPE_DEV : UInt16 := 4

/-- A block: its bytes by offset. -/
abbrev Block := Bytes

/-- A C string, without its terminator. -/
abbrev Name := List UInt8

/-! ## Records -/

/-- `superblock_t`. -/
structure Superblock where
  magic : ℕ
  fs_size : ℕ
  start_sector : ℕ
  root_inode : ℕ
  block_map_offset : ℕ
  inode_offset : ℕ
  datablock_offset : ℕ
  inode_count : ℕ
  block_count : ℕ
  used_inode : UInt32
  used_block : UInt32
  deriving DecidableEq

/-- `diskinode_t`, and the first 64 bytes of `inode_t`. -/
@[ext] structure DiskInode where
  type : UInt16
  link_count : UInt16
  inode_num : UInt32
  size : UInt32
  blocks : UInt32
  direct : Fin 10 → UInt32
  indirect : UInt32
  double_indirect : UInt32
  deriving DecidableEq

/-- `inode_t`: a slot of the inode cache. -/
structure Inode where
  d : DiskInode
  valid : Bool
  ref_count : UInt16
  /-- `lock.acquired`. -/
  locked : Bool
  deriving DecidableEq

/-- `dentry_t`. -/
structure Dentry where
  name : Name
  inode_num : UInt32
  deriving DecidableEq

/-- `fdesc_t`. The inode is a slot of the cache. -/
structure Fdesc where
  inode : ℕ
  valid : Bool
  wpos : UInt32
  rpos : UInt32
  readable : Bool
  writable : Bool
  deriving DecidableEq

/-- `dcache_entry_t`. -/
structure DcacheEntry where
  parent_inode : ℕ
  offset : ℕ
  dentry : Dentry
  deriving DecidableEq

/-- What the file system reads of a process. -/
structure Proc where
  cwd_inode : ℕ
  fd_table : ℕ → Option ℕ

/-- The kernel's memory. -/
structure Mem where
  superblock : Superblock
  inodes : ℕ → Inode
  /-- `dcache_table`: a bucket is its entries from the head. -/
  dcache_table : ℕ → List DcacheEntry
  dcache_enabled : Bool
  fdesc_array : ℕ → Fdesc
  /-- Processes, by pid. -/
  procs : ℕ → Proc
  /-- What the next calls of `kmalloc` answer: `false` for `NULL`. -/
  kmallocs : ℕ → Bool
  /-- Ghost: some `block_alloc` has answered `-1`. Nothing reads it. -/
  full : Bool

/-- The ways a call ends without returning: a failed assertion, an
`err_halt`, or a lock that its own holder waits for. -/
inductive Halt
  | noBlockBuffer
  | blockCloseUnopened
  | blockFreeNonData
  | blockFreeFree
  | invalidInodeType
  | noFreeInode
  | noFreeInodeCache
  | inodeDerefZero
  | loadedTypeZero
  | unlockFree
  | inodeClearReferenced
  | syncFree
  | blockInFileOutOfRange
  | notDirectory
  | shortRead
  | rootInodeNumber
  | rootLink
  /-- The call waits for a lock that it holds itself. -/
  | deadlock
  /-- A call through the device table, whose entries are never set. -/
  | nullDevice
  /-- The calling process is gone: `do_exit` does not return. -/
  | exited
  deriving DecidableEq

/-- A kernel program. -/
abbrev FSM := Prog Mem Halt Block

/-- The kernel over the plain array of blocks. -/
abbrev FS := Store Mem Block

/-! ## The sign of a block pointer -/

/-- A negative `int32_t`. -/
def ptrNeg (w : UInt32) : Bool := decide (2 ^ 31 ≤ w.toNat)

/-- The pointer `-1`. -/
def ptrNone : UInt32 := 0xffffffff

/-- The block a pointer names. -/
def ptrVal (w : UInt32) : Option ℕ := if ptrNeg w then none else some w.toNat

theorem ptrVal_eq_some {w : UInt32} {b : ℕ} : ptrVal w = some b ↔ w.toNat = b ∧ b < 2 ^ 31 := by
  unfold ptrVal ptrNeg
  by_cases h : 2 ^ 31 ≤ w.toNat
  · simp only [h, decide_true, if_true]
    constructor
    · intro h'; cases h'
    · rintro ⟨rfl, h2⟩; omega
  · simp only [h, decide_false]
    constructor
    · intro h'; cases h'; exact ⟨rfl, by omega⟩
    · rintro ⟨rfl, -⟩; rfl

theorem ptrVal_ofNat {b : ℕ} (h : b < 2 ^ 31) : ptrVal (UInt32.ofNat b) = some b := by
  rw [ptrVal_eq_some, UInt32.toNat_ofNat']
  exact ⟨Nat.mod_eq_of_lt (by omega), h⟩

/-! ## The bytes of an inode -/

/-- The sixteen words of a disk inode. -/
def DiskInode.words (d : DiskInode) : ℕ → UInt32
  | 0 => UInt32.ofNat (d.type.toNat + 65536 * d.link_count.toNat)
  | 1 => d.inode_num
  | 2 => d.size
  | 3 => d.blocks
  | 4 => d.direct 0
  | 5 => d.direct 1
  | 6 => d.direct 2
  | 7 => d.direct 3
  | 8 => d.direct 4
  | 9 => d.direct 5
  | 10 => d.direct 6
  | 11 => d.direct 7
  | 12 => d.direct 8
  | 13 => d.direct 9
  | 14 => d.indirect
  | _ => d.double_indirect

/-- The inode its sixteen words are the words of. -/
def DiskInode.ofWords (w : ℕ → UInt32) : DiskInode where
  type := UInt16.ofNat ((w 0).toNat % 65536)
  link_count := UInt16.ofNat ((w 0).toNat / 65536)
  inode_num := w 1
  size := w 2
  blocks := w 3
  direct := fun i => w (4 + i)
  indirect := w 14
  double_indirect := w 15

/-- **An inode survives the trip through its bytes.** -/
@[simp] theorem DiskInode.ofWords_words (d : DiskInode) : ofWords d.words = d := by
  have ht := d.type.toNat_lt
  have hl := d.link_count.toNat_lt
  have h0 : (d.words 0).toNat = d.type.toNat + 65536 * d.link_count.toNat := by
    simp only [words, UInt32.toNat_ofNat']
    exact Nat.mod_eq_of_lt (by omega)
  ext1
  · simp only [ofWords, h0]
    apply UInt16.toNat_inj.mp
    rw [UInt16.toNat_ofNat']
    omega
  · simp only [ofWords, h0]
    apply UInt16.toNat_inj.mp
    rw [UInt16.toNat_ofNat']
    omega
  · rfl
  · rfl
  · rfl
  · funext i
    fin_cases i <;> rfl
  · rfl
  · rfl

/-- `((diskinode_t*)data)[k]`. -/
def diskinodeAt (b : Block) (k : ℕ) : DiskInode :=
  DiskInode.ofWords fun j => Bytes.word b (16 * k + j)

/-- Store a disk inode at index `k`. -/
def setDiskinode (b : Block) (k : ℕ) (d : DiskInode) : Block :=
  Bytes.blit b (64 * k) (Bytes.ofWords d.words) 0 64

/-- The pointers and counters of an empty inode: `memset` to zero, then
the pointers to `-1`. -/
def DiskInode.cleared : DiskInode where
  type := 0
  link_count := 0
  inode_num := 0
  size := 0
  blocks := 0
  direct := fun _ => ptrNone
  indirect := ptrNone
  double_indirect := ptrNone

/-- A free slot of the inode cache, as `inode_clear` leaves it. -/
def Inode.cleared : Inode where
  d := DiskInode.cleared
  valid := false
  ref_count := 0
  locked := false

/-! ## Names and the bytes of a directory entry -/

/-- What a name of at most `MAX_FILE_NAME` bytes keeps of a C string. -/
def Name.trunc (n : Name) : Name := (n.takeWhile (· ≠ 0)).take MAX_FILE_NAME

/-- `filename_cmp(a, b) == 0`. -/
def filenameEq (a b : Name) : Bool := decide (Name.trunc a = Name.trunc b)

/-- The 32 bytes of a directory entry. -/
def Dentry.bytes (e : Dentry) : Bytes := fun i =>
  if i < MAX_FILE_NAME then (e.name.getD i 0) else Bytes.byteOf e.inode_num (i - MAX_FILE_NAME)

/-- The directory entry its 32 bytes at `off` are the bytes of. -/
def Dentry.ofBytes (b : Bytes) (off : ℕ) : Dentry where
  name := Name.trunc ((List.range MAX_FILE_NAME).map fun i => b (off + i))
  inode_num := Bytes.word (fun i => b (off + i)) 7

end OsLab
