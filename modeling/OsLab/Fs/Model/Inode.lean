import OsLab.Fs.Model.Block
/-!
# Inodes

`kernel/fs/inode.c`: the inode table on disk, the cache of 64 slots over
it, the three-level map from a file's blocks to data blocks, and reads
and writes through that map. A slot is named by its index.

A slot whose type is zero is free for `inode_ref`, whatever its
reference count: a slot gets its type when `inode_open` loads it.
-/

namespace OsLab

open Bytes

/-! ## Slots -/

variable (k : ℕ)

def getInode : FSM Inode := .get fun m => .ret (m.inodes k)

def modifyInode (f : Inode → Inode) : FSM Unit :=
  modifyMem fun m => { m with inodes := upd m.inodes k (f (m.inodes k)) }

/-- Change the disk part of a slot. -/
def modifyDisk (f : DiskInode → DiskInode) : FSM Unit :=
  modifyInode k fun i => { i with d := f i.d }

def INODE2BLOCK (sb : Superblock) (i : ℕ) : ℕ := sb.inode_offset + i / INODE_PER_BLOCK

def INODE2OFFSET (i : ℕ) : ℕ := i % INODE_PER_BLOCK

/-- The search of `inode_ref`: the slot holding the inode, else the
first free slot met on the way. -/
def findSlot (inodes : ℕ → Inode) (inode_num : ℕ) : (fuel i : ℕ) → (empty : Option ℕ) →
    Option ℕ × Option ℕ
  | 0, _, empty => (none, empty)
  | fuel + 1, i, empty =>
    if (inodes i).d.type ≠ 0 ∧ (inodes i).d.inode_num.toNat = inode_num ∧
        0 < (inodes i).ref_count then (some i, empty)
    else if (inodes i).d.type = 0 ∧ empty = none then
      findSlot inodes inode_num fuel (i + 1) (some i)
    else findSlot inodes inode_num fuel (i + 1) empty

def inodeRef (inode_num : ℕ) : FSM ℕ := do
  let m ← getMem
  match findSlot m.inodes inode_num NINODE 0 none with
  | (some k, _) =>
    modifyInode k fun i => { i with ref_count := i.ref_count + 1 }
    pure k
  | (none, some k) =>
    modifyInode k fun i =>
      { i with
        d := { i.d with inode_num := UInt32.ofNat inode_num }
        ref_count := 1
        valid := false }
    pure k
  | (none, none) => .halt .noFreeInodeCache

/-- The loop of `inode_alloc`, from inode number `i`. -/
def inodeAllocFrom (type : UInt16) (sb : Superblock) : (fuel i : ℕ) → FSM ℕ
  | 0, _ => .halt .noFreeInode
  | fuel + 1, i =>
    if i < sb.inode_count then do
      blockOpen (INODE2BLOCK sb i)
      let data ← blockData (INODE2BLOCK sb i)
      if (diskinodeAt data (INODE2OFFSET i)).type = 0 then
        modifySuperblock fun sb => { sb with used_inode := sb.used_inode + 1 }
        setBlockData (INODE2BLOCK sb i) (setDiskinode data (INODE2OFFSET i)
          { DiskInode.cleared with type := type, inode_num := UInt32.ofNat i })
        blockClose (INODE2BLOCK sb i)
        inodeRef i
      else
        blockClose (INODE2BLOCK sb i)
        inodeAllocFrom type sb fuel (i + 1)
    else .halt .noFreeInode

def inodeAlloc (type : UInt16) : FSM ℕ := do
  asserts (decide (type = FS_TYPE_FILE ∨ type = FS_TYPE_DIR ∨ type = FS_TYPE_DEV))
    .invalidInodeType
  let sb ← getSuperblock
  inodeAllocFrom type sb sb.inode_count 1

/-- Copy the slot over its disk inode. -/
def writeBack : FSM Unit := do
  let sb ← getSuperblock
  let i ← getInode k
  blockOpen (INODE2BLOCK sb i.d.inode_num.toNat)
  let data ← blockData (INODE2BLOCK sb i.d.inode_num.toNat)
  setBlockData (INODE2BLOCK sb i.d.inode_num.toNat)
    (setDiskinode data (INODE2OFFSET i.d.inode_num.toNat) i.d)
  blockClose (INODE2BLOCK sb i.d.inode_num.toNat)

def inodeSync : FSM Unit := do
  let i ← getInode k
  asserts i.locked .syncFree
  writeBack k

def inodeClear : FSM Unit := do
  let i ← getInode k
  asserts (decide (i.ref_count = 0)) .inodeClearReferenced
  if i.valid then writeBack k
  modifyInode k fun _ => Inode.cleared

/-- `mutex_acquire(&inode->lock)`. Calls run one at a time, so a lock
that is taken is taken by the call itself. -/
def mutexAcquire : FSM Unit := do
  let i ← getInode k
  asserts (!i.locked) .deadlock
  modifyInode k fun i => { i with locked := true }

def inodeOpen : FSM Unit := do
  mutexAcquire k
  let i ← getInode k
  if i.valid then pure ()
  else
    let sb ← getSuperblock
    blockOpen (INODE2BLOCK sb i.d.inode_num.toNat)
    let data ← blockData (INODE2BLOCK sb i.d.inode_num.toNat)
    modifyInode k fun i =>
      { i with d := diskinodeAt data (INODE2OFFSET i.d.inode_num.toNat), valid := true }
    blockClose (INODE2BLOCK sb i.d.inode_num.toNat)
    let i ← getInode k
    asserts (decide (i.d.type ≠ 0)) .loadedTypeZero

def inodeUnlock : FSM Unit := do
  let i ← getInode k
  asserts i.locked .unlockFree
  modifyInode k fun i => { i with locked := false }

/-! ## The block map of a file -/

/-- The pointer stored at index `j` of the open index block `n`, after
allocating the block it should name when there is none. -/
def indexEntry (n j : ℕ) (val : UInt8) : FSM (Option ℕ) := do
  let arr ← blockData n
  match ptrVal (word arr j) with
  | some b => pure (some b)
  | none =>
    let r ← blockAllocset val
    match r with
    | some b =>
      let arr ← blockData n
      setBlockData n (setWord arr j (UInt32.ofNat b))
      pure (some b)
    | none => pure none

/-- The pointer `w` of the inode in slot `k`, after allocating the block
it should name when there is none. -/
def inodeEntry (w : UInt32) (val : UInt8) (store : ℕ → DiskInode → DiskInode) :
    FSM (Option ℕ) :=
  match ptrVal w with
  | some b => pure (some b)
  | none => do
    let r ← blockAllocset val
    match r with
    | some b =>
      modifyDisk k (store b)
      pure (some b)
    | none => pure none

/-- `inode_mapblock`: the data block of a file's block, allocated with
the index blocks above it when missing. `none` is `-1`. -/
def inodeMapblock (block_in_file : ℕ) : FSM (Option ℕ) := do
  let i ← getInode k
  if h : block_in_file < 10 then
    inodeEntry k (i.d.direct ⟨block_in_file, h⟩) 0 fun b d =>
      { d with direct := upd d.direct ⟨block_in_file, h⟩ (UInt32.ofNat b) }
  else
    let block_in_file := block_in_file - NUM_DIRECT_BLOCKS
    if block_in_file < NUM_INDIRECT_BLOCKS then
      let r ← inodeEntry k i.d.indirect 0xff fun b d => { d with indirect := UInt32.ofNat b }
      match r with
      | some blk =>
        blockOpen blk
        let r ← indexEntry blk block_in_file 0
        blockClose blk
        pure r
      | none => pure none
    else
      let block_in_file := block_in_file - NUM_INDIRECT_BLOCKS
      asserts (decide (block_in_file < NUM_DOUBLE_INDIRECT_BLOCKS)) .blockInFileOutOfRange
      let r ← inodeEntry k i.d.double_indirect 0xff fun b d =>
        { d with double_indirect := UInt32.ofNat b }
      match r with
      | some root =>
        blockOpen root
        let r ← indexEntry root (block_in_file / NUM_INDIRECT_BLOCKS) 0xff
        match r with
        | some blk =>
          blockOpen blk
          let r ← indexEntry blk (block_in_file % NUM_INDIRECT_BLOCKS) 0
          blockClose blk
          blockClose root
          pure r
        | none =>
          blockClose root
          pure none
      | none => pure none

/-! ## Deletion -/

/-- Free the blocks the first `n` pointers of an open index block name.
The loop reads the block again at each step. -/
def freeEntries (blk : ℕ) : (n : ℕ) → (each : ℕ → FSM Unit) → FSM Unit
  | 0, _ => pure ()
  | n + 1, each => do
    freeEntries blk n each
    let arr ← blockData blk
    match ptrVal (word arr n) with
    | some b => each b
    | none => pure ()

/-- Free the direct blocks below index `n`. -/
def freeDirect (k : ℕ) : (n : ℕ) → FSM Unit
  | 0 => pure ()
  | n + 1 => do
    freeDirect k n
    let i ← getInode k
    if h : n < 10 then
      match ptrVal (i.d.direct ⟨n, h⟩) with
      | some b =>
        blockFree b
        modifyDisk k fun d => { d with direct := upd d.direct ⟨n, h⟩ ptrNone }
      | none => pure ()

/-- An index block of data blocks: free what it names, then the block. -/
def freeIndex (blk : ℕ) : FSM Unit := do
  blockOpen blk
  freeEntries blk NUM_INDIRECT_BLOCKS blockFree
  blockClose blk
  blockFree blk

/-- Free the blocks under the indirect pointer. -/
def freeIndirect : FSM Unit := do
  let i ← getInode k
  match ptrVal i.d.indirect with
  | some b =>
    freeIndex b
    modifyDisk k fun d => { d with indirect := ptrNone }
  | none => pure ()

/-- Free the blocks under the double indirect pointer. -/
def freeDoubleIndirect : FSM Unit := do
  let i ← getInode k
  match ptrVal i.d.double_indirect with
  | some root =>
    blockOpen root
    freeEntries root NUM_INDIRECT_BLOCKS freeIndex
    blockClose root
    blockFree root
    modifyDisk k fun d => { d with double_indirect := ptrNone }
  | none => pure ()

def inodeDelete : FSM Unit := do
  freeDirect k NUM_DIRECT_BLOCKS
  freeIndirect k
  freeDoubleIndirect k
  modifyInode k fun i => { i with valid := false, d := { i.d with type := 0 } }
  modifySuperblock fun sb => { sb with used_inode := sb.used_inode - 1 }

/-- `inode_deref`. Deleting closes the inode, which enters `inode_deref`
again with `valid` cleared; `depth` bounds that nesting. -/
def inodeDerefAt : (depth : ℕ) → ℕ → FSM Unit
  | 0, _ => pure ()
  | depth + 1, k => do
    let i ← getInode k
    asserts (decide (0 < i.ref_count)) .inodeDerefZero
    if i.ref_count = 1 ∧ i.valid ∧ i.d.link_count = 0 then
      inodeOpen k
      inodeDelete k
      inodeUnlock k
      inodeDerefAt depth k
    modifyInode k fun i => { i with ref_count := i.ref_count - 1 }
    let i ← getInode k
    if i.ref_count = 0 then inodeClear k

def inodeDeref : FSM Unit := inodeDerefAt 2 k

def inodeClose : FSM Unit := do
  inodeUnlock k
  inodeDeref k

/-! ## Reading and writing

The buffers are the kernel's. A user buffer is the bytes found at its
address, which `memcpy_uva2kva` and `memcpy_kva2uva` copy. -/

/-- The copying loop of `inode_read`: the bytes copied so far and the
buffer. -/
def inodeReadLoop (k length : ℕ) : (fuel offset total : ℕ) → Bytes → FSM (ℕ × Bytes)
  | 0, _, total, dest => pure (total, dest)
  | fuel + 1, offset, total, dest =>
    if total < length then do
      let r ← inodeMapblock k (offset / BLOCK_SIZE)
      match r with
      | some n =>
        blockOpen n
        let data ← blockData n
        let chunk := min (BLOCK_SIZE - offset % BLOCK_SIZE) (length - total)
        let dest := blit dest total data (offset % BLOCK_SIZE) chunk
        blockClose n
        inodeReadLoop k length fuel (offset + chunk) (total + chunk) dest
      | none => pure (total, dest)
    else pure (total, dest)

/-- `inode_read`: how many bytes were copied, and the buffer. Offsets
and lengths are 32-bit. -/
def inodeRead (dest : Bytes) (offset length : ℕ) : FSM (ℕ × Bytes) := do
  let i ← getInode k
  if i.d.type = FS_TYPE_DEV then .halt .nullDevice
  else if i.d.size.toNat < offset ∨ 2 ^ 32 ≤ offset + length then pure (0, dest)
  else
    let length := if i.d.size.toNat < offset + length then i.d.size.toNat - offset else length
    inodeReadLoop k length length offset 0 dest

/-- The copying loop of `inode_write`: the bytes copied and the offset
reached, which wraps at `2^32`. -/
def inodeWriteLoop (k length : ℕ) (src : Bytes) : (fuel offset total : ℕ) → FSM (ℕ × ℕ)
  | 0, offset, total => pure (total, offset)
  | fuel + 1, offset, total =>
    if total < length then do
      let r ← inodeMapblock k (offset / BLOCK_SIZE)
      match r with
      | some n =>
        blockOpen n
        let data ← blockData n
        let chunk := min (BLOCK_SIZE - offset % BLOCK_SIZE) (length - total)
        setBlockData n (blit data (offset % BLOCK_SIZE) src total chunk)
        blockClose n
        inodeWriteLoop k length src fuel ((offset + chunk) % 2 ^ 32) (total + chunk)
      | none => pure (total, offset)
    else pure (total, offset)

/-- `inode_write`: how many bytes were copied. -/
def inodeWrite (src : Bytes) (offset length : ℕ) : FSM ℕ := do
  let i ← getInode k
  if i.d.type = FS_TYPE_DEV then .halt .nullDevice
  else
    let (total, offset) ← inodeWriteLoop k length src length offset 0
    let i ← getInode k
    if i.d.size.toNat < offset then modifyDisk k fun d => { d with size := UInt32.ofNat offset }
    inodeSync k
    pure total

end OsLab
