import OsLab.Fs.Model.Layout
/-!
# Blocks

`kernel/fs/block.c`, over the block layer's pins: a block is opened
before it is read or written and closed after. The block map is one bit
for each data block, `1` when the block is in use.
-/

namespace OsLab

open Bytes

/-! ## Memory -/

def getMem : FSM Mem := .get .ret

def setMem (m : Mem) : FSM Unit := .set m (.ret ())

def modifyMem (f : Mem → Mem) : FSM Unit := .get fun m => .set (f m) (.ret ())

/-- `asserts(cond, msg)`. -/
def asserts (cond : Bool) (h : Halt) : FSM Unit := if cond then pure () else .halt h

def getSuperblock : FSM Superblock := .get fun m => .ret m.superblock

/-- Change the counters of the superblock in memory. -/
def modifySuperblock (f : Superblock → Superblock) : FSM Unit :=
  modifyMem fun m => { m with superblock := f m.superblock }

/-! ## Opening and closing -/

def blockOpen (n : ℕ) : FSM Unit := .pin n (.ret ())

def blockClose (n : ℕ) : FSM Unit := .unpin n (.ret ())

/-- The data of an open block. -/
def blockData (n : ℕ) : FSM Block := .peek n .ret

/-- Overwrite the data of an open block. -/
def setBlockData (n : ℕ) (b : Block) : FSM Unit := .poke n b (.ret ())

def blockMemset (n : ℕ) (val : UInt8) : FSM Unit := do
  blockOpen n
  setBlockData n (fill val)
  blockClose n

/-! ## The block map -/

def BLOCKID2MAPBLOCK (sb : Superblock) (n : ℕ) : ℕ := sb.block_map_offset + n / 32768

def BLOCKID2MAPOFFSET (n : ℕ) : ℕ := n % 32768

/-- The first clear bit of one block of the map, among the bits that
stand for a block. -/
def findFree (map : Block) (bblock block_count : ℕ) : (fuel boffset : ℕ) → Option ℕ
  | 0, _ => none
  | fuel + 1, boffset =>
    if boffset < 32768 ∧ bblock + boffset < block_count then
      if bit map boffset then findFree map bblock block_count fuel (boffset + 1)
      else some boffset
    else none

/-- The outer loop of `block_alloc`, from block number `bblock`. -/
def blockAllocFrom (sb : Superblock) : (fuel bblock : ℕ) → FSM (Option ℕ)
  | 0, _ => pure none
  | fuel + 1, bblock =>
    if bblock < sb.block_count then do
      blockOpen (BLOCKID2MAPBLOCK sb bblock)
      let map ← blockData (BLOCKID2MAPBLOCK sb bblock)
      match findFree map bblock sb.block_count 32768 0 with
      | some boffset =>
        setBlockData (BLOCKID2MAPBLOCK sb bblock) (setBit map boffset)
        blockClose (BLOCKID2MAPBLOCK sb bblock)
        modifySuperblock fun sb => { sb with used_block := sb.used_block + 1 }
        pure (some (sb.datablock_offset + bblock + boffset))
      | none =>
        blockClose (BLOCKID2MAPBLOCK sb bblock)
        blockAllocFrom sb fuel (bblock + 32768)
    else pure none

/-- `block_alloc`: a data block that was free, or `none` for `-1`. -/
def blockAlloc : FSM (Option ℕ) := do
  let sb ← getSuperblock
  let r ← blockAllocFrom sb (sb.block_count / 32768 + 1) 0
  if r.isNone then modifyMem fun m => { m with full := true }
  pure r

def blockAllocset (val : UInt8) : FSM (Option ℕ) := do
  let r ← blockAlloc
  match r with
  | some n =>
    blockMemset n val
    pure (some n)
  | none => pure none

def blockFree (n : ℕ) : FSM Unit := do
  let sb ← getSuperblock
  asserts (decide (sb.datablock_offset ≤ n)) .blockFreeNonData
  let b := n - sb.datablock_offset
  blockOpen (BLOCKID2MAPBLOCK sb b)
  let map ← blockData (BLOCKID2MAPBLOCK sb b)
  asserts (bit map (BLOCKID2MAPOFFSET b)) .blockFreeFree
  setBlockData (BLOCKID2MAPBLOCK sb b) (clearBit map (BLOCKID2MAPOFFSET b))
  blockClose (BLOCKID2MAPBLOCK sb b)
  modifySuperblock fun sb => { sb with used_block := sb.used_block - 1 }

end OsLab
