import OsLab.Fs.Model.Dir
/-!
# File-system calls

`kernel/fs/fs.cpp`: the calls a process makes, each executed on behalf
of the process `pid`, and `do_mkfs`. What `do_ls` prints is left out;
the references it takes to print are not.
-/

namespace OsLab

open Bytes

/-! ## Formatting -/

/-- The superblock `do_mkfs` writes. -/
def mkfsSuperblock : Superblock :=
  let block_map := 1
  let inode_map := block_map + NBLOCK_BLOCK_MAP
  let inode_table := inode_map + NBLOCK_INODE_MAP
  let data := inode_table + NBLOCK_INODE_TABLE
  let fs_size := FS_END_SECTOR - FS_START_SECTOR
  { magic := SUPERBLOCK_MAGIC
    fs_size := fs_size
    start_sector := FS_START_SECTOR
    root_inode := ROOT_INODE
    block_map_offset := block_map
    inode_offset := inode_table
    datablock_offset := data
    inode_count := NUM_INODES
    block_count := fs_size / NSECTOR_BLOCK - data
    used_inode := 0
    used_block := 0 }

/-- `block_memset(base + offset, 0)` for the `n` offsets from `offset`. -/
def clearBlocks : (n bnum : ℕ) → FSM Unit
  | 0, _ => pure ()
  | n + 1, bnum => do
    blockMemset bnum 0
    clearBlocks n (bnum + 1)

/-- `do_mkfs`. -/
def doMkfs : FSM ℤ := do
  dcacheReset
  modifySuperblock fun _ => mkfsSuperblock
  let sb ← getSuperblock
  clearBlocks (sb.datablock_offset - sb.block_map_offset) sb.block_map_offset
  let root ← inodeAlloc FS_TYPE_DIR
  let i ← getInode root
  asserts (decide (i.d.inode_num.toNat = ROOT_INODE)) .rootInodeNumber
  inodeOpen root
  modifyDisk root fun d => { d with link_count := 1 }
  let dots ← linkDots root ROOT_INODE ROOT_INODE
  asserts dots .rootLink
  modifyDisk root fun d => { d with link_count := d.link_count + 1 }
  inodeClose root
  pure 0

/-! ## Descriptors -/

def getFdesc (f : ℕ) : FSM Fdesc := .get fun m => .ret (m.fdesc_array f)

def modifyFdesc (f : ℕ) (g : Fdesc → Fdesc) : FSM Unit :=
  modifyMem fun m => { m with fdesc_array := upd m.fdesc_array f (g (m.fdesc_array f)) }

variable (pid : ℕ)

def modifyProc (g : Proc → Proc) : FSM Unit :=
  modifyMem fun m => { m with procs := upd m.procs pid (g (m.procs pid)) }

/-- `current_running->fd_table[fd]`, for a descriptor in range. -/
def getFd (fd : ℤ) : FSM (Option ℕ) := .get fun m =>
  .ret (if 0 ≤ fd ∧ fd < NUM_MAX_PROC_FD then (m.procs pid).fd_table fd.toNat else none)

def setFd (fd : ℕ) (f : Option ℕ) : FSM Unit :=
  modifyProc pid fun p => { p with fd_table := upd p.fd_table fd f }

/-! ## Calls -/

def doCd (path : Name) : FSM ℤ := do
  let r ← pathResolveEntry pid path
  match r with
  | none => pure ERR_FILE_NOT_EXISTS
  | some target =>
    let i ← getInode target
    modifyProc pid fun p => { p with cwd_inode := i.d.inode_num.toNat }
    inodeDeref target
    pure 0

def doMkdir (path : Name) : FSM ℤ := do
  let r ← pathCreate pid path FS_TYPE_DIR
  match r with
  | none => pure ERR_FILE_NOT_EXISTS
  | some inode =>
    inodeDeref inode
    pure 0

def doRmdir (path : Name) : FSM ℤ := pathRemove pid path true

/-- Look at the inode of an entry: take a reference, and give it back
unless the inode is the listed directory itself. The plain listing reads
the entry's name in between. -/
def lsInode (dir i : ℕ) (named : Bool) : FSM Unit := do
  let e ← readDentry dir (32 * i)
  let ind ← inodeRef e.inode_num.toNat
  if ind ≠ dir then inodeOpen ind
  if named then let _ ← readDentry dir (32 * i)
  if ind ≠ dir then inodeClose ind

/-- Print one entry. The verbose table has a column for the inode number
and three that look at the inode. -/
def lsEntry (dir i : ℕ) (verbose : Bool) : FSM Unit := do
  let e ← readDentry dir (32 * i)
  if e.inode_num = 0 then pure ()
  else if verbose then
    let _ ← readDentry dir (32 * i)
    lsInode dir i false
    lsInode dir i false
    lsInode dir i false
  else lsInode dir i true

/-- Print the first `n` entries. -/
def lsEntries (dir : ℕ) (verbose : Bool) : (n : ℕ) → FSM Unit
  | 0 => pure ()
  | n + 1 => do
    lsEntries dir verbose n
    lsEntry dir n verbose

/-- `do_ls`, with or without `LS_VERBOSE`. -/
def doLs (path : Name) (verbose : Bool) : FSM ℤ := do
  let r ← pathResolveEntry pid path
  match r with
  | none => pure ERR_FILE_NOT_EXISTS
  | some dir =>
    inodeOpen dir
    let i ← getInode dir
    if i.d.type ≠ FS_TYPE_DIR then
      inodeClose dir
      pure ERR_FILE_TYPE_MISMATCH
    else
      lsEntries dir verbose (i.d.size.toNat / 32)
      inodeClose dir
      pure 0

/-- The first free index below `n`. -/
def findNone (free : ℕ → Bool) (n : ℕ) : Option ℕ := (List.range n).find? free

def doOpen (path : Name) (mode : ℕ) : FSM ℤ := do
  let writable := decide (mode &&& 2 ≠ 0) || decide (mode &&& 3 ≠ 0)
  let readable := decide (mode &&& 1 ≠ 0) || decide (mode &&& 3 ≠ 0)
  let created ← if writable then pathCreate pid path FS_TYPE_FILE else pure none
  let r ← match created with
    | some inode => pure (some inode)
    | none => pathResolveEntry pid path
  match r with
  | none => pure (-1)
  | some inode =>
    inodeOpen inode
    let i ← getInode inode
    if i.d.type = FS_TYPE_DIR then
      inodeClose inode
      pure (-1)
    else
      let m ← getMem
      match findNone (fun fd => ((m.procs pid).fd_table fd).isNone) NUM_MAX_PROC_FD with
      | none =>
        inodeClose inode
        pure (-1)
      | some fd =>
        match findNone (fun f => !(m.fdesc_array f).valid) NUM_FDESCS with
        | some f =>
          modifyFdesc f fun _ => ⟨inode, true, 0, 0, readable, writable⟩
          setFd pid fd (some f)
          inodeUnlock inode
          pure fd
        | none =>
          inodeClose inode
          pure (-1)

/-- `do_read`: the count, and the bytes copied to the caller. -/
def doRead (fd : ℤ) (length : UInt32) : FSM (ℕ × Bytes) := do
  let r ← getFd pid fd
  match r with
  | none => pure (0, fill 0)
  | some f =>
    let fp ← getFdesc f
    inodeOpen fp.inode
    let (ret, dest) ← inodeRead fp.inode (fill 0) fp.rpos.toNat length.toNat
    modifyFdesc f fun fp => { fp with rpos := fp.rpos + UInt32.ofNat ret }
    inodeUnlock fp.inode
    pure (ret, dest)

def doWrite (fd : ℤ) (buff : Bytes) (length : UInt32) : FSM ℕ := do
  let r ← getFd pid fd
  match r with
  | none => pure 0
  | some f =>
    let fp ← getFdesc f
    inodeOpen fp.inode
    let ret ← inodeWrite fp.inode buff fp.wpos.toNat length.toNat
    modifyFdesc f fun fp => { fp with wpos := fp.wpos + UInt32.ofNat ret }
    inodeUnlock fp.inode
    pure ret

def doClose (fd : ℤ) : FSM ℤ := do
  if fd < 0 ∨ NUM_MAX_PROC_FD ≤ fd then pure 0
  else
    let r ← getFd pid fd
    match r with
    | none => pure ERR_FD_INVALID
    | some f =>
      let fp ← getFdesc f
      inodeDeref fp.inode
      modifyFdesc f fun fp => { fp with valid := false }
      setFd pid fd.toNat none
      pure 0

def doLn (src_path dst_path : Name) : FSM ℤ := do
  let r ← pathResolveEntry pid src_path
  match r with
  | none => pure ERR_FILE_NOT_EXISTS
  | some src =>
    inodeOpen src
    let i ← getInode src
    if i.d.type = FS_TYPE_DIR then
      inodeClose src
      pure ERR_FILE_TYPE_MISMATCH
    else
      let r ← pathResolveParent pid dst_path
      match r with
      | none =>
        inodeClose src
        pure ERR_FILE_NOT_EXISTS
      | some (parent, name) =>
        inodeOpen parent
        let i ← getInode src
        let ret ← dirLink parent name i.d.inode_num.toNat
        inodeClose parent
        inodeClose src
        pure ret

def doRm (path : Name) : FSM ℤ := do
  let r ← pathResolveParent pid path
  match r with
  | none => pure ERR_FILE_NOT_EXISTS
  | some (dir, name) =>
    inodeOpen dir
    let ret ← dirUnlink dir name
    inodeClose dir
    pure ret

/-- A 32-bit `int`. -/
def toInt (n : ℤ) : ℤ := Int.bmod n (2 ^ 32)

/-- `do_lseek`. Signed sums wrap. -/
def doLseek (fd : ℤ) (offset : ℤ) (whence : ℕ) : FSM ℤ := do
  let r ← getFd pid fd
  match r with
  | none => pure ERR_FD_INVALID
  | some f =>
    let fp ← getFdesc f
    let target := toInt (max fp.rpos.toNat fp.wpos.toNat)
    inodeOpen fp.inode
    let i ← getInode fp.inode
    let target := match whence with
      | 0 => toInt offset
      | 1 => toInt (target + offset)
      | 2 => toInt (i.d.size.toNat + offset)
      | _ => target
    let target := if target < 0 then 0 else target.toNat
    inodeUnlock fp.inode
    let i ← getInode fp.inode
    modifyFdesc f fun fp =>
      { fp with wpos := UInt32.ofNat target, rpos := UInt32.ofNat (min target i.d.size.toNat) }
    pure target

end OsLab
