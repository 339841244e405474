import OsLab.Fs.Model.Dcache
/-!
# Directories and paths

`kernel/fs/dir.c`. A directory is a file of 32-byte entries; an entry
whose inode number is zero is free. Lookups go through the dentry cache,
and fill it with every entry they pass.
-/

namespace OsLab

open Bytes

/-! ## Results -/

def ERR_OPERATION_FAILED : ℤ := -1
def ERR_FILE_NOT_EXISTS : ℤ := 1
def ERR_FILE_EXISTS : ℤ := 2
def ERR_FILE_NO_PERMISSION : ℤ := 3
def ERR_FILE_TYPE_MISMATCH : ℤ := 4
def ERR_DIRECTORY_NOT_EMPTY : ℤ := 5
def ERR_FD_INVALID : ℤ := 6

def dotName : Name := [46]
def dotDotName : Name := [46, 46]

/-! ## Entries -/

variable (dir pid : ℕ)

/-- `inode_read` of the entry at `offset`, which has to be there. -/
def readDentry (offset : ℕ) : FSM Dentry := do
  let (n, buf) ← inodeRead dir (fill 0) offset 32
  asserts (decide (n = 32)) .shortRead
  pure (Dentry.ofBytes buf 0)

/-- The free entry: `memset(&dentry, 0, sizeof(dentry_t))`. -/
def Dentry.free : Dentry := ⟨[], 0⟩

def writeDentry (e : Dentry) (offset : ℕ) : FSM ℕ := inodeWrite dir e.bytes offset 32

def assertDir : FSM Unit := do
  let i ← getInode dir
  asserts (decide (i.d.type = FS_TYPE_DIR)) .notDirectory

/-- The scan of `dir_lookup`, from `offset`. -/
def dirScan (dir : ℕ) (filename : Name) : (fuel offset : ℕ) → FSM (Option (ℕ × ℕ))
  | 0, _ => pure none
  | fuel + 1, offset => do
    let i ← getInode dir
    if offset < i.d.size.toNat then
      let e ← readDentry dir offset
      if e.inode_num = 0 then dirScan dir filename fuel (offset + 32)
      else
        dcachePut i.d.inode_num.toNat e offset
        if filenameEq e.name filename then
          let k ← inodeRef e.inode_num.toNat
          pure (some (k, offset))
        else dirScan dir filename fuel (offset + 32)
    else pure none

/-- The entries a directory has room for. -/
def numEntries (d : DiskInode) : ℕ := (d.size.toNat + 31) / 32

/-- `dir_lookup`: a reference to the inode of that name, and the offset
of its entry. -/
def dirLookup (filename : Name) : FSM (Option (ℕ × ℕ)) := do
  assertDir dir
  let i ← getInode dir
  let cached ← dcacheGet i.d.inode_num.toNat filename
  match cached with
  | some (e, offset) =>
    let k ← inodeRef e.inode_num.toNat
    pure (some (k, offset))
  | none => dirScan dir filename (numEntries i.d) 0

/-- The offset of the first free entry, or the size. -/
def findFreeEntry (dir : ℕ) : (fuel offset : ℕ) → FSM ℕ
  | 0, offset => pure offset
  | fuel + 1, offset => do
    let i ← getInode dir
    if offset < i.d.size.toNat then
      let e ← readDentry dir offset
      if e.inode_num = 0 then pure offset else findFreeEntry dir fuel (offset + 32)
    else pure offset

/-- `dir_link`. It leaves the link counts alone. -/
def dirLink (filename : Name) (inode_num : ℕ) : FSM ℤ := do
  assertDir dir
  let child ← dirLookup dir filename
  match child with
  | some (k, _) =>
    inodeDeref k
    pure ERR_FILE_EXISTS
  | none =>
    let i ← getInode dir
    let offset ← findFreeEntry dir (numEntries i.d) 0
    let e : Dentry := ⟨Name.trunc filename, UInt32.ofNat inode_num⟩
    let n ← writeDentry dir e offset
    if n ≠ 32 then pure ERR_OPERATION_FAILED
    else
      let i ← getInode dir
      dcachePut i.d.inode_num.toNat e offset
      pure 0

/-- `dir_unlink`. -/
def dirUnlink (filename : Name) : FSM ℤ := do
  assertDir dir
  if filenameEq filename dotName || filenameEq filename dotDotName then
    pure ERR_FILE_NO_PERMISSION
  else
    let child ← dirLookup dir filename
    match child with
    | none => pure ERR_FILE_NOT_EXISTS
    | some (child, offset) =>
      inodeOpen child
      let c ← getInode child
      if c.d.type = FS_TYPE_DIR then
        inodeClose child
        pure ERR_FILE_TYPE_MISMATCH
      else
        modifyDisk child fun d => { d with link_count := d.link_count - 1 }
        let n ← writeDentry dir Dentry.free offset
        if n ≠ 32 then
          inodeClose child
          pure ERR_OPERATION_FAILED
        else
          let i ← getInode dir
          dcacheRemove i.d.inode_num.toNat filename
          inodeClose child
          pure 0

/-- The loop of `dir_isempty`, from `offset`. -/
def isemptyFrom (dir : ℕ) : (fuel offset : ℕ) → FSM Bool
  | 0, _ => pure true
  | fuel + 1, offset => do
    let i ← getInode dir
    if offset < i.d.size.toNat then
      let e ← readDentry dir offset
      if e.inode_num ≠ 0 then pure false else isemptyFrom dir fuel (offset + 32)
    else pure true

def dirIsempty : FSM Bool := do
  let i ← getInode dir
  isemptyFrom dir (numEntries i.d) 64

/-- `dir_rmdir`. -/
def dirRmdir (dirname : Name) : FSM ℤ := do
  assertDir dir
  if filenameEq dirname dotName || filenameEq dirname dotDotName then
    pure ERR_FILE_NO_PERMISSION
  else
    let child ← dirLookup dir dirname
    match child with
    | none => pure ERR_FILE_NOT_EXISTS
    | some (child, offset) =>
      inodeOpen child
      let c ← getInode child
      if c.d.type ≠ FS_TYPE_DIR then
        inodeClose child
        pure ERR_FILE_TYPE_MISMATCH
      else
        let empty ← dirIsempty child
        if !empty then
          inodeClose child
          pure ERR_DIRECTORY_NOT_EMPTY
        else
          let n ← writeDentry dir Dentry.free offset
          -- this exit leaves the child locked and referenced
          if n ≠ 32 then pure ERR_OPERATION_FAILED
          else
            let i ← getInode dir
            let c ← getInode child
            dcacheRemove i.d.inode_num.toNat dirname
            dcacheInvalidate c.d.inode_num.toNat
            if c.d.type = FS_TYPE_DIR then
              modifyDisk dir fun d => { d with link_count := d.link_count - 1 }
            modifyDisk child fun d => { d with link_count := d.link_count - 1 }
            inodeClose child
            pure 0

/-! ## Paths -/

/-- `*path == 0`. -/
def strEnd (path : Name) : Bool := decide (path.headD 0 = 0)

/-- `path_shift`: the first component, cut to `MAX_FILE_NAME` bytes, and
the path after it. -/
def pathShift (path : Name) : Option (Name × Name) :=
  let path := path.dropWhile (· = 47)
  if strEnd path then none
  else
    let s := path.takeWhile fun c => c ≠ 47 ∧ c ≠ 0
    some (s.take MAX_FILE_NAME, (path.drop s.length).dropWhile (· = 47))

/-- The loop of `path_resolve`, at the inode in slot `cur`. -/
def resolveFrom (skip_last : Bool) : (fuel cur : ℕ) → (path name : Name) →
    FSM (Option (ℕ × Name))
  | 0, _, _, _ => pure none
  | fuel + 1, cur, path, name =>
    match pathShift path with
    | none =>
      if skip_last then do
        inodeDeref cur
        pure none
      else pure (some (cur, name))
    | some (name, path) => do
      inodeOpen cur
      let i ← getInode cur
      if i.d.type ≠ FS_TYPE_DIR then
        inodeClose cur
        pure none
      else if skip_last && strEnd path then
        inodeUnlock cur
        pure (some (cur, name))
      else
        let next ← dirLookup cur name
        match next with
        | none =>
          inodeClose cur
          pure none
        | some (next, _) =>
          inodeClose cur
          resolveFrom skip_last fuel next path name

/-- `path_resolve`: a reference to an inode, and the last component. -/
def pathResolve (path : Name) (skip_last : Bool) : FSM (Option (ℕ × Name)) := do
  let m ← getMem
  let cur ← if path.headD 0 = 47 then inodeRef m.superblock.root_inode
    else inodeRef (m.procs pid).cwd_inode
  if strEnd path then pure (some (cur, []))
  else resolveFrom skip_last (path.length + 1) cur path []

def pathResolveEntry (path : Name) : FSM (Option ℕ) := do
  let r ← pathResolve pid path false
  pure (r.map (·.1))

def pathResolveParent (path : Name) : FSM (Option (ℕ × Name)) :=
  pathResolve pid path true

/-- Give up a creation: the new inode is dropped with no links. -/
def createFail (child parent : ℕ) : FSM (Option ℕ) := do
  modifyDisk child fun d => { d with link_count := 0 }
  inodeClose child
  inodeClose parent
  pure none

/-- The two entries a new directory starts with. -/
def linkDots (child child_num parent_num : ℕ) : FSM Bool := do
  let r ← dirLink child dotName child_num
  if r ≠ 0 then pure false
  else
    let r ← dirLink child dotDotName parent_num
    pure (decide (r = 0))

/-- `path_create`. -/
def pathCreate (path : Name) (type : UInt16) : FSM (Option ℕ) := do
  let r ← pathResolveParent pid path
  match r with
  | none => pure none
  | some (parent, name) =>
    inodeOpen parent
    let child ← dirLookup parent name
    match child with
    | some (child, _) =>
      inodeOpen child
      let c ← getInode child
      if c.d.type ≠ type then
        inodeClose child
        inodeClose parent
        pure none
      else
        inodeUnlock child
        inodeClose parent
        pure (some child)
    | none =>
      let child ← inodeAlloc type
      inodeOpen child
      modifyDisk child fun d => { d with link_count := 1 }
      let c ← getInode child
      let p ← getInode parent
      let dots ← if type = FS_TYPE_DIR then
          linkDots child c.d.inode_num.toNat p.d.inode_num.toNat
        else pure true
      if !dots then createFail child parent
      else
        let r ← dirLink parent name c.d.inode_num.toNat
        if r ≠ 0 then createFail child parent
        else
          if type = FS_TYPE_DIR then
            modifyDisk parent fun d => { d with link_count := d.link_count + 1 }
          inodeClose parent
          inodeUnlock child
          pure (some child)

/-- `path_remove`. -/
def pathRemove (path : Name) (isdir : Bool) : FSM ℤ := do
  let r ← pathResolveParent pid path
  match r with
  | none => pure ERR_FILE_NOT_EXISTS
  | some (parent, name) =>
    inodeOpen parent
    let ret ← if isdir then dirRmdir parent name else dirUnlink parent name
    inodeClose parent
    pure ret

end OsLab
