import OsLab.Fs.Model.Calls
/-!
# The longer programs in parts

`path_resolve` one component at a time, `path_create` once it knows its directory, and
`do_open` once it has an inode. Each part is the source's own text, and the program is equal to
its parts in sequence.
-/

namespace OsLab

open Prog

/-! ## Resolving a path -/

/-- What one component of a path leads to. -/
inductive Step
  /-- `path_resolve` returns. -/
  | stop (r : Option (ℕ × Name))
  /-- It goes on at the slot. -/
  | next (k : ℕ)

/-- One component of `path_resolve`, with the path after it. -/
def resolveStep (skip_last : Bool) (cur : ℕ) (name path : Name) : FSM Step := do
  inodeOpen cur
  let i ← getInode cur
  if i.d.type ≠ FS_TYPE_DIR then
    inodeClose cur
    pure (.stop none)
  else if skip_last && strEnd path then
    inodeUnlock cur
    pure (.stop (some (cur, name)))
  else
    let next ← dirLookup cur name
    match next with
    | none =>
      inodeClose cur
      pure (.stop none)
    | some (next, _) =>
      inodeClose cur
      pure (.next next)

theorem resolveFrom_succ (skip_last : Bool) (fuel cur : ℕ) (path name : Name) :
    resolveFrom skip_last (fuel + 1) cur path name =
      (match pathShift path with
      | none =>
        if skip_last then do
          inodeDeref cur
          pure none
        else pure (some (cur, name))
      | some (name, path) => do
        let r ← resolveStep skip_last cur name path
        match r with
        | .stop r => pure r
        | .next k => resolveFrom skip_last fuel k path name) := by
  rw [resolveFrom]
  cases pathShift path with
  | none => rfl
  | some c =>
    obtain ⟨name, path⟩ := c
    simp only [resolveStep, bind_assoc]
    congr 1
    funext _
    congr 1
    funext i
    split
    · rw [bind_assoc]
      rfl
    · split
      · rw [bind_assoc]
        rfl
      · rw [bind_assoc]
        congr 1
        funext next
        cases next with
        | none =>
          rw [bind_assoc]
          rfl
        | some c =>
          rw [bind_assoc]
          rfl

/-- The inode a path starts at. -/
def startInode (m : Mem) (pid : ℕ) (path : Name) : ℕ :=
  if path.headD 0 = 47 then m.superblock.root_inode else (m.procs pid).cwd_inode

theorem pathResolve_eq (pid : ℕ) (path : Name) (skip_last : Bool) :
    pathResolve pid path skip_last = (do
      let m ← getMem
      let cur ← inodeRef (startInode m pid path)
      if strEnd path then pure (some (cur, []))
      else resolveFrom skip_last (path.length + 1) cur path []) := by
  unfold pathResolve startInode
  congr 1
  funext m
  dsimp only
  split <;> rfl

/-- Resolve a path's directory, lock it and go on there. -/
def lookIn {α : Type} (pid : ℕ) (path : Name) (a : α) (f : ℕ → Name → FSM α) : FSM α := do
  let r ← pathResolveParent pid path
  match r with
  | none => pure a
  | some (dir, name) =>
    inodeOpen dir
    f dir name

/-! ## Removing -/

/-- `dir_unlink` with the entry it found. -/
def unlinkFound (dir : ℕ) (filename : Name) (child offset : ℕ) : FSM ℤ := do
  inodeOpen child
  let c ← getInode child
  if c.d.type = FS_TYPE_DIR then
    inodeClose child
    pure ERR_FILE_TYPE_MISMATCH
  else
    modifyDisk child fun d => { d with link_count := d.link_count - 1 }
    let n ← writeDentry dir Dentry.free offset
    if n ≠ 32 then
      inodeClose child
      pure ERR_OPERATION_FAILED
    else
      let i ← getInode dir
      dcacheRemove i.d.inode_num.toNat filename
      inodeClose child
      pure 0

/-- `dir_rmdir` with the entry it found. -/
def rmdirFound (dir : ℕ) (dirname : Name) (child offset : ℕ) : FSM ℤ := do
  inodeOpen child
  let c ← getInode child
  if c.d.type ≠ FS_TYPE_DIR then
    inodeClose child
    pure ERR_FILE_TYPE_MISMATCH
  else
    let empty ← dirIsempty child
    if !empty then
      inodeClose child
      pure ERR_DIRECTORY_NOT_EMPTY
    else
      let n ← writeDentry dir Dentry.free offset
      if n ≠ 32 then pure ERR_OPERATION_FAILED
      else
        let i ← getInode dir
        let c ← getInode child
        dcacheRemove i.d.inode_num.toNat dirname
        dcacheInvalidate c.d.inode_num.toNat
        if c.d.type = FS_TYPE_DIR then
          modifyDisk dir fun d => { d with link_count := d.link_count - 1 }
        modifyDisk child fun d => { d with link_count := d.link_count - 1 }
        inodeClose child
        pure 0

/-- `.` or `..`. -/
def isDots (name : Name) : Bool := filenameEq name dotName || filenameEq name dotDotName

/-- `dir_unlink` and `dir_rmdir` up to the entry. -/
def removeIn (found : ℕ → ℕ → FSM ℤ) (dir : ℕ) (name : Name) : FSM ℤ := do
  assertDir dir
  if isDots name then pure ERR_FILE_NO_PERMISSION
  else
    let child ← dirLookup dir name
    match child with
    | none => pure ERR_FILE_NOT_EXISTS
    | some (child, offset) => found child offset

/-- `path_remove` and `do_rm`: the directory is closed at the end. -/
def removeAt (pid : ℕ) (path : Name) (remove : ℕ → Name → FSM ℤ) : FSM ℤ :=
  lookIn pid path ERR_FILE_NOT_EXISTS fun dir name => do
    let ret ← remove dir name
    inodeClose dir
    pure ret

theorem doRm_eq (pid : ℕ) (path : Name) : doRm pid path = removeAt pid path dirUnlink := rfl

theorem doRmdir_eq (pid : ℕ) (path : Name) : doRmdir pid path = removeAt pid path dirRmdir := rfl

/-! ## Creating -/

/-- `path_create` where the entry is there. -/
def createFound (type : UInt16) (parent child : ℕ) : FSM (Option ℕ) := do
  inodeOpen child
  let c ← getInode child
  if c.d.type ≠ type then
    inodeClose child
    inodeClose parent
    pure none
  else
    inodeUnlock child
    inodeClose parent
    pure (some child)

/-- The end of `path_create`: the new inode is named. -/
def createLink (type : UInt16) (parent : ℕ) (name : Name) (child num : ℕ) : FSM (Option ℕ) := do
  let r ← dirLink parent name num
  if r ≠ 0 then createFail child parent
  else
    if type = FS_TYPE_DIR then
      modifyDisk parent fun d => { d with link_count := d.link_count + 1 }
    inodeClose parent
    inodeUnlock child
    pure (some child)

/-- `path_create` with a new inode. -/
def createNew (type : UInt16) (parent : ℕ) (name : Name) (child : ℕ) : FSM (Option ℕ) := do
  inodeOpen child
  modifyDisk child fun d => { d with link_count := 1 }
  let c ← getInode child
  let p ← getInode parent
  let dots ← if type = FS_TYPE_DIR then
      linkDots child c.d.inode_num.toNat p.d.inode_num.toNat
    else pure true
  if !dots then createFail child parent
  else createLink type parent name child c.d.inode_num.toNat

/-- `path_create` in its directory. -/
def createIn (type : UInt16) (parent : ℕ) (name : Name) : FSM (Option ℕ) := do
  let child ← dirLookup parent name
  match child with
  | some (child, _) => createFound type parent child
  | none =>
    let child ← inodeAlloc type
    createNew type parent name child

theorem pathCreate_eq (pid : ℕ) (path : Name) (type : UInt16) :
    pathCreate pid path type = lookIn pid path none (createIn type) := rfl

/-! ## Opening -/

/-- The inode `do_open` opens. -/
def openInode (pid : ℕ) (path : Name) (writable : Bool) : FSM (Option ℕ) := do
  let created ← if writable then pathCreate pid path FS_TYPE_FILE else pure none
  match created with
  | some inode => pure (some inode)
  | none => pathResolveEntry pid path

/-- The descriptor `do_open` makes for it. -/
def openFd (pid : ℕ) (readable writable : Bool) (r : Option ℕ) : FSM ℤ :=
  match r with
  | none => pure (-1)
  | some inode => do
    inodeOpen inode
    let i ← getInode inode
    if i.d.type = FS_TYPE_DIR then
      inodeClose inode
      pure (-1)
    else
      let m ← getMem
      match findNone (fun fd => ((m.procs pid).fd_table fd).isNone) NUM_MAX_PROC_FD with
      | none =>
        inodeClose inode
        pure (-1)
      | some fd =>
        match findNone (fun f => !(m.fdesc_array f).valid) NUM_FDESCS with
        | some f =>
          modifyFdesc f fun _ => ⟨inode, true, 0, 0, readable, writable⟩
          setFd pid fd (some f)
          inodeUnlock inode
          pure fd
        | none =>
          inodeClose inode
          pure (-1)

/-- `(mode & O_WRONLY) || (mode & O_RDWR)`. -/
def writableMode (mode : ℕ) : Bool := decide (mode &&& 2 ≠ 0) || decide (mode &&& 3 ≠ 0)

/-- `(mode & O_RDONLY) || (mode & O_RDWR)`. -/
def readableMode (mode : ℕ) : Bool := decide (mode &&& 1 ≠ 0) || decide (mode &&& 3 ≠ 0)

theorem doOpen_eq (pid : ℕ) (path : Name) (mode : ℕ) : doOpen pid path mode =
      openInode pid path (writableMode mode) >>= openFd pid (readableMode mode) (writableMode mode) := by
  let rest : Option ℕ → FSM ℤ := fun created =>
    match created with
    | some inode => openFd pid (readableMode mode) (writableMode mode) (some inode)
    | none => pathResolveEntry pid path >>= openFd pid (readableMode mode) (writableMode mode)
  have hrest : ∀ created, ((match created with
      | some inode => pure (some inode)
      | none => pathResolveEntry pid path : FSM (Option ℕ)) >>=
        openFd pid (readableMode mode) (writableMode mode)) = rest created := by
    intro created
    cases created <;> rfl
  have hopen : doOpen pid path mode =
      if writableMode mode then pathCreate pid path FS_TYPE_FILE >>= rest else pure none >>= rest := rfl
  rw [hopen, openInode]
  split <;> simp only [bind_assoc, hrest]

end OsLab
