import OsLab.Fs.Model.Calls
/-!
# Copies to and from the memory of the caller

`do_read` and `do_write` hand the caller's page directory down, and
`inode_read` and `inode_write` copy through `memcpy_kva2uva` and
`memcpy_uva2kva` while the block of the file is open. Both may have to find a
page for the caller (`alloc_page`). In a full page group `swapout` makes room
for it, and where the group has no leaf page left it kills the group instead,
the caller last. `Model/Inode.lean` has the reads and writes in which no copy
comes to that.
-/

namespace OsLab

open Bytes

/-- One turn of the loop of `cleanup_fd`. -/
def cleanupFdAt (pid fd : ℕ) : FSM Unit := do
  let r ← getFd pid fd
  match r with
  | none => pure ()
  | some f =>
    let fp ← getFdesc f
    let i ← getInode fp.inode
    if i.locked then inodeUnlock fp.inode
    inodeDeref fp.inode
    modifyFdesc f fun fp => { fp with valid := false }
    setFd pid fd none

/-- `cleanup_fd`, with `n` descriptors to go from `fd` on. -/
def cleanupFdFrom (pid : ℕ) : (n fd : ℕ) → FSM Unit
  | 0, _ => pure ()
  | n + 1, fd => do
    cleanupFdAt pid fd
    cleanupFdFrom pid n (fd + 1)

/-- `cleanup_fd`: what `cleanup_proc` does to the file system. -/
def cleanupFd (pid : ℕ) : FSM Unit := cleanupFdFrom pid NUM_MAX_PROC_FD 0

/-- The processes that `do_kill` cleans up, in that order. -/
def cleanupProcs : List ℕ → FSM Unit
  | [] => pure ()
  | pid :: pids => do
    cleanupFd pid
    cleanupProcs pids

/-- A copy in which `swapout` finds no leaf page: how many bytes were copied
before, and the processes it kills on the way. A process that runs on the
other core is only marked, and is not among them. -/
structure Reclaim where
  copied : ℕ
  killed : List ℕ

/-- The second branch of `swapout`. The copy is into the caller's own memory, so
that the caller is in the group: `do_exit` comes last and does not return. -/
def killGroup {α : Type} (pid : ℕ) (r : Reclaim) : FSM α := do
  cleanupProcs r.killed
  cleanupFd pid
  .halt .exited

section

variable (pid : ℕ) (copies : ℕ → Option Reclaim) (k length : ℕ)

/-- The copying loop of `inode_read` into the memory of `pid`. What the copy at
byte `total` comes to is `copies total`. -/
def inodeReadUserLoop : (fuel offset total : ℕ) → Bytes → FSM (ℕ × Bytes)
  | 0, _, total, dest => pure (total, dest)
  | fuel + 1, offset, total, dest =>
    if total < length then do
      let r ← inodeMapblock k (offset / BLOCK_SIZE)
      match r with
      | some n =>
        blockOpen n
        let data ← blockData n
        let chunk := min (BLOCK_SIZE - offset % BLOCK_SIZE) (length - total)
        match copies total with
        | some r => killGroup pid r
        | none =>
          let dest := blit dest total data (offset % BLOCK_SIZE) chunk
          blockClose n
          inodeReadUserLoop fuel (offset + chunk) (total + chunk) dest
      | none => pure (total, dest)
    else pure (total, dest)

/-- `inode_read` with a page directory. -/
def inodeReadUser (dest : Bytes) (offset : ℕ) : FSM (ℕ × Bytes) := do
  let i ← getInode k
  if i.d.type = FS_TYPE_DEV then .halt .nullDevice
  else if i.d.size.toNat < offset ∨ 2 ^ 32 ≤ offset + length then pure (0, dest)
  else
    let length := if i.d.size.toNat < offset + length then i.d.size.toNat - offset else length
    inodeReadUserLoop pid copies k length length offset 0 dest

/-- The copying loop of `inode_write` out of the memory of `pid`. -/
def inodeWriteUserLoop (src : Bytes) : (fuel offset total : ℕ) → FSM (ℕ × ℕ)
  | 0, offset, total => pure (total, offset)
  | fuel + 1, offset, total =>
    if total < length then do
      let r ← inodeMapblock k (offset / BLOCK_SIZE)
      match r with
      | some n =>
        blockOpen n
        let data ← blockData n
        let chunk := min (BLOCK_SIZE - offset % BLOCK_SIZE) (length - total)
        match copies total with
        | some r =>
          setBlockData n (blit data (offset % BLOCK_SIZE) src total (min r.copied chunk))
          killGroup pid r
        | none =>
          setBlockData n (blit data (offset % BLOCK_SIZE) src total chunk)
          blockClose n
          inodeWriteUserLoop src fuel ((offset + chunk) % 2 ^ 32) (total + chunk)
      | none => pure (total, offset)
    else pure (total, offset)

/-- `inode_write` with a page directory. -/
def inodeWriteUser (src : Bytes) (offset : ℕ) : FSM ℕ := do
  let i ← getInode k
  if i.d.type = FS_TYPE_DEV then .halt .nullDevice
  else
    let (total, offset) ← inodeWriteUserLoop pid copies k length src length offset 0
    let i ← getInode k
    if i.d.size.toNat < offset then modifyDisk k fun d => { d with size := UInt32.ofNat offset }
    inodeSync k
    pure total

end

section

variable (pid : ℕ) (copies : ℕ → Option Reclaim)

/-- `do_read`. -/
def doReadUser (fd : ℤ) (length : UInt32) : FSM (ℕ × Bytes) := do
  let r ← getFd pid fd
  match r with
  | none => pure (0, fill 0)
  | some f =>
    let fp ← getFdesc f
    inodeOpen fp.inode
    let (ret, dest) ← inodeReadUser pid copies fp.inode length.toNat (fill 0) fp.rpos.toNat
    modifyFdesc f fun fp => { fp with rpos := fp.rpos + UInt32.ofNat ret }
    inodeUnlock fp.inode
    pure (ret, dest)

/-- `do_write`. -/
def doWriteUser (fd : ℤ) (buff : Bytes) (length : UInt32) : FSM ℕ := do
  let r ← getFd pid fd
  match r with
  | none => pure 0
  | some f =>
    let fp ← getFdesc f
    inodeOpen fp.inode
    let ret ← inodeWriteUser pid copies fp.inode length.toNat buff fp.wpos.toNat
    modifyFdesc f fun fp => { fp with wpos := fp.wpos + UInt32.ofNat ret }
    inodeUnlock fp.inode
    pure ret

end

/-! ## Where every copy finds its pages -/

section Found

variable {pid : ℕ} {copies : ℕ → Option Reclaim} (h : ∀ total, copies total = none)
include h

theorem inodeReadUserLoop_of_found : inodeReadUserLoop pid copies = inodeReadLoop := by
  funext k length fuel
  induction fuel with
  | zero => rfl
  | succ fuel ih =>
    funext offset total dest
    rewrite [inodeReadUserLoop, inodeReadLoop, h, ih]
    rfl

theorem inodeWriteUserLoop_of_found : inodeWriteUserLoop pid copies = inodeWriteLoop := by
  funext k length src fuel
  induction fuel with
  | zero => rfl
  | succ fuel ih =>
    funext offset total
    rewrite [inodeWriteUserLoop, inodeWriteLoop, h, ih]
    rfl

/-- `do_read` is then what `Model/Calls.lean` has. -/
theorem doReadUser_of_found : doReadUser pid copies = doRead pid := by
  unfold doReadUser inodeReadUser
  rewrite [inodeReadUserLoop_of_found h]
  rfl

/-- And so is `do_write`. -/
theorem doWriteUser_of_found : doWriteUser pid copies = doWrite pid := by
  unfold doWriteUser inodeWriteUser
  rewrite [inodeWriteUserLoop_of_found h]
  rfl

end Found

end OsLab
