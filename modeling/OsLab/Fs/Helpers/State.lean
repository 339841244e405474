import OsLab.Fs.Model.Calls
/-!
# The state, one part at a time

The few ways the model changes the state, as functions, with what each
leaves alone; and the weakest preconditions of the model's smallest
programs in these terms.
-/

namespace OsLab

open Prog

namespace Store

variable (s : FS)

/-- Replace a slot of the inode cache. -/
def setInode (k : ℕ) (i : Inode) : FS :=
  { s with mem := { s.mem with inodes := upd s.mem.inodes k i } }

/-- Replace a block. -/
def setBlock (n : ℕ) (b : Block) : FS := { s with disk := upd s.disk n b }

/-- Replace the superblock in memory. -/
def setSuper (sb : Superblock) : FS := { s with mem := { s.mem with superblock := sb } }

/-- Replace the dentry cache's buckets and what `kmalloc` will answer. -/
def setDcache (t : ℕ → List DcacheEntry) (q : ℕ → Bool) : FS :=
  { s with mem := { s.mem with dcache_table := t, kmallocs := q } }

/-- Record that an allocation found no free block. -/
def setFull : FS := { s with mem := { s.mem with full := true } }

section Projections

variable (k n : ℕ) (i : Inode) (b : Block) (sb : Superblock)

@[simp] theorem setInode_inodes : (s.setInode k i).mem.inodes = upd s.mem.inodes k i := rfl
@[simp] theorem setInode_superblock : (s.setInode k i).mem.superblock = s.mem.superblock := rfl
@[simp] theorem setInode_disk : (s.setInode k i).disk = s.disk := rfl

@[simp] theorem setBlock_disk : (s.setBlock n b).disk = upd s.disk n b := rfl

@[simp] theorem setSuper_superblock : (s.setSuper sb).mem.superblock = sb := rfl

@[simp] theorem setFull_disk : s.setFull.disk = s.disk := rfl

end Projections

end Store

/-! ## The smallest programs -/

section Wp

variable {E : Halt → Prop} {s : FS}

@[simp] theorem wp_getMem {Q : Mem → FS → Prop} : wp E getMem Q s ↔ Q s.mem s := Iff.rfl

variable {Q : Unit → FS → Prop} {n k : ℕ}

@[simp] theorem wp_setMem {m : Mem} : wp E (setMem m) Q s ↔ Q () { s with mem := m } := Iff.rfl

@[simp] theorem wp_modifyMem {f : Mem → Mem} :
    wp E (modifyMem f) Q s ↔ Q () { s with mem := f s.mem } := Iff.rfl

@[simp] theorem wp_getSuperblock {Q : Superblock → FS → Prop} :
    wp E getSuperblock Q s ↔ Q s.mem.superblock s := Iff.rfl

@[simp] theorem wp_modifySuperblock {f : Superblock → Superblock} :
    wp E (modifySuperblock f) Q s ↔ Q () (s.setSuper (f s.mem.superblock)) := Iff.rfl

@[simp] theorem wp_blockOpen : wp E (blockOpen n) Q s ↔ Q () s := Iff.rfl

@[simp] theorem wp_blockClose : wp E (blockClose n) Q s ↔ Q () s := Iff.rfl

@[simp] theorem wp_blockData {Q : Block → FS → Prop} : wp E (blockData n) Q s ↔ Q (s.disk n) s :=
  Iff.rfl

@[simp] theorem wp_setBlockData {b : Block} : wp E (setBlockData n b) Q s ↔ Q () (s.setBlock n b) :=
  Iff.rfl

@[simp] theorem wp_getInode {Q : Inode → FS → Prop} :
    wp E (getInode k) Q s ↔ Q (s.mem.inodes k) s := Iff.rfl

@[simp] theorem wp_modifyInode {f : Inode → Inode} :
    wp E (modifyInode k f) Q s ↔ Q () (s.setInode k (f (s.mem.inodes k))) := Iff.rfl

@[simp] theorem wp_modifyDisk {f : DiskInode → DiskInode} : wp E (modifyDisk k f) Q s ↔
      Q () (s.setInode k { s.mem.inodes k with d := f (s.mem.inodes k).d }) := Iff.rfl

@[simp] theorem wp_asserts {c : Bool} {h : Halt} :
    wp E (asserts c h) Q s ↔ if c then Q () s else E h := by
  cases c <;> rfl

/-- Filling a block. -/
theorem wp_blockMemset {v : UInt8} :
    wp E (blockMemset n v) Q s ↔ Q () (s.setBlock n (Bytes.fill v)) := Iff.rfl

end Wp

end OsLab
