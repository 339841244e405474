import OsLab.Common.Pins
import OsLab.Fs.Helpers.Programs
import OsLab.Fs.Model.Remake
/-!
# The blocks that are open and the memory that changes

The opens and closes of `block.c`, `inode.c`, `dir.c` and `fs.cpp` are paired along every
path, and at most three blocks are open at a time: a root of a
double indirect pointer, the index block below it, and a map block or a new block.

Whatever the blocks hold, reading and writing a file leaves the dentry cache, the descriptors and
the processes alone (`DataOnly`), and only the calls on descriptors touch descriptors and processes
(`SameFds`). One pass over the source says all of this: a function is described for every `Scope`
that lets it do what it does. -/

namespace OsLab

open Prog List

/-- A halt that is not the block layer's. -/
def NotBuffers (e : Halt) : Prop := e ≠ .noBlockBuffer ∧ e ≠ .blockCloseUnopened

instance : DecidablePred NotBuffers := fun _ => inferInstanceAs (Decidable (_ ∧ _))

/-! ## How far a program reaches -/

/-- Descriptors and processes are the same. -/
structure SameFds (m m' : Mem) : Prop where
  fdescs : m'.fdesc_array = m.fdesc_array
  procs : m'.procs = m.procs

instance : Std.Refl SameFds := ⟨fun _ => ⟨rfl, rfl⟩⟩

instance : IsTrans Mem SameFds :=
  ⟨fun _ _ _ h h' => ⟨h'.fdescs.trans h.fdescs, h'.procs.trans h.procs⟩⟩

/-- Nor is the dentry cache touched. -/
structure DataOnly (m m' : Mem) : Prop extends SameFds m m' where
  dcache_enabled : m'.dcache_enabled = m.dcache_enabled
  dcache_table : m'.dcache_table = m.dcache_table

/-- What a part of a call may change: files, all of the file system, or the descriptors too. -/
inductive Scope
  | data
  | inodes
  | fds

namespace Scope

variable {S : Scope} {m m' : Mem}

/-- What it does to the memory. -/
def Moves : Scope → Mem → Mem → Prop
  | data => DataOnly
  | inodes => SameFds
  | fds => fun _ _ => True

theorem moves (h : DataOnly m m') : S.Moves m m' :=
  match S with
  | data => h
  | inodes => h.toSameFds
  | fds => trivial

instance : Std.Refl S.Moves := ⟨fun m => moves ⟨Std.Refl.refl m, rfl, rfl⟩⟩

instance : IsTrans Mem S.Moves := ⟨fun _ _ _ h h' =>
  match S with
  | data => ⟨Trans.trans h.1 h'.1, h'.2.trans h.2, h'.3.trans h.3⟩
  | inodes => Trans.trans (r := SameFds) (s := SameFds) h h'
  | fds => trivial⟩

/-- The dentry cache is within reach. -/
class Wide (S : Scope) : Prop where
  moves : ∀ {m m'}, SameFds m m' → S.Moves m m'

instance : Wide inodes := ⟨id⟩

instance : Wide fds := ⟨fun _ => trivial⟩

end Scope

/-- The program stays within the scope, leaves the open blocks as they were, and opens `n` more at
most. -/
abbrev Opens {α : Type} (S : Scope) (n : ℕ) (p : FSM α) : Prop := Prog.Uses NotBuffers S.Moves 3 n p

/-- The same with the blocks `bs` open before and `bs'` after, of `n` in all. -/
abbrev Held {α : Type} (S : Scope) (n : ℕ) (bs bs' : List ℕ) (p : FSM α) : Prop :=
  Prog.Holds NotBuffers S.Moves 3 n bs bs' p

variable {α : Type} {S : Scope}
  {n k i b blk fuel offset length total dir pid child parent inode_num parent_inode : ℕ}
  {val : UInt8} {type : UInt16} {sb : Superblock} {src dest : Bytes} {e : Dentry} {a : α}
  {name filename path : Name} {skip_last verbose writable : Bool} {bs : List ℕ} {fd : ℤ}
  {f : DiskInode → DiskInode}

/-! ## Memory and blocks -/

section Small

theorem opens_getMem : Opens S n getMem := fun m _ _ => ⟨Std.Refl.refl m, rfl⟩

theorem opens_modifyMem {f : Mem → Mem} (hf : ∀ m, S.Moves m (f m)) : Opens S n (modifyMem f) :=
  fun m _ _ => ⟨hf m, rfl⟩

theorem opens_getSuperblock : Opens S n getSuperblock := fun m _ _ => ⟨Std.Refl.refl m, rfl⟩

theorem opens_setUsedBlock (f : UInt32 → UInt32) :
    Opens S n (modifySuperblock fun sb => { sb with used_block := f sb.used_block }) :=
  opens_modifyMem fun _ => Scope.moves ⟨⟨rfl, rfl⟩, rfl, rfl⟩

theorem opens_getInode : Opens S n (getInode k) := fun m _ _ => ⟨Std.Refl.refl m, rfl⟩

theorem opens_asserts {c : Bool} {h : Halt} (hh : NotBuffers h) : Opens S n (asserts c h) := by
  cases c with
  | true => exact .pure _
  | false => exact .halt hh

theorem opens_modifyInode {f : Inode → Inode} : Opens S n (modifyInode k f) :=
  opens_modifyMem fun _ => Scope.moves ⟨⟨rfl, rfl⟩, rfl, rfl⟩

theorem opens_modifyDisk : Opens S n (modifyDisk k f) := opens_modifyInode

theorem held_open (hn : bs.length < n) : Held S n bs (b :: bs) (blockOpen b) := fun m o ho =>
  ⟨(distinct_append_le (b :: bs) o).trans (by rw [length_cons]; omega), Std.Refl.refl m, rfl⟩

theorem held_close : Held S n (b :: bs) bs (blockClose b) := fun m _ _ =>
  ⟨mem_cons_self, Std.Refl.refl m, erase_cons_head ..⟩

theorem held_read : Held S n (b :: bs) (b :: bs) (blockData b) := fun m _ _ =>
  ⟨mem_cons_self, fun _ => ⟨Std.Refl.refl m, rfl⟩⟩

theorem held_write {data : Block} :
    Held S n (b :: bs) (b :: bs) (setBlockData b data) := fun m _ _ =>
  ⟨mem_cons_self, Std.Refl.refl m, rfl⟩

end Small

theorem opens_blockMemset : Opens S 1 (blockMemset b val) :=
  (held_open (by decide)).bind fun _ => held_write.bind fun _ => held_close

theorem opens_blockAllocFrom {bblock : ℕ} : Opens S 1 (blockAllocFrom sb fuel bblock) := by
  induction fuel generalizing bblock with
  | zero => exact .pure _
  | succ fuel ih =>
    unfold blockAllocFrom
    split
    case isFalse => exact .pure _
    case isTrue =>
      refine (held_open (by decide)).bind fun _ => held_read.bind fun map => ?_
      split
      · exact held_write.bind fun _ => held_close.bind fun _ => (opens_setUsedBlock (· + 1)).bind fun _ => .pure _
      · exact held_close.bind fun _ => ih

theorem opens_blockAlloc : Opens S 1 blockAlloc := by
  refine opens_getSuperblock.bind fun sb => opens_blockAllocFrom.bind fun r => .ite ?_ (.pure _)
  exact Holds.bind (opens_modifyMem fun _ => Scope.moves ⟨⟨rfl, rfl⟩, rfl, rfl⟩) fun _ => .pure _

theorem opens_blockAllocset : Opens S 1 (blockAllocset val) := by
  refine opens_blockAlloc.bind fun r => ?_
  cases r with
  | none => exact .pure _
  | some b => exact opens_blockMemset.bind fun _ => .pure _

theorem opens_blockFree : Opens S 1 (blockFree b) := by
  refine opens_getSuperblock.bind fun sb => (opens_asserts (by decide)).bind fun _ => ?_
  refine (held_open (by decide)).bind fun _ => held_read.bind fun map => ?_
  refine ((opens_asserts (n := 0) (by decide)).held (by simp)).bind fun _ => held_write.bind
    fun _ => ?_
  exact held_close.bind fun _ => opens_setUsedBlock (· - 1)

theorem opens_writeBack : Opens S 1 (writeBack k) := by
  refine opens_getSuperblock.bind fun sb => opens_getInode.bind fun i =>
    (held_open (by decide)).bind fun _ => ?_
  exact held_read.bind fun data => held_write.bind fun _ => held_close

theorem opens_inodeSync : Opens S 1 (inodeSync k) :=
  opens_getInode.bind fun _ => (opens_asserts (by decide)).bind fun _ => opens_writeBack

/-! ## The block map of a file -/

/-- The index block is open, and one more is opened for the new block. -/
theorem held_indexEntry {j : ℕ} (hn : bs.length + 1 + 1 ≤ n) :
    Held S n (blk :: bs) (blk :: bs) (indexEntry blk j val) := by
  refine held_read.bind fun arr => ?_
  split
  · exact .pure _
  · refine (opens_blockAllocset.held hn).bind fun r => ?_
    cases r with
    | none => exact .pure _
    | some b => exact held_read.bind fun arr => held_write.bind fun _ => .pure _

theorem opens_inodeEntry {w : UInt32} {store : ℕ → DiskInode → DiskInode} :
    Opens S 1 (inodeEntry k w val store) := by
  unfold inodeEntry
  split
  · exact .pure _
  · refine opens_blockAllocset.bind fun r => ?_
    cases r with
    | none => exact .pure _
    | some b => exact opens_modifyDisk.bind fun _ => .pure _

theorem opens_inodeMapblock {block_in_file : ℕ} : Opens S 3 (inodeMapblock k block_in_file) := by
  refine opens_getInode.bind fun i => ?_
  have hentry : ∀ {w val store}, Opens S 3 (inodeEntry k w val store) :=
    opens_inodeEntry.mono (Nat.le_add_left 1 2)
  split
  · exact hentry
  · dsimp only
    split
    · refine hentry.bind fun r => ?_
      cases r with
      | none => exact .pure _
      | some blk =>
        refine (held_open (by decide)).bind fun _ => (held_indexEntry (by decide)).bind fun r => ?_
        exact held_close.bind fun _ => .pure _
    · generalize decide (block_in_file - NUM_DIRECT_BLOCKS - NUM_INDIRECT_BLOCKS < NUM_DOUBLE_INDIRECT_BLOCKS) = c
      refine (opens_asserts (by decide)).bind fun _ => hentry.bind fun r => ?_
      cases r with
      | none => exact .pure _
      | some root =>
        refine (held_open (by decide)).bind fun _ => (held_indexEntry (by decide)).bind fun r => ?_
        cases r with
        | none => exact held_close.bind fun _ => .pure _
        | some blk =>
          refine (held_open (by simp)).bind fun _ => (held_indexEntry (by simp)).bind fun r => ?_
          exact held_close.bind fun _ => held_close.bind fun _ => .pure _

/-! ## Deletion -/

theorem held_freeEntries {l : ℕ} {each : ℕ → FSM Unit} (heach : ∀ b, Opens S l (each b))
    (hn : bs.length + 1 + l ≤ n) : Held S n (blk :: bs) (blk :: bs) (freeEntries blk k each) := by
  induction k with
  | zero => exact .pure _
  | succ k ih =>
    rw [freeEntries]
    refine ih.bind fun _ => held_read.bind fun arr => ?_
    split
    · exact (heach _).held hn
    · exact .pure _

-- no proof below looks into its 1024 rounds
attribute [local irreducible] freeEntries

theorem opens_freeDirect : Opens S 1 (freeDirect k n) := by
  induction n with
  | zero => exact .pure _
  | succ n ih =>
    refine ih.bind fun _ => opens_getInode.bind fun i => ?_
    split
    · split
      · exact opens_blockFree.bind fun _ => opens_modifyDisk
      · exact .pure _
    · exact .pure _

theorem opens_freeIndex : Opens S 2 (freeIndex blk) := by
  refine (held_open (by decide)).bind fun _ =>
    (held_freeEntries (fun _ => opens_blockFree) (by decide)).bind fun _ => ?_
  exact held_close.bind fun _ => opens_blockFree.mono (Nat.le_succ 1)

theorem opens_freeIndirect : Opens S 3 (freeIndirect k) := by
  refine opens_getInode.bind fun i => ?_
  split
  · exact (opens_freeIndex.mono (by omega)).bind fun _ => opens_modifyDisk
  · exact .pure _

theorem opens_freeDoubleIndirect : Opens S 3 (freeDoubleIndirect k) := by
  refine opens_getInode.bind fun i => ?_
  split
  case h_2 => exact .pure _
  case h_1 root _ =>
    refine (held_open (by decide)).bind fun _ =>
      (held_freeEntries (fun _ => opens_freeIndex) (by decide)).bind fun _ => ?_
    exact held_close.bind fun _ => (opens_blockFree.mono (by omega)).bind fun _ =>
      opens_modifyDisk

/-! ## Reading and writing -/

theorem opens_inodeReadLoop : Opens S 3 (inodeReadLoop k length fuel offset total dest) := by
  induction fuel generalizing offset total dest with
  | zero => exact .pure _
  | succ fuel ih =>
    unfold inodeReadLoop
    split
    case isFalse => exact .pure _
    case isTrue =>
      refine opens_inodeMapblock.bind fun r => ?_
      cases r with
      | none => exact .pure _
      | some b =>
        exact (held_open (by decide)).bind fun _ => held_read.bind fun data => held_close.bind fun _ => ih

theorem opens_inodeRead : Opens S 3 (inodeRead k dest offset length) := by
  refine opens_getInode.bind fun i => ?_
  split
  · exact .halt (by decide)
  · exact .ite (.pure _) opens_inodeReadLoop

theorem opens_inodeWriteLoop : Opens S 3 (inodeWriteLoop k length src fuel offset total) := by
  induction fuel generalizing offset total with
  | zero => exact .pure _
  | succ fuel ih =>
    unfold inodeWriteLoop
    split
    case isFalse => exact .pure _
    case isTrue =>
      refine opens_inodeMapblock.bind fun r => ?_
      cases r with
      | none => exact .pure _
      | some b =>
        exact (held_open (by decide)).bind fun _ => held_read.bind fun data => held_write.bind fun _ =>
          held_close.bind fun _ => ih

theorem opens_inodeWrite : Opens S 3 (inodeWrite k src offset length) := by
  refine opens_getInode.bind fun i => ?_
  split
  case isTrue => exact .halt (by decide)
  case isFalse =>
    have hsync : ∀ total : ℕ, Opens S 3 (do inodeSync k; pure total) := fun total =>
      (opens_inodeSync.mono (by omega)).bind fun _ => .pure _
    refine opens_inodeWriteLoop.bind fun r => opens_getInode.bind fun i => ?_
    exact .ite (opens_modifyDisk.bind fun _ => hsync _) (hsync _)

theorem opens_writeText {text : Name} : Opens S 3 (writeText k text) :=
  opens_inodeWrite.bind fun _ => .pure _

/-! ## One directory -/

theorem opens_modifyBucket {bucket : ℕ} {f : List DcacheEntry → List DcacheEntry} [S.Wide] :
    Opens S n (modifyBucket bucket f) :=
  opens_modifyMem fun _ => Scope.Wide.moves ⟨rfl, rfl⟩

theorem opens_dcacheReset [S.Wide] : Opens S n dcacheReset :=
  opens_modifyMem fun _ => Scope.Wide.moves ⟨rfl, rfl⟩

theorem opens_dcacheGet : Opens S n (dcacheGet parent_inode name) :=
  opens_getMem.bind fun _ => .ite (.pure _) (.pure _)

theorem opens_kmalloc : Opens S n kmalloc := fun _ _ _ =>
  ⟨Scope.moves ⟨⟨rfl, rfl⟩, rfl, rfl⟩, rfl⟩

theorem opens_dcachePut {entry : Dentry} [S.Wide] :
    Opens S n (dcachePut parent_inode entry offset) := by
  refine opens_getMem.bind fun m => .ite (.pure _) (.ite ?_ (.pure _))
  dsimp only
  split
  · exact opens_modifyBucket
  · exact opens_kmalloc.bind fun _ => .ite opens_modifyBucket (.pure _)

theorem opens_dcacheRemove [S.Wide] : Opens S n (dcacheRemove parent_inode name) :=
  opens_getMem.bind fun _ => .ite opens_modifyBucket (.pure _)

theorem opens_dcacheInvalidate [S.Wide] : Opens S n (dcacheInvalidate parent_inode) := by
  refine opens_modifyMem fun m => ?_
  split
  · exact Scope.Wide.moves ⟨rfl, rfl⟩
  · exact Std.Refl.refl m

theorem opens_readDentry : Opens S 3 (readDentry dir offset) :=
  opens_inodeRead.bind fun _ => (opens_asserts (by decide)).bind fun _ => .pure _

theorem opens_writeDentry : Opens S 3 (writeDentry dir e offset) := opens_inodeWrite

theorem opens_assertDir : Opens S n (assertDir dir) :=
  opens_getInode.bind fun _ => opens_asserts (by decide)

theorem opens_findFreeEntry : Opens S 3 (findFreeEntry dir fuel offset) := by
  induction fuel generalizing offset with
  | zero => exact .pure _
  | succ fuel ih =>
    exact opens_getInode.bind fun _ =>
      .ite (opens_readDentry.bind fun _ => .ite (.pure _) ih) (.pure _)

theorem opens_isemptyFrom : Opens S 3 (isemptyFrom dir fuel offset) := by
  induction fuel generalizing offset with
  | zero => exact .pure _
  | succ fuel ih =>
    exact opens_getInode.bind fun _ =>
      .ite (opens_readDentry.bind fun _ => .ite (.pure _) ih) (.pure _)

theorem opens_dirIsempty : Opens S 3 (dirIsempty dir) :=
  opens_getInode.bind fun _ => opens_isemptyFrom

/-! ## Clearing blocks -/

theorem opens_clearBlocks {bnum : ℕ} : Opens S 1 (clearBlocks n bnum) := by
  induction n generalizing bnum with
  | zero => exact .pure _
  | succ n ih => exact opens_blockMemset.bind fun _ => ih

theorem held_cleanBits : Held S 2 [i] [i] (cleanBits i fuel b) := by
  induction fuel generalizing b with
  | zero => exact .pure _
  | succ fuel ih =>
    refine held_read.bind fun data => ((opens_getSuperblock (n := 0)).held (by simp)).bind fun sb => ?_
    dsimp only
    split
    · exact (opens_blockMemset.held (by simp)).bind fun _ => ih
    · exact ih

attribute [local irreducible] cleanBits

theorem opens_cleanMaps : Opens S 2 (cleanMaps fuel i) := by
  induction fuel generalizing i with
  | zero => exact .pure _
  | succ fuel ih =>
    refine opens_getSuperblock.bind fun sb => .ite ?_ (.pure _)
    exact (held_open (by decide)).bind fun _ => held_cleanBits.bind fun _ => held_close.bind fun _ => ih

theorem opens_doCleanfs : Opens S 3 doCleanfs :=
  opens_getSuperblock.bind fun _ => (opens_cleanMaps.mono (by omega)).bind fun _ =>
    (opens_clearBlocks.mono (by omega)).bind fun _ => .pure _

/-! ## Inodes -/

theorem opens_modifySuperblock {f : Superblock → Superblock} : Opens S n (modifySuperblock f) :=
  opens_modifyMem fun _ => Scope.moves ⟨⟨rfl, rfl⟩, rfl, rfl⟩

theorem opens_inodeRef : Opens S n (inodeRef inode_num) := by
  refine opens_getMem.bind fun m => ?_
  split
  · exact opens_modifyInode.bind fun _ => .pure _
  · exact opens_modifyInode.bind fun _ => .pure _
  · exact .halt (by decide)

theorem opens_inodeAllocFrom : Opens S 1 (inodeAllocFrom type sb fuel i) := by
  induction fuel generalizing i with
  | zero => exact .halt (by decide)
  | succ fuel ih =>
    unfold inodeAllocFrom
    split
    case isFalse => exact .halt (by decide)
    case isTrue =>
      refine (held_open (by decide)).bind fun _ => held_read.bind fun data => ?_
      split
      · exact ((opens_modifySuperblock (n := 0)).held (by simp)).bind fun _ => held_write.bind fun _ =>
          held_close.bind fun _ => opens_inodeRef
      · exact held_close.bind fun _ => ih

theorem opens_inodeAlloc : Opens S 1 (inodeAlloc type) :=
  (opens_asserts (by decide)).bind fun _ => opens_getSuperblock.bind fun sb => opens_inodeAllocFrom

theorem opens_inodeClear : Opens S 1 (inodeClear k) := by
  refine opens_getInode.bind fun i => (opens_asserts (by decide)).bind fun _ => ?_
  dsimp only
  split
  · exact opens_writeBack.bind fun _ => opens_modifyInode
  · exact opens_modifyInode

theorem opens_mutexAcquire : Opens S n (mutexAcquire k) := by
  refine opens_getInode.bind fun i => Holds.bind ?_ fun _ => opens_modifyInode
  cases !i.locked with
  | true => exact .pure _
  | false => exact .halt (by decide)

theorem opens_inodeOpen : Opens S 1 (inodeOpen k) := by
  refine opens_mutexAcquire.bind fun _ => opens_getInode.bind fun i => .ite (.pure _) ?_
  refine opens_getSuperblock.bind fun sb => (held_open (by decide)).bind fun _ => held_read.bind
    fun data => ?_
  exact ((opens_modifyInode (n := 0)).held (by simp)).bind fun _ => held_close.bind fun _ =>
    opens_getInode.bind fun _ => opens_asserts (by decide)

theorem opens_inodeUnlock : Opens S n (inodeUnlock k) :=
  opens_getInode.bind fun _ => (opens_asserts (by decide)).bind fun _ => opens_modifyInode

theorem opens_inodeDelete : Opens S 3 (inodeDelete k) :=
  (opens_freeDirect.mono (by omega)).bind fun _ => opens_freeIndirect.bind fun _ =>
    opens_freeDoubleIndirect.bind fun _ => opens_modifyInode.bind fun _ => opens_modifySuperblock

/-- `inode_open` among other things. -/
theorem opens_open : Opens S 3 (inodeOpen k) := opens_inodeOpen.mono (by omega)

theorem opens_inodeDerefAt {depth : ℕ} : Opens S 3 (inodeDerefAt depth k) := by
  induction depth generalizing k with
  | zero => exact .pure _
  | succ depth ih =>
    have hdrop : Opens S 3 (do
        modifyInode k fun i => { i with ref_count := i.ref_count - 1 }
        let i ← getInode k
        if i.ref_count = 0 then inodeClear k) := by
      refine opens_modifyInode.bind fun _ => opens_getInode.bind fun i => ?_
      split
      · exact opens_inodeClear.mono (by omega)
      · exact .pure _
    refine opens_getInode.bind fun i => (opens_asserts (by decide)).bind fun _ => ?_
    dsimp only
    split
    · exact opens_open.bind fun _ => opens_inodeDelete.bind fun _ =>
        opens_inodeUnlock.bind fun _ => ih.bind fun _ => hdrop
    · exact hdrop

theorem opens_inodeDeref : Opens S 3 (inodeDeref k) := opens_inodeDerefAt

theorem opens_inodeClose : Opens S 3 (inodeClose k) :=
  opens_inodeUnlock.bind fun _ => opens_inodeDeref

/-- A slot is closed at the end. -/
theorem opens_closing : Opens S 3 (inodeClose k >>= fun _ => pure a) :=
  opens_inodeClose.bind fun _ => .pure _

/-- A slot is opened, and closed again if it is not of the right kind. -/
theorem opens_checked {c : Inode → Prop} [DecidablePred c] {f : Inode → FSM α}
    (hf : ∀ i, Opens S 3 (f i)) : Opens S 3 (do
      inodeOpen k
      let i ← getInode k
      if c i then inodeClose k >>= fun _ => pure a else f i) :=
  opens_open.bind fun _ => opens_getInode.bind fun i => .ite opens_closing (hf i)

/-- The two ends of `path_create`. -/
theorem opens_createFail : Opens S 3 (createFail child parent) :=
  opens_modifyDisk.bind fun _ => opens_inodeClose.bind fun _ => opens_closing

theorem opens_createFound : Opens S 3 (createFound type parent child) :=
  opens_open.bind fun _ => opens_getInode.bind fun _ => .ite
    (opens_inodeClose.bind fun _ => opens_closing) (opens_inodeUnlock.bind fun _ => opens_closing)

/-- What `do_ls` does with an entry. -/
theorem opens_lsInode {named : Bool} : Opens S 3 (lsInode dir i named) := by
  refine opens_readDentry.bind fun e => opens_inodeRef.bind fun ind => ?_
  dsimp only
  split
  · refine opens_open.bind fun _ => ?_
    split
    · exact opens_readDentry.bind fun _ => opens_inodeClose
    · exact opens_inodeClose
  · split
    · exact opens_readDentry.bind fun _ => .pure _
    · exact .pure _

theorem opens_lsEntry : Opens S 3 (lsEntry dir i verbose) := by
  refine opens_readDentry.bind fun e => ?_
  split
  · exact .pure _
  split
  · exact opens_readDentry.bind fun _ => opens_lsInode.bind fun _ =>
      opens_lsInode.bind fun _ => opens_lsInode
  · exact opens_lsInode

theorem opens_lsEntries : Opens S 3 (lsEntries dir verbose n) := by
  induction n with
  | zero => exact .pure _
  | succ n ih => exact ih.bind fun _ => opens_lsEntry

/-! ## Directories -/

section Wide

variable [S.Wide]

theorem opens_dirScan : Opens S 3 (dirScan dir filename fuel offset) := by
  induction fuel generalizing offset with
  | zero => exact .pure _
  | succ fuel ih =>
    refine opens_getInode.bind fun i => ?_
    split
    case isFalse => exact .pure _
    case isTrue =>
      refine opens_readDentry.bind fun e => ?_
      split
      · exact ih
      · refine opens_dcachePut.bind fun _ => ?_
        split
        · exact opens_inodeRef.bind fun _ => .pure _
        · exact ih

theorem opens_dirLookup : Opens S 3 (dirLookup dir filename) := by
  refine opens_assertDir.bind fun _ => opens_getInode.bind fun i =>
    opens_dcacheGet.bind fun cached => ?_
  split
  · exact opens_inodeRef.bind fun _ => .pure _
  · exact opens_dirScan

theorem opens_dirLink : Opens S 3 (dirLink dir filename inode_num) := by
  refine opens_assertDir.bind fun _ => opens_dirLookup.bind fun child => ?_
  split
  · exact opens_inodeDeref.bind fun _ => .pure _
  · refine opens_getInode.bind fun i => opens_findFreeEntry.bind fun offset =>
      opens_writeDentry.bind fun n => .ite (.pure _) ?_
    exact opens_getInode.bind fun _ => opens_dcachePut.bind fun _ => .pure _

theorem opens_dirUnlink : Opens S 3 (dirUnlink dir filename) := by
  refine opens_assertDir.bind fun _ => ?_
  split
  · exact .pure _
  refine opens_dirLookup.bind fun child => ?_
  split
  · exact .pure _
  refine opens_checked fun _ => opens_modifyDisk.bind fun _ => opens_writeDentry.bind fun n =>
    .ite opens_closing ?_
  exact opens_getInode.bind fun _ => opens_dcacheRemove.bind fun _ => opens_closing

theorem opens_dirRmdir {dirname : Name} : Opens S 3 (dirRmdir dir dirname) := by
  refine opens_assertDir.bind fun _ => ?_
  split
  · exact .pure _
  refine opens_dirLookup.bind fun child => ?_
  split
  · exact .pure _
  refine opens_checked fun _ => opens_dirIsempty.bind fun empty => .ite opens_closing ?_
  refine opens_writeDentry.bind fun n => .ite (.pure _) ?_
  refine opens_getInode.bind fun _ => opens_getInode.bind fun c => opens_dcacheRemove.bind fun _ =>
    opens_dcacheInvalidate.bind fun _ => ?_
  exact .ite (opens_modifyDisk.bind fun _ => opens_modifyDisk.bind fun _ => opens_closing)
    (opens_modifyDisk.bind fun _ => opens_closing)

/-! ## Paths -/

theorem opens_resolveFrom {cur : ℕ} : Opens S 3 (resolveFrom skip_last fuel cur path name) := by
  induction fuel generalizing cur path name with
  | zero => exact .pure _
  | succ fuel ih =>
    unfold resolveFrom
    split
    · exact .ite (opens_inodeDeref.bind fun _ => .pure _) (.pure _)
    refine opens_checked fun _ => .ite (opens_inodeUnlock.bind fun _ => .pure _) ?_
    refine opens_dirLookup.bind fun next => ?_
    split
    · exact opens_closing
    · exact opens_inodeClose.bind fun _ => ih

theorem opens_pathResolve : Opens S 3 (pathResolve pid path skip_last) := by
  have hrest : ∀ cur, Opens S 3 (if strEnd path then pure (some (cur, []))
      else resolveFrom skip_last (path.length + 1) cur path []) := fun cur =>
    .ite (.pure _) opens_resolveFrom
  exact opens_getMem.bind fun m => .ite (opens_inodeRef.bind hrest) (opens_inodeRef.bind hrest)

theorem opens_pathResolveEntry : Opens S 3 (pathResolveEntry pid path) :=
  opens_pathResolve.bind fun _ => .pure _

theorem opens_pathResolveParent : Opens S 3 (pathResolveParent pid path) := opens_pathResolve

theorem opens_linkDots {child_num parent_num : ℕ} :
    Opens S 3 (linkDots child child_num parent_num) :=
  opens_dirLink.bind fun _ => .ite (.pure _) (opens_dirLink.bind fun _ => .pure _)

theorem opens_createLink {num : ℕ} : Opens S 3 (createLink type parent name child num) := by
  have hend : Opens S 3 (inodeClose parent >>= fun _ => inodeUnlock child >>= fun _ =>
    pure (some child)) :=
    opens_inodeClose.bind fun _ => opens_inodeUnlock.bind fun _ => .pure _
  refine opens_dirLink.bind fun r => .ite opens_createFail ?_
  exact .ite (opens_modifyDisk.bind fun _ => hend) hend

theorem opens_createNew : Opens S 3 (createNew type parent name child) := by
  refine opens_open.bind fun _ => opens_modifyDisk.bind fun _ => opens_getInode.bind fun c =>
    opens_getInode.bind fun p => ?_
  have hend : ∀ dots, Opens S 3 (if !dots then createFail child parent
      else createLink type parent name child c.d.inode_num.toNat) := fun dots =>
    .ite opens_createFail opens_createLink
  exact .ite (opens_linkDots.bind hend) (Holds.bind (.pure _) hend)

theorem opens_lookIn {f : ℕ → Name → FSM α} (hf : ∀ dir name, Opens S 3 (f dir name)) :
    Opens S 3 (lookIn pid path a f) := by
  refine opens_pathResolveParent.bind fun r => ?_
  rcases r with _ | ⟨dir, name⟩
  · exact .pure _
  · exact opens_open.bind fun _ => hf dir name

theorem opens_pathCreate : Opens S 3 (pathCreate pid path type) := by
  rw [pathCreate_eq]
  refine opens_lookIn fun parent name => opens_dirLookup.bind fun child => ?_
  rcases child with _ | ⟨child, -⟩
  · exact (opens_inodeAlloc.mono (by omega)).bind fun child => opens_createNew
  · exact opens_createFound

theorem opens_openInode : Opens S 3 (openInode pid path writable) := by
  have hrest : ∀ created, Opens S 3 (match created with
      | some inode => pure (some inode)
      | none => pathResolveEntry pid path) := by
    intro created
    cases created with
    | some inode => exact .pure _
    | none => exact opens_pathResolveEntry
  exact .ite (opens_pathCreate.bind hrest) (Holds.bind (.pure none) hrest)

theorem opens_removeAt {remove : ℕ → Name → FSM ℤ} (h : ∀ dir name, Opens S 3 (remove dir name)) :
    Opens S 3 (removeAt pid path remove) :=
  opens_lookIn fun dir name => (h dir name).bind fun _ => opens_closing

/-! ## Calls -/

theorem opens_doMkfs : Opens S 3 doMkfs :=
  opens_dcacheReset.bind fun _ => opens_modifySuperblock.bind fun _ => opens_getSuperblock.bind
    fun _ =>
    (opens_clearBlocks.mono (by omega)).bind fun _ => (opens_inodeAlloc.mono (by omega)).bind fun _ =>
    opens_getInode.bind fun _ => (opens_asserts (by decide)).bind fun _ => opens_open.bind fun _ =>
    opens_modifyDisk.bind fun _ => opens_linkDots.bind fun _ => (opens_asserts (by decide)).bind fun _ =>
    opens_modifyDisk.bind fun _ => opens_closing

theorem opens_doMkdir : Opens S 3 (doMkdir pid path) := by
  refine opens_pathCreate.bind fun r => ?_
  split
  · exact .pure _
  · exact opens_inodeDeref.bind fun _ => .pure _

theorem opens_doRmdir : Opens S 3 (doRmdir pid path) := by
  rw [doRmdir_eq]
  exact opens_removeAt fun _ _ => opens_dirRmdir

theorem opens_doLs : Opens S 3 (doLs pid path verbose) := by
  refine opens_pathResolveEntry.bind fun r => ?_
  split
  · exact .pure _
  · exact opens_checked fun _ => opens_lsEntries.bind fun _ => opens_closing

theorem opens_doLn {src_path dst_path : Name} : Opens S 3 (doLn pid src_path dst_path) := by
  refine opens_pathResolveEntry.bind fun r => ?_
  split
  · exact .pure _
  refine opens_checked fun _ => opens_pathResolveParent.bind fun r => ?_
  split
  · exact opens_closing
  · exact opens_open.bind fun _ => opens_getInode.bind fun _ => opens_dirLink.bind fun _ =>
      opens_inodeClose.bind fun _ => opens_closing

theorem opens_doRm : Opens S 3 (doRm pid path) := by
  rw [doRm_eq]
  exact opens_removeAt fun _ _ => opens_dirUnlink

theorem opens_etcFile {reset : ℕ → FSM Unit} (hreset : ∀ k, Opens S 3 (reset k)) :
    Opens S 3 (etcFile pid path reset) := by
  refine opens_pathCreate.bind fun node => ?_
  split
  · exact opens_open.bind fun _ => (hreset _).bind fun _ => opens_inodeClose
  · exact .pure _

theorem opens_initFsEtc {config : CacheConfig} : Opens S 3 (initFsEtc pid config) :=
  opens_doMkdir.bind fun _ => opens_doMkdir.bind fun _ => opens_doMkdir.bind fun _ =>
    (opens_etcFile fun _ => opens_writeText).bind fun _ =>
    opens_etcFile fun _ => opens_getMem.bind fun _ => opens_writeText

end Wide

/-! ## Descriptors -/

theorem opens_modifyFdesc {f : ℕ} {g : Fdesc → Fdesc} : Opens .fds n (modifyFdesc f g) :=
  opens_modifyMem fun _ => trivial

theorem opens_setFd {fd : ℕ} {f : Option ℕ} : Opens .fds n (setFd pid fd f) :=
  opens_modifyMem fun _ => trivial

theorem opens_getFdesc {f : ℕ} : Opens S n (getFdesc f) := fun m _ _ => ⟨Std.Refl.refl m, rfl⟩

theorem opens_getFd : Opens S n (getFd pid fd) := fun m _ _ => ⟨Std.Refl.refl m, rfl⟩

theorem opens_openFd {readable : Bool} {r : Option ℕ} :
    Opens .fds 3 (openFd pid readable writable r) := by
  rcases r with _ | inode
  · exact .pure _
  refine opens_checked fun _ => opens_getMem.bind fun m => ?_
  split
  · exact opens_closing
  split
  · exact opens_modifyFdesc.bind fun _ => opens_setFd.bind fun _ =>
      opens_inodeUnlock.bind fun _ => .pure _
  · exact opens_closing

theorem opens_doOpen {mode : ℕ} : Opens .fds 3 (doOpen pid path mode) := by
  rw [doOpen_eq]
  exact opens_openInode.bind fun _ => opens_openFd

theorem opens_doRead {length : UInt32} : Opens .fds 3 (doRead pid fd length) := by
  refine opens_getFd.bind fun r => ?_
  split
  · exact .pure _
  · exact opens_getFdesc.bind fun _ => opens_open.bind fun _ => opens_inodeRead.bind fun _ =>
      opens_modifyFdesc.bind fun _ => opens_inodeUnlock.bind fun _ => .pure _

theorem opens_doWrite {buff : Bytes} {length : UInt32} :
    Opens .fds 3 (doWrite pid fd buff length) := by
  refine opens_getFd.bind fun r => ?_
  split
  · exact .pure _
  · exact opens_getFdesc.bind fun _ => opens_open.bind fun _ => opens_inodeWrite.bind fun _ =>
      opens_modifyFdesc.bind fun _ => opens_inodeUnlock.bind fun _ => .pure _

theorem opens_doClose : Opens .fds 3 (doClose pid fd) := by
  unfold doClose
  split
  · exact .pure _
  refine opens_getFd.bind fun r => ?_
  split
  · exact .pure _
  · exact opens_getFdesc.bind fun _ => opens_inodeDeref.bind fun _ => opens_modifyFdesc.bind fun _ =>
      opens_setFd.bind fun _ => .pure _

end OsLab
