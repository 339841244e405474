import OsLab.Fs.Blocks.Free
/-!
# The inode table

The blocks from 34 up to the first data block hold 64 disk inodes each. `tableAt` is the disk inode
of a number. Writing one changes no other, and no block that a file or the block map is in
(`TableOnly`), so the block map stays right; it also stays right when an inode changes in other
fields than its pointers, and when an inode without blocks comes to life. -/

namespace OsLab

open Prog Bytes

/-! ## Reading and writing one disk inode -/

theorem DiskInode.ofWords_congr {w w' : ℕ → UInt32} (h : ∀ i < 16, w i = w' i) :
    ofWords w = ofWords w' := by
  ext1
  · simp only [ofWords, h 0 (by omega)]
  · simp only [ofWords, h 0 (by omega)]
  · exact h 1 (by omega)
  · exact h 2 (by omega)
  · exact h 3 (by omega)
  · funext i
    exact h (4 + i) (by omega)
  · exact h 14 (by omega)
  · exact h 15 (by omega)

theorem diskinodeAt_setDiskinode (b : Block) (k j : ℕ) (d : DiskInode) :
    diskinodeAt (setDiskinode b k d) j = if j = k then d else diskinodeAt b j := by
  unfold diskinodeAt setDiskinode
  split
  · next hj =>
    subst hj
    rw [← DiskInode.ofWords_words d]
    refine DiskInode.ofWords_congr fun i hi => ?_
    rw [DiskInode.ofWords_words]
    refine word_of_byteOf fun x hx => ?_
    -- byte `x` of word `i` is inside the 64 bytes copied
    rw [blit_of_mem (by omega) (by omega), ofWords]
    congr 2
    · omega
    · omega
  · next hj =>
    refine DiskInode.ofWords_congr fun i hi => word_congr fun x h1 h2 => ?_
    rw [blit_of_not_mem (by omega)]

/-- The disk inode `n`. -/
def tableAt (disk : ℕ → Block) (n : ℕ) : DiskInode := diskinodeAt (disk (34 + n / 64)) (n % 64)

/-- The card after the disk inode `n` was overwritten. -/
def setTable (disk : ℕ → Block) (n : ℕ) (d : DiskInode) : ℕ → Block :=
  upd disk (34 + n / 64) (setDiskinode (disk (34 + n / 64)) (n % 64) d)

variable {disk disk' : ℕ → Block} {n m : ℕ} {d d' : DiskInode}

theorem tableAt_setTable :
    tableAt (setTable disk n d) m = if m = n then d else tableAt disk m := by
  unfold tableAt setTable
  by_cases hblk : 34 + m / 64 = 34 + n / 64
  · rw [hblk, upd_self, diskinodeAt_setDiskinode]
    by_cases hmn : m = n
    · rw [if_pos hmn, if_pos (by rw [hmn])]
    · rw [if_neg hmn, if_neg (by omega)]
  · rw [upd_of_ne hblk, if_neg]
    rintro rfl
    exact hblk rfl

@[simp] theorem tableAt_setTable_self : tableAt (setTable disk n d) n = d := by
  rw [tableAt_setTable, if_pos rfl]

theorem tableAt_setTable_of_ne (h : m ≠ n) : tableAt (setTable disk n d) m = tableAt disk m := by
  rw [tableAt_setTable, if_neg h]

/-- The card changed in the inode table at most. -/
def TableOnly (disk disk' : ℕ → Block) : Prop := ∀ b, b < 34 ∨ DATA ≤ b → disk' b = disk b

theorem TableOnly.refl (disk : ℕ → Block) : TableOnly disk disk := fun _ _ => rfl

theorem tableOnly_setTable (hn : n < NUM_INODES) : TableOnly disk (setTable disk n d) := by
  intro b hb
  unfold NUM_INODES at hn
  unfold DATA at hb
  exact upd_of_ne (by omega)

/-- A disk inode is read off the blocks of the table. -/
theorem tableAt_congr (hn : n < NUM_INODES) (h : ∀ b, 34 ≤ b → b < DATA → disk' b = disk b) :
    tableAt disk' n = tableAt disk n := by
  unfold tableAt
  unfold NUM_INODES at hn
  rw [h _ (by omega) (by unfold DATA; omega)]

/-! ## The same blocks -/

/-- The blocks under an inode did not change. -/
def SameBlocks (disk disk' : ℕ → Block) (d : DiskInode) : Prop :=
  ∀ l b, ptr disk d l = some b → disk' b = disk b

namespace SameBlocks

theorem refl (disk : ℕ → Block) (d : DiskInode) : SameBlocks disk disk d := fun _ _ _ => rfl

variable (h : SameBlocks disk disk' d)
include h

theorem ptr_eq : ptr disk' d = ptr disk d := ptr_congr fun l b _ => h l b

theorem trans {disk'' : ℕ → Block} (h' : SameBlocks disk' disk'' d) : SameBlocks disk disk'' d :=
  fun l b hp => (h' l b (by rw [h.ptr_eq]; exact hp)).trans (h l b hp)

theorem byteAt_eq (p : ℕ) : byteAt disk' d p = byteAt disk d p := by
  unfold byteAt
  rw [fileBlock_congr h]

theorem need_eq (i : ℕ) : need disk' d i = need disk d i := need_congr h.ptr_eq i

end SameBlocks

/-- The pointers of two inodes are the same. -/
structure SamePtrs (d d' : DiskInode) : Prop where
  direct : d'.direct = d.direct
  indirect : d'.indirect = d.indirect
  double_indirect : d'.double_indirect = d.double_indirect

theorem SamePtrs.ptr_eq (h : SamePtrs d d') (disk : ℕ → Block) : ptr disk d' = ptr disk d := by
  funext l
  cases l <;> simp only [ptr, h.direct, h.indirect, h.double_indirect]

theorem SamePtrs.byteAt_eq (h : SamePtrs d d') (disk : ℕ → Block) (p : ℕ) :
    byteAt disk d' p = byteAt disk d p := by
  unfold byteAt fileBlock blockAt
  rw [h.ptr_eq]

theorem SamePtrs.need_eq (h : SamePtrs d d') (disk : ℕ → Block) (i : ℕ) :
    need disk d' i = need disk d i :=
  need_congr (h.ptr_eq disk) i

theorem SamePtrs.sameBlocks (h : SamePtrs d d') (hd : SameBlocks disk disk' d) :
    SameBlocks disk disk' d' := by
  intro l b hp
  rw [h.ptr_eq] at hp
  exact hd l b hp

/-! ## The block map, when the table changes -/

namespace BlockInv

variable {s t : FS} {ino ino' : ℕ → Option DiskInode} {loose : ℕ → Prop}

/-- Blocks of files are data blocks. -/
theorem sameBlocks (h : BlockInv s ino loose) (hd : ino n = some d)
    (hdata : ∀ b, DATA ≤ b → disk' b = s.disk b) : SameBlocks s.disk disk' d :=
  fun _ b hp => hdata b (h.taken hd hp).1

theorem congr (h : BlockInv s ino loose) (hdisk : TableOnly s.disk t.disk)
    (hgeo : Geo t.mem.superblock)
    (hused : t.mem.superblock.used_block = s.mem.superblock.used_block)
    (hptrs : ∀ a, ptrs s.disk ino' a = ptrs s.disk ino a) : BlockInv t ino' loose := by
  have hbit : ∀ b < NDATA, mapBit t.disk b = mapBit s.disk b := by
    intro b hb
    unfold mapBit
    unfold NDATA at hb
    rw [hdisk _ (.inl (by omega))]
  refine ⟨hgeo, h.owners.congr (fun b => ?_) (fun a => ?_) fun _ => Iff.rfl, ?_⟩
  · unfold Taken
    refine and_congr_right fun h1 => and_congr_right fun h2 => ?_
    rw [hbit _ (by omega)]
  · obtain ⟨m, l⟩ := a
    rw [← hptrs]
    unfold ptrs
    cases hm : ino' m with
    | none => rfl
    | some dm =>
      refine congrFun (ptr_congr fun l b _ hp => hdisk b (.inr ?_)) l
      have hsome : ptrs s.disk ino (m, l) = some b := by rw [← hptrs, ptrs_of_some hm, hp]
      exact (h.owners.taken_of_some hsome).1
  · rw [hused, h.used]
    refine congrArg Finset.card (Finset.filter_congr fun b hb => ?_)
    rw [hbit b (Finset.mem_range.mp hb)]

/-- An inode changed in other fields than its pointers. -/
theorem ptrs_fields (hd : ino n = some d) (hp : SamePtrs d d') (disk : ℕ → Block) (a : ℕ × Loc) :
    ptrs disk (upd ino n (some d')) a = ptrs disk ino a := by
  obtain ⟨m, l⟩ := a
  by_cases hm : m = n
  · subst hm
    rw [ptrs_of_some upd_self, ptrs_of_some hd, hp.ptr_eq]
  · unfold ptrs
    rw [upd_of_ne hm]

/-- An inode that holds no block changes nothing. -/
theorem ptrs_empty (hn : ino n = none) (hd : SamePtrs DiskInode.cleared d) (disk : ℕ → Block)
    (a : ℕ × Loc) :
    ptrs disk (upd ino n (some d)) a = ptrs disk ino a := by
  obtain ⟨m, l⟩ := a
  by_cases hm : m = n
  · subst hm
    rw [ptrs_of_some upd_self, hd.ptr_eq]
    unfold ptrs
    rw [hn]
    cases l <;> rfl
  · unfold ptrs
    rw [upd_of_ne hm]

end BlockInv

end OsLab
