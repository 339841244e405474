import OsLab.Fs.Helpers.State
/-!
# The block map

The layout `do_mkfs` fixes, and the block map as a set: which data blocks
are in use (`Taken`), what `block_alloc` and `block_free` do to that set,
and that the counter in the superblock is its size.
-/

namespace OsLab

open Prog Bytes Finset

/-! ## Layout -/

/-- The superblock of a formatted card, up to its two counters. -/
def Geo (sb : Superblock) : Prop :=
  sb = { mkfsSuperblock with used_inode := sb.used_inode, used_block := sb.used_block }

/-- The first data block. -/
def DATA : ℕ := 546

/-- The number of data blocks. -/
def NDATA : ℕ := 130526

namespace Geo

variable {sb : Superblock} (h : Geo sb)
include h

theorem map_offset : sb.block_map_offset = 1 := by rw [h]; rfl
theorem inode_offset : sb.inode_offset = 34 := by rw [h]; rfl
theorem data_offset : sb.datablock_offset = DATA := by rw [h]; rfl
theorem block_count : sb.block_count = NDATA := by rw [h]; rfl
theorem inode_count : sb.inode_count = 32768 := by rw [h]; rfl
theorem root_inode : sb.root_inode = 1 := by rw [h]; rfl

theorem set_used_block (n : UInt32) : Geo { sb with used_block := n } := by
  unfold Geo at h ⊢
  rw [h]

theorem set_used_inode (n : UInt32) : Geo { sb with used_inode := n } := by
  unfold Geo at h ⊢
  rw [h]

end Geo

/-! ## The map as a set -/

/-- The bit of data block `b`. -/
def mapBit (disk : ℕ → Block) (b : ℕ) : Bool := bit (disk (1 + b / 32768)) (b % 32768)

/-- Block `n` is a data block in use. -/
def Taken (disk : ℕ → Block) (n : ℕ) : Prop :=
  DATA ≤ n ∧ n < DATA + NDATA ∧ mapBit disk (n - DATA) = true

instance (disk : ℕ → Block) (n : ℕ) : Decidable (Taken disk n) :=
  inferInstanceAs (Decidable (_ ∧ _ ∧ _))

/-- The data blocks in use, as a set. -/
def takenBits (disk : ℕ → Block) : Finset ℕ := {b ∈ Finset.range NDATA | mapBit disk b = true}

/-- The card after the bit of data block `b` was set. -/
def takeBit (disk : ℕ → Block) (b : ℕ) : ℕ → Block :=
  upd disk (1 + b / 32768) (setBit (disk (1 + b / 32768)) (b % 32768))

/-- The card after the bit of data block `b` was cleared. -/
def freeBit (disk : ℕ → Block) (b : ℕ) : ℕ → Block :=
  upd disk (1 + b / 32768) (clearBit (disk (1 + b / 32768)) (b % 32768))

variable {disk : ℕ → Block} {b : ℕ}

theorem mapBit_takeBit (x : ℕ) : mapBit (takeBit disk b) x = (decide (x = b) || mapBit disk x) := by
  unfold mapBit takeBit
  by_cases hblk : 1 + x / 32768 = 1 + b / 32768
  · have hd : decide (x % 32768 = b % 32768) = decide (x = b) := by
      rw [decide_eq_decide]
      omega
    rw [hblk, upd_self, bit_setBit, hd]
  · have hne : x ≠ b := by
      rintro rfl
      exact hblk rfl
    rw [upd_of_ne hblk, decide_eq_false hne, Bool.false_or]

theorem mapBit_freeBit (x : ℕ) : mapBit (freeBit disk b) x = (decide (x ≠ b) && mapBit disk x) := by
  unfold mapBit freeBit
  by_cases hblk : 1 + x / 32768 = 1 + b / 32768
  · have hd : decide (x % 32768 ≠ b % 32768) = decide (x ≠ b) := by
      rw [decide_eq_decide]
      omega
    rw [hblk, upd_self, bit_clearBit, hd]
  · have hne : x ≠ b := by
      rintro rfl
      exact hblk rfl
    rw [upd_of_ne hblk, decide_eq_true hne, Bool.true_and]

theorem taken_takeBit (hb : b < NDATA) (n : ℕ) :
    Taken (takeBit disk b) n ↔ n = DATA + b ∨ Taken disk n := by
  unfold Taken
  rw [mapBit_takeBit, Bool.or_eq_true_iff, decide_eq_true_iff]
  constructor
  · rintro ⟨h1, h2, h | h⟩
    · exact .inl (by omega)
    · exact .inr ⟨h1, h2, h⟩
  · rintro (rfl | ⟨h1, h2, h⟩)
    · exact ⟨by omega, by omega, .inl (by omega)⟩
    · exact ⟨h1, h2, .inr h⟩

theorem taken_freeBit (n : ℕ) : Taken (freeBit disk b) n ↔ n ≠ DATA + b ∧ Taken disk n := by
  unfold Taken
  rw [mapBit_freeBit, Bool.and_eq_true_iff, decide_eq_true_iff]
  constructor
  · rintro ⟨h1, h2, hne, h⟩
    exact ⟨by omega, h1, h2, h⟩
  · rintro ⟨hne, h1, h2, h⟩
    exact ⟨h1, h2, by omega, h⟩

theorem card_takenBits_takeBit (hb : b < NDATA) (hfree : mapBit disk b = false) :
    (takenBits (takeBit disk b)).card = (takenBits disk).card + 1 := by
  have hins : takenBits (takeBit disk b) = insert b (takenBits disk) := by
    ext x
    simp only [takenBits, mem_filter, mem_range, mem_insert, mapBit_takeBit,
      Bool.or_eq_true_iff, decide_eq_true_iff]
    constructor
    · rintro ⟨hx, h | h⟩
      · exact .inl h
      · exact .inr ⟨hx, h⟩
    · rintro (rfl | ⟨hx, h⟩)
      · exact ⟨hb, .inl rfl⟩
      · exact ⟨hx, .inr h⟩
  rw [hins, card_insert_of_notMem]
  simp [takenBits, hfree]

theorem card_takenBits_freeBit (hb : b < NDATA) (htaken : mapBit disk b = true) :
    (takenBits (freeBit disk b)).card + 1 = (takenBits disk).card := by
  have her : takenBits (freeBit disk b) = (takenBits disk).erase b := by
    ext x
    simp only [takenBits, mem_filter, mem_range, mem_erase, mapBit_freeBit,
      Bool.and_eq_true_iff, decide_eq_true_iff]
    tauto
  have hmem : b ∈ takenBits disk := by simp [takenBits, hb, htaken]
  rw [her]
  exact card_erase_add_one hmem

variable {n r : ℕ} {blk map : Block}

/-- A change outside the map is no change to the set. -/
theorem mapBit_upd (hn : 33 ≤ n) (hb : b < NDATA) : mapBit (upd disk n blk) b = mapBit disk b := by
  unfold mapBit
  rw [upd_of_ne]
  unfold NDATA at hb
  omega

theorem taken_upd {x : ℕ} (hn : 33 ≤ n) : Taken (upd disk n blk) x ↔ Taken disk x := by
  unfold Taken
  refine and_congr_right fun h1 => and_congr_right fun h2 => ?_
  rw [mapBit_upd hn (by omega)]

theorem takenBits_upd (hn : 33 ≤ n) : takenBits (upd disk n blk) = takenBits disk :=
  filter_congr fun x hx => by rw [mapBit_upd hn (mem_range.mp hx)]

theorem card_takenBits_le (disk : ℕ → Block) : (takenBits disk).card ≤ NDATA :=
  (card_filter_le _ _).trans (card_range _).le

/-- The card is full when every bit is set. -/
def Full (disk : ℕ → Block) : Prop := ∀ b < NDATA, mapBit disk b = true

/-! ## Allocating and freeing -/

theorem findFree_some {bblock count fuel off : ℕ}
    (h : findFree map bblock count fuel off = some r) :
    off ≤ r ∧ r < 32768 ∧ bblock + r < count ∧ bit map r = false := by
  induction fuel generalizing off with
  | zero => cases h
  | succ fuel ih =>
    unfold findFree at h
    split at h
    · next hc =>
      split at h
      · obtain ⟨h1, h2⟩ := ih h
        exact ⟨by omega, h2⟩
      · next hb =>
        cases h
        exact ⟨le_rfl, hc.1, hc.2, by simpa using hb⟩
    · cases h

theorem findFree_none {bblock count fuel off : ℕ}
    (h : findFree map bblock count fuel off = none) (h1 : off ≤ r) (h2 : r < 32768)
    (h3 : bblock + r < count) (h4 : r < off + fuel) : bit map r = true := by
  induction fuel generalizing off with
  | zero => omega
  | succ fuel ih =>
    unfold findFree at h
    split at h
    · split at h
      · next hb =>
        by_cases hr : r = off
        · rw [hr]; exact hb
        · exact ih h (by omega) (by omega)
      · cases h
    · next hc => exact absurd ⟨by omega, by omega⟩ hc

variable {E : Halt → Prop} {s : FS}

/-- What `block_alloc` does: it takes a free block, or finds none. -/
def AllocPost (s : FS) (r : Option ℕ) (t : FS) : Prop :=
  (∃ b < NDATA, r = some (DATA + b) ∧ mapBit s.disk b = false ∧
      t = ⟨{ s.mem with
        superblock := { s.mem.superblock with
          used_block := s.mem.superblock.used_block + 1 } }, takeBit s.disk b⟩) ∨
    (r = none ∧ Full s.disk ∧ t = s.setFull)

variable (hgeo : Geo s.mem.superblock)
include hgeo

theorem wp_blockAllocFrom (fuel j : ℕ) (hfuel : NDATA ≤ 32768 * (j + fuel))
    (hbefore : ∀ b < NDATA, b < 32768 * j → mapBit s.disk b = true) :
    wp E (blockAllocFrom s.mem.superblock fuel (32768 * j)) (fun r t =>
      (∃ b < NDATA, r = some (DATA + b) ∧ mapBit s.disk b = false ∧
        t = ⟨{ s.mem with
          superblock := { s.mem.superblock with
            used_block := s.mem.superblock.used_block + 1 } }, takeBit s.disk b⟩) ∨
      (r = none ∧ Full s.disk ∧ t = s)) s := by
  induction fuel generalizing j with
  | zero => exact .inr ⟨rfl, fun b hb => hbefore b hb (by omega), rfl⟩
  | succ fuel ih =>
    unfold blockAllocFrom
    rw [hgeo.block_count]
    by_cases hlt : 32768 * j < NDATA
    · have hdiv : 32768 * j / 32768 = j := Nat.mul_div_cancel_left j (by omega)
      have hmap : BLOCKID2MAPBLOCK s.mem.superblock (32768 * j) = 1 + j := by
        unfold BLOCKID2MAPBLOCK
        rw [hgeo.map_offset, hdiv]
      rw [if_pos hlt]
      simp only [wp_bind, wp_blockOpen, wp_blockData, hmap]
      cases hf : findFree (s.disk (1 + j)) (32768 * j) NDATA 32768 0 with
      | some r =>
        obtain ⟨-, hr, hcount, hbit⟩ := findFree_some hf
        have hq : (32768 * j + r) / 32768 = j := by omega
        have hm : (32768 * j + r) % 32768 = r := by omega
        simp only [wp_bind, wp_setBlockData, wp_blockClose, wp_modifySuperblock, wp_pure]
        refine .inl ⟨32768 * j + r, hcount, ?_, ?_, ?_⟩
        · rw [hgeo.data_offset, Nat.add_assoc]
        · unfold mapBit
          rw [hq, hm]
          exact hbit
        · unfold takeBit
          rw [hq, hm]
          rfl
      | none =>
        simp only [wp_bind, wp_blockClose]
        refine ih (j + 1) (by omega) fun b hb hbj => ?_
        by_cases hb' : b < 32768 * j
        · exact hbefore b hb hb'
        · have hq : b / 32768 = j := by omega
          have := findFree_none hf (Nat.zero_le (b % 32768)) (Nat.mod_lt _ (by omega)) (by omega)
            (by omega)
          unfold mapBit
          rw [hq]
          exact this
    · rw [if_neg hlt]
      exact .inr ⟨rfl, fun b hb => hbefore b hb (by omega), rfl⟩

/-- **`block_alloc` fails only on a full card.** -/
theorem wp_blockAlloc : wp E blockAlloc (AllocPost s) s := by
  unfold blockAlloc
  simp only [wp_bind, wp_getSuperblock]
  have hfrom := wp_blockAllocFrom (E := E) hgeo (s.mem.superblock.block_count / 32768 + 1) 0
    (by rw [hgeo.block_count]; unfold NDATA; omega) fun b _ hb => by omega
  refine wp_mono hfrom ?_
  rintro r t (⟨b, hb, rfl, hbit, rfl⟩ | ⟨rfl, hfull, rfl⟩)
  · exact .inl ⟨b, hb, rfl, hbit, rfl⟩
  · exact .inr ⟨rfl, hfull, rfl⟩

/-- **`block_free` of a block in use.** -/
theorem wp_blockFree (hn : Taken s.disk n) {Q : Unit → FS → Prop} (hQ : Q () ⟨{ s.mem with
      superblock := { s.mem.superblock with used_block := s.mem.superblock.used_block - 1 } },
      freeBit s.disk (n - DATA)⟩) : wp E (blockFree n) Q s := by
  obtain ⟨h1, h2, h3⟩ := hn
  unfold blockFree
  have hmap : BLOCKID2MAPBLOCK s.mem.superblock (n - DATA) = 1 + (n - DATA) / 32768 := by
    unfold BLOCKID2MAPBLOCK
    rw [hgeo.map_offset]
  have hbit : bit (s.disk (1 + (n - DATA) / 32768)) (BLOCKID2MAPOFFSET (n - DATA)) = true := h3
  simp only [wp_bind, wp_getSuperblock, hgeo.data_offset, h1, decide_true, wp_asserts, if_true,
    wp_blockOpen, wp_blockData, hmap, hbit, wp_setBlockData, wp_blockClose, wp_modifySuperblock]
  exact hQ

end OsLab
