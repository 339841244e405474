import OsLab.Fs.Blocks.Grow
import Mathlib.Order.Interval.Finset.Nat
/-!
# Reading and writing a file

The copying loops of `inode_read` and `inode_write` go block by block:
each turn maps one block of the file and copies a part of it. Reading
grows the file's block map and changes no file (`Grown`); writing also
changes the bytes in the range written (`Wrote`), and no others.

The offset of `inode_write` is a 32-bit number. It does not wrap, since
the blocks written in a row are all different: see `Reached`.
-/

namespace OsLab

open Prog Bytes Finset

variable {s t u : FS} {ino : ℕ → Option DiskInode} {loose : ℕ → Prop} {n k i b : ℕ}
  {d d' d'' : DiskInode} {E : Halt → Prop}

/-! ## One block of a file -/

/-- The blocks to be allocated before block `i` of the file is there. -/
def need (disk : ℕ → Block) (d : DiskInode) (i : ℕ) : ℕ :=
  match Loc.data i with
  | some l => missing disk d l.path
  | none => 1

variable {disk : ℕ → Block} {ls : List Loc} {l : Loc} {dest : Bytes}

theorem missing_eq_zero : missing disk d ls = 0 ↔ ∀ l ∈ ls, ∃ b, ptr disk d l = some b := by
  unfold missing
  rw [List.countP_eq_zero]
  refine forall_congr' fun l => imp_congr_right fun _ => ?_
  cases ptr disk d l <;> simp

variable {disk' : ℕ → Block}

theorem missing_mono (h : ∀ l b, ptr disk d l = some b → ptr disk' d' l = some b) :
    missing disk' d' ls ≤ missing disk d ls := by
  unfold missing
  refine List.countP_mono_left fun l _ hl => ?_
  cases hp : ptr disk d l with
  | none => rfl
  | some b =>
    rw [h l b hp] at hl
    cases hl

/-- What is above a pointer that holds a block holds one. -/
theorem missing_path (h : ptr disk d l = some b) : missing disk d l.path = 0 := by
  have hup : ∀ {l p : Loc} {j : Fin 1024} {b : ℕ}, l.up = some (p, j) → ptr disk d l = some b →
      ∃ c, ptr disk d p = some c := by
    intro l p j b hl hb
    rw [ptr_of_up hl] at hb
    cases hp : ptr disk d p with
    | none => rw [hp] at hb; cases hb
    | some c => exact ⟨c, rfl⟩
  rw [missing_eq_zero]
  cases l with
  | direct i => simpa [Loc.path] using ⟨b, h⟩
  | ind => simpa [Loc.path] using ⟨b, h⟩
  | dbl => simpa [Loc.path] using ⟨b, h⟩
  | indEnt j => simpa [Loc.path] using ⟨hup rfl h, ⟨b, h⟩⟩
  | dblEnt j => simpa [Loc.path] using ⟨hup rfl h, ⟨b, h⟩⟩
  | leaf i j =>
    obtain ⟨c, hc⟩ := hup (l := .leaf i j) rfl h
    simpa [Loc.path] using ⟨hup (l := .dblEnt i) rfl hc, ⟨c, hc⟩, ⟨b, h⟩⟩

theorem Loc.mem_path : l ∈ l.path := by cases l <;> simp [Loc.path]

theorem need_eq_zero : need disk d i = 0 ↔ ∃ b, blockAt disk d i = some b := by
  unfold need blockAt
  cases Loc.data i with
  | none => simp
  | some l =>
    constructor
    · intro h
      exact missing_eq_zero.mp h l l.mem_path
    · rintro ⟨b, hb⟩
      exact missing_path hb

theorem Touched.need_le (h : Touched ino k n s d t d') (i : ℕ) :
    need t.disk d' i ≤ need s.disk d i := by
  unfold need
  cases Loc.data i with
  | none => exact le_rfl
  | some l => exact missing_mono h.mono

theorem need_congr (h : ptr disk' d' = ptr disk d) (i : ℕ) : need disk' d' i = need disk d i := by
  unfold need missing
  rw [h]

theorem Full.card_takenBits (h : Full disk) : (takenBits disk).card = NDATA := by
  unfold takenBits
  rw [filter_true_of_mem fun b hb => h b (mem_range.mp hb), card_range]

/-- Block `i` of the file was looked up, and allocated if it was a hole. -/
structure FileMapped (ino : ℕ → Option DiskInode) (loose : ℕ → Prop) (k n i : ℕ) (s : FS)
    (d : DiskInode) (r : Option ℕ) (t : FS) (d' : DiskInode) : Prop where
  grown : Grown ino k n s d t d'
  inv : BlockInv t (upd ino n (some d')) loose
  res : blockAt t.disk d' i = r
  cost : r ≠ none → (takenBits t.disk).card = (takenBits s.disk).card + need s.disk d i
  lack : r = none → NDATA < (takenBits s.disk).card + need s.disk d i
  fail : r = none → t.mem.full = true
  idle : need s.disk d i = 0 → r ≠ none ∧ t = s ∧ d' = d

/-- **`inode_mapblock`**, for the blocks a 32-bit offset is in. -/
theorem wp_mapblock (h : BlockInv s ino loose) (hd : ino n = some d) (hk : (s.mem.inodes k).d = d)
    (hi : i < 1048576) : wp E (inodeMapblock k i)
    (fun r t => ∃ d', FileMapped ino loose k n i s d r t d') s := by
  obtain ⟨l, hl⟩ := Loc.exists_data (i := i) (by omega)
  have hneed : need s.disk d i = missing s.disk d l.path := by
    unfold need
    rw [hl]
  refine wp_mono (wp_inodeMapblock h hd hk hl) ?_
  rintro r t ⟨d', hm⟩
  refine ⟨d', hm.grown, hm.inv, ?_, ?_, ?_, fun hr => (hm.fail hr).2, ?_⟩
  · unfold blockAt
    rw [hl]
    exact hm.res
  · rw [hneed]
    exact hm.cost
  · intro hr
    rw [hneed, ← (hm.fail hr).1.card_takenBits]
    exact hm.lack hr
  · intro hzero
    rw [hneed] at hzero
    obtain ⟨b, hb⟩ := missing_eq_zero.mp hzero l l.mem_path
    obtain ⟨rfl, hts, hdd⟩ := hm.idle b hb
    exact ⟨nofun, hts, hdd⟩

theorem fileBlock_of_blockAt (h : blockAt disk d i = some b) : fileBlock disk d i = disk b := by
  unfold fileBlock
  rw [h]

theorem byteAt_of_block {p : ℕ} {blk : Block} (h : fileBlock disk d i = blk)
    (hp : p / 4096 = i) : byteAt disk d p = blk (p % 4096) := by
  unfold byteAt
  rw [hp, h]

theorem Grown.byte (h : Grown ino k n s d t d') (p : ℕ) :
    byteAt t.disk d' p = byteAt s.disk d p := by
  unfold byteAt
  rw [h.block]

/-! ## Reading -/

/-- The bytes from `total` to `r.1` were copied from the file at `offset`
to the buffer. -/
structure Read (ino : ℕ → Option DiskInode) (loose : ℕ → Prop) (k n length offset total : ℕ)
    (dest : Bytes) (s : FS) (d : DiskInode) (r : ℕ × Bytes) (t : FS) (d' : DiskInode) : Prop where
  grown : Grown ino k n s d t d'
  inv : BlockInv t (upd ino n (some d')) loose
  ge : total ≤ r.1
  le : r.1 ≤ length
  short : r.1 < length → t.mem.full = true
  bytes : ∀ x, r.2 x =
    if total ≤ x ∧ x < r.1 then byteAt s.disk d (offset + (x - total)) else dest x
  idle : (∀ p, offset ≤ p → p < offset + (length - total) → need s.disk d (p / 4096) = 0) →
    r.1 = length ∧ t = s ∧ d' = d

variable {length offset total fuel c : ℕ} {src : Bytes} {r : ℕ × ℕ}

/-- The loop is over. -/
theorem Read.done (h : BlockInv s ino loose)
    (hd : ino n = some d) (hk : (s.mem.inodes k).d = d) (hle : total = length) :
    Read ino loose k n length offset total dest s d (total, dest) s d := by
  refine ⟨.refl hk, ?_, le_rfl, hle.le, fun hlt => by omega, fun x => ?_,
    fun _ => ⟨hle, rfl, rfl⟩⟩
  · rw [← hd, upd_eq_self]
    exact h
  · rw [if_neg (by omega)]

/-- **The copying loop of `inode_read`.** -/
theorem wp_inodeReadLoop (h : BlockInv s ino loose) (hd : ino n = some d)
    (hk : (s.mem.inodes k).d = d) (hle : total ≤ length) (hfuel : length ≤ total + fuel)
    (hoff : offset + (length - total) ≤ 2 ^ 32) :
    wp E (inodeReadLoop k length fuel offset total dest)
      (fun r t => ∃ d', Read ino loose k n length offset total dest s d r t d') s := by
  induction fuel generalizing s ino d offset total dest with
  | zero => exact ⟨d, .done h hd hk (by omega)⟩
  | succ fuel ih =>
    unfold inodeReadLoop
    by_cases hlt : total < length
    · rw [if_pos hlt, wp_bind]
      refine wp_mono (wp_mapblock h hd hk (i := offset / BLOCK_SIZE) ?_) ?_
      · unfold BLOCK_SIZE
        omega
      rintro r t ⟨d1, hm⟩
      cases r with
      | none =>
        refine ⟨d1, hm.grown, hm.inv, le_rfl, hle, fun _ => hm.fail rfl, fun x => ?_, fun hz => ?_⟩
        · rw [if_neg (by omega)]
        · exact absurd rfl (hm.idle (hz offset le_rfl (by omega))).1
      | some b =>
        simp only [wp_bind, wp_blockOpen, wp_blockData, wp_blockClose]
        generalize hchunk : min (BLOCK_SIZE - offset % BLOCK_SIZE) (length - total) = chunk
        unfold BLOCK_SIZE at hchunk
        have hpos : 0 < chunk := by omega
        refine wp_mono (ih hm.inv upd_self (by rw [hm.grown.inode]) (by omega) (by omega)
          (by omega)) ?_
        rintro r u ⟨d2, hr⟩
        refine ⟨d2, hm.grown.trans hr.grown, ?_, by have := hr.ge; omega, hr.le, hr.short,
          fun x => ?_, fun hz => ?_⟩
        · have := hr.inv
          rwa [upd_idem] at this
        · rw [hr.bytes, hm.grown.byte]
          have hge := hr.ge
          by_cases hx : total + chunk ≤ x ∧ x < r.1
          · rw [if_pos hx, if_pos ⟨by omega, hx.2⟩]
            congr 1
            omega
          · rw [if_neg hx]
            by_cases hx' : total ≤ x ∧ x < total + chunk
            · -- the byte is in the chunk this turn copies
              have hblk : fileBlock s.disk d (offset / 4096) = t.disk b := by
                rw [← hm.grown.block]
                exact fileBlock_of_blockAt hm.res
              rw [if_pos (by omega), blit_of_mem hx'.1 hx'.2, byteAt_of_block hblk (by omega)]
              refine congrArg (t.disk b) ?_
              unfold BLOCK_SIZE
              omega
            · rw [if_neg (by omega), blit_of_not_mem (by omega)]
        · obtain ⟨-, rfl, rfl⟩ := hm.idle (hz offset le_rfl (by omega))
          exact hr.idle fun p hp hp' => hz p (by omega) (by omega)
    · rw [if_neg hlt]
      exact ⟨d, .done h hd hk (by omega)⟩

/-! ## Writing -/

theorem blockAt_eq_some (hb : blockAt disk d i = some b) :
    ∃ l, Loc.data i = some l ∧ ptr disk d l = some b := by
  unfold blockAt at hb
  cases hi : Loc.data i with
  | none => rw [hi] at hb; cases hb
  | some l => exact ⟨l, rfl, by rwa [hi] at hb⟩

section

variable (h : BlockInv s ino loose) (hd : ino n = some d) (hb : blockAt s.disk d i = some b)
include h hd hb

/-- Two places of one inode, of which one is a data block. -/
theorem BlockInv.ne_index (hl : l.isIndex = true) (hc : ptr s.disk d l = some c) : c ≠ b := by
  rintro rfl
  obtain ⟨l', hi, hb⟩ := blockAt_eq_some hb
  obtain rfl := (h.inj hd hd hc hb).2
  rw [Loc.data_not_index hi] at hl
  cases hl

theorem BlockInv.taken_blockAt : Taken s.disk b := by
  obtain ⟨l, -, hb⟩ := blockAt_eq_some hb
  exact h.taken hd hb

/-- Different blocks of a file are different data blocks. -/
theorem BlockInv.blockAt_inj {i' : ℕ} (hb' : blockAt s.disk d i' = some b) : i = i' := by
  obtain ⟨l, hi, hb⟩ := blockAt_eq_some hb
  obtain ⟨l', hi', hb'⟩ := blockAt_eq_some hb'
  obtain rfl := (h.inj hd hd hb hb').2
  exact Loc.data_inj hi hi'

end

section SetBlock

variable (blk : Block) (h : BlockInv s ino loose) (hd : ino n = some d)
include h hd

theorem ptr_setBlock (hb : blockAt s.disk d i = some b) : ptr (upd s.disk b blk) d = ptr s.disk d :=
  ptr_congr fun _ _ hl hc => upd_of_ne (h.ne_index hd hb hl hc)

/-- Overwriting a data block of a file. -/
theorem Touched.setBlock (hk : (s.mem.inodes k).d = d) (hb : blockAt s.disk d i = some b) :
    Touched ino k n s d (s.setBlock b blk) d := by
  have hptr := ptr_setBlock blk h hd hb
  have htaken : DATA ≤ b := (h.taken_blockAt hd hb).1
  have hrefl : Touched ino k n s d s d := .refl hk
  refine ⟨hrefl.mem, rfl, id, fun l c hc => ?_, fun c hc _ => upd_of_ne (by omega), ?_⟩
  · rw [Store.setBlock_disk, hptr]
    exact hc
  · intro m dm hm hdm l c hc
    refine upd_of_ne ?_
    rintro rfl
    obtain ⟨l', -, hb⟩ := blockAt_eq_some hb
    exact hm (h.inj hdm hd hc hb).1

theorem BlockInv.setBlock (hk : (s.mem.inodes k).d = d) (hb : blockAt s.disk d i = some b) :
    BlockInv (s.setBlock b blk) ino loose := by
  have htaken : DATA ≤ b := (h.taken_blockAt hd hb).1
  have hmap : 33 ≤ b := by
    unfold DATA at htaken
    omega
  refine ⟨h.geo, h.owners.congr (fun x => taken_upd hmap) (fun a => ?_) fun _ => Iff.rfl, ?_⟩
  · obtain ⟨m, l⟩ := a
    unfold ptrs
    cases hm : ino m with
    | none => rfl
    | some dm =>
      simp only [Option.bind_some, Store.setBlock_disk]
      by_cases hmn : m = n
      · subst hmn
        obtain rfl : dm = d := Option.some.inj (hm.symm.trans hd)
        rw [ptr_setBlock blk h hd hb]
      · exact congrFun ((Touched.setBlock blk h hd hk hb).ptr_other hmn hm) l
  · rw [Store.setBlock_disk, takenBits_upd hmap]
    exact h.used

theorem fileBlock_setBlock (hb : blockAt s.disk d i = some b) (i' : ℕ) :
    fileBlock (upd s.disk b blk) d i' = if i' = i then blk else fileBlock s.disk d i' := by
  have hptr := ptr_setBlock blk h hd hb
  unfold fileBlock
  have hat : blockAt (upd s.disk b blk) d i' = blockAt s.disk d i' := by
    unfold blockAt
    rw [hptr]
  rw [hat]
  by_cases hi : i' = i
  · rw [if_pos hi, hi, hb]
    exact upd_self
  · rw [if_neg hi]
    cases hb' : blockAt s.disk d i' with
    | none => rfl
    | some c =>
      refine upd_of_ne ?_
      rintro rfl
      exact hi (h.blockAt_inj hd hb' hb)

end SetBlock

/-- The bytes of the buffer from `total` to `r.1` were copied to the file
at `offset`, up to `r.2`. -/
structure Wrote (ino : ℕ → Option DiskInode) (loose : ℕ → Prop) (k n length : ℕ) (src : Bytes)
    (offset total : ℕ) (s : FS) (d : DiskInode) (r : ℕ × ℕ) (t : FS) (d' : DiskInode) : Prop where
  touched : Touched ino k n s d t d'
  inv : BlockInv t (upd ino n (some d')) loose
  ge : total ≤ r.1
  le : r.1 ≤ length
  stop : r.2 = offset + (r.1 - total)
  short : r.1 < length → t.mem.full = true
  bytes : ∀ p, byteAt t.disk d' p =
    if offset ≤ p ∧ p < r.2 then src (total + (p - offset)) else byteAt s.disk d p
  mapped : ∀ p, offset ≤ p → p < r.2 → need t.disk d' (p / 4096) = 0

namespace Wrote

variable {length offset total : ℕ} {src : Bytes}

/-- Nothing written, with the map grown at most. -/
theorem nothing (hg : Grown ino k n s d t d') (h : BlockInv t (upd ino n (some d')) loose)
    (hle : total ≤ length) (hshort : total < length → t.mem.full = true) :
    Wrote ino loose k n length src offset total s d (total, offset) t d' := by
  refine ⟨hg.toTouched, h, le_rfl, hle, by omega, hshort, fun p => ?_, fun p h1 h2 => ?_⟩
  · rw [if_neg (by omega), hg.byte]
  · simp only at h2
    omega

/-- Some bytes, and then the rest. -/
theorem trans {length' : ℕ}
    (h : Wrote ino loose k n length' src offset total s d (length', offset + (length' - total)) t d')
    (h' : Wrote (upd ino n (some d')) loose k n length src (offset + (length' - total)) length' t d'
      r u d'') : Wrote ino loose k n length src offset total s d r u d'' := by
  have hge := h.ge
  have hge' := h'.ge
  have hstop := h'.stop
  simp only at hge
  refine ⟨h.touched.trans h'.touched, ?_, by omega, h'.le, by omega, h'.short, fun p => ?_,
    fun p h1 h2 => ?_⟩
  · have := h'.inv
    rwa [upd_idem] at this
  · rw [h'.bytes, h.bytes]
    by_cases hp : offset + (length' - total) ≤ p ∧ p < r.2
    · rw [if_pos hp, if_pos (by omega)]
      congr 1
      omega
    · rw [if_neg hp]
      by_cases hp' : offset ≤ p ∧ p < offset + (length' - total)
      · rw [if_pos hp', if_pos (by omega)]
      · rw [if_neg hp', if_neg (by omega)]
  · by_cases hp : p < offset + (length' - total)
    · have := h'.touched.need_le (p / 4096)
      rw [h.mapped p h1 hp] at this
      omega
    · exact h'.mapped p (by omega) h2

end Wrote

/-- One turn of the loop: block `i` of the file is there, and a part of it
is overwritten. -/
theorem Wrote.chunk (total chunk : ℕ) (src : Bytes)
    (hm : FileMapped ino loose k n (offset / 4096) s d (some b) t d')
    (hchunk : offset % 4096 + chunk ≤ 4096) :
    Wrote ino loose k n (total + chunk) src offset total s d
      (total + chunk, offset + (total + chunk - total))
      (t.setBlock b (blit (t.disk b) (offset % 4096) src total chunk)) d' := by
  have hd : upd ino n (some d') n = some d' := upd_self
  have hk : (t.mem.inodes k).d = d' := by rw [hm.grown.inode]
  have htouched : Touched (upd ino n (some d')) k n t d' _ d' :=
    .setBlock (blit (t.disk b) (offset % 4096) src total chunk) hm.inv hd hk hm.res
  refine ⟨hm.grown.toTouched.trans htouched, hm.inv.setBlock _ hd hk hm.res, by simp, le_rfl,
    by simp only, fun hlt => absurd hlt (lt_irrefl _), fun p => ?_, fun p h1 h2 => ?_⟩
  · rw [← hm.grown.byte]
    unfold byteAt
    rw [Store.setBlock_disk, fileBlock_setBlock _ hm.inv hd hm.res]
    by_cases hp : p / 4096 = offset / 4096
    · rw [if_pos hp, hp, fileBlock_of_blockAt hm.res]
      by_cases hin : offset ≤ p ∧ p < offset + (total + chunk - total)
      · rw [if_pos hin, blit_of_mem (by omega) (by omega)]
        congr 1
        omega
      · rw [if_neg hin, blit_of_not_mem (by omega)]
    · rw [if_neg hp, if_neg (by omega)]
  · have hle := htouched.need_le (p / 4096)
    have hzero : need t.disk d' (p / 4096) = 0 := by
      have hp : p / 4096 = offset / 4096 := by
        simp only at h2
        omega
      rw [hp]
      exact need_eq_zero.mpr ⟨b, hm.res⟩
    omega

/-- The blocks of a file that are there are at most the card's. -/
theorem BlockInv.mapped_le (h : BlockInv s ino loose) (hd : ino n = some d) {a : ℕ}
    (hm : ∀ i, a ≤ i → i < c → need s.disk d i = 0) : c - a ≤ NDATA := by
  have hsome : ∀ i ∈ Finset.Ico a c, ∃ b, blockAt s.disk d i = some b := by
    intro i hi
    rw [mem_Ico] at hi
    exact need_eq_zero.mp (hm i hi.1 hi.2)
  have hcard : (Finset.Ico a c).card ≤ (takenBits s.disk).card := by
    refine card_le_card_of_injOn (fun i => (blockAt s.disk d i).getD 0 - DATA) ?_ ?_
    · intro i hi
      obtain ⟨b, hb⟩ := hsome i hi
      obtain ⟨h1, h2, h3⟩ := h.taken_blockAt hd hb
      simp only [hb, Option.getD_some, takenBits, coe_filter, mem_range,
        Set.mem_ofPred_eq]
      exact ⟨by omega, h3⟩
    · intro i hi i' hi' he
      obtain ⟨b, hb⟩ := hsome i hi
      obtain ⟨b', hb'⟩ := hsome i' hi'
      have h1 := (h.taken_blockAt hd hb).1
      have h1' := (h.taken_blockAt hd hb').1
      simp only [hb, hb', Option.getD_some] at he
      obtain rfl : b = b' := by omega
      exact h.blockAt_inj hd hb hb'
  rw [Nat.card_Ico] at hcard
  exact hcard.trans (card_takenBits_le _)

/-- The blocks of the file up to `offset` are there, from a block below
two gigabytes on. -/
def Reached (disk : ℕ → Block) (d : DiskInode) (offset : ℕ) : Prop :=
  ∃ a ≤ 2 ^ 19, ∀ i, a ≤ i → i < offset / 4096 → need disk d i = 0

/-- Where a write that starts in reach goes on. -/
theorem Wrote.reached
    (h : Wrote ino loose k n length src offset total s d r t d') (hr : Reached s.disk d offset) :
    Reached t.disk d' r.2 := by
  obtain ⟨a, ha, hm⟩ := hr
  have hstop := h.stop
  refine ⟨a, ha, fun i h1 h2 => ?_⟩
  by_cases hi : i < offset / 4096
  · have := h.touched.need_le i
    rw [hm i h1 hi] at this
    omega
  · by_cases hoff : offset ≤ 4096 * i
    · have := h.mapped (4096 * i) hoff (by omega)
      rwa [Nat.mul_div_cancel_left i (by omega)] at this
    · have := h.mapped offset le_rfl (by omega)
      rwa [show offset / 4096 = i by omega] at this

/-- **A file never reaches four gigabytes.** -/
theorem BlockInv.reached_lt (h : BlockInv s ino loose) (hd : ino n = some d)
    (hr : Reached s.disk d offset) : offset < 2 ^ 32 := by
  obtain ⟨a, ha, hm⟩ := hr
  have := h.mapped_le hd hm
  unfold NDATA at this
  omega

section

variable (h : BlockInv s ino loose) (hd : ino n = some d) (hk : (s.mem.inodes k).d = d)
include h hd hk

/-- **One turn of the copying loop of `inode_write`.** -/
theorem wp_inodeWriteLoop_turn {Q : ℕ × ℕ → FS → Prop} (hlt : total < length)
    (hoff : offset < 2 ^ 32)
    (hnone : ∀ t d1, FileMapped ino loose k n (offset / 4096) s d none t d1 → Q (total, offset) t)
    (hsome : ∀ b t d1 chunk, chunk = min (4096 - offset % 4096) (length - total) →
      FileMapped ino loose k n (offset / 4096) s d (some b) t d1 →
      Wrote ino loose k n (total + chunk) src offset total s d (total + chunk, offset + (total + chunk - total))
        (t.setBlock b (blit (t.disk b) (offset % 4096) src total chunk)) d1 →
      wp E (inodeWriteLoop k length src fuel ((offset + chunk) % 2 ^ 32) (total + chunk)) Q
        (t.setBlock b (blit (t.disk b) (offset % 4096) src total chunk))) :
    wp E (inodeWriteLoop k length src (fuel + 1) offset total) Q s := by
  unfold inodeWriteLoop
  rw [if_pos hlt, wp_bind]
  refine wp_mono (wp_mapblock h hd hk (i := offset / BLOCK_SIZE) (by unfold BLOCK_SIZE; omega)) ?_
  rintro r t ⟨d1, hm⟩
  cases r with
  | none => exact hnone t d1 hm
  | some b =>
    simp only [wp_bind, wp_blockOpen, wp_blockData, wp_setBlockData, wp_blockClose]
    exact hsome b t d1 _ rfl hm (.chunk total _ src hm (by unfold BLOCK_SIZE; omega))

/-- The copying loop from any offset: what was written is known as long as the offset has not
wrapped. -/
theorem wp_inodeWriteLoop_any (fuel : ℕ) (hle : total ≤ length) (hfuel : length ≤ total + fuel)
    (hoff : offset < 2 ^ 32) :
    wp E (inodeWriteLoop k length src fuel offset total) (fun r t => ∃ d', Touched ino k n s d t d' ∧ total ≤ r.1 ∧
      r.1 ≤ length ∧ (offset + (r.1 - total) < 2 ^ 32 ∨ Reached s.disk d offset →
        Wrote ino loose k n length src offset total s d r t d')) s := by
  have hself : BlockInv s (upd ino n (some d)) loose := by
    rw [← hd, upd_eq_self]
    exact h
  induction fuel generalizing s ino d offset total with
  | zero => exact ⟨d, .refl hk, le_rfl, hle, fun _ => .nothing (.refl hk) hself hle fun hlt => by omega⟩
  | succ fuel ih =>
    by_cases hlt : total < length
    · refine wp_inodeWriteLoop_turn h hd hk hlt hoff (fun t d1 hm => ?_) fun b t d1 chunk hchunk hm hw => ?_
      · exact ⟨d1, hm.grown.toTouched, le_rfl, hle, fun _ => .nothing hm.grown hm.inv hle fun _ => hm.fail rfl⟩
      refine wp_mono (ih hw.inv upd_self (by rw [hw.touched.inode]) (by omega) (by omega)
        (Nat.mod_lt _ (by decide)) (by rw [upd_idem]; exact hw.inv)) ?_
      rintro r u ⟨d2, htouched, hge, hle', hrest⟩
      refine ⟨d2, hw.touched.trans htouched, by omega, hle', fun hwrap => ?_⟩
      have hnext : offset + chunk < 2 ^ 32 ∧ (offset + chunk + (r.1 - (total + chunk)) < 2 ^ 32 ∨
          Reached (t.setBlock b (blit (t.disk b) (offset % 4096) src total chunk)).disk d1 (offset + chunk)) := by
        rcases hwrap with hlt | hr
        · exact ⟨by omega, .inl (by omega)⟩
        · have := hw.reached hr
          rw [Nat.add_sub_cancel_left] at this
          exact ⟨hw.inv.reached_lt upd_self this, .inr this⟩
      rw [Nat.mod_eq_of_lt hnext.1] at hrest
      refine hw.trans ?_
      rw [Nat.add_sub_cancel_left]
      exact hrest hnext.2
    · unfold inodeWriteLoop
      rw [if_neg hlt]
      exact ⟨d, .refl hk, le_rfl, hle, fun _ => .nothing (.refl hk) hself hle fun h => absurd h hlt⟩

/-- **The copying loop of `inode_write`**, for a range below `2^32` or one
that starts in reach. -/
theorem wp_inodeWriteLoop (fuel : ℕ) (hle : total ≤ length) (hfuel : length ≤ total + fuel)
    (hwrap : offset + (length - total) < 2 ^ 32 ∨ Reached s.disk d offset) :
    wp E (inodeWriteLoop k length src fuel offset total)
      (fun r t => ∃ d', Wrote ino loose k n length src offset total s d r t d') s := by
  have hoff : offset < 2 ^ 32 := by
    rcases hwrap with hw | hw
    · omega
    · exact h.reached_lt hd hw
  refine wp_mono (wp_inodeWriteLoop_any h hd hk fuel hle hfuel hoff) ?_
  rintro r t ⟨d', -, -, hr, hw⟩
  exact ⟨d', hw (hwrap.imp_left fun hlt => by omega)⟩

/-- Something is written exactly when there is something to write and a block to begin with. -/
theorem wp_inodeWriteLoop_first (hoff : offset < 2 ^ 32) :
    wp E (inodeWriteLoop k length src length offset 0) (fun r _ => 0 < r.1 ↔
      0 < length ∧ (takenBits s.disk).card + need s.disk d (offset / 4096) ≤ NDATA) s := by
  cases length with
  | zero => exact ⟨fun hpos => absurd hpos (lt_irrefl _), fun hpos => absurd hpos.1 (lt_irrefl _)⟩
  | succ fuel =>
    refine wp_inodeWriteLoop_turn h hd hk (Nat.succ_pos fuel) hoff (fun t d1 hm => ?_)
      fun b t d1 chunk hchunk hm hw => ?_
    · have hlack := hm.lack rfl
      exact ⟨fun hpos => absurd hpos (lt_irrefl _), fun hpos => by omega⟩
    have hcost := hm.cost nofun
    have hle := card_takenBits_le t.disk
    refine wp_mono (wp_inodeWriteLoop_any hw.inv upd_self (by rw [hw.touched.inode]) fuel (by omega) (by omega)
      (Nat.mod_lt _ (by decide))) ?_
    rintro r u ⟨-, -, hge, -, -⟩
    exact ⟨fun _ => ⟨by omega, by omega⟩, fun _ => by omega⟩

/-- A write within one block of the file costs the blocks that are missing
on the way to it, or writes nothing. -/
theorem wp_inodeWriteLoop_block (hpos : 0 < length)
    (hin : offset % 4096 + length ≤ 4096) (hoff : offset + length < 2 ^ 32) :
    wp E (inodeWriteLoop k length src length offset 0) (fun r t => ∃ d',
      Wrote ino loose k n length src offset 0 s d r t d' ∧
      (r.1 = length ∧ (takenBits t.disk).card =
          (takenBits s.disk).card + need s.disk d (offset / 4096) ∨
        r.1 = 0 ∧ NDATA < (takenBits s.disk).card + need s.disk d (offset / 4096))) s := by
  obtain ⟨fuel, rfl⟩ : ∃ fuel, length = fuel + 1 := ⟨length - 1, by omega⟩
  refine wp_inodeWriteLoop_turn h hd hk hpos (by omega)
    (fun t d1 hm => ?_) fun b t d1 chunk hchunk hm hw => ?_
  · exact ⟨d1, .nothing hm.grown hm.inv (Nat.zero_le _) fun _ => hm.fail rfl, .inr ⟨rfl, hm.lack rfl⟩⟩
  obtain rfl : chunk = fuel + 1 := by omega
  have hmap : 33 ≤ b := by
    have := (hm.inv.taken_blockAt upd_self hm.res).1
    unfold DATA at this
    omega
  rw [Nat.mod_eq_of_lt hoff]
  rw [Nat.zero_add, Nat.sub_zero] at hw
  rw [Nat.zero_add]
  -- the loop stops at once, with or without fuel
  cases fuel with
  | zero => exact ⟨d1, hw, .inl ⟨rfl, by rw [Store.setBlock_disk, takenBits_upd hmap, hm.cost nofun]⟩⟩
  | succ fuel =>
    unfold inodeWriteLoop
    rw [if_neg (lt_irrefl _)]
    exact ⟨d1, hw, .inl ⟨rfl, by rw [Store.setBlock_disk, takenBits_upd hmap, hm.cost nofun]⟩⟩

end

end OsLab
