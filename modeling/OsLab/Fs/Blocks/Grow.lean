import OsLab.Fs.Blocks.Ptr
/-!
# Growing a file

`BlockInv` says that the block map is right: a data block is in use
exactly when one pointer of one inode holds it. `inode_mapblock` finds the
block of a file, and allocates it with the index blocks above it where
they are missing. Each allocation attaches one block to one pointer
(`Mapped`) and changes no byte of any file (`Grown`).
-/

namespace OsLab

open Prog Bytes

/-! ## The invariant -/

/-- The pointers of the inodes of `ino`. -/
def ptrs (disk : ℕ → Block) (ino : ℕ → Option DiskInode) (a : ℕ × Loc) : Option ℕ :=
  (ino a.1).bind fun d => ptr disk d a.2

/-- **The block map is right**, up to the blocks of `loose`, which no pointer
holds. -/
structure BlockInv (s : FS) (ino : ℕ → Option DiskInode) (loose : ℕ → Prop) : Prop where
  geo : Geo s.mem.superblock
  owners : Owners (Taken s.disk) (ptrs s.disk ino) loose
  used : s.mem.superblock.used_block.toNat = (takenBits s.disk).card

variable {s t u : FS} {ino : ℕ → Option DiskInode} {loose : ℕ → Prop} {n k : ℕ}
  {d d' d'' dm : DiskInode} {l : Loc} {b m : ℕ}

theorem ptrs_of_some (hd : ino n = some d) (disk : ℕ → Block) (l : Loc) :
    ptrs disk ino (n, l) = ptr disk d l := by
  unfold ptrs
  rw [hd]
  rfl

namespace BlockInv

theorem taken (h : BlockInv s ino loose) (hd : ino n = some d) (hp : ptr s.disk d l = some b) :
    Taken s.disk b :=
  h.owners.taken_of_some (a := (n, l)) (by rw [ptrs_of_some hd, hp])

/-- One block is held once. -/
theorem inj (h : BlockInv s ino loose) {l' : Loc} (hd : ino n = some d)
    (hm : ino m = some dm) (hp : ptr s.disk d l = some b) (hp' : ptr s.disk dm l' = some b) :
    n = m ∧ l = l' := by
  have h1 : ptrs s.disk ino (n, l) = some b := by rw [ptrs_of_some hd, hp]
  have h2 : ptrs s.disk ino (m, l') = some b := by rw [ptrs_of_some hm, hp']
  exact Prod.mk.inj (h.owners.inj h1 h2)

end BlockInv

/-- The pointers after one inode got one more. -/
theorem ptrs_attach {disk disk' : ℕ → Block} (hd : ino n = some d)
    (hptr : ptr disk' d' = upd (ptr disk d) l (some b))
    (hothers : ∀ m dm, m ≠ n → ino m = some dm → ptr disk' dm = ptr disk dm) (a : ℕ × Loc) :
    ptrs disk' (upd ino n (some d')) a = upd (ptrs disk ino) (n, l) (some b) a := by
  obtain ⟨m, l'⟩ := a
  by_cases hm : m = n
  · subst hm
    rw [ptrs_of_some upd_self, hptr]
    by_cases hl : l' = l
    · rw [hl, upd_self, upd_self]
    · rw [upd_of_ne hl, upd_of_ne (fun h => hl (Prod.mk.inj h).2), ptrs_of_some hd]
  · rw [upd_of_ne (fun h => hm (Prod.mk.inj h).1)]
    unfold ptrs
    rw [upd_of_ne hm]
    cases hi : ino m with
    | none => rfl
    | some dm => simp only [Option.bind_some, hothers m dm hm hi]

/-! ## What growing leaves alone -/

/-- The blocks of inode `n`, in slot `k`, may have changed, and nothing
else did. -/
structure Touched (ino : ℕ → Option DiskInode) (k n : ℕ) (s : FS) (d : DiskInode) (t : FS)
    (d' : DiskInode) : Prop where
  mem : t.mem = { s.mem with
    inodes := upd s.mem.inodes k { s.mem.inodes k with d := d' }
    superblock := { s.mem.superblock with used_block := t.mem.superblock.used_block }
    full := t.mem.full }
  fields : d' = { d with
    direct := d'.direct
    indirect := d'.indirect
    double_indirect := d'.double_indirect }
  full : s.mem.full = true → t.mem.full = true
  mono : ∀ l b, ptr s.disk d l = some b → ptr t.disk d' l = some b
  low : ∀ b < DATA, ¬ (1 ≤ b ∧ b < 33) → t.disk b = s.disk b
  others : ∀ m dm, m ≠ n → ino m = some dm → ∀ l b, ptr s.disk dm l = some b → t.disk b = s.disk b

namespace Touched

theorem refl (hk : (s.mem.inodes k).d = d) : Touched ino k n s d s d := by
  refine ⟨?_, rfl, id, fun _ _ => id, fun _ _ _ => rfl, fun _ _ _ _ _ _ _ => rfl⟩
  have hi : { s.mem.inodes k with d := d } = s.mem.inodes k := by rw [← hk]
  rw [hi, upd_eq_self]

variable (h : Touched ino k n s d t d')
include h

theorem inode : t.mem.inodes k = { s.mem.inodes k with d := d' } := by
  rw [h.mem]
  exact upd_self

theorem ptr_other (hm : m ≠ n) (hdm : ino m = some dm) : ptr t.disk dm = ptr s.disk dm :=
  ptr_congr fun l b _ hp => h.others m dm hm hdm l b hp

theorem trans (h' : Touched (upd ino n (some d')) k n t d' u d'') : Touched ino k n s d u d'' := by
  refine ⟨?_, ?_, fun hf => h'.full (h.full hf), fun l b hp => h'.mono l b (h.mono l b hp),
    fun b hb hm => (h'.low b hb hm).trans (h.low b hb hm), ?_⟩
  · have hmem := h'.mem
    rw [h.mem] at hmem
    simp only [upd_self, upd_idem] at hmem
    exact hmem
  · have hf := h'.fields
    rw [h.fields] at hf
    exact hf
  · intro m dm hm hdm l b hp
    refine (h'.others m dm hm ?_ l b ?_).trans (h.others m dm hm hdm l b hp)
    · rw [upd_of_ne hm]
      exact hdm
    · rw [h.ptr_other hm hdm]
      exact hp

end Touched

/-- Inode `n` may have got blocks, and no file changed. -/
structure Grown (ino : ℕ → Option DiskInode) (k n : ℕ) (s : FS) (d : DiskInode) (t : FS)
    (d' : DiskInode) : Prop extends Touched ino k n s d t d' where
  block : ∀ i, fileBlock t.disk d' i = fileBlock s.disk d i

namespace Grown

theorem refl (hk : (s.mem.inodes k).d = d) : Grown ino k n s d s d := ⟨.refl hk, fun _ => rfl⟩

theorem trans (h : Grown ino k n s d t d') (h' : Grown (upd ino n (some d')) k n t d' u d'') :
    Grown ino k n s d u d'' :=
  ⟨h.toTouched.trans h'.toTouched, fun i => (h'.block i).trans (h.block i)⟩

end Grown

/-! ## Attaching a block -/

/-- The pointer at `l` was looked up, and given a block if it had none:
`r` is what it holds now. -/
structure Mapped (ino : ℕ → Option DiskInode) (loose : ℕ → Prop) (k n : ℕ) (l : Loc) (s : FS)
    (d : DiskInode) (r : Option ℕ) (t : FS) (d' : DiskInode) : Prop where
  grown : Grown ino k n s d t d'
  inv : BlockInv t (upd ino n (some d')) loose
  res : ptr t.disk d' l = r
  other : ∀ l' ≠ l, ptr t.disk d' l' = ptr s.disk d l'
  cost : (takenBits t.disk).card =
    (takenBits s.disk).card + if ptr s.disk d l = r then 0 else 1
  fail : r = none → Full t.disk ∧ t.mem.full = true
  idle : ∀ b, ptr s.disk d l = some b → r = some b ∧ t = s ∧ d' = d

/-- What a new block is filled with: zeros, or entries that hold nothing. -/
def newFill (l : Loc) : UInt8 := if l.isIndex then 0xff else 0

theorem freshFor_newFill : FreshFor l (fill (newFill l)) := by
  unfold newFill
  split
  · exact freshFor_fill_ff
  · next h => exact freshFor_fill_zero (by simpa using h)

variable {val : UInt8} {c : ℕ}

theorem not_taken_of_bit (hbit : mapBit s.disk b = false) : ¬ Taken s.disk (DATA + b) := by
  rintro ⟨-, -, h3⟩
  rw [Nat.add_sub_cancel_left, hbit] at h3
  cases h3

/-- A block in use is neither in the map nor the new one. -/
theorem takeBit_upd_of_taken (hbit : mapBit s.disk b = false) (hb : b < NDATA)
    (hc : Taken s.disk c) :
    upd (takeBit s.disk b) (DATA + b) (fill val) c = s.disk c := by
  have h1 := hc.1
  have hne : c ≠ DATA + b := fun he => not_taken_of_bit hbit (he ▸ hc)
  rw [upd_of_ne hne]
  unfold takeBit
  rw [upd_of_ne]
  unfold DATA at h1
  unfold NDATA at hb
  omega

theorem takeBit_upd_of_low (hb : b < NDATA) (hc : c < DATA) (hmap : ¬ (1 ≤ c ∧ c < 33)) :
    upd (takeBit s.disk b) (DATA + b) (fill val) c = s.disk c := by
  rw [upd_of_ne (by omega)]
  unfold takeBit
  rw [upd_of_ne]
  unfold NDATA at hb
  omega

section

variable (h : BlockInv s ino loose) (hd : ino n = some d)
include h hd

/-- The pointer held a block. -/
theorem Mapped.of_some (hk : (s.mem.inodes k).d = d) (hp : ptr s.disk d l = some b) :
    Mapped ino loose k n l s d (some b) s d := by
  refine ⟨.refl hk, ?_, hp, fun _ _ => rfl, by rw [if_pos hp, Nat.add_zero], nofun, ?_⟩
  · rw [← hd, upd_eq_self]
    exact h
  · intro b' hb'
    rw [hp] at hb'
    exact ⟨hb', rfl, rfl⟩

/-- There was no block to be had. -/
theorem Mapped.of_full (hk : (s.mem.inodes k).d = d) (hp : ptr s.disk d l = none)
    (hfull : Full s.disk) :
    Mapped ino loose k n l s d none s.setFull d := by
  have hi : { s.mem.inodes k with d := d } = s.mem.inodes k := by rw [← hk]
  refine ⟨⟨⟨?_, rfl, fun _ => rfl, fun _ _ => id, fun _ _ _ => rfl, fun _ _ _ _ _ _ _ => rfl⟩,
    fun _ => rfl⟩, ?_, hp, fun _ _ => rfl, by rw [if_pos hp, Nat.add_zero, Store.setFull_disk],
    fun _ => ⟨hfull, rfl⟩, ?_⟩
  · rw [hi, upd_eq_self]
    rfl
  · rw [← hd, upd_eq_self]
    exact { h with }
  · intro b' hb'
    rw [hp] at hb'
    cases hb'

/-- **A free block was attached.** The card changed in the map, in the new
block and in index blocks of the inode at most. -/
theorem Mapped.of_attach (hb : b < NDATA) (hbit : mapBit s.disk b = false)
    (hnone : ptr s.disk d l = none) (hmem : t.mem = { s.mem with
      inodes := upd s.mem.inodes k { s.mem.inodes k with d := d' }
      superblock := { s.mem.superblock with used_block := s.mem.superblock.used_block + 1 } })
    (hfields : d' = { d with
      direct := d'.direct
      indirect := d'.indirect
      double_indirect := d'.double_indirect }) (hptr : ptr t.disk d' = upd (ptr s.disk d) l (some (DATA + b)))
    (hdisk : ∀ c, (∀ l', l'.isIndex = true → ptr s.disk d l' ≠ some c) →
      t.disk c = upd (takeBit s.disk b) (DATA + b) (fill (newFill l)) c) :
    Mapped ino loose k n l s d (some (DATA + b)) t d' := by
  have hnot := not_taken_of_bit hbit
  have hfree : ∀ {c}, ¬ Taken s.disk c → t.disk c = upd (takeBit s.disk b) (DATA + b)
    (fill (newFill l)) c := fun hc =>
    hdisk _ fun l' _ hp => hc (h.taken hd hp)
  have hlow : ∀ {c}, c < DATA → t.disk c = upd (takeBit s.disk b) (DATA + b)
    (fill (newFill l)) c := fun hc =>
    hfree fun ht => absurd ht.1 (Nat.not_le.mpr hc)
  have hbits : ∀ x < NDATA, mapBit t.disk x = mapBit (takeBit s.disk b) x := by
    intro x hx
    have hmap := hlow (c := 1 + x / 32768) (by unfold DATA; unfold NDATA at hx; omega)
    exact (congrArg (bit · _) hmap).trans (mapBit_upd (by unfold DATA; omega) hx)
  have hsame : ∀ c, Taken s.disk c → (∀ l', l'.isIndex = true → ptr s.disk d l' ≠ some c) →
    t.disk c = s.disk c :=
    fun c hc hidx => (hdisk c hidx).trans (takeBit_upd_of_taken hbit hb hc)
  have htaken : ∀ x, Taken t.disk x ↔ x = DATA + b ∨ Taken s.disk x := by
    intro x
    rw [← taken_takeBit hb]
    unfold Taken
    refine and_congr_right fun h1 => and_congr_right fun h2 => ?_
    rw [hbits (x - DATA) (by omega)]
  have hcard : (takenBits t.disk).card = (takenBits s.disk).card + 1 := by
    rw [← card_takenBits_takeBit hb hbit]
    exact congrArg Finset.card
      (Finset.filter_congr fun x hx => by rw [hbits x (Finset.mem_range.mp hx)])
  have hothers : ∀ m dm, m ≠ n → ino m = some dm → ∀ l b, ptr s.disk dm l = some b →
      t.disk b = s.disk b := by
    intro m dm hm hdm l' c hp
    exact hsame c (h.taken hdm hp) fun l'' _ hc => hm (h.inj hdm hd hp hc).1
  have hblock : ∀ i, fileBlock t.disk d' i = fileBlock s.disk d i := by
    intro i
    unfold fileBlock blockAt
    rw [hptr]
    cases hl : Loc.data i with
    | none => rfl
    | some l' =>
      have hdata := Loc.data_not_index hl
      by_cases hll : l' = l
      · subst hll
        simp only [Option.bind_some, upd_self, hnone, hfree hnot, newFill, hdata]
        rfl
      · simp only [Option.bind_some, upd_of_ne hll]
        cases hp : ptr s.disk d l' with
        | none => rfl
        | some c =>
          -- a data block is no index block
          refine hsame c (h.taken hd hp) fun l'' hidx hc => ?_
          obtain rfl := (h.inj hd hd hp hc).2
          rw [hdata] at hidx
          cases hidx
  refine ⟨⟨⟨?_, hfields, ?_, ?_, fun c hc hmap => (hlow hc).trans (takeBit_upd_of_low hb hc hmap),
    hothers⟩, hblock⟩, ⟨?_, ?_, ?_⟩, ?_, ?_, ?_, by simp, ?_⟩
  · rw [hmem]
  · intro hf
    rw [hmem]
    exact hf
  · intro l' c hp
    rw [hptr, upd_of_ne (fun he => by rw [he, hnone] at hp; cases hp)]
    exact hp
  · rw [hmem]
    exact h.geo.set_used_block _
  · have hattach := (h.owners.take hnot).attach (a := (n, l)) (b := DATA + b)
      (by rw [ptrs_of_some hd, hnone]) (.inl rfl)
    refine hattach.congr htaken (fun a => ptrs_attach hd hptr ?_ a) fun x => ?_
    · intro m dm hm hdm
      exact ptr_congr fun l' c _ hp => hothers m dm hm hdm l' c hp
    · constructor
      · intro hx
        refine ⟨?_, .inr hx⟩
        rintro rfl
        exact hnot ((h.owners.taken_iff _).mpr (.inr hx))
      · rintro ⟨hne, he | hx⟩
        · exact absurd he hne
        · exact hx
  · rw [hcard, ← h.used, hmem]
    have hle := card_takenBits_le s.disk
    rw [← h.used] at hle
    unfold NDATA at hle
    change (s.mem.superblock.used_block + 1).toNat = _
    rw [UInt32.toNat_add]
    exact Nat.mod_eq_of_lt (by simp only [UInt32.toNat_one]; omega)
  · rw [hptr, upd_self]
  · intro l' hl'
    rw [hptr, upd_of_ne hl']
  · rw [hcard, hnone, if_neg (by simp)]
  · intro c hc
    rw [hnone] at hc
    cases hc

/-! ## The programs that attach -/

end

variable {E : Halt → Prop}

theorem wp_blockAllocset (hgeo : Geo s.mem.superblock) : wp E (blockAllocset val) (fun r t =>
      (∃ b < NDATA, r = some (DATA + b) ∧ mapBit s.disk b = false ∧
        t = ⟨{ s.mem with
          superblock := { s.mem.superblock with
            used_block := s.mem.superblock.used_block + 1 } },
          upd (takeBit s.disk b) (DATA + b) (fill val)⟩) ∨
      (r = none ∧ Full s.disk ∧ t = s.setFull)) s := by
  unfold blockAllocset
  refine wp_then (wp_blockAlloc hgeo) ?_
  rintro r t (⟨b, hb, rfl, hbit, rfl⟩ | ⟨rfl, hfull, rfl⟩)
  · simp only [wp_bind, wp_blockMemset, wp_pure]
    exact .inl ⟨b, hb, rfl, hbit, rfl⟩
  · exact .inr ⟨rfl, hfull, rfl⟩

theorem lt_of_lt_NDATA (hb : b < NDATA) : DATA + b < 2 ^ 31 := by
  unfold DATA
  unfold NDATA at hb
  omega

/-- **A pointer of the inode itself** is looked up, and given a block if it
has none. -/
theorem wp_inodeEntry (h : BlockInv s ino loose) (hd : ino n = some d)
    (hk : (s.mem.inodes k).d = d) (hl : l.up = none) {w : UInt32}
    {f : ℕ → DiskInode → DiskInode} (hw : w = d.top l) (hval : val = newFill l)
    (hf : ∀ b d, f b d = d.setTop l (UInt32.ofNat b)) :
    wp E (inodeEntry k w val f) (fun r t => ∃ d', Mapped ino loose k n l s d r t d') s := by
  subst hw hval
  have htop : ptr s.disk d l = ptrVal (d.top l) := ptr_top hl
  unfold inodeEntry
  rw [← htop]
  cases hnone : ptr s.disk d l with
  | some b => exact ⟨d, .of_some h hd hk hnone⟩
  | none =>
    refine wp_then (wp_blockAllocset h.geo) ?_
    rintro r t (⟨b, hb, rfl, hbit, rfl⟩ | ⟨rfl, hfull, rfl⟩)
    · simp only [wp_bind, wp_modifyDisk, wp_pure, hf, hk]
      refine ⟨_, .of_attach h hd hb hbit hnone rfl ?_ ?_ fun _ _ => rfl⟩
      · cases l <;> rfl
      · refine ptr_setTop hl hnone (lt_of_lt_NDATA hb) ?_ ?_
        · intro l' c _ hp
          exact takeBit_upd_of_taken hbit hb (h.taken hd hp)
        · simp only [Store.setInode_disk, upd_self]
          exact freshFor_newFill
    · exact ⟨d, .of_full h hd hk hnone hfull⟩

/-- **An entry of an index block** is looked up, and given a block if it has
none. -/
theorem wp_indexEntry (h : BlockInv s ino loose) (hd : ino n = some d)
    (hk : (s.mem.inodes k).d = d) {p : Loc} {j : Fin 1024} {blk i : ℕ}
    (hl : l.up = some (p, j)) (hp : ptr s.disk d p = some blk) (hi : i = j) (hv : val = newFill l) :
    wp E (indexEntry blk i val) (fun r t => ∃ d', Mapped ino loose k n l s d r t d') s := by
  subst hi hv
  have hval : ptr s.disk d l = ptrVal (word (s.disk blk) j) := by
    rw [ptr_of_up hl, hp]
    rfl
  unfold indexEntry
  simp only [wp_bind, wp_blockData]
  cases hw : ptrVal (word (s.disk blk) j) with
  | some b => exact ⟨d, .of_some h hd hk (hval.trans hw)⟩
  | none =>
    have hnone := hval.trans hw
    refine wp_then (wp_blockAllocset h.geo) ?_
    rintro r t (⟨b, hb, rfl, hbit, rfl⟩ | ⟨rfl, hfull, rfl⟩)
    · have hblk := h.taken hd hp
      have hne : DATA + b ≠ blk := fun he => not_taken_of_bit hbit (he ▸ hblk)
      have hi : { s.mem.inodes k with d := d } = s.mem.inodes k := by rw [← hk]
      simp only [wp_bind, wp_blockData, wp_setBlockData, wp_pure,
        takeBit_upd_of_taken hbit hb hblk]
      refine ⟨d, .of_attach h hd hb hbit hnone ?_ rfl ?_ fun c hidx => ?_⟩
      · rw [hi, upd_eq_self]
        rfl
      · refine ptr_setEntry hl hp hnone (lt_of_lt_NDATA hb) ?_ ?_ ?_ ?_
        · intro l' hl'
          exact (h.inj hd hd hl' hp).2
        · intro l' c _ hc hcb
          rw [Store.setBlock_disk, upd_of_ne hcb]
          exact takeBit_upd_of_taken hbit hb (h.taken hd hc)
        · intro i
          rw [Store.setBlock_disk, upd_self]
          by_cases hij : i = j
          · rw [if_pos hij, hij, word_setWord_self]
          · rw [if_neg hij, word_setWord_of_ne (fun he => hij (Fin.ext he))]
        · simp only [Store.setBlock_disk, upd_of_ne hne, upd_self]
          exact freshFor_newFill
      · rw [Store.setBlock_disk, upd_of_ne]
        rintro rfl
        exact hidx p (Loc.isIndex_of_up hl) hp
    · exact ⟨d, .of_full h hd hk hnone hfull⟩

/-! ## `inode_mapblock` -/

/-- The pointers on the way to one, itself the last. -/
def Loc.path : Loc → List Loc
  | .indEnt j => [.ind, .indEnt j]
  | .dblEnt j => [.dbl, .dblEnt j]
  | .leaf i j => [.dbl, .dblEnt i, .leaf i j]
  | .direct i => [.direct i]
  | .ind => [.ind]
  | .dbl => [.dbl]

/-- How many of the pointers hold nothing. -/
def missing (disk : ℕ → Block) (d : DiskInode) (ls : List Loc) : ℕ :=
  ls.countP fun l => (ptr disk d l).isNone

/-- The pointers of `ls` were looked up one after another, down to `l`. -/
structure MappedPath (ino : ℕ → Option DiskInode) (loose : ℕ → Prop) (k n : ℕ) (ls : List Loc)
    (l : Loc) (s : FS) (d : DiskInode) (r : Option ℕ) (t : FS) (d' : DiskInode) : Prop where
  grown : Grown ino k n s d t d'
  inv : BlockInv t (upd ino n (some d')) loose
  res : ptr t.disk d' l = r
  other : ∀ l' ∉ ls, ptr t.disk d' l' = ptr s.disk d l'
  cost : r ≠ none → (takenBits t.disk).card = (takenBits s.disk).card + missing s.disk d ls
  lack : r = none → (takenBits t.disk).card < (takenBits s.disk).card + missing s.disk d ls
  fail : r = none → Full t.disk ∧ t.mem.full = true
  idle : ∀ b, ptr s.disk d l = some b → r = some b ∧ t = s ∧ d' = d

namespace MappedPath

variable {r : Option ℕ} {ls : List Loc} {p : Loc} {j : Fin 1024}

theorem of_mapped (h : Mapped ino loose k n l s d r t d') :
    MappedPath ino loose k n [l] l s d r t d' := by
  have hone : missing s.disk d [l] = if ptr s.disk d l = none then 1 else 0 := by
    unfold missing
    rw [List.countP_singleton]
    cases ptr s.disk d l <;> rfl
  refine ⟨h.grown, h.inv, h.res, fun l' hl' => h.other l' (by simpa using hl'), ?_, ?_, h.fail,
    h.idle⟩
  · intro hr
    rw [h.cost, hone]
    cases hp : ptr s.disk d l with
    | none => rw [if_neg (Ne.symm hr), if_pos rfl]
    | some b =>
      obtain ⟨rfl, -⟩ := h.idle b hp
      rw [if_pos rfl, if_neg (by simp)]
  · intro hr
    have hp : ptr s.disk d l = none := by
      cases hp : ptr s.disk d l with
      | none => rfl
      | some b =>
        have := (h.idle b hp).1
        rw [hr] at this
        cases this
    rw [h.cost, hone, hp, hr, if_pos rfl, if_pos rfl]
    omega

/-- One level further down. -/
theorem snoc (h : MappedPath ino loose k n ls p s d (some b) t d')
    (hm : Mapped (upd ino n (some d')) loose k n l t d' r u d'') (hl : l.up = some (p, j))
    (hnot : l ∉ ls) : MappedPath ino loose k n (ls ++ [l]) l s d r u d'' := by
  have hlast := of_mapped hm
  have hsame : ptr t.disk d' l = ptr s.disk d l := h.other l hnot
  have hmiss : missing s.disk d (ls ++ [l]) = missing s.disk d ls + missing t.disk d' [l] := by
    unfold missing
    rw [List.countP_append]
    simp only [List.countP_singleton, hsame]
  have hcost := h.cost (by simp)
  refine ⟨h.grown.trans hm.grown, ?_, hm.res, ?_, ?_, ?_, hm.fail, ?_⟩
  · have := hm.inv
    rwa [upd_idem] at this
  · intro l' hl'
    rw [List.mem_append, not_or] at hl'
    rw [hm.other l' (by simpa using hl'.2), h.other l' hl'.1]
  · intro hr
    rw [hlast.cost hr, hcost, hmiss, Nat.add_assoc]
  · intro hr
    have := hlast.lack hr
    rw [hmiss]
    omega
  · intro c hc
    -- a pointer that holds something is under one that does
    have hp : ∃ c', ptr s.disk d p = some c' := by
      rw [ptr_of_up hl] at hc
      cases hp : ptr s.disk d p with
      | none => rw [hp] at hc; cases hc
      | some c' => exact ⟨c', rfl⟩
    obtain ⟨c', hp⟩ := hp
    obtain ⟨-, rfl, rfl⟩ := h.idle c' hp
    exact hm.idle c hc

/-- Nothing further down without the level above. -/
theorem snoc_none (h : MappedPath ino loose k n ls p s d none t d') (hl : l.up = some (p, j)) :
    MappedPath ino loose k n (ls ++ [l]) l s d none t d' := by
  have hnone : ptr t.disk d' l = none := by
    rw [ptr_of_up hl, h.res]
    rfl
  refine ⟨h.grown, h.inv, hnone, fun l' hl' => h.other l' fun hm => hl' (List.mem_append_left _ hm),
    fun hr => absurd rfl hr, fun _ => ?_, h.fail, ?_⟩
  · have := h.lack rfl
    unfold missing at this ⊢
    rw [List.countP_append]
    omega
  · intro c hc
    have := h.grown.mono l c hc
    rw [hnone] at this
    cases this

end MappedPath

/-- **`inode_mapblock`** finds the block of a file, after allocating what is
missing on the way. -/
theorem wp_inodeMapblock (h : BlockInv s ino loose) (hd : ino n = some d)
    (hk : (s.mem.inodes k).d = d) {i : ℕ} (hl : Loc.data i = some l) : wp E (inodeMapblock k i)
      (fun r t => ∃ d', MappedPath ino loose k n l.path l s d r t d') s := by
  unfold inodeMapblock
  simp only [wp_bind, wp_getInode, hk]
  unfold Loc.data at hl
  by_cases h1 : i < 10
  · rw [dif_pos h1] at hl
    obtain rfl := (Option.some.inj hl).symm
    rw [dif_pos h1]
    refine wp_mono (wp_inodeEntry (l := .direct ⟨i, h1⟩) h hd hk rfl rfl rfl fun _ _ => rfl) ?_
    rintro r t ⟨d', hm⟩
    exact ⟨d', .of_mapped hm⟩
  · rw [dif_neg h1] at hl
    rw [dif_neg h1]
    by_cases h2 : i - 10 < 1024
    · rw [dif_pos h2] at hl
      obtain rfl := (Option.some.inj hl).symm
      have h2' : i - NUM_DIRECT_BLOCKS < NUM_INDIRECT_BLOCKS := h2
      rw [if_pos h2', wp_bind]
      refine wp_mono (wp_inodeEntry (l := .ind) h hd hk rfl rfl rfl fun _ _ => rfl) ?_
      rintro r t ⟨d1, hm1⟩
      cases r with
      | none => exact ⟨d1, (MappedPath.of_mapped hm1).snoc_none rfl⟩
      | some blk =>
        simp only [wp_bind, wp_blockOpen]
        refine wp_mono (wp_indexEntry (l := .indEnt ⟨i - 10, h2⟩) hm1.inv upd_self
          (by rw [hm1.grown.inode]) rfl hm1.res rfl rfl) ?_
        rintro r t ⟨d2, hm2⟩
        simp only [wp_blockClose, wp_pure]
        exact ⟨d2, (MappedPath.of_mapped hm1).snoc hm2 rfl (by simp)⟩
    · rw [dif_neg h2] at hl
      split at hl
      · next h3 =>
        obtain rfl := (Option.some.inj hl).symm
        have h2' : ¬ i - NUM_DIRECT_BLOCKS < NUM_INDIRECT_BLOCKS := h2
        have hsub : i - NUM_DIRECT_BLOCKS - NUM_INDIRECT_BLOCKS = i - 1034 := by
          unfold NUM_DIRECT_BLOCKS NUM_INDIRECT_BLOCKS
          omega
        have hlt : i - 1034 < NUM_DOUBLE_INDIRECT_BLOCKS := by
          unfold NUM_DOUBLE_INDIRECT_BLOCKS
          omega
        rw [if_neg h2']
        simp only [wp_bind, hsub, hlt, decide_true, wp_asserts, if_true]
        refine wp_mono (wp_inodeEntry (l := .dbl) h hd hk rfl rfl rfl fun _ _ => rfl) ?_
        rintro r t ⟨d1, hm1⟩
        cases r with
        | none => exact ⟨d1, ((MappedPath.of_mapped hm1).snoc_none (j := ⟨_, h3⟩)
            (l := .dblEnt ⟨_, h3⟩) rfl).snoc_none rfl⟩
        | some root =>
          simp only [wp_bind, wp_blockOpen]
          refine wp_mono (wp_indexEntry (l := .dblEnt ⟨(i - 1034) / 1024, h3⟩) hm1.inv
            upd_self (by rw [hm1.grown.inode]) rfl hm1.res rfl rfl) ?_
          rintro r u ⟨d2, hm2⟩
          have hp2 := (MappedPath.of_mapped hm1).snoc hm2 rfl (by simp)
          cases r with
          | none =>
            simp only [wp_bind, wp_blockClose, wp_pure]
            exact ⟨d2, hp2.snoc_none rfl⟩
          | some blk =>
            have hi : ((i - 1034) % 1024) < 1024 := Nat.mod_lt _ (by omega)
            simp only [wp_bind, wp_blockOpen]
            refine wp_mono (wp_indexEntry
              (l := .leaf ⟨(i - 1034) / 1024, h3⟩ ⟨(i - 1034) % 1024, hi⟩) hp2.inv
              upd_self (by rw [hp2.grown.inode]) rfl hp2.res rfl rfl) ?_
            rintro r w ⟨d3, hm3⟩
            simp only [wp_blockClose, wp_pure]
            exact ⟨d3, hp2.snoc hm3 rfl (by simp)⟩
      · cases hl

end OsLab
