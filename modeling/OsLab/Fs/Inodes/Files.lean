import OsLab.Fs.Inodes.Slots
/-!
# Reading and writing a cached inode

`inode_read` and `inode_write` on a slot that has its inode, in terms of `InodeInv`. A read may give
the inode blocks where it has holes; a write also changes the bytes of its range and the size, and
copies the slot to the table. -/

namespace OsLab

open Prog Bytes

variable {s t u : FS} {ino : ℕ → Option DiskInode} {R : Multiset Ref} {L : Finset ℕ} {k n : ℕ}
  {d d' d'' : DiskInode} {W : Prop}

/-! ## A change of one file -/

/-- The memory outside the inode cache and the superblock is unchanged, up to the note that the card
is full, and so are the blocks of the inodes other than `n` and the table, up to the disk inode `n`.
-/
structure Elsewhere (ino : ℕ → Option DiskInode) (n : ℕ) (s t : FS) : Prop where
  mem : t.mem = { s.mem with
    inodes := t.mem.inodes, superblock := t.mem.superblock, full := t.mem.full }
  full : s.mem.full = true → t.mem.full = true
  others : ∀ m dm, m ≠ n → ino m = some dm → SameBlocks s.disk t.disk dm
  types : ∀ m < NUM_INODES, (tableAt t.disk m).type = 0 ↔ (tableAt s.disk m).type = 0

theorem Touched.elsewhere (h : Touched ino k n s d t d') : Elsewhere ino n s t := by
  refine ⟨?_, h.full, fun m dm hm hdm l b hp => h.others m dm hm hdm l b hp, fun m hm => ?_⟩
  · rw [h.mem]
  · rw [tableAt_congr hm fun b h1 h2 => h.low b h2 (by omega)]

/-- The pointers of a loaded inode changed. -/
theorem InodeInv.touched (h : InodeInv s ino R L none) (hk : (k, n) ∈ R) (hd : ino n = some d)
    (ht : Touched ino k n s d t d') (hb : BlockInv t (upd ino n (some d')) fun _ => False) :
    InodeInv t (upd ino n (some d')) R L none := by
  refine ⟨hb, h.cache.modified hk hd (by rw [ht.fields]) (by rw [ht.fields]) (by rw [ht.mem])
    (fun m hm => tableAt_congr hm fun b h1 h2 => ht.low b h2 (by omega)) (by rw [ht.mem])⟩

/-! ## Reading -/

/-- What `inode_read` does: nothing outside the file, or a copy of at most what the file has. -/
structure FileRead (ino : ℕ → Option DiskInode) (R : Multiset Ref) (L : Finset ℕ) (k n : ℕ)
    (dest : Bytes) (offset length : ℕ) (s : FS) (d : DiskInode) (r : ℕ × Bytes) (t : FS)
    (d' : DiskInode) : Prop where
  inv : InodeInv t (upd ino n (some d')) R L none
  grown : Grown ino k n s d t d'
  outside : d.size.toNat < offset ∨ 2 ^ 32 ≤ offset + length → r = (0, dest) ∧ t = s ∧ d' = d
  inside : offset ≤ d.size.toNat → offset + length < 2 ^ 32 →
    Read ino (fun _ => False) k n (min length (d.size.toNat - offset)) offset 0 dest s d r t d'

variable {H : Halt → Prop} {offset : ℕ}

/-- **`inode_read`.** -/
theorem wp_inodeRead (h : InodeInv s ino R L none) (hk : (k, n) ∈ R) (hd : ino n = some d)
    (htype : d.type ≠ FS_TYPE_DEV) (dest : Bytes) (offset length : ℕ) :
    wp H (inodeRead k dest offset length) (fun r t => ∃ d', FileRead ino R L k n dest offset length s d r t d') s := by
  obtain rfl := h.slot hk hd
  unfold inodeRead
  rw [wp_bind, wp_getInode, if_neg htype]
  split
  · next hout =>
    refine ⟨_, ?_, .refl rfl, fun _ => ⟨rfl, rfl, rfl⟩, fun h1 h2 => absurd hout (by omega)⟩
    rw [← hd, upd_eq_self]
    exact h
  · next hin =>
    have hlen : (if (s.mem.inodes k).d.size.toNat < offset + length then (s.mem.inodes k).d.size.toNat - offset
        else length) = min length ((s.mem.inodes k).d.size.toNat - offset) := by
      split <;> omega
    rw [hlen]
    refine wp_mono (wp_inodeReadLoop h.blocks hd rfl (Nat.zero_le _) (by omega) (by omega)) ?_
    rintro r t ⟨d', hr⟩
    exact ⟨d', h.touched hk hd hr.grown.toTouched hr.inv, hr.grown, fun hout => absurd hout hin, fun _ _ => hr⟩

/-- Reading what is mapped changes nothing. -/
theorem wp_inodeRead_mapped (h : InodeInv s ino R L none) (hk : (k, n) ∈ R) (hd : ino n = some d)
    (htype : d.type ≠ FS_TYPE_DEV) {dest : Bytes} {length : ℕ}
    (hsize : offset + length ≤ d.size.toNat)
    (hmapped : ∀ p, offset ≤ p → p < offset + length → need s.disk d (p / 4096) = 0) :
    wp (Stops W) (inodeRead k dest offset length) (fun r t => t = s ∧ r.1 = length ∧
      ∀ x < length, r.2 x = byteAt s.disk d (offset + x)) s := by
  refine wp_mono (wp_inodeRead h hk hd htype dest offset length) ?_
  rintro r t ⟨d', hr⟩
  have hlt := d.size.toNat_lt
  have hread := hr.inside (by omega) (by omega)
  have hmin : min length (d.size.toNat - offset) = length := by omega
  rw [hmin] at hread
  obtain ⟨hall, rfl, -⟩ := hread.idle fun p h1 h2 => hmapped p h1 (by omega)
  refine ⟨rfl, hall, fun x hx => ?_⟩
  rw [hread.bytes, if_pos ⟨Nat.zero_le x, by omega⟩, Nat.sub_zero]

/-! ## Writing -/

/-- What `inode_write` does: `r` bytes of the buffer are copied, and the disk inode is written. -/
structure FileWrote (ino : ℕ → Option DiskInode) (R : Multiset Ref) (L : Finset ℕ) (k n : ℕ)
    (src : Bytes) (offset length : ℕ) (s : FS) (d : DiskInode) (r : ℕ) (t : FS) (d' : DiskInode) :
    Prop where
  inv : InodeInv t (upd ino n (some d')) R L none
  elsewhere : Elsewhere ino n s t
  synced : tableAt t.disk n = d'
  type : d'.type = d.type
  link_count : d'.link_count = d.link_count
  inode_num : d'.inode_num = d.inode_num
  size : d'.size.toNat = max d.size.toNat (offset + r)
  le : r ≤ length
  short : r < length → t.mem.full = true
  bytes : ∀ p, byteAt t.disk d' p = if offset ≤ p ∧
    p < offset + r then src (p - offset) else byteAt s.disk d p
  need_le : ∀ i, need t.disk d' i ≤ need s.disk d i
  mapped : ∀ p, offset ≤ p → p < offset + r → need t.disk d' (p / 4096) = 0

variable {length : ℕ} (h : InodeInv s ino R L none) (hk : (k, n) ∈ R) (hd : ino n = some d)
include h hk hd

/-- The end of `inode_write`: the size is raised and the slot is copied to the table. -/
theorem FileWrote.of_wrote {src : Bytes}
    {r : ℕ × ℕ} (hw : Wrote ino (fun _ => False) k n length src offset 0 s d r t d')
    (hlt : offset + r.1 < 2 ^ 32) (hlock : k ∈ L) :
    wp H (do
      let i ← getInode k
      if i.d.size.toNat < r.2 then modifyDisk k fun d => { d with size := UInt32.ofNat r.2 }
      inodeSync k
      pure r.1) (fun a u => a = r.1 ∧ ∃ d', FileWrote ino R L k n src offset length s d a u d') t := by
  have hinv := h.touched hk hd hw.touched hw.inv
  have hslot : t.mem.inodes k = { s.mem.inodes k with d := d' } := hw.touched.inode
  have hstop := hw.stop
  rw [Nat.sub_zero] at hstop
  -- the slot with the size it ends with
  obtain ⟨d'', hd'', hsize, hset⟩ : ∃ d'' : DiskInode, d'' = { d' with size := d''.size } ∧
      d''.size.toNat = max d'.size.toNat r.2 ∧
      ((d'.size.toNat < r.2 ∧ d'' = { d' with size := UInt32.ofNat r.2 }) ∨ (¬ d'.size.toNat < r.2 ∧ d'' = d')) := by
    by_cases hsz : d'.size.toNat < r.2
    · refine ⟨{ d' with size := UInt32.ofNat r.2 }, rfl, ?_, .inl ⟨hsz, rfl⟩⟩
      change (UInt32.ofNat r.2).toNat = _
      rw [UInt32.toNat_ofNat', Nat.mod_eq_of_lt (by omega)]
      omega
    · exact ⟨d', rfl, by omega, .inr ⟨hsz, rfl⟩⟩
  have hptrs : SamePtrs d' d'' := by
    rw [hd'']
    exact ⟨rfl, rfl, rfl⟩
  have hnum : d''.inode_num = d'.inode_num := by rw [hd'']
  have htype : d''.type = d'.type := by rw [hd'']
  have hmod := hinv.modify hk upd_self hptrs hnum htype
  rw [upd_idem] at hmod
  obtain ⟨hn1, hn2, -, hne, -⟩ := hmod.cache.range upd_self
  have hdn := hmod.cache.num hk
  have hlocked := (hmod.cache.slots k (hmod.cache.bound hk)).locked.mpr hlock
  rw [wp_bind, wp_getInode, hslot]
  have hsync : wp H (do inodeSync k; pure r.1)
      (fun a u => a = r.1 ∧ ∃ d', FileWrote ino R L k n src offset length s d a u d')
      (t.setInode k { t.mem.inodes k with d := d'' }) := by
    unfold inodeSync
    simp only [wp_bind, wp_getInode, wp_asserts, hlocked, if_true]
    refine wp_writeBack hmod.blocks.geo hdn ?_
    rw [wp_pure]
    have hself : ((t.setInode k { t.mem.inodes k with d := d'' }).mem.inodes k).d = d'' := by
      rw [Store.setInode_inodes, upd_self]
    rw [hself]
    have hwrite := Steady.setTable hmod.cache upd_self d'' hne
    have htouched := hw.touched.elsewhere
    have hsame : SameBlocks t.disk (setTable t.disk n d'') d'' := by
      refine hmod.blocks.sameBlocks upd_self fun b hb => ?_
      exact tableOnly_setTable hn2 b (.inr hb)
    have hneed : ∀ i, need (setTable t.disk n d'') d'' i = need t.disk d' i := fun i =>
      (hsame.need_eq i).trans (hptrs.need_eq t.disk i)
    refine ⟨rfl, d'', ⟨?_, ?_⟩, ⟨?_, htouched.full, fun m dm hm hdm => ?_, fun m hm => ?_⟩, ?_, ?_,
      ?_, ?_, ?_, hw.le, hw.short,
      fun p => ?_, fun i => ?_, fun p h1 h2 => ?_⟩
    · exact hmod.blocks.congr (tableOnly_setTable hn2) hmod.blocks.geo rfl fun _ => rfl
    · refine ⟨hmod.cache.slots, hmod.cache.bound, hmod.cache.lock_bound, hmod.cache.pend_bound, hmod.cache.uniq,
        fun {m dm} hm => ?_, fun {m dm} hm hall => ?_, hmod.cache.used⟩
      · obtain ⟨h1, h2, h3, h4, h5⟩ := hmod.cache.range hm
        exact ⟨h1, h2, h3, h4, fun he => h5 ((hwrite.types m h2).mp he)⟩
      · have hmn : m ≠ n := by
          rintro rfl
          exact absurd (hall k hk) (by simp)
        simp only [tableAt_setTable_of_ne hmn]
        exact hmod.cache.table hm hall
    · simp only [Store.setInode]
      rw [htouched.mem]
    · refine (htouched.others m dm hm hdm).trans ?_
      refine hmod.blocks.sameBlocks (n := m) ?_ fun b hb => tableOnly_setTable hn2 b (.inr hb)
      rw [upd_of_ne hm]
      exact hdm
    · exact (hwrite.types m hm).trans (htouched.types m hm)
    · exact tableAt_setTable_self
    · rw [htype, hw.touched.fields]
    · rw [hd'', hw.touched.fields]
    · rw [hnum, hw.touched.fields]
    · have hs : d'.size = d.size := by rw [hw.touched.fields]
      rw [hsize, hs, hstop]
    · refine ((hsame.byteAt_eq p).trans (hptrs.byteAt_eq t.disk p)).trans ?_
      rw [hw.bytes, hstop, Nat.zero_add]
    · exact (hneed i).le.trans (hw.touched.need_le i)
    · exact (hneed _).trans (hw.mapped p h1 (by omega))
  rcases hset with ⟨hsz, rfl⟩ | ⟨hsz, rfl⟩
  · rw [if_pos hsz, wp_bind, wp_modifyDisk]
    rw [hslot] at hsync
    rw [hslot]
    exact hsync
  · have hsame : { t.mem.inodes k with d := d'' } = t.mem.inodes k := by rw [hslot]
    have hstate : t.setInode k (t.mem.inodes k) = t := by
      unfold Store.setInode
      rw [upd_eq_self]
    rw [hsame, hstate] at hsync
    rw [if_neg hsz]
    exact hsync

/-- **`inode_write`** of a range below `2^32`, or one that starts in reach. -/
theorem wp_inodeWrite (htype : d.type ≠ FS_TYPE_DEV) (hlock : k ∈ L) (src : Bytes)
    (hwrap : offset + length < 2 ^ 32 ∨ Reached s.disk d offset) :
    wp H (inodeWrite k src offset length)
      (fun r t => ∃ d', FileWrote ino R L k n src offset length s d r t d') s := by
  obtain rfl := h.slot hk hd
  unfold inodeWrite
  rw [wp_bind, wp_getInode, if_neg htype, wp_bind]
  refine wp_mono (wp_inodeWriteLoop h.blocks hd rfl length (Nat.zero_le _) (by omega) hwrap) ?_
  rintro r t ⟨d', hw⟩
  refine wp_mono (FileWrote.of_wrote h hk hd hw ?_ hlock) fun _ _ hu => hu.2
  have hle := hw.le
  have hstop := hw.stop
  rcases hwrap with hlt | hr
  · omega
  · have := hw.inv.reached_lt upd_self (hw.reached hr)
    omega

/-- A write within one block writes all or nothing. -/
theorem wp_inodeWrite_block (htype : d.type ≠ FS_TYPE_DEV) (hlock : k ∈ L) (src : Bytes)
    (hpos : 0 < length) (hin : offset % 4096 + length ≤ 4096) (hoff : offset + length < 2 ^ 32) :
    wp H (inodeWrite k src offset length)
      (fun r t => ∃ d', FileWrote ino R L k n src offset length s d r t d' ∧
        (r = length ∨ r = 0 ∧ need s.disk d (offset / 4096) ≠ 0)) s := by
  obtain rfl := h.slot hk hd
  unfold inodeWrite
  rw [wp_bind, wp_getInode, if_neg htype, wp_bind]
  refine wp_mono (wp_inodeWriteLoop_block h.blocks hd rfl hpos hin hoff) ?_
  rintro r t ⟨d', hw, hall⟩
  have hle := hw.le
  refine wp_mono (FileWrote.of_wrote h hk hd hw (by omega) hlock) ?_
  rintro a u ⟨rfl, d'', hu⟩
  refine ⟨d'', hu, ?_⟩
  rcases hall with ⟨h1, -⟩ | ⟨h0, hlack⟩
  · exact .inl h1
  · refine .inr ⟨h0, fun hz => ?_⟩
    rw [hz] at hlack
    have := card_takenBits_le s.disk
    omega

end OsLab
