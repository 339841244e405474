import OsLab.Fs.Inodes.Cache
/-!
# Taking and dropping references

The functions of `inode.c` on slots, in terms of `InodeInv`: taking a reference (`inode_ref`),
loading and locking (`inode_open`), unlocking, dropping (`inode_deref`) with the deletion of an
inode whose last reference goes when it has no links, and allocating a new inode. -/

namespace OsLab

open Prog Bytes Multiset

variable {s t : FS} {ino ino' : ℕ → Option DiskInode} {R : Multiset Ref} {L : Finset ℕ}
  {p : Option ℕ} {k n j m : ℕ} {d d' : DiskInode} {i : Inode} {W : Prop}

/-! ## A change of one slot -/

theorem Steady.setInode (s : FS) (k : ℕ) (i : Inode) : Steady s (s.setInode k i) :=
  ⟨rfl, fun _ _ => rfl, fun _ _ => Iff.rfl⟩

/-- The block map does not depend on the cache. -/
theorem BlockInv.setInode {loose : ℕ → Prop} (h : BlockInv s ino loose) (k : ℕ) (i : Inode) :
    BlockInv (s.setInode k i) ino loose := { h with }

theorem count_cons_of_ne (h : j ≠ k) : ((k, n) ::ₘ R).count (j, m) = R.count (j, m) :=
  Multiset.count_cons_of_ne (fun he => h (Prod.mk.inj he).1) R

/-- What a slot that is referenced holds. -/
theorem InodeInv.slot (h : InodeInv s ino R L none) (hk : (k, n) ∈ R) (hd : ino n = some d) :
    (s.mem.inodes k).d = d :=
  Option.some.inj ((h.cache.loaded hk nofun).2.symm.trans hd)

/-! ## Taking a reference -/

/-- The slot has the inode, loaded and referenced. -/
def HasInode (m : Mem) (n k : ℕ) : Prop :=
  (m.inodes k).d.type ≠ 0 ∧ (m.inodes k).d.inode_num.toNat = n ∧ 0 < (m.inodes k).ref_count

/-- What the search of `inode_ref` knows after the slots from `i` to `i + fuel`. -/
def Searched (m : Mem) (n fuel i : ℕ) (empty : Option ℕ) : Option ℕ × Option ℕ → Prop
  | (some k, _) => k < i + fuel ∧ HasInode m n k
  | (none, some k) => (∀ j, i ≤ j → j < i + fuel → ¬ HasInode m n j) ∧
      (empty = some k ∨ k < i + fuel ∧ (m.inodes k).d.type = 0)
  | (none, none) => True

/-- A slot that does not have the inode comes before those searched. -/
theorem Searched.cons {m : Mem} {fuel i : ℕ} {empty empty' : Option ℕ} {r : Option ℕ × Option ℕ}
    (h : Searched m n fuel (i + 1) empty' r) (hi : ¬ HasInode m n i)
    (hempty : empty' = empty ∨ empty' = some i ∧ (m.inodes i).d.type = 0) :
    Searched m n (fuel + 1) i empty r := by
  match r, h with
  | (some k, _), h => exact ⟨by have := h.1; omega, h.2⟩
  | (none, none), _ => trivial
  | (none, some k), ⟨hnone, hk⟩ =>
    refine ⟨fun j hij hj => ?_, ?_⟩
    · rcases Nat.eq_or_lt_of_le hij with rfl | hlt
      · exact hi
      · exact hnone j hlt (by omega)
    · rcases hk with hk | hk
      · rcases hempty with rfl | ⟨rfl, htype⟩
        · exact .inl hk
        · cases hk
          exact .inr ⟨by omega, htype⟩
      · exact .inr ⟨by omega, hk.2⟩

theorem searched_findSlot (m : Mem) (n fuel i : ℕ) (empty : Option ℕ) :
    Searched m n fuel i empty (findSlot m.inodes n fuel i empty) := by
  induction fuel generalizing i empty with
  | zero =>
    cases empty with
    | none => trivial
    | some k => exact ⟨fun j h h' => absurd h' (by omega), .inl rfl⟩
  | succ fuel ih =>
    unfold findSlot
    split
    case isTrue hi => exact ⟨by omega, hi⟩
    case isFalse hi =>
      split
      case isTrue h => exact (ih (i + 1) (some i)).cons hi (.inr ⟨rfl, h.1⟩)
      case isFalse => exact (ih (i + 1) empty).cons hi (.inl rfl)

/-- A reference to inode `n` was taken: it is to slot `k`. -/
structure Referenced (ino : ℕ → Option DiskInode) (R : Multiset Ref) (L : Finset ℕ) (n : ℕ)
    (s : FS) (k : ℕ) (t : FS) : Prop where
  inv : InodeInv t ino ((k, n) ::ₘ R) L (if (k, n) ∈ R then none else some k)
  steady : Steady s t
  disk : t.disk = s.disk

/-- The slot that has the inode gets one more reference. -/
theorem Referenced.found (h : InodeInv s ino R L none) (hk : k < NINODE) (hhas : HasInode s.mem n k)
    (hroom : R.count (k, n) < 65535) :
    Referenced ino R L n s k (s.setInode k { s.mem.inodes k with ref_count := (s.mem.inodes k).ref_count + 1 }) := by
  obtain ⟨htype, hnum, -⟩ := hhas
  obtain ⟨m, hm, -⟩ := h.cache.ref_of_type hk htype
  obtain rfl : n = m := hnum.symm.trans (h.cache.num hm)
  have hslot := h.cache.slots k hk
  refine ⟨⟨h.blocks.setInode _ _, ?_⟩, .setInode _ _ _, rfl⟩
  rw [if_pos hm]
  refine h.cache.of_slot (k := k) (fun j hj => upd_of_ne hj) (fun j m hj => count_cons_of_ne hj)
    (fun _ _ => Iff.rfl) (fun _ _ => Iff.rfl)
    (fun _ _ _ _ => rfl) hk ?_ ?_ h.cache.range ?_ h.cache.used
  · have hthe : ∀ {m}, (k, m) ∈ (k, n) ::ₘ R → m = n ∧ (k, m) ∈ R := by
      intro m hmem
      rcases mem_cons.mp hmem with he | hmem
      · cases he
        exact ⟨rfl, hm⟩
      · exact ⟨(h.cache.num hmem).symm.trans hnum, hmem⟩
    rw [Store.setInode_inodes, upd_self]
    refine ⟨fun hmem => hslot.num (hthe hmem).2, fun hmem => ?_, fun hmem => hslot.loaded (hthe hmem).2, nofun,
      fun hnone => absurd (mem_cons_self _ _) (hnone n), hslot.locked, fun hl => ?_⟩
    · obtain ⟨rfl, -⟩ := hthe hmem
      rw [count_cons_self, ← hslot.count hm, UInt16.toNat_add]
      rw [← hslot.count hm] at hroom
      exact Nat.mod_eq_of_lt (by rw [UInt16.toNat_one]; omega)
    · exact ⟨nofun, n, mem_cons_self _ _⟩
  · intro j m hj hjm hkm
    rcases mem_cons.mp hkm with he | hkm
    · cases he
      exact hj (h.cache.uniq hjm hm)
    · exact hj (h.cache.uniq hjm hkm)
  · intro m dm hdm hall
    refine h.cache.table hdm fun j hj => ?_
    exact hall j (mem_cons_of_mem hj)

/-- A slot without a type is taken for the inode, which no slot has. -/
theorem Referenced.fresh (h : InodeInv s ino R L none) (hk : k < NINODE) (hn : ino n = some d)
    (htype : (s.mem.inodes k).d.type = 0) (hnone : ∀ j < NINODE, ¬ HasInode s.mem n j) :
    Referenced ino R L n s k (s.setInode k { s.mem.inodes k with
      d := { (s.mem.inodes k).d with inode_num := UInt32.ofNat n }, ref_count := 1, valid := false }) := by
  have hslot := h.cache.slots k hk
  obtain ⟨-, hlt, -⟩ := h.cache.range hn
  have hunref : ∀ m, (k, m) ∉ R := by
    intro m hm
    obtain ⟨-, hino⟩ := h.cache.loaded hm nofun
    exact (h.cache.range hino).2.2.2.1 htype
  have hnot : ∀ j, (j, n) ∉ R := by
    intro j hj
    obtain ⟨-, hino⟩ := h.cache.loaded hj nofun
    refine hnone j (h.cache.bound hj) ⟨(h.cache.range hino).2.2.2.1, h.cache.num hj, ?_⟩
    have hcount := h.cache.count hj
    have hpos := count_pos.mpr hj
    rw [UInt16.lt_iff_toNat_lt]
    change 0 < _
    omega
  obtain ⟨c, hclear⟩ := hslot.free hunref
  have hunlocked : k ∉ L := by
    intro hl
    have := hslot.locked.mpr hl
    rw [hclear] at this
    cases this
  have hthe : ∀ {m}, (k, m) ∈ (k, n) ::ₘ R → m = n := by
    intro m hmem
    rcases mem_cons.mp hmem with he | hmem
    · exact (Prod.mk.inj he).2
    · exact absurd hmem (hunref m)
  have hcount : ((k, n) ::ₘ R).count (k, n) = 1 := by
    rw [count_cons_self, count_eq_zero_of_notMem (hunref n)]
  refine ⟨⟨h.blocks.setInode _ _, ?_⟩, .setInode _ _ _, rfl⟩
  rw [if_neg (hunref n)]
  refine h.cache.of_slot (k := k) (fun j hj => upd_of_ne hj) (fun j m hj => count_cons_of_ne hj)
    (fun _ _ => Iff.rfl) (fun j hj => ?_)
    (fun _ _ _ _ => rfl) hk ?_ ?_ h.cache.range ?_ h.cache.used
  · simp [Ne.symm hj]
  · rw [Store.setInode_inodes, upd_self]
    refine ⟨fun hmem => ?_, fun hmem => ?_, fun _ hp => absurd rfl hp, fun _ => ⟨rfl, htype, n, hcount, by simp [hn]⟩,
      fun hnone => absurd (mem_cons_self _ _) (hnone n), ?_, fun hl => absurd hl hunlocked⟩
    · rw [hthe hmem]
      change (UInt32.ofNat n).toNat = n
      rw [UInt32.toNat_ofNat']
      unfold NUM_INODES at hlt
      exact Nat.mod_eq_of_lt (by omega)
    · rw [hthe hmem, hcount]
      rfl
    · exact hslot.locked
  · intro j m hj hjm hkm
    rw [hthe hkm] at hjm
    exact hnot j hjm
  · intro m dm hdm hall
    refine h.cache.table hdm fun j hj => ?_
    have hjk := hall j (mem_cons_of_mem hj)
    cases hjk
    exact absurd hj (hunref m)

/-- **`inode_ref`** of a live inode. -/
theorem wp_inodeRef (h : InodeInv s ino R L none) (hn : ino n = some d)
    (hroom : ∀ k, R.count (k, n) < 65535) :
    wp (Stops W) (inodeRef n) (Referenced ino R L n s) s := by
  have hsearch := searched_findSlot s.mem n NINODE 0 none
  unfold inodeRef
  rw [wp_bind, wp_getMem]
  generalize findSlot s.mem.inodes n NINODE 0 none = found at hsearch
  rcases found with ⟨_ | k, _ | k'⟩
  · exact .inr (.inl rfl)
  · obtain ⟨hnone, hk⟩ := hsearch
    obtain ⟨hlt, htype⟩ := hk.resolve_left (by simp)
    exact .fresh h (by simpa using hlt) hn htype fun j hj => hnone j (Nat.zero_le j) (by omega)
  all_goals exact .found h (by simpa using hsearch.1) hsearch.2 (hroom k)

/-! ## Loading and locking -/

/-- The inode in slot `k` was locked, and loaded if it was not. -/
structure Locked (ino : ℕ → Option DiskInode) (R : Multiset Ref) (L : Finset ℕ) (s : FS) (k : ℕ)
    (t : FS) : Prop where
  free : k ∉ L
  inv : InodeInv t ino R (insert k L) none
  steady : Steady s t
  disk : t.disk = s.disk

/-- A loaded slot has its inode, and is locked now. -/
theorem Locked.of_slot (h : InodeInv s ino R L p) (hk : (k, n) ∈ R) (hp : p = none ∨ p = some k)
    (hfree : k ∉ L) (hnum : i.d.inode_num.toNat = n)
    (hcount : i.ref_count = (s.mem.inodes k).ref_count) (hvalid : i.valid = true)
    (hd : ino n = some i.d) (hlocked : i.locked = true) :
    Locked ino R L s k (s.setInode k i) := by
  have hlt := h.cache.bound hk
  have hslot := h.cache.slots k hlt
  have hother : ∀ j, j ≠ k → p ≠ some j := by
    rintro j hj rfl
    rcases hp with hp | hp
    · cases hp
    · exact hj (Option.some.inj hp)
  have hthe : ∀ {m}, (k, m) ∈ R → m = n := fun hm => (h.cache.num hm).symm.trans (h.cache.num hk)
  refine ⟨hfree, ⟨h.blocks.setInode _ _, ?_⟩, .setInode _ _ _, rfl⟩
  refine h.cache.of_slot (k := k) (fun j hj => upd_of_ne hj) (fun _ _ _ => rfl)
    (fun j hj => by simp [hj])
    (fun j hj => ⟨nofun, fun he => absurd he (hother j hj)⟩) (fun _ _ _ _ => rfl) hlt ?_ ?_ h.cache.range ?_
    h.cache.used
  · rw [Store.setInode_inodes, upd_self]
    refine ⟨fun hm => hnum.trans (hthe hm).symm, fun hm => ?_, fun hm _ => ?_, nofun, fun hno => absurd hk (hno n), ?_,
      fun _ => ⟨nofun, n, hk⟩⟩
    · rw [hcount]
      exact hslot.count hm
    · rw [hthe hm]
      exact ⟨hvalid, hd⟩
    · simp [hlocked]
  · intro j m hj hjm hkm
    exact hj (h.cache.uniq hjm hkm)
  · intro m dm hdm hall
    exact h.cache.table hdm fun j hj => absurd (hall j hj) nofun

/-- **`inode_open`** of a slot with a reference. -/
theorem wp_inodeOpen (h : InodeInv s ino R L p) (hk : (k, n) ∈ R) (hp : p = none ∨ p = some k)
    (hW : k ∈ L → W) :
    wp (Stops W) (inodeOpen k) (fun _ => Locked ino R L s k) s := by
  have hlt := h.cache.bound hk
  have hslot := h.cache.slots k hlt
  have hnum := hslot.num hk
  unfold inodeOpen mutexAcquire
  simp only [wp_bind, wp_getInode, wp_asserts]
  by_cases hl : (s.mem.inodes k).locked = true
  · rw [hl]
    exact .inr (.inr ⟨rfl, hW (hslot.locked.mp hl)⟩)
  · have hfree : k ∉ L := fun hm => hl (hslot.locked.mpr hm)
    rw [Bool.not_eq_true] at hl
    rw [hl]
    simp only [Bool.not_false, if_true, wp_modifyInode, Store.setInode_inodes, upd_self]
    split
    · next hvalid =>
      have hpk : p ≠ some k := by
        intro hpk
        rw [(hslot.pending hpk).1] at hvalid
        cases hvalid
      exact .of_slot h hk hp hfree hnum rfl hvalid (hslot.loaded hk hpk).2 rfl
    · next hvalid =>
      have hpk : p = some k := by
        by_contra hpk
        exact hvalid (hslot.loaded hk hpk).1
      obtain ⟨d, hd⟩ := h.cache.live hk
      obtain ⟨-, -, hdn, htype, -⟩ := h.cache.range hd
      have hload : diskinodeAt (s.disk (INODE2BLOCK s.mem.superblock n)) (INODE2OFFSET n) = d := by
        unfold INODE2BLOCK
        rw [h.blocks.geo.inode_offset]
        refine h.cache.table hd fun j hj => ?_
        rw [hpk, h.cache.uniq hj hk]
      simp only [wp_bind, wp_getSuperblock, wp_blockOpen, wp_blockData, wp_modifyInode, wp_blockClose, wp_getInode,
        wp_asserts, Store.setInode_inodes, upd_self, Store.setInode_superblock, Store.setInode_disk, hnum, hload, htype,
        ne_eq, not_false_eq_true, decide_true, if_true]
      have hset : (s.setInode k { s.mem.inodes k with locked := true }).setInode k
          { { s.mem.inodes k with locked := true } with d := d, valid := true } =
          s.setInode k { s.mem.inodes k with locked := true, d := d, valid := true } := by
        simp [Store.setInode]
      rw [hset]
      exact .of_slot h hk hp hfree hdn rfl rfl hd rfl

/-- **`inode_unlock`** of a locked slot. -/
theorem wp_inodeUnlock (h : InodeInv s ino R L p) (hk : k ∈ L) :
    wp (Stops W) (inodeUnlock k) (fun _ t => InodeInv t ino R (L.erase k) p ∧ Steady s t ∧ t.disk = s.disk) s := by
  have hlt := h.cache.lock_bound hk
  have hslot := h.cache.slots k hlt
  obtain ⟨hpk, n, hn⟩ := hslot.lock_ref hk
  unfold inodeUnlock
  simp only [wp_bind, wp_getInode, wp_asserts, hslot.locked.mpr hk, if_true, wp_modifyInode]
  refine ⟨⟨h.blocks.setInode _ _, ?_⟩, .setInode _ _ _, rfl⟩
  refine h.cache.of_slot (k := k) (fun j hj => upd_of_ne hj) (fun _ _ _ => rfl)
    (fun j hj => by simp [hj])
    (fun _ _ => Iff.rfl) (fun _ _ _ _ => rfl) hlt ?_ ?_ h.cache.range h.cache.table h.cache.used
  · rw [Store.setInode_inodes, upd_self]
    exact ⟨hslot.num, hslot.count, hslot.loaded, fun he => absurd he hpk, fun hno => absurd hn (hno n), by simp,
      fun hl => absurd hl (by simp)⟩
  · intro j m hj hjm hkm
    exact hj (h.cache.uniq hjm hkm)

/-! ## Dropping a reference -/

/-- The live inodes after a reference to inode `n` went, with the references that are left: an inode
without links goes with its last reference. -/
def dropped (ino : ℕ → Option DiskInode) (n : ℕ) (R : Multiset Ref) : ℕ → Option DiskInode :=
  if (∀ x ∈ R, x.2 ≠ n) ∧ (ino n).any
    (fun d => d.link_count = 0) = true then upd ino n none else ino

/-- A reference to inode `n` was dropped, and `R` are left. -/
structure Released (ino : ℕ → Option DiskInode) (R : Multiset Ref) (L : Finset ℕ) (p : Option ℕ)
    (n : ℕ) (s t : FS) :
    Prop where
  inv : InodeInv t (dropped ino n R) R L p
  steady : Steady s t

/-- The slot that waits to be loaded, after slot `k` was given up. -/
def pendWithout (p : Option ℕ) (k : ℕ) : Option ℕ := if p = some k then none else p

@[simp] theorem pendWithout_self : pendWithout (some k) k = none := if_pos rfl

/-- A slot that was referred to may have to be loaded. -/
theorem pend_or (c : Prop) [Decidable c] (k : ℕ) :
    (if c then none else some k) = none ∨ (if c then none else some k) = some k := by
  split
  · exact .inl rfl
  · exact .inr rfl

/-- Once it is given up, nothing waits. -/
theorem pendWithout_or (h : p = none ∨ p = some k) : pendWithout p k = none := by
  rcases h with rfl | rfl
  · rfl
  · exact pendWithout_self

theorem pendWithout_of_ne (h : p ≠ some k) : pendWithout p k = p := if_neg h

theorem pendWithout_eq_some : pendWithout p k = some j ↔ p = some j ∧ j ≠ k := by
  unfold pendWithout
  split
  · next h =>
    rw [h]
    simp only [reduceCtorEq, Option.some.injEq, ne_eq, false_iff, not_and, not_not]
    exact Eq.symm
  · next h =>
    refine ⟨fun hj => ⟨hj, ?_⟩, fun hj => hj.1⟩
    rintro rfl
    exact h hj

theorem dropped_of_links (hd : ino n = some d) (hl : d.link_count ≠ 0) : dropped ino n R = ino := by
  unfold dropped
  rw [if_neg]
  simp [hd, hl]

theorem dropped_of_mem (hk : (k, n) ∈ R) : dropped ino n R = ino := by
  unfold dropped
  rw [if_neg]
  rintro ⟨hno, -⟩
  exact hno _ hk rfl

theorem wp_writeBack {E : Halt → Prop} {Q : Unit → FS → Prop} (hgeo : Geo s.mem.superblock)
    (hnum : (s.mem.inodes k).d.inode_num.toNat = n)
    (hQ : Q () ⟨s.mem, setTable s.disk n (s.mem.inodes k).d⟩) :
    wp E (writeBack k) Q s := by
  unfold writeBack INODE2BLOCK INODE2OFFSET
  simp only [wp_bind, wp_getSuperblock, wp_getInode, wp_blockOpen, wp_blockData, wp_setBlockData,
    wp_blockClose, hnum,
    hgeo.inode_offset]
  exact hQ

/-- A loaded inode that is live is written back. -/
theorem Steady.setTable (h : Cache s ino R L p) (hd : ino n = some d) (d' : DiskInode)
    (ht : d'.type ≠ 0) :
    Steady s ⟨s.mem, OsLab.setTable s.disk n d'⟩ := by
  obtain ⟨-, hlt, -, -, htype⟩ := h.range hd
  refine ⟨rfl, fun b hb => tableOnly_setTable hlt b (.inr hb), fun m _ => ?_⟩
  by_cases hm : m = n
  · rw [hm, tableAt_setTable_self]
    exact ⟨fun he => absurd he ht, fun he => absurd he htype⟩
  · rw [tableAt_setTable_of_ne hm]

theorem Cache.one (h : Cache s ino R L p) (hm : (k, m) ∈ R) (hk : (k, n) ∈ R) : m = n :=
  (h.num hm).symm.trans (h.num hk)

/-- A slot waits to be loaded with one reference only. -/
theorem Cache.not_pending (h : Cache s ino ((k, n) ::ₘ R) L p) (hmore : (k, n) ∈ R) :
    p ≠ some k := by
  intro hpk
  have hk := mem_cons_self (k, n) R
  obtain ⟨-, -, m, hm, -⟩ := (h.slots k (h.bound hk)).pending hpk
  obtain rfl : m = n := h.one (count_pos.mp (by omega)) hk
  rw [count_cons_self] at hm
  have := count_pos.mpr hmore
  omega

/-- **The slot goes with its last reference.** The inode goes with it, or the table holds it then.
-/
theorem Cache.clear (h : Cache s ino ((k, n) ::ₘ R) L p) (hlast : (k, n) ∉ R) (hfree : k ∉ L)
    (hslots : ∀ j ≠ k, t.mem.inodes j = s.mem.inodes j)
    (hslot : ∃ c, t.mem.inodes k = { Inode.cleared with ref_count := c })
    (hino : ∀ m ≠ n, ino' m = ino m)
    (hn : ∀ {d}, ino' n = some d → ino n = some d ∧ tableAt t.disk n = d)
    (hothers : ∀ m < NUM_INODES, m ≠ n → tableAt t.disk m = tableAt s.disk m)
    (hused : t.mem.superblock.used_inode.toNat = (liveNums ino').card) :
    Cache t ino' R L (pendWithout p k) := by
  have hk := mem_cons_self (k, n) R
  have hunref : ∀ m, (k, m) ∉ R := fun m hm => hlast (h.one (mem_cons_of_mem hm) hk ▸ hm)
  refine h.of_slot (k := k) hslots (fun j m hj => (count_cons_of_ne hj).symm) (fun _ _ => Iff.rfl)
    (fun j hj => ?_)
    (fun j m hj hjm => hino m ?_) (h.bound hk) ?_ (fun j m _ _ hm => hunref m hm) (fun {m dm} hm => ?_)
    (fun {m dm} hm hall => ?_) hused
  · rw [pendWithout_eq_some]
    exact ⟨fun he => he.1, fun he => ⟨he, hj⟩⟩
  · rintro rfl
    exact hj (h.uniq hjm hk)
  · obtain ⟨c, hc⟩ := hslot
    rw [hc]
    exact ⟨fun hm => absurd hm (hunref _), fun hm => absurd hm (hunref _), fun hm => absurd hm (hunref _),
      fun he => absurd rfl (pendWithout_eq_some.mp he).2, fun _ => ⟨c, rfl⟩,
      ⟨nofun, fun hl => absurd hl hfree⟩, fun hl => absurd hl hfree⟩
  · by_cases hmn : m = n
    · subst hmn
      obtain ⟨hm, htab⟩ := hn hm
      obtain ⟨h1, h2, h3, h4, -⟩ := h.range hm
      exact ⟨h1, h2, h3, h4, htab ▸ h4⟩
    · rw [hino m hmn] at hm
      rw [hothers m (h.range hm).2.1 hmn]
      exact h.range hm
  · by_cases hmn : m = n
    · subst hmn
      exact (hn hm).2
    · rw [hino m hmn] at hm
      rw [hothers m (h.range hm).2.1 hmn]
      refine h.table hm fun j hj => ?_
      rcases mem_cons.mp hj with he | hj
      · exact absurd (Prod.mk.inj he).2 hmn
      · exact (pendWithout_eq_some.mp (hall j hj)).1

/-- The table holds the inode when its slot goes. -/
theorem InodeInv.clear (h : InodeInv s ino ((k, n) ::ₘ R) L p) (hlast : (k, n) ∉ R) (hfree : k ∉ L)
    {c : UInt16} (hgeo : t.mem.superblock = s.mem.superblock)
    (hinodes : t.mem.inodes = upd s.mem.inodes k { Inode.cleared with ref_count := c })
    (hdisk : TableOnly s.disk t.disk) (hd : ino n = some d) (hn : tableAt t.disk n = d)
    (hothers : ∀ m < NUM_INODES, m ≠ n → tableAt t.disk m = tableAt s.disk m) :
    InodeInv t ino R L (pendWithout p k) := by
  refine ⟨h.blocks.congr hdisk (by rw [hgeo]; exact h.blocks.geo) (by rw [hgeo]) fun _ => rfl, ?_⟩
  refine h.cache.clear hlast hfree (fun j hj => by rw [hinodes, upd_of_ne hj])
    ⟨c, by rw [hinodes, upd_self]⟩
    (fun _ _ => rfl) (fun {d'} hd' => ⟨hd', ?_⟩) hothers (by rw [hgeo]; exact h.cache.used)
  rw [hn]
  exact Option.some.inj (hd.symm.trans hd')

/-- One of several references goes. -/
theorem InodeInv.dropOne (h : InodeInv s ino ((k, n) ::ₘ R) L p) (hmore : (k, n) ∈ R) :
    InodeInv (s.setInode k { s.mem.inodes k with ref_count := (s.mem.inodes k).ref_count - 1 }) ino R L p := by
  have hk := mem_cons_self (k, n) R
  have hlt := h.cache.bound hk
  have hslot := h.cache.slots k hlt
  have hpk := h.cache.not_pending hmore
  refine ⟨h.blocks.setInode _ _, ?_⟩
  refine h.cache.of_slot (k := k) (fun j hj => upd_of_ne hj)
    (fun j m hj => (count_cons_of_ne hj).symm)
    (fun _ _ => Iff.rfl) (fun _ _ => Iff.rfl) (fun _ _ _ _ => rfl) hlt ?_ ?_ h.cache.range ?_ h.cache.used
  · rw [Store.setInode_inodes, upd_self]
    refine ⟨fun hm => hslot.num (mem_cons_of_mem hm), fun hm => ?_,
      fun hm => hslot.loaded (mem_cons_of_mem hm), fun he => absurd he hpk, fun hno => absurd hmore (hno n),
      hslot.locked, fun hl => ⟨hpk, n, hmore⟩⟩
    obtain rfl := h.cache.one (mem_cons_of_mem hm) hk
    have hcount := hslot.count hk
    rw [count_cons_self] at hcount
    have hle : (1 : UInt16) ≤ (s.mem.inodes k).ref_count := by
      rw [UInt16.le_iff_toNat_le, hcount]
      exact Nat.le_add_left 1 _
    change ((s.mem.inodes k).ref_count - 1).toNat = _
    rw [UInt16.toNat_sub_of_le _ _ hle, hcount]
    exact Nat.add_sub_cancel _ _
  · exact fun j m hj hjm hkm => hj (h.cache.uniq hjm (mem_cons_of_mem hkm))
  · intro m dm hm hall
    refine h.cache.table hm fun j hj => ?_
    rcases mem_cons.mp hj with he | hj
    · cases he
      exact hall k hmore
    · exact hall j hj

section Deref

/-- The last lines of `inode_deref`. -/
def derefEnd (k : ℕ) : FSM Unit := do
  modifyInode k fun i => { i with ref_count := i.ref_count - 1 }
  let i ← getInode k
  if i.ref_count = 0 then inodeClear k

theorem inodeDerefAt_succ (depth : ℕ) : inodeDerefAt (depth + 1) k = (do
    let i ← getInode k
    asserts (decide (0 < i.ref_count)) .inodeDerefZero
    if i.ref_count = 1 ∧ i.valid ∧ i.d.link_count = 0 then
      inodeOpen k
      inodeDelete k
      inodeUnlock k
      inodeDerefAt depth k
      derefEnd k
    else derefEnd k) := rfl

variable {E : Halt → Prop} {Q : Unit → FS → Prop}

theorem wp_inodeClear (hgeo : Geo s.mem.superblock) (hr : (s.mem.inodes k).ref_count = 0)
    (hQ : Q () (Store.setInode ⟨s.mem, if (s.mem.inodes k).valid then
      setTable s.disk (s.mem.inodes k).d.inode_num.toNat (s.mem.inodes k).d else s.disk⟩ k Inode.cleared)) :
    wp E (inodeClear k) Q s := by
  unfold inodeClear
  simp only [wp_bind, wp_getInode, wp_asserts, hr, decide_true, if_true]
  split
  · next hv =>
    rw [if_pos hv] at hQ
    rw [wp_bind]
    exact wp_writeBack hgeo rfl hQ
  · next hv =>
    rw [if_neg hv] at hQ
    exact hQ

/-- The last lines of `inode_deref`, where a reference is left. -/
theorem wp_derefEnd_more (hr : (s.mem.inodes k).ref_count - 1 ≠ 0)
    (hQ : Q () (s.setInode k { s.mem.inodes k with ref_count := (s.mem.inodes k).ref_count - 1 })) :
    wp E (derefEnd k) Q s := by
  unfold derefEnd
  simp only [wp_bind, wp_modifyInode, wp_getInode, Store.setInode_inodes, upd_self]
  rw [if_neg hr]
  exact hQ

variable (hgeo : Geo s.mem.superblock) (hr : (s.mem.inodes k).ref_count = 1)
include hgeo hr

/-- The last lines of `inode_deref`, for the last reference. -/
theorem wp_derefEnd_last (hQ : Q () (Store.setInode ⟨s.mem, if (s.mem.inodes k).valid then
      setTable s.disk (s.mem.inodes k).d.inode_num.toNat (s.mem.inodes k).d else s.disk⟩ k Inode.cleared)) :
    wp E (derefEnd k) Q s := by
  unfold derefEnd
  simp only [wp_bind, wp_modifyInode, wp_getInode, Store.setInode_inodes, upd_self]
  rw [hr, if_pos (by decide)]
  refine wp_inodeClear hgeo ?_ ?_
  · rw [Store.setInode_inodes, upd_self]
    rfl
  · simp only [Store.setInode_inodes, upd_self, Store.setInode_disk]
    simpa [Store.setInode] using hQ

/-- The reference that a deletion gives up itself. -/
theorem wp_derefDeleted (hv : (s.mem.inodes k).valid = false)
    (hQ : Q () (s.setInode k Inode.cleared)) :
    wp E (inodeDerefAt 1 k) Q s := by
  rw [inodeDerefAt_succ]
  have hone : (0 : UInt16) < 1 := by decide
  simp only [wp_bind, wp_getInode, wp_asserts, hr, hv, hone, decide_true, if_true,
    Bool.false_eq_true, false_and,
    and_false, if_false]
  refine wp_derefEnd_last hgeo hr ?_
  rw [hv]
  exact hQ

end Deref

attribute [local irreducible] freeEntries freeDirect freeIndirect freeDoubleIndirect

/-- **An inode without links goes with its last reference.** -/
theorem wp_derefDelete (h : InodeInv s ino ((k, n) ::ₘ R) L p) (hpk : p ≠ some k)
    (hlast : (k, n) ∉ R) (hfree : k ∉ L) (hr : (s.mem.inodes k).ref_count = 1) :
    wp (Stops W) (do inodeOpen k; inodeDelete k; inodeUnlock k; inodeDerefAt 1 k; derefEnd k)
      (fun _ t => InodeInv t (upd ino n none) R L p ∧ Steady s t) s := by
  have hk := mem_cons_self (k, n) R
  have hlt := h.cache.bound hk
  obtain ⟨hvalid, hd⟩ := h.cache.loaded hk hpk
  have hlocked : (s.mem.inodes k).locked = false := by
    rw [← Bool.not_eq_true]
    exact fun hl => hfree ((h.cache.slots k hlt).locked.mp hl)
  obtain ⟨hn1, hn2, -⟩ := h.cache.range hd
  -- the slot is locked for the deletion, and nothing is loaded
  have hopen : wp (Stops W) (inodeOpen k) (fun _ t => t = s.setInode k { s.mem.inodes k with locked := true }) s := by
    unfold inodeOpen mutexAcquire
    simp only [wp_bind, wp_getInode, wp_asserts, hlocked, Bool.not_false, if_true, wp_modifyInode,
      Store.setInode_inodes, upd_self, hvalid, wp_pure]
  refine wp_then hopen ?_
  rintro _ _ rfl
  refine wp_then (wp_inodeDelete (h.blocks.setInode k _) hd
    (by rw [Store.setInode_inodes, upd_self])) ?_
  rintro _ t ht
  obtain ⟨d', -, hmem⟩ := ht.mem
  have hgeo := ht.inv.geo
  have hslot : t.mem.inodes k = { s.mem.inodes k with locked := true, d := d', valid := false } := by
    rw [hmem]
    simp
  unfold inodeUnlock
  simp only [wp_bind, wp_getInode, wp_asserts, hslot, if_true, wp_modifyInode]
  refine wp_derefDeleted hgeo ?_ ?_ ?_
  · rw [Store.setInode_inodes, upd_self]
    exact hr
  · rw [Store.setInode_inodes, upd_self]
  refine wp_derefEnd_more ?_ ?_
  · rw [Store.setInode_inodes, upd_self]
    decide
  have htable : ∀ m < NUM_INODES, tableAt t.disk m = tableAt s.disk m := fun m hm =>
    tableAt_congr hm fun b h1 _ => ht.disk b (by omega)
  refine ⟨⟨⟨hgeo, ht.inv.owners, ht.inv.used⟩, ?_⟩,
    ⟨?_, fun b hb => ht.disk b (by unfold DATA at hb; omega), fun m hm => ?_⟩⟩
  · rw [← pendWithout_of_ne hpk]
    refine h.cache.clear hlast hfree (fun j hj => ?_) ⟨Inode.cleared.ref_count - 1,
      by simp only [Store.setInode_inodes, upd_self]⟩
      (fun m hm => upd_of_ne hm) (fun hn => ?_) (fun m hm _ => htable m hm) ?_
    · simp only [Store.setInode_inodes, upd_of_ne hj]
      rw [hmem]
      simp only [Store.setInode_inodes, upd_of_ne hj]
    · rw [upd_self] at hn
      cases hn
    · have hused : (liveNums (upd ino n none)).card + 1 = (liveNums ino).card := by
        have herase : liveNums (upd ino n none) = (liveNums ino).erase n := by
          ext m
          by_cases hmn : m = n
          · simp [liveNums, hmn]
          · simp [liveNums, upd_of_ne hmn, hmn]
        have hmem : n ∈ liveNums ino := by simp [liveNums, hn2, hd]
        rw [herase]
        exact Finset.card_erase_add_one hmem
      have hcount := h.cache.used
      have hsub : t.mem.superblock.used_inode = s.mem.superblock.used_inode - 1 := by
        rw [hmem]
        rfl
      simp only [Store.setInode_superblock, hsub]
      have hle : (1 : UInt32) ≤ s.mem.superblock.used_inode := by
        rw [UInt32.le_iff_toNat_le, hcount, ← hused]
        exact Nat.le_add_left 1 _
      rw [UInt32.toNat_sub_of_le _ _ hle, hcount, ← hused]
      exact Nat.add_sub_cancel _ _
  · simp only [Store.setInode]
    rw [hmem]
    rfl
  · simp only [Store.setInode_disk, htable m hm]

/-- **`inode_deref`.** A slot that is locked has another reference. -/
theorem wp_inodeDeref (h : InodeInv s ino ((k, n) ::ₘ R) L p) (hfree : k ∈ L → (k, n) ∈ R)
    (hp : p = some k → ∃ d, ino n = some d ∧ d.link_count ≠ 0) :
    wp (Stops W) (inodeDeref k) (fun _ => Released ino R L (pendWithout p k) n s) s := by
  have hk := mem_cons_self (k, n) R
  have hlt := h.cache.bound hk
  have hslot := h.cache.slots k hlt
  have hcount := hslot.count hk
  rw [count_cons_self] at hcount
  have hpos : 0 < (s.mem.inodes k).ref_count := by
    rw [UInt16.lt_iff_toNat_lt, hcount]
    exact Nat.succ_pos _
  unfold inodeDeref
  rw [inodeDerefAt_succ]
  simp only [wp_bind, wp_getInode, wp_asserts, hpos, decide_true, if_true]
  by_cases hmore : (k, n) ∈ R
  · have htwo : (s.mem.inodes k).ref_count ≠ 1 := by
      intro hone
      rw [hone] at hcount
      have := count_pos.mpr hmore
      change 1 = _ at hcount
      omega
    have hleft : (s.mem.inodes k).ref_count - 1 ≠ 0 := by
      intro hz
      rw [← UInt16.sub_add_cancel (s.mem.inodes k).ref_count 1, hz] at htwo
      exact htwo (by decide)
    have hpk := h.cache.not_pending hmore
    rw [if_neg fun hc => htwo hc.1]
    refine wp_derefEnd_more hleft ⟨?_, .setInode _ _ _⟩
    rw [dropped_of_mem hmore, pendWithout_of_ne hpk]
    exact h.dropOne hmore
  · have hone : (s.mem.inodes k).ref_count = 1 := by
      rw [count_eq_zero_of_notMem hmore] at hcount
      exact UInt16.toNat_inj.mp hcount
    have hgeo := h.blocks.geo
    have hfree : k ∉ L := fun hl => hmore (hfree hl)
    obtain ⟨d, hd⟩ := h.cache.live hk
    obtain ⟨-, hrange, -, htype, -⟩ := h.cache.range hd
    by_cases hpk : p = some k
    case neg =>
      obtain ⟨hvalid, hino⟩ := hslot.loaded hk hpk
      obtain rfl : d = (s.mem.inodes k).d := Option.some.inj (hd.symm.trans hino)
      rw [pendWithout_of_ne hpk]
      by_cases hlink : (s.mem.inodes k).d.link_count = 0
      · rw [if_pos ⟨hone, hvalid, hlink⟩]
        refine wp_mono (wp_derefDelete h hpk hmore hfree hone) ?_
        rintro _ t ⟨hinv, hsteady⟩
        refine ⟨?_, hsteady⟩
        have hdrop : dropped ino n R = upd ino n none := by
          unfold dropped
          rw [if_pos]
          refine ⟨fun x hx he => hmore ?_, by simp [hd, hlink]⟩
          obtain ⟨j, m⟩ := x
          obtain rfl : m = n := he
          rwa [h.cache.uniq (mem_cons_of_mem hx) hk] at hx
        rw [hdrop]
        exact hinv
      · rw [if_neg fun hc => hlink hc.2.2]
        refine wp_derefEnd_last hgeo hone ?_
        rw [if_pos hvalid, h.cache.num hk]
        have hsteady := Steady.setTable h.cache hd (s.mem.inodes k).d htype
        refine ⟨?_, hsteady.trans (.setInode _ _ _)⟩
        rw [dropped_of_links hd hlink, ← pendWithout_of_ne hpk]
        exact h.clear hmore hfree rfl rfl (tableOnly_setTable hrange) hd tableAt_setTable_self
          fun m _ hm => tableAt_setTable_of_ne hm
    case pos =>
      obtain ⟨d', hd', hlink⟩ := hp hpk
      have hvalid := (hslot.pending hpk).1
      have htable : tableAt s.disk n = d := h.cache.table hd fun j hj => by rw [hpk, h.cache.uniq hj hk]
      rw [if_neg fun hc => by rw [hvalid] at hc; exact absurd hc.2.1 (by decide)]
      refine wp_derefEnd_last hgeo hone ?_
      rw [hvalid]
      refine ⟨?_, .setInode _ _ _⟩
      rw [dropped_of_links hd' hlink]
      exact h.clear hmore hfree rfl rfl (TableOnly.refl _) hd htable fun _ _ _ => rfl

/-- **`inode_close`** of a locked slot. -/
theorem wp_inodeClose (h : InodeInv s ino ((k, n) ::ₘ R) L p) (hk : k ∈ L) :
    wp (Stops W) (inodeClose k) (fun _ => Released ino R (L.erase k) p n s) s := by
  have hpk : p ≠ some k := h.cache.loaded_of_lock hk
  unfold inodeClose
  refine wp_then (wp_inodeUnlock h hk) ?_
  rintro _ t ⟨hinv, hsteady, -⟩
  refine wp_mono (wp_inodeDeref hinv (fun hl => absurd hl (Finset.notMem_erase k L)) fun he =>
    absurd he hpk) ?_
  rintro _ u hu
  rw [pendWithout_of_ne hpk] at hu
  exact ⟨hu.inv, hsteady.trans hu.steady⟩

/-! ## A new inode -/

/-- The disk inode that `inode_alloc` writes. -/
def newInode (type : UInt16) (n : ℕ) : DiskInode :=
  { DiskInode.cleared with type := type, inode_num := UInt32.ofNat n }

/-- Inode `n` was free and is new, with a reference in slot `k`. -/
structure Allocated (ino : ℕ → Option DiskInode) (R : Multiset Ref) (L : Finset ℕ) (type : UInt16)
    (n : ℕ) (s : FS) (k : ℕ) (t : FS) : Prop where
  fresh : ino n = none
  lt : n < NUM_INODES
  inv : InodeInv t (upd ino n (some (newInode type n))) ((k, n) ::ₘ R) L (some k)
  mem : t.mem = { s.mem with inodes := t.mem.inodes, superblock := t.mem.superblock }
  data : ∀ b, DATA ≤ b → t.disk b = s.disk b
  types : ∀ m < NUM_INODES, (tableAt t.disk m).type = 0 ↔ (tableAt s.disk m).type = 0 ∧ m ≠ n
  wasFree : (tableAt s.disk n).type = 0
  first : ∀ m, 1 ≤ m → m < n → (tableAt s.disk m).type ≠ 0

theorem Cache.live_eq_none (h : Cache s ino R L p) (hn : (tableAt s.disk n).type = 0) :
    ino n = none := by
  cases hino : ino n with
  | none => rfl
  | some d => exact absurd hn (h.range hino).2.2.2.2

theorem Cache.notMem_of_none (h : Cache s ino R L p) (hn : ino n = none) : (k, n) ∉ R := by
  intro hk
  obtain ⟨d, hd⟩ := h.live hk
  rw [hn] at hd
  cases hd

variable {type : UInt16} (h : InodeInv s ino R L none)
include h

/-- An inode comes to life in the table. -/
theorem InodeInv.alloc (htype : type ≠ 0) (h1 : 1 ≤ n) (hn : n < NUM_INODES)
    (hfree : (tableAt s.disk n).type = 0) :
    InodeInv ⟨{ s.mem with superblock := { s.mem.superblock with
      used_inode := s.mem.superblock.used_inode + 1 } }, setTable s.disk n (newInode type n)⟩
      (upd ino n (some (newInode type n))) R L none := by
  have hnone := h.cache.live_eq_none hfree
  have hne : ∀ {j m}, (j, m) ∈ R → m ≠ n := by
    rintro j m hjm rfl
    exact h.cache.notMem_of_none hnone hjm
  refine ⟨?_, ?_⟩
  · exact h.blocks.congr (tableOnly_setTable hn) (h.blocks.geo.set_used_inode _) rfl
      (BlockInv.ptrs_empty hnone (d := newInode type n) ⟨rfl, rfl, rfl⟩ _)
  refine ⟨fun j hj => ?_, h.cache.bound, h.cache.lock_bound, nofun, h.cache.uniq,
    fun {m dm} hm => ?_,
    fun {m dm} hm hall => ?_, ?_⟩
  · exact (h.cache.slots j hj).congr (fun _ => rfl) Iff.rfl Iff.rfl fun m hm => upd_of_ne (hne hm)
  · obtain ⟨rfl, ⟨⟩⟩ | ⟨hmn, hm⟩ := upd_eq_cases hm
    · refine ⟨h1, hn, ?_, htype, ?_⟩
      · change (UInt32.ofNat m).toNat = m
        rw [UInt32.toNat_ofNat']
        unfold NUM_INODES at hn
        exact Nat.mod_eq_of_lt (by omega)
      · rw [tableAt_setTable_self]
        exact htype
    · rw [tableAt_setTable_of_ne hmn]
      exact h.cache.range hm
  · obtain ⟨rfl, ⟨⟩⟩ | ⟨hmn, hm⟩ := upd_eq_cases hm
    · exact tableAt_setTable_self
    · rw [tableAt_setTable_of_ne hmn]
      exact h.cache.table hm hall
  · have hinsert : liveNums (upd ino n (some (newInode type n))) = insert n (liveNums ino) := by
      ext m
      by_cases hmn : m = n
      · simp [liveNums, hmn, hn]
      · simp [liveNums, upd_of_ne hmn, hmn]
    have hnot : n ∉ liveNums ino := by simp [liveNums, hnone]
    have hcard : (liveNums (upd ino n (some (newInode type n)))).card = (liveNums ino).card + 1 := by
      rw [hinsert, Finset.card_insert_of_notMem hnot]
    have hle : (liveNums ino).card ≤ NUM_INODES := (Finset.card_filter_le _ _).trans (Finset.card_range _).le
    have hused := h.cache.used
    rw [hcard]
    simp only [UInt32.toNat_add, hused]
    refine Nat.mod_eq_of_lt ?_
    unfold NUM_INODES at hle
    rw [UInt32.toNat_one]
    omega

/-- **`inode_alloc`**: the first number whose disk inode has no type. -/
theorem wp_inodeAlloc (htype : type = FS_TYPE_FILE ∨ type = FS_TYPE_DIR ∨ type = FS_TYPE_DEV) :
    wp (Stops W) (inodeAlloc type) (fun k t => ∃ n, Allocated ino R L type n s k t) s := by
  have hne : type ≠ 0 := by rcases htype with rfl | rfl | rfl <;> decide
  have hgeo := h.blocks.geo
  have hfrom : ∀ fuel i, 1 ≤ i → (∀ m, 1 ≤ m → m < i → (tableAt s.disk m).type ≠ 0) →
      wp (Stops W) (inodeAllocFrom type s.mem.superblock fuel i)
      (fun k t => ∃ n, Allocated ino R L type n s k t) s := by
    intro fuel
    induction fuel with
    | zero => exact fun i _ _ => .inl rfl
    | succ fuel ih =>
      intro i hi hbefore
      unfold inodeAllocFrom
      rw [hgeo.inode_count]
      split
      · next hlt =>
        unfold INODE2BLOCK INODE2OFFSET
        rw [hgeo.inode_offset]
        simp only [wp_bind, wp_blockOpen, wp_blockData]
        split
        · next hfree =>
          simp only [wp_bind, wp_modifySuperblock, wp_setBlockData, wp_blockClose]
          have hnone := h.cache.live_eq_none hfree
          have hinv := h.alloc hne hi hlt hfree
          have hk : ∀ k, (k, i) ∉ R := fun k => h.cache.notMem_of_none hnone
          refine wp_mono (wp_inodeRef hinv upd_self fun k => ?_) ?_
          · rw [count_eq_zero_of_notMem (hk k)]
            omega
          · intro k t ht
            have hinv := ht.inv
            rw [if_neg (hk k)] at hinv
            refine ⟨i, hnone, hlt, hinv, ?_, fun b hb => ?_, fun m hm => ?_, hfree, hbefore⟩
            · exact ht.steady.mem
            · rw [ht.disk]
              exact tableOnly_setTable hlt b (.inr hb)
            · rw [ht.disk]
              change (tableAt (setTable s.disk i (newInode type i)) m).type = 0 ↔ _
              by_cases hmi : m = i
              · rw [hmi, tableAt_setTable_self]
                exact ⟨fun he => absurd he hne, fun he => absurd rfl he.2⟩
              · rw [tableAt_setTable_of_ne hmi]
                exact ⟨fun he => ⟨he, hmi⟩, fun he => he.1⟩
        · next hbusy =>
          simp only [wp_bind, wp_blockClose]
          refine ih (i + 1) (by omega) fun m h1 hm => ?_
          rcases Nat.lt_succ_iff_lt_or_eq.mp hm with hm | rfl
          · exact hbefore m h1 hm
          · exact hbusy
      · exact .inl rfl
  unfold inodeAlloc
  have hdec : decide (type = FS_TYPE_FILE ∨ type = FS_TYPE_DIR ∨ type = FS_TYPE_DEV) = true :=
    decide_eq_true htype
  simp only [wp_bind, wp_asserts, hdec, if_true, wp_getSuperblock]
  exact hfrom _ 1 le_rfl fun m h1 hm => absurd h1 (Nat.not_le.mpr hm)

/-! ## Changing a loaded inode -/

/-- **A field of a loaded inode is changed**, not a pointer. -/
theorem InodeInv.modify (hk : (k, n) ∈ R) (hd : ino n = some d)
    (hptrs : SamePtrs d d') (hnum : d'.inode_num = d.inode_num) (htype : d'.type = d.type) :
    InodeInv (s.setInode k { s.mem.inodes k with d := d' }) (upd ino n (some d')) R L none :=
  ⟨h.blocks.congr (TableOnly.refl _) h.blocks.geo rfl (BlockInv.ptrs_fields hd hptrs _),
    h.cache.modified hk hd hnum htype rfl (fun _ _ => rfl) rfl⟩

end OsLab
