import OsLab.Fs.Inodes.Table
import OsLab.Fs.Helpers.Programs
/-!
# The inode cache over the inode table

`ino` is what each live inode is: the copy in its slot while it is cached, the disk inode otherwise.
`Cache` says that the cache and the table hold it so. Its other parts are the references
that are out (`R`, each a slot with the number it was taken for), the slots whose
locks are held (`L`), and the one slot, if any, that is referenced and not yet loaded (`p`).

`inode_ref` treats such a slot as free, since it has no type yet. So it is called only where there
is none, and each of the functions below says when it leaves one. -/

namespace OsLab

open Prog Bytes Multiset

/-- The halts a call may end in: the table or the cache is full, or, only if `W`, the call waits for
itself. -/
def Stops (W : Prop) (e : Halt) : Prop :=
  e = .noFreeInode ∨ e = .noFreeInodeCache ∨ e = .deadlock ∧ W

/-- A reference: a slot, and the number of the inode it is for. -/
abbrev Ref := ℕ × ℕ

/-! ## The invariant -/

/-- **One slot.** -/
structure AtSlot (i : Inode) (ino : ℕ → Option DiskInode) (R : Multiset Ref) (L : Finset ℕ)
    (p : Option ℕ) (k : ℕ) : Prop where
  num : ∀ {n}, (k, n) ∈ R → i.d.inode_num.toNat = n
  count : ∀ {n}, (k, n) ∈ R → i.ref_count.toNat = R.count (k, n)
  loaded : ∀ {n}, (k, n) ∈ R → p ≠ some k → i.valid = true ∧ ino n = some i.d
  pending : p = some k → i.valid = false ∧ i.d.type = 0 ∧ ∃ n, R.count (k, n) = 1 ∧ (ino n).isSome
  free : (∀ n, (k, n) ∉ R) → ∃ c, i = { Inode.cleared with ref_count := c }
  locked : i.locked = true ↔ k ∈ L
  lock_ref : k ∈ L → p ≠ some k ∧ ∃ n, (k, n) ∈ R

/-- The numbers of the live inodes. -/
def liveNums (ino : ℕ → Option DiskInode) : Finset ℕ :=
  {n ∈ Finset.range NUM_INODES | (ino n).isSome}

/-- **The cache and the table hold the live inodes.** -/
structure Cache (s : FS) (ino : ℕ → Option DiskInode) (R : Multiset Ref) (L : Finset ℕ)
    (p : Option ℕ) : Prop where
  slots : ∀ k < NINODE, AtSlot (s.mem.inodes k) ino R L p k
  bound : ∀ {x}, x ∈ R → x.1 < NINODE
  lock_bound : ∀ {k}, k ∈ L → k < NINODE
  pend_bound : ∀ {k}, p = some k → k < NINODE
  uniq : ∀ {k k' n}, (k, n) ∈ R → (k', n) ∈ R → k = k'
  range : ∀ {n d}, ino n = some d → 1 ≤ n ∧ n < NUM_INODES ∧ d.inode_num.toNat = n ∧ d.type ≠ 0 ∧
    (tableAt s.disk n).type ≠ 0
  table : ∀ {n d}, ino n = some d → (∀ k, (k, n) ∈ R → p = some k) → tableAt s.disk n = d
  used : s.mem.superblock.used_inode.toNat = (liveNums ino).card

/-- **The inodes are in order**: the block map is right, and the cache and the table hold the live
inodes. -/
structure InodeInv (s : FS) (ino : ℕ → Option DiskInode) (R : Multiset Ref) (L : Finset ℕ)
    (p : Option ℕ) : Prop where
  blocks : BlockInv s ino fun _ => False
  cache : Cache s ino R L p

/-- The memory outside the inode cache and the superblock is unchanged, and so are the data blocks
and which disk inodes have a type. -/
structure Steady (s t : FS) : Prop where
  mem : t.mem = { s.mem with inodes := t.mem.inodes, superblock := t.mem.superblock }
  data : ∀ b, DATA ≤ b → t.disk b = s.disk b
  types : ∀ n < NUM_INODES, (tableAt t.disk n).type = 0 ↔ (tableAt s.disk n).type = 0

theorem Steady.trans {s t u : FS} (h : Steady s t) (h' : Steady t u) : Steady s u := by
  refine ⟨?_, fun b hb => (h'.data b hb).trans (h.data b hb),
    fun n hn => (h'.types n hn).trans (h.types n hn)⟩
  rw [h'.mem, h.mem]

variable {s t : FS} {ino ino' : ℕ → Option DiskInode} {R R' : Multiset Ref} {L L' : Finset ℕ}
  {p p' : Option ℕ} {k n : ℕ} {d : DiskInode} {i : Inode}

theorem AtSlot.congr (h : AtSlot i ino R L p k) (hR : ∀ n, R'.count (k, n) = R.count (k, n))
    (hL : k ∈ L' ↔ k ∈ L) (hp : p' = some k ↔ p = some k)
    (hino : ∀ n, (k, n) ∈ R → ino' n = ino n) :
    AtSlot i ino' R' L' p' k := by
  have hmem : ∀ n, (k, n) ∈ R' ↔ (k, n) ∈ R := fun n => by rw [← count_pos, ← count_pos, hR]
  refine ⟨fun hn => h.num ((hmem _).mp hn), fun {n} hn => ?_, fun {n} hn hpn => ?_, fun hpk => ?_,
    fun hn => ?_, ?_,
    fun hk => ?_⟩
  · rw [hR]
    exact h.count ((hmem n).mp hn)
  · rw [hmem] at hn
    rw [hino n hn]
    exact h.loaded hn fun he => hpn (hp.mpr he)
  · obtain ⟨hv, ht, n, hc, hs⟩ := h.pending (hp.mp hpk)
    refine ⟨hv, ht, n, (hR n).trans hc, ?_⟩
    rw [hino n (count_pos.mp (by omega))]
    exact hs
  · exact h.free fun n hmn => hn n ((hmem n).mpr hmn)
  · rw [hL]
    exact h.locked
  · obtain ⟨hne, n, hn⟩ := h.lock_ref (hL.mp hk)
    exact ⟨fun he => hne (hp.mp he), n, (hmem n).mpr hn⟩

namespace Cache

section

variable (h : Cache s ino R L p)
include h

theorem num (hk : (k, n) ∈ R) : (s.mem.inodes k).d.inode_num.toNat = n :=
  (h.slots k (h.bound hk)).num hk

theorem loaded (hk : (k, n) ∈ R) (hp : p ≠ some k) :
    (s.mem.inodes k).valid = true ∧ ino n = some (s.mem.inodes k).d :=
  (h.slots k (h.bound hk)).loaded hk hp

theorem count (hk : (k, n) ∈ R) : (s.mem.inodes k).ref_count.toNat = R.count (k, n) :=
  (h.slots k (h.bound hk)).count hk

/-- The inode of a reference is live. -/
theorem live (hk : (k, n) ∈ R) : ∃ d, ino n = some d := by
  by_cases hp : p = some k
  · obtain ⟨-, -, m, hm, hlive⟩ := (h.slots k (h.bound hk)).pending hp
    have hmem : (k, m) ∈ R := count_pos.mp (by omega)
    obtain rfl : n = m := (h.num hk).symm.trans (h.num hmem)
    exact Option.isSome_iff_exists.mp hlive
  · exact ⟨_, (h.loaded hk hp).2⟩

/-- A locked slot is referenced. -/
theorem ref_of_lock (hk : k ∈ L) : ∃ n, (k, n) ∈ R := ((h.slots k (h.lock_bound hk)).lock_ref hk).2

theorem loaded_of_lock (hk : k ∈ L) : p ≠ some k := ((h.slots k (h.lock_bound hk)).lock_ref hk).1

/-- A slot with a type that is not waiting to be loaded is referenced. -/
theorem ref_of_type (hk : k < NINODE) (htype : (s.mem.inodes k).d.type ≠ 0) :
    ∃ n, (k, n) ∈ R ∧ p ≠ some k := by
  by_contra hnone
  by_cases hp : p = some k
  · exact htype ((h.slots k hk).pending hp).2.1
  · obtain ⟨c, hc⟩ := (h.slots k hk).free fun n hn => hnone ⟨n, hn, hp⟩
    rw [hc] at htype
    exact htype rfl

/-- **One slot changed.** What is left to check is that slot, and the table. -/
theorem of_slot (hother : ∀ j, j ≠ k → t.mem.inodes j = s.mem.inodes j)
    (hR : ∀ j m, j ≠ k → R'.count (j, m) = R.count (j, m)) (hL : ∀ j, j ≠ k → (j ∈ L' ↔ j ∈ L))
    (hp : ∀ j, j ≠ k → (p' = some j ↔ p = some j))
    (hino : ∀ j m, j ≠ k → (j, m) ∈ R → ino' m = ino m) (hk : k < NINODE)
    (hslot : AtSlot (t.mem.inodes k) ino' R' L' p' k)
    (huniq : ∀ j m, j ≠ k → (j, m) ∈ R → (k, m) ∉ R') (hrange : ∀ {n d}, ino' n = some d → 1 ≤ n ∧
      n < NUM_INODES ∧ d.inode_num.toNat = n ∧ d.type ≠ 0 ∧
      (tableAt t.disk n).type ≠ 0)
    (htable : ∀ {n d}, ino' n = some d → (∀ k, (k, n) ∈ R' → p' = some k) → tableAt t.disk n = d)
    (hused : t.mem.superblock.used_inode.toNat = (liveNums ino').card) : Cache t ino' R' L' p' := by
  have hmem : ∀ j m, j ≠ k → ((j, m) ∈ R' ↔ (j, m) ∈ R) := fun j m hj => by
    rw [← count_pos, ← count_pos, hR j m hj]
  refine ⟨fun j hj => ?_, fun {x} hx => ?_, fun {j} hj => ?_, fun {j} hj => ?_,
    fun {a b m} ha hb => ?_, hrange, htable,
    hused⟩
  · by_cases hjk : j = k
    · rw [hjk]
      exact hslot
    · rw [hother j hjk]
      exact (h.slots j hj).congr (fun m => hR j m hjk) (hL j hjk) (hp j hjk) fun m hm => hino j m hjk hm
  · obtain ⟨j, m⟩ := x
    by_cases hjk : j = k
    · rw [hjk]
      exact hk
    · exact h.bound ((hmem j m hjk).mp hx)
  · by_cases hjk : j = k
    · rw [hjk]
      exact hk
    · exact h.lock_bound ((hL j hjk).mp hj)
  · by_cases hjk : j = k
    · rw [hjk]
      exact hk
    · exact h.pend_bound ((hp j hjk).mp hj)
  · by_cases hak : a = k
    · by_cases hbk : b = k
      · rw [hak, hbk]
      · exact absurd (hak ▸ ha) (huniq b m hbk ((hmem b m hbk).mp hb))
    · by_cases hbk : b = k
      · exact absurd (hbk ▸ hb) (huniq a m hak ((hmem a m hak).mp ha))
      · exact h.uniq ((hmem a m hak).mp ha) ((hmem b m hbk).mp hb)

end

/-- **A loaded inode changed**, not in its number or its type. -/
theorem modified (h : Cache s ino R L none) (hk : (k, n) ∈ R) (hd : ino n = some d)
    (hnum : d'.inode_num = d.inode_num) (htype : d'.type = d.type)
    (hmem : t.mem.inodes = upd s.mem.inodes k { s.mem.inodes k with d := d' })
    (htable : ∀ m < NUM_INODES, tableAt t.disk m = tableAt s.disk m)
    (hused : t.mem.superblock.used_inode = s.mem.superblock.used_inode) :
    Cache t (upd ino n (some d')) R L none := by
  have hlt := h.bound hk
  have hslot := h.slots k hlt
  obtain ⟨hvalid, hino⟩ := hslot.loaded hk nofun
  obtain rfl : d = (s.mem.inodes k).d := Option.some.inj (hd.symm.trans hino)
  refine h.of_slot (k := k) (fun j hj => ?_) (fun _ _ _ => rfl) (fun _ _ => Iff.rfl)
    (fun _ _ => Iff.rfl)
    (fun j m hj hjm => ?_) hlt ?_ (fun j m hj hjm hkm => hj (h.uniq hjm hkm)) ?_ ?_ ?_
  · rw [hmem, upd_of_ne hj]
  · rw [upd_of_ne]
    rintro rfl
    exact hj (h.uniq hjm hk)
  · rw [hmem, upd_self]
    refine ⟨fun hm => ?_, hslot.count, fun hm _ => ?_, nofun, fun hno => absurd hk (hno n),
      hslot.locked, hslot.lock_ref⟩
    · rw [hnum]
      exact hslot.num hm
    · rw [(h.num hm).symm.trans (h.num hk), upd_self]
      exact ⟨hvalid, rfl⟩
  · intro m dm hm
    obtain ⟨rfl, ⟨⟩⟩ | ⟨-, hm⟩ := upd_eq_cases hm
    · rw [hnum, htype, htable m (h.range hd).2.1]
      exact h.range hd
    · rw [htable m (h.range hm).2.1]
      exact h.range hm
  · intro m dm hm hall
    obtain ⟨rfl, -⟩ | ⟨-, hm⟩ := upd_eq_cases hm
    · exact absurd (hall k hk) nofun
    · rw [htable m (h.range hm).2.1]
      exact h.table hm hall
  · have hlive : liveNums (upd ino n (some d')) = liveNums ino := by
      ext m
      by_cases hmn : m = n
      · simp [liveNums, hmn, hd]
      · simp [liveNums, upd_of_ne hmn]
    rw [hlive, hused]
    exact h.used

end Cache

end OsLab
