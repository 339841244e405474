import OsLab.Fs.Inodes.Files
import Mathlib.Data.List.TakeWhile
/-!
# The entries of a directory

`entriesOf` reads a directory's bytes as the list of its entries, `none` where the entry is free.
The model's two accesses are in its terms: reading an entry (`wp_readDentry`), which changes nothing
since all blocks of a directory are there, and overwriting one or adding one at the end
(`wp_writeDentry`). -/

namespace OsLab

open Prog Bytes List

/-! ## Names -/

/-- The name is one that a directory entry can hold. -/
def Name.Fits (n : Name) : Prop := n.length ≤ MAX_FILE_NAME ∧ (0 : UInt8) ∉ n

instance (n : Name) : Decidable n.Fits := inferInstanceAs (Decidable (_ ∧ _))

theorem Name.fits_trunc {n : Name} : (trunc n).Fits := by
  refine ⟨length_take_le _ _, fun h => ?_⟩
  have hmem := mem_takeWhile_imp (mem_of_mem_take h)
  simp at hmem

theorem Name.Fits.trunc_eq {n : Name} (h : n.Fits) : trunc n = n := by
  unfold Name.trunc
  rw [takeWhile_eq_self_iff.mpr, take_of_length_le h.1]
  intro a ha
  simp only [decide_eq_true_eq]
  rintro rfl
  exact h.2 ha

@[simp] theorem Name.trunc_trunc (n : Name) : trunc (trunc n) = trunc n := fits_trunc.trunc_eq

theorem filenameEq_iff {a b : Name} : filenameEq a b = true ↔ Name.trunc a = Name.trunc b :=
  decide_eq_true_iff

/-! ## One entry -/

theorem Dentry.ofBytes_congr {b b' : Bytes} {off off' : ℕ}
    (h : ∀ x < 32, b (off + x) = b' (off' + x)) :
    ofBytes b off = ofBytes b' off' := by
  unfold ofBytes MAX_FILE_NAME
  rw [Dentry.mk.injEq]
  refine ⟨congrArg Name.trunc (map_congr_left fun i hi => h i ?_),
    word_congr fun i h1 h2 => h i (by omega)⟩
  rw [mem_range] at hi
  omega

variable {e : Dentry} {nm : Name} {x : Entry} {m : ℕ}

/-- **An entry survives the trip through its bytes.** -/
theorem Dentry.ofBytes_bytes (h : e.name.Fits) {b : Bytes} {off : ℕ}
    (hb : ∀ x < 32, b (off + x) = e.bytes x) : ofBytes b off = e := by
  obtain ⟨hlen, hzero⟩ := h
  unfold MAX_FILE_NAME at hlen
  have hname : (List.range 28).map (fun i => b (off + i)) = e.name ++ List.replicate
      (28 - e.name.length) 0 := by
    refine ext_getElem (by simp; omega) fun i h1 h2 => ?_
    simp only [length_map, length_range] at h1
    simp only [getElem_map, getElem_range]
    rw [hb i (by omega), bytes, if_pos (by unfold MAX_FILE_NAME; omega)]
    by_cases hi : i < e.name.length
    · rw [getElem_append_left hi, getD_eq_getElem _ _ hi]
    · rw [getElem_append_right (by omega), getD_eq_default _ _ (by omega), getElem_replicate]
  have hword : word (fun i => b (off + i)) 7 = e.inode_num := by
    refine word_of_byteOf fun j hj => ?_
    rw [hb _ (by omega), bytes, if_neg (by unfold MAX_FILE_NAME; omega)]
    congr 1
    unfold MAX_FILE_NAME
    omega
  unfold ofBytes MAX_FILE_NAME
  rw [hname, hword]
  have hall : ∀ a ∈ e.name, decide (a ≠ 0) = true := by
    intro a ha
    rw [decide_eq_true_iff]
    rintro rfl
    exact hzero ha
  have htrunc : Name.trunc (e.name ++ List.replicate (28 - e.name.length) 0) = e.name := by
    unfold Name.trunc MAX_FILE_NAME
    rw [takeWhile_append_of_pos hall, takeWhile_replicate]
    simp only [ne_eq, not_true_eq_false, decide_false, Bool.false_eq_true, if_false, append_nil]
    exact take_of_length_le hlen
  rw [htrunc]

/-- A name in a directory, with the number of the inode it names; `none` is a free entry. -/
abbrev Entry := Option (Name × ℕ)

/-- The entries of a directory, in order. -/
abbrev Entries := List Entry

/-- What an entry of the disk says. -/
def Dentry.entry (e : Dentry) : Entry :=
  if e.inode_num = 0 then none else some (e.name, e.inode_num.toNat)

theorem Dentry.entry_eq_none : e.entry = none ↔ e.inode_num = 0 := by
  unfold entry
  split <;> simp [*]

theorem Dentry.entry_eq_some :
    e.entry = some (nm, m) ↔ e.inode_num ≠ 0 ∧ e.name = nm ∧ e.inode_num.toNat = m := by
  unfold entry
  split <;> simp [*]

/-- The disk's entry `i` of a directory. -/
def dentryAt (disk : ℕ → Block) (d : DiskInode) (i : ℕ) : Dentry :=
  Dentry.ofBytes (byteAt disk d) (32 * i)

/-- What can be seen of an inode: its type, links and size, and the bytes of the file. -/
@[ext] structure Node where
  type : UInt16
  link_count : UInt16
  size : UInt32
  bytes : Bytes

/-- What is seen of an inode that a disk inode describes. -/
def nodeOf (disk : ℕ → Block) (d : DiskInode) : Node :=
  ⟨d.type, d.link_count, d.size, byteAt disk d⟩

/-- **The entries of a directory.** -/
def Node.entries (nd : Node) : Entries :=
  (List.range (nd.size.toNat / 32)).map fun i => (Dentry.ofBytes nd.bytes (32 * i)).entry

/-- The entries of the directory that a disk inode describes. -/
def entriesOf (disk : ℕ → Block) (d : DiskInode) : Entries := (nodeOf disk d).entries

variable {disk disk' : ℕ → Block} {d d' : DiskInode} {es : Entries} {i : ℕ}

@[simp] theorem length_entriesOf : (entriesOf disk d).length = d.size.toNat / 32 := by
  simp [entriesOf, Node.entries, nodeOf]

theorem entriesOf_getElem? (disk : ℕ → Block) (hi : i < d.size.toNat / 32) :
    (entriesOf disk d)[i]? = some (dentryAt disk d i).entry := by
  simp [entriesOf, Node.entries, nodeOf, dentryAt, hi]

/-- A directory with the same size and bytes has the same entries. -/
theorem entriesOf_congr (hsize : d'.size = d.size)
    (hbytes : ∀ p, byteAt disk' d' p = byteAt disk d p) :
    entriesOf disk' d' = entriesOf disk d := by
  unfold entriesOf Node.entries nodeOf
  rw [hsize, show byteAt disk' d' = byteAt disk d from funext hbytes]

/-- Entry `i` names inode `m` by `nm`. -/
def HasEntry (es : Entries) (i : ℕ) (nm : Name) (m : ℕ) : Prop := es[i]? = some (some (nm, m))

instance (es : Entries) (i : ℕ) (nm : Name) (m : ℕ) : Decidable (HasEntry es i nm m) :=
  inferInstanceAs (Decidable (_ = _))

/-- No two entries have one name. -/
def NamesDistinct (es : Entries) : Prop :=
  ∀ i j nm a b, HasEntry es i nm a → HasEntry es j nm b → i = j

theorem HasEntry.lt (h : HasEntry es i nm m) : i < es.length := (List.getElem?_eq_some_iff.mp h).1

theorem HasEntry.of_entriesOf (h : HasEntry (entriesOf disk d) i nm m) :
    nm.Fits ∧ m ≠ 0 ∧ m < 2 ^ 32 := by
  have hlt := h.lt
  rw [length_entriesOf] at hlt
  unfold HasEntry at h
  rw [entriesOf_getElem? _ hlt, Option.some.injEq, Dentry.entry_eq_some] at h
  obtain ⟨hne, rfl, rfl⟩ := h
  refine ⟨Name.fits_trunc, fun hz => hne ?_, UInt32.toNat_lt _⟩
  exact UInt32.toNat_inj.mp hz

/-! ## Well-formed directories -/

/-- The directory's size is a whole number of entries, its blocks are there, and its names differ.
-/
structure DirOk (disk : ℕ → Block) (d : DiskInode) : Prop where
  type : d.type = FS_TYPE_DIR
  size : 32 * (d.size.toNat / 32) = d.size.toNat
  mapped : ∀ p < d.size.toNat, need disk d (p / 4096) = 0
  names : NamesDistinct (entriesOf disk d)

theorem DirOk.congr (h : DirOk disk d) (htype : d'.type = d.type) (hsize : d'.size = d.size)
    (hbytes : ∀ p, byteAt disk' d' p = byteAt disk d p)
    (hneed : ∀ i, need disk' d' i ≤ need disk d i) :
    DirOk disk' d' := by
  refine ⟨htype.trans h.type, by rw [hsize]; exact h.size, fun p hp => ?_, ?_⟩
  · rw [hsize] at hp
    have := hneed (p / 4096)
    rw [h.mapped p hp] at this
    omega
  · rw [entriesOf_congr hsize hbytes]
    exact h.names

theorem DirOk.sameBlocks (h : DirOk disk d) (hs : SameBlocks disk disk' d) : DirOk disk' d :=
  h.congr rfl rfl hs.byteAt_eq fun i => (hs.need_eq i).le

theorem SameBlocks.nodeOf_eq (h : SameBlocks disk disk' d) : nodeOf disk' d = nodeOf disk d :=
  Node.ext rfl rfl rfl (funext h.byteAt_eq)

theorem SameBlocks.entriesOf_eq (h : SameBlocks disk disk' d) :
    entriesOf disk' d = entriesOf disk d :=
  congrArg Node.entries h.nodeOf_eq

theorem DirOk.numEntries_eq (h : DirOk disk d) : numEntries d = d.size.toNat / 32 := by
  have := h.size
  unfold numEntries
  omega

theorem DirOk.type_ne (h : DirOk disk d) : d.type ≠ FS_TYPE_DEV := by
  rw [h.type]
  decide

variable {s t : FS} {ino : ℕ → Option DiskInode} {R : Multiset Ref} {L : Finset ℕ} {k n i j : ℕ}
  {W : Prop}

/-- A directory is far from four gigabytes. -/
theorem DirOk.size_lt {loose : ℕ → Prop} (h : DirOk s.disk d) (hb : BlockInv s ino loose)
    (hd : ino n = some d) :
    d.size.toNat < 2 ^ 30 := by
  have hle := hb.mapped_le hd (a := 0) (c := d.size.toNat / 4096) fun i _ hi => by
    have := h.mapped (4096 * i) (by omega)
    rwa [Nat.mul_div_cancel_left i (by omega)] at this
  unfold NDATA at hle
  omega

/-! ## Reading an entry -/

/-- **Reading an entry that is there.** -/
theorem wp_readDentry (h : InodeInv s ino R L none) (hk : (k, n) ∈ R) (hd : ino n = some d)
    (hok : DirOk s.disk d) (hi : i < d.size.toNat / 32) {Q : Dentry → FS → Prop}
    (hQ : Q (dentryAt s.disk d i) s) :
    wp (Stops W) (readDentry k (32 * i)) Q s := by
  have hsize := hok.size
  unfold readDentry
  refine wp_then (wp_inodeRead_mapped h hk hd hok.type_ne (by omega) fun p h1 h2 =>
    hok.mapped p (by omega)) ?_
  rintro ⟨r, buf⟩ t ⟨rfl, hr, hbytes⟩
  simp only at hr hbytes
  simp only [wp_bind, wp_asserts, hr, decide_true, if_true, wp_pure]
  have hbuf : Dentry.ofBytes buf 0 = dentryAt t.disk d i := by
    refine Dentry.ofBytes_congr fun x hx => ?_
    rw [Nat.zero_add]
    exact hbytes x hx
  rw [hbuf]
  exact hQ

/-! ## Writing an entry -/

/-- The entries after entry `i` was overwritten, or added at the end. -/
def putEntry (es : Entries) (i : ℕ) (x : Entry) : Entries :=
  if i < es.length then es.set i x else es ++ [x]

theorem length_putEntry (hi : i ≤ es.length) :
    (putEntry es i x).length = max es.length (i + 1) := by
  unfold putEntry
  split
  · rw [length_set]
    omega
  · rw [length_append, length_singleton]
    omega

theorem putEntry_getElem? (hi : i ≤ es.length) :
    (putEntry es i x)[j]? = if j = i then some x else es[j]? := by
  unfold putEntry
  split
  · next hlt =>
    rw [List.getElem?_set]
    by_cases hj : i = j
    · subst hj
      simp [hlt]
    · rw [if_neg hj, if_neg (Ne.symm hj)]
  · next hlt =>
    obtain rfl : i = es.length := by omega
    by_cases hj : j = es.length
    · simp [hj]
    · rw [if_neg hj]
      by_cases hlt' : j < es.length
      · rw [List.getElem?_append_left hlt']
      · rw [List.getElem?_eq_none (by simp; omega), List.getElem?_eq_none (by omega)]

theorem hasEntry_putEntry (hi : i ≤ es.length) :
    HasEntry (putEntry es i x) j nm m ↔ j = i ∧ x = some (nm, m) ∨ j ≠ i ∧ HasEntry es j nm m := by
  unfold HasEntry
  rw [putEntry_getElem? hi]
  by_cases hj : j = i <;> simp [hj]

/-- What a directory with an entry written is. -/
structure EntryPut (ino : ℕ → Option DiskInode) (R : Multiset Ref) (L : Finset ℕ) (n i : ℕ)
    (x : Entry) (s : FS) (d : DiskInode) (r : ℕ) (t : FS) (d' : DiskInode) : Prop where
  inv : InodeInv t (upd ino n (some d')) R L none
  elsewhere : Elsewhere ino n s t
  type : d'.type = d.type
  link_count : d'.link_count = d.link_count
  inode_num : d'.inode_num = d.inode_num
  size : 32 * (d'.size.toNat / 32) = d'.size.toNat
  mapped : ∀ p < d'.size.toNat, need t.disk d' (p / 4096) = 0
  entries : r = 32 ∧ entriesOf t.disk d' = putEntry (entriesOf s.disk d) i x ∨
    r ≠ 32 ∧ i = d.size.toNat / 32 ∧ nodeOf t.disk d' = nodeOf s.disk d

/-- **Writing an entry**: one that is there is overwritten, and at the end there may be no room. -/
theorem wp_writeDentry (h : InodeInv s ino R L none) (hk : (k, n) ∈ R) (hd : ino n = some d)
    (hok : DirOk s.disk d) (hlock : k ∈ L) (he : e.name.Fits) (hi : i ≤ d.size.toNat / 32) :
    wp (Stops W) (writeDentry k e (32 * i))
      (fun r t => ∃ d', EntryPut ino R L n i e.entry s d r t d') s := by
  have hsize := hok.size
  have hlt := hok.size_lt h.blocks hd
  unfold writeDentry
  refine wp_mono (wp_inodeWrite_block h hk hd hok.type_ne hlock _ (by omega) (by omega)
    (by omega)) ?_
  rintro r t ⟨d', hw, hall⟩
  refine ⟨d', hw.inv, hw.elsewhere, hw.type, hw.link_count, hw.inode_num, ?_, fun p hp => ?_, ?_⟩
  · have := hw.size
    rcases hall with rfl | ⟨rfl, -⟩ <;> omega
  · have hsz := hw.size
    by_cases hp' : 32 * i ≤ p ∧ p < 32 * i + r
    · exact hw.mapped p hp'.1 hp'.2
    · have := hw.need_le (p / 4096)
      rw [hok.mapped p (by omega)] at this
      omega
  · have hsz := hw.size
    rcases hall with rfl | ⟨rfl, hneed⟩
    · refine .inl ⟨rfl, ?_⟩
      have hlen : d'.size.toNat / 32 = max (d.size.toNat / 32) (i + 1) := by omega
      have hnew : dentryAt t.disk d' i = e := by
        refine Dentry.ofBytes_bytes he fun x hx => ?_
        rw [hw.bytes, if_pos (by omega), Nat.add_sub_cancel_left]
      have hold : ∀ j, j ≠ i → dentryAt t.disk d' j = dentryAt s.disk d j := by
        intro j hj
        refine Dentry.ofBytes_congr fun x hx => ?_
        rw [hw.bytes, if_neg (by omega)]
      refine ext_getElem? fun j => ?_
      rw [putEntry_getElem? (by rw [length_entriesOf]; exact hi)]
      by_cases hj : j = i
      · subst hj
        rw [if_pos rfl, entriesOf_getElem? _ (by omega), hnew]
      · rw [if_neg hj]
        by_cases hjl : j < d.size.toNat / 32
        · rw [entriesOf_getElem? _ hjl, entriesOf_getElem? _ (by omega), hold j hj]
        · rw [List.getElem?_eq_none (by rw [length_entriesOf]; omega),
            List.getElem?_eq_none (by rw [length_entriesOf]; omega)]
    · refine .inr ⟨by decide, ?_, ?_⟩
      · by_contra hne
        exact hneed (hok.mapped (32 * i) (by omega))
      · refine Node.ext hw.type hw.link_count (UInt32.toNat_inj.mp (by simp only [nodeOf]; omega))
          (funext fun p => ?_)
        exact (hw.bytes p).trans (if_neg (by omega))

end OsLab
