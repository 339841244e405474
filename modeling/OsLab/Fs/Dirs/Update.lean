import OsLab.Fs.Dirs.Link
/-!
# Links and new inodes

`Keeps ino T s ino' t` says that a program changed the inodes of `T` at most, and is how the
programs above are described: first what it may have changed, then what became of that. Here it is
said of a change of a link count and of `inode_alloc`. -/

namespace OsLab

open Prog Bytes

variable {s t u : FS} {ino ino' ino'' : ℕ → Option DiskInode} {R : Multiset Ref} {L : Finset ℕ}
  {p : Option ℕ} {k n m i : ℕ} {d : DiskInode} {T T' : Set ℕ} {disk : ℕ → Block} {c : UInt16}
  {W : Prop}

/-- Inodes outside `T` are as they were, and so is what they store. -/
structure Keeps (ino : ℕ → Option DiskInode) (T : Set ℕ) (s : FS) (ino' : ℕ → Option DiskInode)
    (t : FS) : Prop where
  spares : Spares ino T s t
  same : ∀ m, m ∉ T → ino' m = ino m

namespace Keeps

theorem of_spares (h : Spares ino T s t) : Keeps ino T s ino t := ⟨h, fun _ _ => rfl⟩

theorem refl (s : FS) : Keeps ino T s ino s := .of_spares (.refl s)

theorem trans (h : Keeps ino T s ino' t) (h' : Keeps ino' T t ino'' u) : Keeps ino T s ino'' u :=
  ⟨h.spares.trans h'.spares fun m _ hm hdm => (h.same m hm).trans hdm,
    fun m hm => (h'.same m hm).trans (h.same m hm)⟩

theorem mono (h : Keeps ino T s ino' t) (hT : T ⊆ T') : Keeps ino T' s ino' t :=
  ⟨h.spares.mono hT, fun m hm => h.same m fun hm' => hm (hT hm')⟩

theorem viewOf_eq (h : Keeps ino T s ino' t) (hn : n ∉ T) :
    viewOf t.disk ino' n = viewOf s.disk ino n :=
  h.spares.viewOf_eq hn (h.same n hn)

/-- One inode was replaced. -/
theorem of_upd {x : Option DiskInode} (h : Spares ino T s t) (hn : n ∈ T) :
    Keeps ino T s (upd ino n x) t := by
  refine ⟨h, fun m hm => upd_of_ne ?_⟩
  rintro rfl
  exact hm hn

end Keeps

theorem viewOf_some (hd : ino n = some d) : viewOf disk ino n = some (nodeOf disk d) := by
  unfold viewOf
  rw [hd]
  rfl

theorem viewOf_none (hd : ino n = none) : viewOf disk ino n = none := by
  unfold viewOf
  rw [hd]
  rfl

/-- What is dropped has no reference left and no links. -/
theorem dropped_of_free (hR : ∀ x ∈ R, x.2 ≠ n) (hd : ino n = some d) (hl : d.link_count = 0) :
    dropped ino n R = upd ino n none := by
  unfold dropped
  rw [if_pos]
  exact ⟨hR, by simp [hd, hl]⟩

theorem samePtrs_links : SamePtrs d { d with link_count := c } := ⟨rfl, rfl, rfl⟩

theorem entriesOf_links (c : UInt16) :
    entriesOf disk { d with link_count := c } = entriesOf disk d :=
  entriesOf_congr rfl (samePtrs_links.byteAt_eq disk)

namespace FsInv

/-- A link count does not show in the directories. -/
theorem dirsOf_links (hd : ino n = some d) (c : UInt16) :
    dirsOf s.disk (upd ino n (some { d with link_count := c })) = dirsOf s.disk ino := by
  funext m
  by_cases hm : m = n
  · subst hm
    unfold dirsOf View.dirs
    rw [viewOf_some upd_self, viewOf_some hd]
    simp only [Option.bind_some]
    change (if d.type = FS_TYPE_DIR then some
      (entriesOf s.disk { d with link_count := c }) else none) =
      if d.type = FS_TYPE_DIR then some (entriesOf s.disk d) else none
    rw [entriesOf_links]
  · exact (Spares.refl s : Spares ino ∅ s s).dirsOf_eq (Set.notMem_empty m) (upd_of_ne hm)

/-- **The link count of a loaded inode is set.** -/
theorem wp_setLinks {E : Halt → Prop} (h : FsInv s ino R L none) (hk : (k, n) ∈ R)
    (hd : ino n = some d) {f : DiskInode → DiskInode} (hf : f d = { d with link_count := c }) :
    wp E (modifyDisk k f)
      (fun _ t => FsInv t (upd ino n (some { d with link_count := c })) R L none ∧
      Keeps ino {n} s (upd ino n (some { d with link_count := c })) t ∧ t.disk = s.disk) s := by
  rw [wp_modifyDisk, h.slot hk hd, hf]
  have hkind := h.kinds hd
  refine ⟨h.of_upd (h.inodes.modify hk hd samePtrs_links rfl rfl) hkind (fun ht => ?_)
      (fun _ _ _ _ => .refl _ _) ?_,
    ⟨⟨rfl, id, fun _ _ _ _ => .refl _ _, fun _ _ _ => Iff.rfl, fun _ => id⟩,
      fun m hm => upd_of_ne hm⟩, rfl⟩
  · exact (h.dirs hd ht).congr rfl rfl (samePtrs_links.byteAt_eq _) fun i =>
      (samePtrs_links.need_eq _ i).le
  · rw [Store.setInode_disk, dirsOf_links hd]
    exact h.dcache.mono rfl rfl (fun _ => id) fun m es _ hes => ⟨es, hes, fun _ _ _ => id⟩

/-- Inode `n` is new, with a reference in slot `k`, and its number was never used. -/
structure New (ino : ℕ → Option DiskInode) (R : Multiset Ref) (L : Finset ℕ) (type : UInt16) (n : ℕ)
    (s : FS) (k : ℕ) (t : FS) : Prop where
  fresh : ino n = none
  unseen : (tableAt s.disk n).type = 0
  first : ∀ m, 1 ≤ m → m < n → (tableAt s.disk m).type ≠ 0
  unheld : ∀ x ∈ R, x.2 ≠ n
  inv : FsInv t (upd ino n (some (newInode type n))) ((k, n) ::ₘ R) L (some k)
  keeps : Keeps ino {n} s (upd ino n (some (newInode type n))) t

theorem size_newInode (type : UInt16) : (newInode type n).size.toNat = 0 := rfl

theorem entriesOf_newInode (type : UInt16) : entriesOf disk (newInode type n) = [] :=
  List.length_eq_zero_iff.mp (by rw [length_entriesOf, size_newInode])

/-- **`inode_alloc`.** -/
theorem wp_inodeAlloc {type : UInt16} (h : FsInv s ino R L none)
    (htype : type = FS_TYPE_FILE ∨ type = FS_TYPE_DIR) :
    wp (Stops W) (inodeAlloc type) (fun k t => ∃ n, New ino R L type n s k t) s := by
  refine wp_mono (OsLab.wp_inodeAlloc h.inodes (htype.imp_right .inl)) ?_
  rintro k t ⟨n, ha⟩
  have hsame : ∀ {m dm}, ino m = some dm → SameBlocks s.disk t.disk dm :=
    fun hd => h.inodes.blocks.sameBlocks hd ha.data
  have hsp : Spares ino {n} s t := by
    refine ⟨?_, ?_, fun m dm _ hdm => hsame hdm, fun m hm hmn => ?_,
      fun m hm => ⟨hm.1, fun hz => hm.2 ?_⟩⟩
    · rw [ha.mem]
    · rw [ha.mem]
      exact id
    · rw [ha.types m hm]
      exact and_iff_left hmn
    · exact ((ha.types m hm.1).mp hz).1
  refine ⟨n, ha.fresh, ha.wasFree, ha.first, ?_,
    h.of_upd ha.inv htype (fun ht => ?_) (fun _ _ _ => hsame) ?_,
    .of_upd hsp rfl⟩
  · rintro ⟨j, m⟩ hjm rfl
    exact h.inodes.cache.notMem_of_none ha.fresh hjm
  · refine ⟨ht, by rw [size_newInode], fun p hp => absurd hp (by rw [size_newInode]; omega), ?_⟩
    rw [entriesOf_newInode]
    exact fun i j nm a b ha => absurd ha.lt (Nat.not_lt_zero i)
  · refine h.dcache.mono (by rw [ha.mem]) (by rw [ha.mem]) hsp.seen fun m es hseen hes => ?_
    have hmn : m ≠ n := by
      rintro rfl
      exact hseen.2 ha.wasFree
    rw [hsp.dirsOf_eq hmn (upd_of_ne hmn)] at hes
    exact ⟨es, hes, fun _ _ _ => id⟩

end FsInv

end OsLab
