import OsLab.Fs.Tree.Create
/-!
# Removing

`dir_unlink` and `dir_rmdir` free the entry, tell the dentry cache, and take links away; the inode
goes with its last reference. Since the entry is there its block is there, so it can always be
overwritten: the exits for a short write are never taken, and with them the one that would keep a
directory locked. -/

namespace OsLab

open Prog Bytes Multiset Finset

variable {s t u : FS} {ino ino' : ℕ → Option DiskInode} {R : Multiset Ref} {L : Finset ℕ}
  {p : Option ℕ} {k c n m q i : ℕ} {d d' dm dq : DiskInode} {name nm : Name} {T : Shape}
  {v v' : View} {isdir : Bool} {r : ℤ} {x : Entry} {W : Prop}

/-! ## Freeing an entry -/

/-- An entry that is in use can be overwritten. -/
theorem wp_writeFree (h : FsInv s ino R L none) (hk : (k, q) ∈ R) (hlock : k ∈ L)
    (hq : ino q = some dq) (hdir : dq.type = FS_TYPE_DIR)
    (he : HasEntry (entriesOf s.disk dq) i nm m) :
    wp (Stops W) (writeDentry k Dentry.free (32 * i))
      (fun r t => r = 32 ∧ ∃ d', EntryPut ino R L q i none s dq 32 t d') s := by
  have hlt := he.lt
  rw [length_entriesOf] at hlt
  refine wp_mono (wp_writeDentry h.inodes hk hq (h.dirs hq hdir) hlock (e := Dentry.free)
    (i := i) ?_ hlt.le) ?_
  · exact ⟨Nat.zero_le _, List.not_mem_nil⟩
  · rintro r t ⟨d', hput⟩
    rcases hput.entries with ⟨rfl, -⟩ | ⟨-, hi, -⟩
    · exact ⟨rfl, d', hput⟩
    · omega

theorem EntryPut.entries_eq (h : EntryPut ino R L q i x s dq 32 t d') :
    entriesOf t.disk d' = putEntry (entriesOf s.disk dq) i x :=
  h.entries.elim And.right fun hne => absurd rfl hne.1

theorem EntryPut.keeps {r : ℕ} (h : EntryPut ino R L q i x s dq r t d') :
    Keeps ino {q} s (upd ino q (some d')) t :=
  .of_upd (.of_elsewhere h.elsewhere rfl) rfl

/-- **The dentry cache is told of an entry that was freed.** -/
theorem EntryPut.wp_dcacheRemove {E : Halt → Prop} (hput : EntryPut ino R L q i none s dq 32 t d')
    (h : FsInv s ino R L none) (hq : ino q = some dq) (hdir : dq.type = FS_TYPE_DIR)
    (he : HasEntry (entriesOf s.disk dq) i (Name.trunc name) m) :
    wp E (dcacheRemove q name)
      (fun _ u => FsInv u (upd ino q (some d')) R L none ∧ DcacheOnly t u) t := by
  have hes := hput.entries_eq
  have hsp := Spares.of_elsewhere (T := {q}) hput.elsewhere rfl
  have hdc : DcacheOk t.mem (dirsOf s.disk ino) (Seen t.disk) :=
    h.dcache.mono (by rw [hput.elsewhere.mem]) (by rw [hput.elsewhere.mem]) hsp.seen
      fun n es _ hes =>
      ⟨es, hes, fun _ _ _ => id⟩
  have hkeep : ∀ j nm a, nm ≠ Name.trunc name → HasEntry (entriesOf s.disk dq) j nm a →
      HasEntry (entriesOf t.disk d') j nm a := by
    intro j nm a hne hj
    rw [hes, hasEntry_putEntry he.lt.le]
    refine .inr ⟨?_, hj⟩
    rintro rfl
    have := he.symm.trans hj
    simp only [Option.some.injEq, Prod.mk.injEq] at this
    exact hne this.1.symm
  refine wp_mono (hdc.remove (dirsOf_of_dir hq hdir) hkeep) ?_
  rintro _ u ⟨hdc', table, w, rfl⟩
  have hnames : NamesDistinct (entriesOf t.disk d') := by
    rw [hes]
    exact (h.dirs hq hdir).names.free he.lt.le
  rw [← hput.dirsOf_eq hdir] at hdc'
  exact ⟨h.of_upd (hput.inv.setDcache table w) (hput.type ▸ h.kinds hq)
    (⟨·, hput.size, hput.mapped, hnames⟩)
    hput.elsewhere.others hdc', ⟨table, w, rfl⟩⟩

/-! ## What is left -/

/-- The inode has no links, and goes unless a reference is left. -/
theorem dropped_of_unlinked (hd : ino m = some d) (hl : d.link_count = 0) :
    dropped ino m R = upd ino m none ∧ (∀ x ∈ R, x.2 ≠ m) ∨ dropped ino m R = ino ∧
      ∃ k, (k, m) ∈ R := by
  by_cases hR : ∀ x ∈ R, x.2 ≠ m
  · exact .inl ⟨dropped_of_free hR hd hl, hR⟩
  · simp only [not_forall, not_not] at hR
    obtain ⟨⟨k, m'⟩, hk, rfl⟩ := hR
    exact .inr ⟨dropped_of_mem hk, k, hk⟩

/-- Entry `i` of directory `q` named inode `m` and is free now. A directory that goes had its two
entries only, and no longer counts in its parent. -/
structure GoneEntry (v v' : View) (q i : ℕ) (nm : Name) (m : ℕ) (isdir : Bool) : Prop where
  frees : Frees v v' q i nm m
  parent : ∃ nd nd', v q = some nd ∧ v' q = some nd' ∧
    nd'.link_count = if isdir then nd.link_count - 1 else nd.link_count
  node : ∃ nd, v m = some nd ∧ (nd.type = FS_TYPE_DIR ↔ isdir = true)
  after : v' m = none ∨ ∃ nd, v' m = some nd ∧ nd.link_count = 0
  empty : isdir = true → ∀ j nm' a, 2 ≤ j → ¬ v.Has m j nm' a

/-- What a removal comes to. -/
structure Removed (ino : ℕ → Option DiskInode) (R : Multiset Ref) (L : Finset ℕ) (q i : ℕ)
    (nm : Name) (m : ℕ) (isdir : Bool) (s t : FS) (ino' : ℕ → Option DiskInode) : Prop where
  inv : FsInv t ino' R L none
  keeps : Keeps ino {q, m} s ino' t
  gone : GoneEntry (viewOf s.disk ino) (viewOf t.disk ino') q i nm m isdir
  held : ∀ d, ino' m = some d → ∃ k, (k, m) ∈ R
  child : ∀ d, ino' m = some d → ∃ dm c, ino m = some dm ∧ d = { dm with link_count := c } ∧
    SameBlocks s.disk t.disk dm

/-- Nothing was changed before the removal. -/
theorem Removed.before (hs : Spares ino ∅ s t) (h : Removed ino R L q i nm m isdir t u ino') :
    Removed ino R L q i nm m isdir s u ino' := by
  have hgone := h.gone
  rw [viewOf_spares hs] at hgone
  refine ⟨h.inv, (Keeps.of_spares (hs.mono (Set.empty_subset _))).trans h.keeps, hgone, h.held,
    fun d hd => ?_⟩
  obtain ⟨dm, c, hm, hc, hsame⟩ := h.child d hd
  exact ⟨dm, c, hm, hc, (hs.others m dm (Set.notMem_empty m) hm).trans hsame⟩

/-- Nothing was changed after the removal. -/
theorem Removed.after {R' : Multiset Ref} {L' : Finset ℕ}
    (h : Removed ino R L q i nm m isdir s t ino') (hs : Spares ino' ∅ t u)
    (hu : FsInv u ino' R' L' none) (hR : ∀ k, (k, m) ∈ R → (k, m) ∈ R') :
    Removed ino R' L' q i nm m isdir s u ino' := by
  have hgone := h.gone
  rw [← viewOf_spares hs] at hgone
  refine ⟨hu, h.keeps.trans (.of_spares (hs.mono (Set.empty_subset _))), hgone, fun d hd => ?_,
    fun d hd => ?_⟩
  · obtain ⟨k, hk⟩ := h.held d hd
    exact ⟨k, hR k hk⟩
  · obtain ⟨dm, c, hm, rfl, hsame⟩ := h.child d hd
    have hptrs : SamePtrs { dm with link_count := c } dm := ⟨rfl, rfl, rfl⟩
    exact ⟨dm, c, hm, rfl, hsame.trans (hptrs.sameBlocks (hs.others m _ (Set.notMem_empty m) hd))⟩

/-- What a removal with its entry comes to: an error and nothing, or `0` and the entry is gone. -/
def RemovedOr (ino : ℕ → Option DiskInode) (R : Multiset Ref) (L : Finset ℕ) (q i : ℕ) (nm : Name)
    (m : ℕ) (isdir : Bool) (s : FS) (r : ℤ) (t : FS) : Prop :=
  (r ≠ 0 ∧ Spares ino ∅ s t ∧ FsInv t ino R L none) ∨
    r = 0 ∧ ∃ ino' d', Removed ino R L q i nm m isdir s t ino' ∧ ino' q = some d'

theorem RemovedOr.of_spares (hs : Spares ino ∅ s t) (h : RemovedOr ino R L q i nm m isdir t r u) :
    RemovedOr ino R L q i nm m isdir s r u := by
  rcases h with ⟨hr, hsp, hinv⟩ | ⟨hr, ino', d', hrem, hq'⟩
  · exact .inl ⟨hr, hs.andThen hsp, hinv⟩
  · exact .inr ⟨hr, ino', d', hrem.before hs, hq'⟩

/-- The inodes after the entry and the links are gone, before the child's reference is. -/
def unlinked (ino : ℕ → Option DiskInode) (q m : ℕ) (d' dm : DiskInode) : ℕ → Option DiskInode :=
  upd (upd ino q (some d')) m (some { dm with link_count := dm.link_count - 1 })

/-- Entry `i` of the locked directory `q` names inode `m`, and slot `c` has a reference to it. -/
structure Victim (ino : ℕ → Option DiskInode) (R : Multiset Ref) (L : Finset ℕ) (k q c i m : ℕ)
    (p : Option ℕ) (nm : Name) (dq dm : DiskInode) (s : FS) : Prop where
  inv : FsInv s ino ((c, m) ::ₘ R) L p
  pend : p = none ∨ p = some c
  parent : (k, q) ∈ R
  locked : k ∈ L
  live : ino q = some dq
  dir : dq.type = FS_TYPE_DIR
  child : ino m = some dm
  links : dm.link_count ≠ 0
  file : dm.type ≠ FS_TYPE_DIR → dm.link_count = 1
  bare : dm.type = FS_TYPE_DIR → OnlyDots (entriesOf s.disk dm) → dm.link_count = 1
  entry : HasEntry (entriesOf s.disk dq) i nm m
  two : 2 ≤ i

/-- The child is locked too. -/
theorem Victim.wp_inodeOpen (h : Victim ino R L k q c i m p nm dq dm s) (hc : c ∉ L) :
    wp (Stops W) (inodeOpen c) (fun _ t =>
    Victim ino R (insert c L) k q c i m none nm dq dm t ∧ Spares ino ∅ s t) s := by
  refine wp_mono (h.inv.wp_inodeOpen (mem_cons_self _ _) h.pend fun hl => absurd hl hc) ?_
  rintro _ t ⟨-, ht, hst, hdisk⟩
  exact ⟨{ h with
    inv := ht, pend := .inl rfl, locked := mem_insert_of_mem h.locked, bare := hdisk ▸ h.bare,
      entry := hdisk ▸ h.entry }, hst⟩

/-- **The child is closed.** -/
theorem Removed.of_close (h : Victim ino R (insert c L) k q c i m none nm dq dm s) (hmq : m ≠ q)
    (hone : dm.link_count = 1) (hkind : dm.type = FS_TYPE_DIR ↔ isdir = true)
    (hempty : isdir = true → OnlyDots (entriesOf s.disk dm))
    (ht : FsInv t (unlinked ino q m d' dm) ((c, m) ::ₘ R) (insert c L) none) (hc : c ∉ L)
    (hk : Keeps ino {q, m} s (unlinked ino q m d' dm) t) (htype : d'.type = dq.type)
    (hlink : d'.link_count = if isdir then dq.link_count - 1 else dq.link_count)
    (hes : entriesOf t.disk d' = putEntry (entriesOf s.disk dq) i none)
    (hsame : SameBlocks s.disk t.disk dm) :
    wp (Stops W) (do inodeClose c; pure (0 : ℤ)) (RemovedOr ino R L q i nm m isdir s) t := by
  have hself : unlinked ino q m d' dm m = some { dm with link_count := dm.link_count - 1 } :=
    upd_self
  have hqat : unlinked ino q m d' dm q = some d' := (upd_of_ne (Ne.symm hmq)).trans upd_self
  have hzero : ({ dm with link_count := dm.link_count - 1 } : DiskInode).link_count = 0 := by
    change dm.link_count - 1 = 0
    rw [hone]
    decide
  refine wp_then (ht.wp_inodeClose (mem_insert_self c L)) ?_
  rintro _ u ⟨hu, hsu⟩
  rw [erase_insert hc] at hu
  have hku : Keeps ino {q, m} s (dropped (unlinked ino q m d' dm) m R) u := by
    refine hk.trans ⟨hsu.mono (Set.empty_subset _), fun x hx => ?_⟩
    unfold dropped
    split
    · exact upd_of_ne fun he => hx (.inr he)
    · rfl
  have hq' : dropped (unlinked ino q m d' dm) m R q = some d' := by
    unfold dropped
    split
    · rw [upd_of_ne (Ne.symm hmq)]
      exact hqat
    · exact hqat
  have hvq : viewOf s.disk ino q = some (nodeOf s.disk dq) := viewOf_some h.live
  have hvq' : viewOf u.disk (dropped (unlinked ino q m d' dm) m R) q = some (nodeOf u.disk d') :=
    viewOf_some hq'
  have hes' : entriesOf u.disk d' = putEntry (entriesOf s.disk dq) i none := by
    rw [hsu.entriesOf_eq (Set.notMem_empty q) hqat]
    exact hes
  have hdrop := dropped_of_unlinked (R := R) hself hzero
  refine .inr ⟨rfl, _, d', ⟨hu, hku,
    ⟨?_, ⟨_, _, hvq, hvq', hlink⟩, ⟨_, viewOf_some h.child, hkind⟩, ?_,
    fun hd j nm' a hj hh => ?_⟩, fun d hd => ?_, fun d hd => ?_⟩, hq'⟩
  · exact Frees.of_put hvq h.dir hvq' (htype.trans h.dir) h.entry hes' h.two hmq fun x hxq hxm =>
      hku.viewOf_eq (by simp [hxq, hxm])
  · rcases hdrop with ⟨hino, -⟩ | ⟨hino, -⟩
    · left
      rw [hino]
      exact viewOf_none upd_self
    · right
      rw [hino]
      exact ⟨_, viewOf_some hself, hzero⟩
  · exact hempty hd j nm' a hj
      ((View.has_iff (View.dirs_of_node (viewOf_some h.child) (hkind.mpr hd))).mp hh)
  · rcases hdrop with ⟨hino, -⟩ | ⟨-, hR⟩
    · rw [hino, upd_self] at hd
      cases hd
    · exact hR
  · rcases hdrop with ⟨hino, -⟩ | ⟨hino, -⟩
    · rw [hino, upd_self] at hd
      cases hd
    · rw [hino, hself] at hd
      cases hd
      have hptrs : SamePtrs { dm with link_count := dm.link_count - 1 } dm := ⟨rfl, rfl, rfl⟩
      exact ⟨dm, _, h.child, rfl,
        hsame.trans (hptrs.sameBlocks (hsu.others m _ (Set.notMem_empty m) hself))⟩

/-! ## The two removals -/

/-- A file or a directory that may not be removed is closed again. -/
theorem Victim.wp_close (h : Victim ino R (insert c L) k q c i m none nm dq dm s) (hc : c ∉ L)
    (hr : r ≠ 0) :
    wp (Stops W) (do inodeClose c; pure r) (RemovedOr ino R L q i nm m isdir s) s := by
  refine wp_then (h.inv.wp_closeLinked hc h.child h.links) ?_
  exact fun _ t ⟨ht, hst⟩ => .inl ⟨hr, hst, ht⟩

/-- **`dir_unlink` with the entry it found.** -/
theorem Victim.wp_unlinkFound (h : Victim ino R L k q c i m p (Name.trunc name) dq dm s)
    (hc : c ∉ L) :
    wp (Stops W) (unlinkFound k name c (32 * i))
      (RemovedOr ino R L q i (Name.trunc name) m false s) s := by
  have hcR := mem_cons_self (c, m) R
  have hkR : (k, q) ∈ (c, m) ::ₘ R := mem_cons_of_mem h.parent
  unfold unlinkFound
  refine wp_then (h.wp_inodeOpen hc) ?_
  rintro _ t ⟨ht, hst⟩
  refine wp_mono ?_ fun _ _ => RemovedOr.of_spares hst
  rw [wp_bind, wp_getInode, ht.inv.slot hcR ht.child]
  split
  · exact ht.wp_close hc (by decide)
  · next hfile =>
    have hmq : m ≠ q := by
      rintro rfl
      cases h.child.symm.trans h.live
      exact hfile h.dir
    refine wp_then (ht.inv.wp_setLinks hcR ht.child rfl) ?_
    rintro _ t1 ⟨h1, hk1, hdisk1⟩
    have hq1 : upd ino m (some { dm with link_count := dm.link_count - 1 }) q = some dq :=
      (upd_of_ne (Ne.symm hmq)).trans h.live
    have he1 : HasEntry (entriesOf t1.disk dq) i (Name.trunc name) m := by
      rw [hdisk1]; exact ht.entry
    refine wp_then (wp_writeFree h1 hkR ht.locked hq1 h.dir he1) ?_
    rintro r t2 ⟨rfl, d', hput⟩
    rw [if_neg (by simp), wp_bind, wp_getInode, hput.inv.slot hkR upd_self,
      (hput.inv.cache.range upd_self).2.2.1, wp_bind]
    refine wp_mono (hput.wp_dcacheRemove h1 hq1 h.dir he1) ?_
    rintro _ t3 ⟨h3, honly⟩
    have hcomm : upd (upd ino m (some { dm with link_count := dm.link_count - 1 })) q
      (some d') = unlinked ino q m d' dm :=
      upd_comm hmq
    have hkeeps := ((hk1.mono (by simp)).trans
      (hput.keeps.mono (by simp : ({q} : Set ℕ) ⊆ {q, m}))).trans
      (.of_spares (.of_dcacheOnly honly))
    rw [hcomm] at h3 hkeeps
    have hkind : dm.type = FS_TYPE_DIR ↔ false = true := by simp [hfile]
    refine Removed.of_close ht hmq
      (h.file hfile) hkind nofun h3 hc hkeeps hput.type hput.link_count ?_ ?_
    · rw [honly.disk, hput.entries_eq, hdisk1]
    · have hptrs : SamePtrs { dm with link_count := dm.link_count - 1 } dm := ⟨rfl, rfl, rfl⟩
      rw [honly.disk, ← hdisk1]
      exact hptrs.sameBlocks (hput.elsewhere.others m _ hmq upd_self)

/-- **`dir_rmdir` with the entry it found.** -/
theorem Victim.wp_rmdirFound (h : Victim ino R L k q c i m p (Name.trunc name) dq dm s)
    (hc : c ∉ L) :
    wp (Stops W) (rmdirFound k name c (32 * i))
      (RemovedOr ino R L q i (Name.trunc name) m true s) s := by
  have hcR := mem_cons_self (c, m) R
  have hkR : (k, q) ∈ (c, m) ::ₘ R := mem_cons_of_mem h.parent
  unfold rmdirFound
  refine wp_then (h.wp_inodeOpen hc) ?_
  rintro _ t ⟨ht, hst⟩
  -- the parent is locked and the child was not
  have hmq : m ≠ q := by
    rintro rfl
    exact hc ((h.inv.inodes.cache.uniq hcR hkR) ▸ h.locked)
  refine wp_mono ?_ fun _ _ => RemovedOr.of_spares hst
  rw [wp_bind, wp_getInode, ht.inv.slot hcR ht.child]
  split
  · exact ht.wp_close hc (by decide)
  · next hT =>
    rw [not_not] at hT
    rw [wp_bind]
    refine wp_dirIsempty ht.inv hcR ht.child hT (fun hyes => ?_) fun hno => ?_
    · have hclean : (Bool.not true = true) = False := by simp
      simp only [hclean, if_false]
      refine wp_then (wp_writeFree ht.inv hkR ht.locked h.live h.dir ht.entry) ?_
      rintro r t2 ⟨rfl, d', hput⟩
      have hm2 : upd ino q (some d') m = some dm := (upd_of_ne hmq).trans h.child
      rw [if_neg (by simp), wp_bind, wp_getInode, hput.inv.slot hkR upd_self,
        (hput.inv.cache.range upd_self).2.2.1, wp_bind,
        wp_getInode, hput.inv.slot hcR hm2, (hput.inv.cache.range hm2).2.2.1, wp_bind]
      refine wp_mono (hput.wp_dcacheRemove ht.inv h.live h.dir ht.entry) ?_
      rintro _ t3 ⟨h3, honly3⟩
      refine wp_then (h3.dcache.invalidate fun _ _ => rfl) ?_
      rintro _ t4 ⟨hdc, honly4⟩
      have h4 := h3.of_dcacheOnly honly4 hdc
      have honly := honly3.trans honly4
      have hkeeps4 := (hput.keeps.mono (by simp : ({q} : Set ℕ) ⊆ {q, m})).trans
        (.of_spares (.of_dcacheOnly honly))
      -- the parent loses the link of `..`, and the child its own
      rw [if_pos hT, wp_bind]
      refine wp_mono (h4.wp_setLinks hkR upd_self rfl) ?_
      rintro _ t5 ⟨h5, hk5, hdisk5⟩
      rw [upd_idem] at h5 hk5
      have hm5 : upd ino q (some { d' with link_count := d'.link_count - 1 }) m = some dm :=
        (upd_of_ne hmq).trans h.child
      refine wp_then (h5.wp_setLinks hcR hm5 rfl) ?_
      rintro _ t6 ⟨h6, hk6, hdisk6⟩
      have hkeeps6 := (hkeeps4.trans (hk5.mono (by simp))).trans (hk6.mono (by simp))
      have hkind : dm.type = FS_TYPE_DIR ↔ true = true := by simp [hT]
      refine Removed.of_close ht hmq (ht.bare hT hyes) hkind
        (fun _ => hyes) h6 hc hkeeps6 hput.type ?_ ?_ ?_
      · change d'.link_count - 1 = _
        rw [hput.link_count]
        rfl
      · rw [hdisk6, hdisk5, honly.disk, entriesOf_links, hput.entries_eq]
      · rw [hdisk6, hdisk5, honly.disk]
        exact hput.elsewhere.others m dm hmq h.child
    · have hclean : (Bool.not false = true) = True := by simp
      simp only [hclean, if_true]
      exact ht.wp_close hc (by decide)

/-! ## In the tree -/

theorem toNat_pred {a : UInt16} (h : 1 ≤ a.toNat) : (a - 1).toNat + 1 = a.toNat := by
  rw [UInt16.toNat_sub_of_le a 1 (UInt16.le_iff_toNat_le.mpr h)]
  change a.toNat - 1 + 1 = _
  omega

/-- A directory of the tree is named by itself in its first two entries at most. -/
theorem IsTree.self_lt (h : IsTree v T) (hn : n ∈ T.dirs) (he : v.Has n i nm n) : i < 2 := by
  by_contra hi
  obtain ⟨-, hn1, hpar⟩ := h.child hn (by omega) he (h.dir hn)
  have hlt := h.depth_lt hn hn1
  rw [hpar] at hlt
  exact lt_irrefl _ hlt

/-- The parent of a directory has a link for it, and one of its own. -/
theorem IsTree.links_of_child {nd : Node} (h : IsTree v T) (hq : q ∈ T.dirs) (hv : v q = some nd)
    (htwo : 2 ≤ i) (he : v.Has q i nm m) (hd : v.IsDir m) : 2 ≤ nd.link_count.toNat := by
  have hlinks := h.links hq hv
  have hpos : 0 < (v.subs q).ncard := by
    rw [Set.ncard_pos View.subs_finite]
    exact ⟨i, htwo, nm, m, he, hd⟩
  split at hlinks <;> omega

/-- **`dir_unlink` and `dir_rmdir` up to the entry.** -/
theorem wp_removeIn {found : ℕ → ℕ → FSM ℤ} {Q : ℤ → FS → Prop} (h : FsInv s ino R L none)
    (hk : (k, q) ∈ R) (hq : ino q = some dq) (hdir : dq.type = FS_TYPE_DIR)
    (hclosed : Closed ino (entriesOf s.disk dq)) (hroom : Room 1 R)
    (hno : ∀ r t, r ≠ 0 → Spares ino ∅ s t → FsInv t ino R L none → Q r t) (hfound : ∀ c i m p t,
      isDots name = false → HasEntry (entriesOf s.disk dq) i (Name.trunc name) m →
      Spares ino ∅ s t → t.disk = s.disk → (p = none ∨ p = some c) →
        FsInv t ino ((c, m) ::ₘ R) L p →
      wp (Stops W) (found c (32 * i)) Q t) : wp (Stops W) (removeIn found k name) Q s := by
  unfold removeIn assertDir
  simp only [wp_bind, wp_getInode, wp_asserts, h.slot hk hq, hdir, decide_true, if_true]
  split
  · exact hno _ s (by decide) (.refl s) h
  · next hdots =>
    rw [Bool.not_eq_true] at hdots
    refine wp_then (wp_dirLookup h hk hq hdir hclosed hroom) ?_
    rintro (_ | ⟨c, offset⟩) t ⟨hdisk, hst, hres⟩
    · exact hno _ t (by decide) hst hres.2
    · obtain ⟨i, m, rfl, he, ht⟩ := hres
      exact hfound c i m _ t hdots he hst hdisk (pend_or _ _) ht

section Tree

variable (h : IsTree (viewOf s.disk ino) T)

include h

/-- A name other than `.` and `..` is not that of the first two entries. -/
theorem IsTree.two_le (hq : q ∈ T.dirs) (hdots : isDots name = false)
    (he : (viewOf s.disk ino).Has q i (Name.trunc name) m) : 2 ≤ i := by
  unfold isDots at hdots
  rw [Bool.or_eq_false_iff] at hdots
  by_contra hlt
  rcases (by omega : i = 0 ∨ i = 1) with rfl | rfl
  · have hname := (he.unique (h.dot hq)).1
    exact Bool.false_ne_true (hdots.1.symm.trans (filenameEq_iff.mpr hname))
  · have hname := (he.unique (h.dotdot hq)).1
    exact Bool.false_ne_true (hdots.2.symm.trans (filenameEq_iff.mpr hname))

/-- What an entry of the tree names has links, a file one, and a directory with its two entries only
has one too. -/
theorem IsTree.child_links (hq : q ∈ T.dirs) (htwo : 2 ≤ i)
    (he : (viewOf s.disk ino).Has q i nm m) :
    ∃ dm, ino m = some dm ∧ dm.link_count ≠ 0 ∧ (dm.type ≠ FS_TYPE_DIR → dm.link_count = 1) ∧
      (dm.type = FS_TYPE_DIR → OnlyDots (entriesOf s.disk dm) → dm.link_count = 1) := by
  obtain ⟨-, nd, hv, hl⟩ := h.entry hq he
  obtain ⟨dm, hdm, rfl⟩ := Option.map_eq_some_iff.mp hv
  refine ⟨dm, hdm, hl, fun ht => h.file hq htwo he hv ht, fun ht hdots => ?_⟩
  obtain ⟨hmT, hm1, -⟩ := h.child hq htwo he ⟨_, hv, ht⟩
  have hempty : (viewOf s.disk ino).subs m = ∅ := by
    ext j
    simp only [View.subs, Set.mem_ofPred_eq, Set.mem_empty_iff_false, iff_false, not_and,
      not_exists]
    exact fun hj nm' a hh => absurd ((View.has_iff (View.dirs_of_node hv ht)).mp hh)
      (hdots j nm' a hj)
  have hlinks := h.links hmT hv
  rw [hempty, Set.ncard_empty, if_neg hm1] at hlinks
  exact UInt16.toNat_inj.mp hlinks

/-- **The directory is closed after a removal in it.** -/
theorem IsTree.wp_closeParent (hq : q ∈ T.dirs)
    (hrem : RemovedOr ino ((k, q) ::ₘ R) {k} q i nm m isdir s r t) :
    wp (Stops W) (do inodeClose k; pure r) (fun r' u => r' = r ∧
      ((r ≠ 0 ∧ Spares ino ∅ s u ∧ FsInv u ino R ∅ none) ∨ r = 0 ∧
        ∃ ino', Removed ino R ∅ q i nm m isdir s u ino')) t := by
  have hclose : ({k} : Finset ℕ).erase k = ∅ := by simp
  rw [wp_bind]
  rcases hrem with ⟨hr, hst, ht⟩ | ⟨hr, ino', d', hrem, hq'⟩
  · obtain ⟨nd, hv, -, hl⟩ := h.node hq
    obtain ⟨dq, hdq, rfl⟩ := Option.map_eq_some_iff.mp hv
    refine wp_mono (ht.wp_inodeClose (Finset.mem_singleton_self k)) ?_
    rintro _ u ⟨hu, hsu⟩
    rw [dropped_of_links hdq hl, hclose] at hu
    exact ⟨rfl, .inl ⟨hr, hst.andThen hsu, hu⟩⟩
  · have hmq : m ≠ q := hrem.gone.frees.ne
    have hlink : d'.link_count ≠ 0 := by
      obtain ⟨nd, nd', hv, hv', hlinks⟩ := hrem.gone.parent
      rw [viewOf_some hq'] at hv'
      cases hv'
      change d'.link_count = _ at hlinks
      rw [hlinks]
      split
      · next hd =>
        obtain ⟨ndm, hvm, hkind⟩ := hrem.gone.node
        have htwo := h.links_of_child hq hv hrem.gone.frees.two hrem.gone.frees.was
          ⟨ndm, hvm, hkind.mpr hd⟩
        intro hz
        have hpred := toNat_pred (a := nd.link_count) (by omega)
        rw [hz] at hpred
        change 0 + 1 = _ at hpred
        omega
      · obtain ⟨nd1, hv1, -, hl⟩ := h.node hq
        cases hv.symm.trans hv1
        exact hl
    refine wp_mono (hrem.inv.wp_inodeClose (Finset.mem_singleton_self k)) ?_
    rintro _ u ⟨hu, hsu⟩
    rw [dropped_of_links hq' hlink, hclose] at hu
    refine ⟨rfl, .inr ⟨hr, ino', hrem.after hsu hu fun k' hk' => ?_⟩⟩
    rcases mem_cons.mp hk' with he | hmem
    · exact absurd (Prod.mk.inj he).2 hmq
    · exact hmem

/-- What `do_rm` and `do_rmdir` come to. -/
def RemovedAt (T : Shape) (ino : ℕ → Option DiskInode) (R : Multiset Ref) (start : ℕ) (path : Name)
    (isdir : Bool) (s : FS) (r : ℤ) (t : FS) : Prop :=
  (r ≠ 0 ∧ Spares ino ∅ s t ∧ FsInv t ino R ∅ none) ∨
    r = 0 ∧ ∃ q name i m ino', q ∈ T.dirs ∧ isDots name = false ∧
    Parent (dirsOf s.disk ino) start path q name ∧
      Removed ino R ∅ q i (Name.trunc name) m isdir s t ino'

variable {pid : ℕ} {path : Name} (hinv : FsInv s ino R ∅ none) (hroom : Room 3 R)
  (hstart : startInode s.mem pid path ∈ T.dirs)
include hinv hroom hstart

/-- **A removal in the directory of a path.** -/
theorem IsTree.wp_removeAt {found : ℕ → Name → ℕ → ℕ → FSM ℤ}
    (hfound : ∀ k q c i m p t name dq dm,
      Victim ino ((k, q) ::ₘ R) {k} k q c i m p (Name.trunc name) dq dm t →
      c ∉ ({k} : Finset ℕ) → wp (Stops W) (found k name c (32 * i))
        (RemovedOr ino ((k, q) ::ₘ R) {k} q i (Name.trunc name) m isdir t) t) :
    wp (Stops W) (removeAt pid path fun dir name => removeIn (found dir name) dir name)
      (RemovedAt T ino R (startInode s.mem pid path) path isdir s) s := by
  unfold removeAt
  refine h.wp_lookIn hinv hroom hstart (fun t hst ht _ => .inl ⟨by decide, hst, ht⟩)
    fun k q name t hst ht hq hpar => ?_
  have htree : IsTree (viewOf t.disk ino) T := by rwa [viewOf_spares hst]
  obtain ⟨dq, hpq⟩ := htree.parental ht hq
  have hvq : viewOf t.disk ino q = some (nodeOf t.disk dq) := viewOf_some hpq.live
  have hdirs := View.dirs_of_node hvq hpq.dir
  have hkR := mem_cons_self (k, q) R
  -- what is left after the entry's own work
  have hend : ∀ {i m r u}, (r = 0 → isDots name = false) → RemovedOr ino ((k, q) ::ₘ R) {k} q i
    (Name.trunc name) m isdir t r u →
      wp (Stops W) (do inodeClose k; pure r)
      (RemovedAt T ino R (startInode s.mem pid path) path isdir s) u := by
    intro i m r u hdots hrem
    refine wp_mono (htree.wp_closeParent hq hrem) ?_
    rintro _ w ⟨rfl, ⟨hr, hsw, hw⟩ | ⟨hr, ino', hw⟩⟩
    · exact .inl ⟨hr, hst.andThen hsw, hw⟩
    · exact .inr ⟨hr, q, name, i, m, ino', hq, hdots hr, hpar, hw.before hst⟩
  rw [wp_bind]
  refine wp_removeIn ht hkR hpq.live hpq.dir hpq.closed (hroom.cons.mono (by omega))
    (fun r u hr hsu hu => ?_) ?_
  · exact hend (i := 0) (m := 0) (absurd · hr) (.inl ⟨hr, hsu, hu⟩)
  · intro c i m p u hdots he hsu hdisk hp hu
    have hhas : (viewOf t.disk ino).Has q i (Name.trunc name) m := (View.has_iff hdirs).mpr he
    have htwo := htree.two_le hq hdots hhas
    obtain ⟨dm, hdm, hl, hfile, hdir⟩ := htree.child_links hq htwo hhas
    have hck : c ∉ ({k} : Finset ℕ) := by
      intro hc
      obtain rfl := Finset.mem_singleton.mp hc
      obtain rfl := hu.inodes.cache.one (mem_cons_self _ _) (mem_cons_of_mem hkR)
      exact absurd (htree.self_lt hq hhas) (by omega)
    rw [← hdisk] at he hdir
    refine wp_mono (hfound k q c i m p u name dq dm ⟨hu, hp, hkR, Finset.mem_singleton_self k,
      hpq.live, hpq.dir, hdm, hl,
      hfile, hdir, he, htwo⟩ hck) ?_
    exact fun r w hw => hend (fun _ => hdots) (hw.of_spares hsu)

/-- **`do_rm`.** -/
theorem IsTree.wp_doRm : wp (Stops W) (doRm pid path)
    (RemovedAt T ino R (startInode s.mem pid path) path false s) s := by
  rw [doRm_eq]
  exact h.wp_removeAt hinv hroom hstart fun k q c i m p t name dq dm hf => hf.wp_unlinkFound

/-- **`do_rmdir`.** -/
theorem IsTree.wp_doRmdir :
    wp (Stops W) (doRmdir pid path)
      (RemovedAt T ino R (startInode s.mem pid path) path true s) s := by
  rw [doRmdir_eq]
  exact h.wp_removeAt hinv hroom hstart fun k q c i m p t name dq dm hf => hf.wp_rmdirFound

end Tree

/-- **The tree after a removal.** A file that is removed had no other name. -/
theorem IsTree.goneEntry (h : IsTree v T) (hq : q ∈ T.dirs) (hgone : GoneEntry v v' q i nm m isdir)
    (honly : isdir = false → ∀ {x j nm'}, x ∈ T.dirs → 2 ≤ j → v.Has x j nm' m → x = q ∧ j = i) :
    IsTree v' (if isdir then T.leave m else T) := by
  obtain ⟨nd, nd', hvq, hvq', hlink⟩ := hgone.parent
  obtain ⟨ndm, hvm, hkind⟩ := hgone.node
  cases isdir with
  | false =>
    refine h.removeFile hgone.frees hq hvq hvq' hlink ?_ (honly rfl)
    rintro ⟨nd1, hv1, ht1⟩
    cases hvm.symm.trans hv1
    exact absurd (hkind.mp ht1) (by decide)
  | true =>
    have hdir : v.IsDir m := ⟨ndm, hvm, hkind.mpr rfl⟩
    refine h.removeDir hgone.frees hq hvq hvq' ?_ hdir (hgone.empty rfl)
    have htwo := h.links_of_child hq hvq hgone.frees.two hgone.frees.was hdir
    rw [hlink]
    exact toNat_pred (by omega)

end OsLab
