import OsLab.Fs.Dirs.Dcache
/-!
# Looking up, linking and unlinking

`FsInv` puts the parts together: the inodes are in order, each is a file or a well-formed directory,
and the dentry cache tells the truth. `dir_lookup` answers what the directory stores, whether the
cache knew it or not; `dir_link` fills the first free entry; an entry is freed by overwriting it.

`Spares ino T s t` says what a program that works on the inodes of `T` leaves alone.
-/

namespace OsLab

open Prog Bytes

/-! ## The invariant -/

/-- **What can be seen of the file system**: each live inode. -/
abbrev View := ℕ → Option Node

/-- The directories of a view. -/
def View.dirs (v : View) (n : ℕ) : Option Entries :=
  (v n).bind fun nd => if nd.type = FS_TYPE_DIR then some nd.entries else none

/-- What is seen of the live inodes. -/
def viewOf (disk : ℕ → Block) (ino : ℕ → Option DiskInode) : View :=
  fun n => (ino n).map (nodeOf disk)

/-- The directories. -/
def dirsOf (disk : ℕ → Block) (ino : ℕ → Option DiskInode) : ℕ → Option Entries :=
  (viewOf disk ino).dirs

/-- The number was given to an inode once. -/
def Seen (disk : ℕ → Block) (n : ℕ) : Prop := n < NUM_INODES ∧ (tableAt disk n).type ≠ 0

/-- **The file system is in order.** -/
structure FsInv (s : FS) (ino : ℕ → Option DiskInode) (R : Multiset Ref) (L : Finset ℕ)
    (p : Option ℕ) : Prop where
  inodes : InodeInv s ino R L p
  kinds : ∀ {n d}, ino n = some d → d.type = FS_TYPE_FILE ∨ d.type = FS_TYPE_DIR
  dirs : ∀ {n d}, ino n = some d → d.type = FS_TYPE_DIR → DirOk s.disk d
  dcache : DcacheOk s.mem (dirsOf s.disk ino) (Seen s.disk)

/-- What a program that works on the inodes of `T` leaves alone: descriptors, processes, whether the
dentry cache is on, the blocks of the other inodes, and whether a disk inode has a type. -/
structure Spares (ino : ℕ → Option DiskInode) (T : Set ℕ) (s t : FS) : Prop where
  mem : t.mem = { s.mem with
    inodes := t.mem.inodes
    superblock := t.mem.superblock
    dcache_table := t.mem.dcache_table
    kmallocs := t.mem.kmallocs
    full := t.mem.full }
  full : s.mem.full = true → t.mem.full = true
  others : ∀ m dm, m ∉ T → ino m = some dm → SameBlocks s.disk t.disk dm
  types : ∀ m < NUM_INODES, m ∉ T → ((tableAt t.disk m).type = 0 ↔ (tableAt s.disk m).type = 0)
  seen : ∀ m, Seen s.disk m → Seen t.disk m

variable {s t u : FS} {ino ino' : ℕ → Option DiskInode} {R R' : Multiset Ref} {L L' : Finset ℕ}
  {p p' : Option ℕ} {k n m i j c : ℕ} {d d' : DiskInode} {T T' : Set ℕ} {nm name : Name}
  {es : Entries} {W : Prop}

theorem dirsOf_eq_some : dirsOf s.disk ino n = some es ↔
    ∃ d, ino n = some d ∧ d.type = FS_TYPE_DIR ∧ entriesOf s.disk d = es := by
  unfold dirsOf View.dirs viewOf
  cases ino n with
  | none => simp
  | some d => by_cases h : d.type = FS_TYPE_DIR <;> simp [nodeOf, entriesOf, h]

namespace Spares

theorem refl (s : FS) : Spares ino T s s :=
  ⟨rfl, id, fun _ _ _ _ => .refl _ _, fun _ _ _ => Iff.rfl, fun _ => id⟩

theorem trans (h : Spares ino T s t) (h' : Spares ino' T t u)
    (hino : ∀ m dm, m ∉ T → ino m = some dm → ino' m = some dm) : Spares ino T s u := by
  refine ⟨?_, fun hf => h'.full (h.full hf), fun m dm hm hdm => ?_, fun m hm hT => ?_,
    fun m hm => h'.seen m (h.seen m hm)⟩
  · rw [h'.mem, h.mem]
  · exact (h.others m dm hm hdm).trans (h'.others m dm hm (hino m dm hm hdm))
  · exact (h'.types m hm hT).trans (h.types m hm hT)

theorem andThen (h : Spares ino T s t) (h' : Spares ino T t u) : Spares ino T s u :=
  h.trans h' fun _ _ _ => id

theorem mono (h : Spares ino T s t) (hT : T ⊆ T') : Spares ino T' s t :=
  ⟨h.mem, h.full, fun m dm hm => h.others m dm fun hm' => hm (hT hm'),
    fun m hm hm' => h.types m hm fun he => hm' (hT he),
    h.seen⟩

theorem of_steady (h : Steady s t) {loose : ℕ → Prop} (hb : BlockInv s ino loose) :
    Spares ino T s t := by
  refine ⟨?_, ?_, fun m dm _ hdm => hb.sameBlocks hdm h.data, fun m hm _ => h.types m hm,
    fun m hm => ⟨hm.1, ?_⟩⟩
  · rw [h.mem]
  · rw [h.mem]
    exact id
  · exact fun he => hm.2 ((h.types m hm.1).mp he)

theorem of_dcacheOnly (h : DcacheOnly s t) : Spares ino T s t := by
  obtain ⟨table, q, rfl⟩ := h
  exact ⟨rfl, id, fun _ _ _ _ => .refl _ _, fun _ _ _ => Iff.rfl, fun _ => id⟩

theorem of_elsewhere (h : Elsewhere ino n s t) (hT : n ∈ T) : Spares ino T s t := by
  refine ⟨?_, h.full, fun m dm hm hdm => h.others m dm (fun he => hm (he ▸ hT)) hdm,
    fun m hm _ => h.types m hm,
    fun m hm => ⟨hm.1, fun he => hm.2 ((h.types m hm.1).mp he)⟩⟩
  rw [h.mem]

variable (h : Spares ino T s t)
include h

theorem procs : t.mem.procs = s.mem.procs := by rw [h.mem]

theorem fdescs : t.mem.fdesc_array = s.mem.fdesc_array := by rw [h.mem]

theorem enabled : t.mem.dcache_enabled = s.mem.dcache_enabled := by rw [h.mem]

/-- What is spared reads the same. -/
theorem entriesOf_eq (hn : n ∉ T) (hd : ino n = some d) : entriesOf t.disk d = entriesOf s.disk d :=
  (h.others n d hn hd).entriesOf_eq

theorem viewOf_eq (hn : n ∉ T) (hino : ino' n = ino n) :
    viewOf t.disk ino' n = viewOf s.disk ino n := by
  unfold viewOf
  rw [hino]
  cases hd : ino n with
  | none => rfl
  | some d => exact congrArg some (h.others n d hn hd).nodeOf_eq

theorem dirsOf_eq (hn : n ∉ T) (hino : ino' n = ino n) :
    dirsOf t.disk ino' n = dirsOf s.disk ino n := by
  unfold dirsOf View.dirs
  rw [h.viewOf_eq hn hino]

end Spares

/-! ## Slots -/

theorem InodeInv.setDcache (h : InodeInv s ino R L p) (table : ℕ → List DcacheEntry)
    (q : ℕ → Bool) :
    InodeInv (s.setDcache table q) ino R L p :=
  ⟨{ h.blocks with }, { h.cache with }⟩

theorem FsInv.of_dcacheOnly (h : FsInv s ino R L p) (ht : DcacheOnly s t)
    (hdc : DcacheOk t.mem (dirsOf s.disk ino) (Seen s.disk)) : FsInv t ino R L p := by
  obtain ⟨table, q, rfl⟩ := ht
  exact ⟨h.inodes.setDcache table q, h.kinds, h.dirs, hdc⟩

/-- A slot was worked on. Inodes may have gone. -/
theorem FsInv.of_steady (h : FsInv s ino R L p) (hinv : InodeInv t ino' R' L' p') (hs : Steady s t)
    (hino : ∀ n d, ino' n = some d → ino n = some d) : FsInv t ino' R' L' p' := by
  have hsame : ∀ {n d}, ino n = some d → SameBlocks s.disk t.disk d :=
    fun hd => h.inodes.blocks.sameBlocks hd hs.data
  refine ⟨hinv, fun hd => h.kinds (hino _ _ hd),
    fun hd ht => (h.dirs (hino _ _ hd) ht).sameBlocks (hsame (hino _ _ hd)), ?_⟩
  refine h.dcache.mono (by rw [hs.mem]) (by rw [hs.mem])
    (fun n hn => ⟨hn.1, fun he => hn.2 ((hs.types n hn.1).mp he)⟩) ?_
  intro n es _ hes
  obtain ⟨d, hd, htype, rfl⟩ := dirsOf_eq_some.mp hes
  refine ⟨_, dirsOf_eq_some.mpr ⟨d, hino n d hd, htype, rfl⟩, fun i nm a he => ?_⟩
  rw [(hsame (hino n d hd)).entriesOf_eq]
  exact he

/-- **One inode changed**, or is new. -/
theorem FsInv.of_upd (h : FsInv s ino R L p) (hinv : InodeInv t (upd ino n (some d)) R' L' p')
    (hkind : d.type = FS_TYPE_FILE ∨ d.type = FS_TYPE_DIR)
    (hdir : d.type = FS_TYPE_DIR → DirOk t.disk d)
    (hsame : ∀ m dm, m ≠ n → ino m = some dm → SameBlocks s.disk t.disk dm)
    (hdc : DcacheOk t.mem (dirsOf t.disk (upd ino n (some d))) (Seen t.disk)) :
    FsInv t (upd ino n (some d)) R' L' p' := by
  refine ⟨hinv, fun {m dm} hm => ?_, fun {m dm} hm ht => ?_, hdc⟩
  · obtain ⟨-, ⟨⟩⟩ | ⟨-, hm⟩ := upd_eq_cases hm
    · exact hkind
    · exact h.kinds hm
  · obtain ⟨-, ⟨⟩⟩ | ⟨hmn, hm⟩ := upd_eq_cases hm
    · exact hdir ht
    · exact (h.dirs hm ht).sameBlocks (hsame m dm hmn hm)

theorem dropped_le (n' : ℕ) (d' : DiskInode) (h : dropped ino n R n' = some d') :
    ino n' = some d' := by
  unfold dropped at h
  split at h
  · obtain ⟨-, ⟨⟩⟩ | ⟨-, h⟩ := upd_eq_cases h
    exact h
  · exact h

/-- The inode in a loaded slot. -/
theorem FsInv.slot (h : FsInv s ino R L none) (hk : (k, n) ∈ R) (hd : ino n = some d) :
    (s.mem.inodes k).d = d :=
  h.inodes.slot hk hd

theorem dirsOf_of_dir (hd : ino n = some d) (ht : d.type = FS_TYPE_DIR) :
    dirsOf s.disk ino n = some (entriesOf s.disk d) := dirsOf_eq_some.mpr ⟨d, hd, ht, rfl⟩

theorem FsInv.seen (h : FsInv s ino R L p) (hd : ino n = some d) : Seen s.disk n :=
  ⟨(h.inodes.cache.range hd).2.1, (h.inodes.cache.range hd).2.2.2.2⟩

/-- There is room for `c` more references to one inode. -/
def Room (c : ℕ) (R : Multiset Ref) : Prop := ∀ x, R.count x + c ≤ 65535

theorem Room.cons {x : Ref} (h : Room (c + 1) R) : Room c (x ::ₘ R) := by
  intro y
  have := h y
  rw [Multiset.count_cons]
  split <;> omega

theorem Room.mono {c' : ℕ} (h : Room c R) (hc : c' ≤ c) : Room c' R := fun x => by
  have := h x
  omega

section Slots

theorem FsInv.wp_inodeRef (h : FsInv s ino R L none) (hd : ino n = some d) (hroom : Room 1 R) :
    wp (Stops W) (inodeRef n)
      (fun k t => FsInv t ino ((k, n) ::ₘ R) L (if (k, n) ∈ R then none else some k) ∧
      Spares ino ∅ s t ∧ t.disk = s.disk) s := by
  refine wp_mono (OsLab.wp_inodeRef h.inodes hd fun k => by have := hroom (k, n); omega) ?_
  intro k t ht
  exact ⟨h.of_steady ht.inv ht.steady fun _ _ => id, .of_steady ht.steady h.inodes.blocks, ht.disk⟩

theorem FsInv.wp_inodeOpen (h : FsInv s ino R L p) (hk : (k, n) ∈ R) (hp : p = none ∨ p = some k)
    (hW : k ∈ L → W) :
    wp (Stops W) (inodeOpen k) (fun _ t => k ∉ L ∧ FsInv t ino R (insert k L) none ∧
      Spares ino ∅ s t ∧ t.disk = s.disk) s := by
  refine wp_mono (OsLab.wp_inodeOpen h.inodes hk hp hW) ?_
  rintro _ t ht
  exact ⟨ht.free, h.of_steady ht.inv ht.steady fun _ _ => id, .of_steady ht.steady h.inodes.blocks,
    ht.disk⟩

theorem FsInv.wp_inodeUnlock (h : FsInv s ino R L p) (hk : k ∈ L) :
    wp (Stops W) (inodeUnlock k)
      (fun _ t => FsInv t ino R (L.erase k) p ∧ Spares ino ∅ s t ∧ t.disk = s.disk) s := by
  refine wp_mono (OsLab.wp_inodeUnlock h.inodes hk) ?_
  rintro _ t ⟨hinv, hs, hdisk⟩
  exact ⟨h.of_steady hinv hs fun _ _ => id, .of_steady hs h.inodes.blocks, hdisk⟩

theorem FsInv.wp_inodeDeref (h : FsInv s ino ((k, n) ::ₘ R) L p) (hfree : k ∈ L → (k, n) ∈ R)
    (hp : p = some k → ∃ d, ino n = some d ∧ d.link_count ≠ 0) :
    wp (Stops W) (inodeDeref k)
      (fun _ t => FsInv t (dropped ino n R) R L (pendWithout p k) ∧ Spares ino ∅ s t) s := by
  refine wp_mono (OsLab.wp_inodeDeref h.inodes hfree hp) ?_
  rintro _ t ht
  exact ⟨h.of_steady ht.inv ht.steady dropped_le, .of_steady ht.steady h.inodes.blocks⟩

theorem FsInv.wp_inodeClose (h : FsInv s ino ((k, n) ::ₘ R) L p) (hk : k ∈ L) :
    wp (Stops W) (inodeClose k)
      (fun _ t => FsInv t (dropped ino n R) R (L.erase k) p ∧ Spares ino ∅ s t) s := by
  refine wp_mono (OsLab.wp_inodeClose h.inodes hk) ?_
  rintro _ t ht
  exact ⟨h.of_steady ht.inv ht.steady dropped_le, .of_steady ht.steady h.inodes.blocks⟩

/-- An inode with links is left as it was. -/
theorem FsInv.wp_closeLinked (h : FsInv s ino ((k, n) ::ₘ R) (insert k L) p) (hk : k ∉ L)
    (hd : ino n = some d) (hl : d.link_count ≠ 0) :
    wp (Stops W) (inodeClose k) (fun _ t => FsInv t ino R L p ∧ Spares ino ∅ s t) s := by
  have hclose := h.wp_inodeClose (W := W) (Finset.mem_insert_self k L)
  rwa [dropped_of_links hd hl, Finset.erase_insert hk] at hclose

end Slots

/-! ## Looking up -/

/-- The entries name inodes that are live and have links. -/
def Closed (ino : ℕ → Option DiskInode) (es : Entries) : Prop :=
  ∀ i nm m, HasEntry es i nm m → ∃ dm, ino m = some dm ∧ dm.link_count ≠ 0

/-- What `dir_lookup` answers: a reference to the inode of that name and where its entry is, or that
there is none. -/
def LookedUp (ino : ℕ → Option DiskInode) (R : Multiset Ref) (L : Finset ℕ) (es : Entries)
    (name : Name) (s : FS) (r : Option (ℕ × ℕ)) (t : FS) : Prop :=
  t.disk = s.disk ∧ Spares ino ∅ s t ∧
    match r with
    | none => (∀ i m, ¬ HasEntry es i (Name.trunc name) m) ∧ FsInv t ino R L none
    | some (k, offset) => ∃ i m, offset = 32 * i ∧ HasEntry es i (Name.trunc name) m ∧
        FsInv t ino ((k, m) ::ₘ R) L (if (k, m) ∈ R then none else some k)

/-- The entry was found. -/
theorem LookedUp.found (h : FsInv s ino R L none) (hclosed : Closed ino es) (hroom : Room 1 R)
    (he : HasEntry es i (Name.trunc name) m) :
    wp (Stops W) (do let k ← inodeRef m; pure (some (k, 32 * i)))
      (LookedUp ino R L es name s) s := by
  obtain ⟨dm, hdm, -⟩ := hclosed i _ m he
  refine wp_then (h.wp_inodeRef hdm hroom) ?_
  rintro k t ⟨hinv, hsp, hdisk⟩
  exact ⟨hdisk, hsp, i, m, rfl, he, hinv⟩

theorem LookedUp.of_dcacheOnly {r : Option (ℕ × ℕ)} (h : LookedUp ino R L es name t r u)
    (ht : DcacheOnly s t) :
    LookedUp ino R L es name s r u := by
  refine ⟨?_, (Spares.of_dcacheOnly ht).andThen h.2.1, h.2.2⟩
  obtain ⟨table, q, rfl⟩ := ht
  exact h.1

/-- Nothing of that name before entry `j`, and no entry from there on. -/
theorem LookedUp.absent (h : FsInv s ino R L none) (hle : d.size.toNat / 32 ≤ j)
    (hbefore : ∀ i m, i < j → ¬ HasEntry (entriesOf s.disk d) i (Name.trunc name) m) :
    LookedUp ino R L (entriesOf s.disk d) name s none s := by
  refine ⟨rfl, .refl s, fun i m he => hbefore i m ?_ he, h⟩
  have hlt := he.lt
  rw [length_entriesOf] at hlt
  omega

/-- The scan of `dir_lookup`, with nothing of that name before entry `j`. -/
theorem wp_dirScan (hk : (k, n) ∈ R) (hd : ino n = some d) (htype : d.type = FS_TYPE_DIR)
    (hclosed : Closed ino (entriesOf s.disk d)) (hroom : Room 1 R) {fuel : ℕ}
    (h : FsInv s ino R L none) (hfuel : d.size.toNat / 32 ≤ j + fuel)
    (hbefore : ∀ i m, i < j → ¬ HasEntry (entriesOf s.disk d) i (Name.trunc name) m) :
    wp (Stops W) (dirScan k name fuel (32 * j))
      (LookedUp ino R L (entriesOf s.disk d) name s) s := by
  induction fuel generalizing s j with
  | zero => exact .absent h (by omega) hbefore
  | succ fuel ih =>
    have hok := h.dirs hd htype
    have hsize := hok.size
    unfold dirScan
    rw [wp_bind, wp_getInode, h.slot hk hd]
    split
    · next hlt =>
      have hj : j < d.size.toNat / 32 := by omega
      rw [wp_bind]
      refine wp_readDentry h.inodes hk hd hok hj ?_
      have hat := entriesOf_getElem? s.disk hj
      split
      · next hfree =>
        refine ih (j := j + 1) hclosed h (by omega) fun i m hi he => ?_
        by_cases hij : i = j
        · subst hij
          unfold HasEntry at he
          rw [hat, Dentry.entry_eq_none.mpr hfree] at he
          cases he
        · exact hbefore i m (by omega) he
      · next hused =>
        have hentry : HasEntry (entriesOf s.disk d) j (dentryAt s.disk d j).name
            (dentryAt s.disk d j).inode_num.toNat := by
          unfold HasEntry
          rw [hat, Option.some.injEq, Dentry.entry_eq_some]
          exact ⟨hused, rfl, rfl⟩
        have hfits := hentry.of_entriesOf.1
        have hnum : d.inode_num.toNat = n := (h.inodes.cache.range hd).2.2.1
        rw [hnum, wp_bind]
        refine wp_mono (h.dcache.put (i := j) (h.seen hd) _ hfits fun es hes => ?_) ?_
        · rw [dirsOf_of_dir hd htype] at hes
          cases hes
          exact hentry
        · rintro _ t ⟨hdc, honly⟩
          have ht := h.of_dcacheOnly honly hdc
          have hdisk : t.disk = s.disk := by
            obtain ⟨table, q, rfl⟩ := honly
            rfl
          split
          · next heq =>
            rw [filenameEq_iff, hfits.trunc_eq] at heq
            rw [heq] at hentry
            exact wp_mono (LookedUp.found ht hclosed hroom hentry) fun r u hu =>
              hu.of_dcacheOnly honly
          · next hne =>
            have hnext : ∀ i m, i < j + 1 → ¬ HasEntry (entriesOf t.disk d) i
                (Name.trunc name) m := by
              intro i m hi he
              rw [hdisk] at he
              by_cases hij : i = j
              · subst hij
                refine hne (filenameEq_iff.mpr ?_)
                rw [hfits.trunc_eq]
                have := hentry.symm.trans he
                simp only [Option.some.injEq, Prod.mk.injEq] at this
                exact this.1
              · exact hbefore i m (by omega) he
            have hrec := ih (s := t) (j := j + 1) (by rw [hdisk]; exact hclosed) ht (by omega) hnext
            rw [hdisk] at hrec
            exact wp_mono hrec fun r u hu => hu.of_dcacheOnly honly
    · exact .absent h (by omega) hbefore

/-- **`dir_lookup` answers what the directory stores.** -/
theorem wp_dirLookup (h : FsInv s ino R L none) (hk : (k, n) ∈ R) (hd : ino n = some d)
    (htype : d.type = FS_TYPE_DIR) (hclosed : Closed ino (entriesOf s.disk d)) (hroom : Room 1 R) :
    wp (Stops W) (dirLookup k name) (LookedUp ino R L (entriesOf s.disk d) name s) s := by
  have hnum : d.inode_num.toNat = n := (h.inodes.cache.range hd).2.2.1
  unfold dirLookup assertDir
  simp only [wp_bind, wp_getInode, wp_asserts, h.slot hk hd, htype, decide_true, if_true, hnum]
  refine h.dcache.get (dirsOf_of_dir hd htype) (fun e i he => ?_) ?_
  · exact LookedUp.found h hclosed hroom he
  · refine wp_dirScan hk hd htype hclosed hroom (j := 0) h ?_ fun i m hi => absurd hi (by omega)
    rw [(h.dirs hd htype).numEntries_eq]
    omega

end OsLab
