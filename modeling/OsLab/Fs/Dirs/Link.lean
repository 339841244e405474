import OsLab.Fs.Dirs.Lookup
/-!
# Changing a directory

What `dir_link` does to a directory, what freeing an entry does, and when `dir_isempty` answers yes.
-/

namespace OsLab

open Prog Bytes

variable {s t u : FS} {ino : ℕ → Option DiskInode} {R : Multiset Ref} {L : Finset ℕ}
  {k n m i : ℕ} {d d' : DiskInode} {T : Set ℕ} {nm name : Name} {es : Entries} {x : Entry} {r : ℕ}
  {W : Prop}

/-! ## A directory with another entry -/

namespace EntryPut

variable (h : EntryPut ino R L n i x s d r t d')
include h

/-- The directories after an entry of one was written. -/
theorem dirsOf_eq (htype : d.type = FS_TYPE_DIR) :
    dirsOf t.disk (upd ino n (some d')) = upd (dirsOf s.disk ino) n
      (some (entriesOf t.disk d')) := by
  funext m
  by_cases hm : m = n
  · rw [hm, upd_self]
    exact dirsOf_of_dir upd_self (h.type.trans htype)
  · rw [upd_of_ne hm]
    exact (Spares.of_elsewhere (T := {n}) h.elsewhere rfl).dirsOf_eq hm (upd_of_ne hm)

/-- The directory that was written is well-formed when its names differ. -/
theorem fsInv (hs : FsInv s ino R L none) (hd : ino n = some d)
    (htype : d.type = FS_TYPE_DIR) (hnames : NamesDistinct (entriesOf t.disk d'))
    (hdc : DcacheOk t.mem (upd (dirsOf s.disk ino) n (some (entriesOf t.disk d'))) (Seen t.disk)) :
    FsInv t (upd ino n (some d')) R L none := by
  rw [← h.dirsOf_eq htype] at hdc
  exact hs.of_upd h.inv (h.type ▸ hs.kinds hd)
    (⟨·, h.size, h.mapped, hnames⟩) h.elsewhere.others hdc

/-- The dentry cache as it was, where the directory stores at least what it stored. -/
theorem dcache_mono (hs : FsInv s ino R L none) (hd : ino n = some d) (htype : d.type = FS_TYPE_DIR)
    (hmono : ∀ j nm a, HasEntry (entriesOf s.disk d) j nm a →
      HasEntry (entriesOf t.disk d') j nm a) :
    DcacheOk t.mem (upd (dirsOf s.disk ino) n (some (entriesOf t.disk d'))) (Seen t.disk) := by
  have hsp := Spares.of_elsewhere (T := {n}) h.elsewhere rfl
  refine hs.dcache.mono (by rw [h.elsewhere.mem]) (by rw [h.elsewhere.mem]) hsp.seen
    fun m es' _ hes => ?_
  by_cases hm : m = n
  · rw [hm, upd_self] at hes
    cases hes
    exact ⟨_, by rw [hm]; exact dirsOf_of_dir hd htype, hmono⟩
  · rw [upd_of_ne hm] at hes
    exact ⟨es', hes, fun _ _ _ => id⟩

end EntryPut

/-! ## Linking -/

/-- The first free entry, or the end. -/
structure FirstFree (es : Entries) (i : ℕ) : Prop where
  le : i ≤ es.length
  used : ∀ j < i, ∃ y, es[j]? = some (some y)
  free : i < es.length → es[i]? = some none

theorem FirstFree.not_hasEntry (h : FirstFree es i) : ¬ HasEntry es i nm m := by
  intro he
  have hlt := he.lt
  rw [HasEntry, h.free hlt] at he
  cases he

variable {j num : ℕ} {Q : Bool → FS → Prop}

/-- **The search for a free entry.** -/
theorem wp_findFreeEntry (h : FsInv s ino R L none) (hk : (k, n) ∈ R) (hd : ino n = some d)
    (htype : d.type = FS_TYPE_DIR) {Q : ℕ → FS → Prop} {fuel : ℕ}
    (hfuel : d.size.toNat / 32 ≤ j + fuel) (hj : j ≤ d.size.toNat / 32)
    (hbefore : ∀ i < j, ∃ y, (entriesOf s.disk d)[i]? = some (some y))
    (hQ : ∀ i, FirstFree (entriesOf s.disk d) i → Q (32 * i) s) :
    wp (Stops W) (findFreeEntry k fuel (32 * j)) Q s := by
  have hok := h.dirs hd htype
  have hsize := hok.size
  induction fuel generalizing j with
  | zero => exact hQ j ⟨by rw [length_entriesOf]; omega, hbefore,
      fun hlt => absurd hlt (by rw [length_entriesOf]; omega)⟩
  | succ fuel ih =>
    unfold findFreeEntry
    rw [wp_bind, wp_getInode, h.slot hk hd]
    split
    · next hlt =>
      have hj : j < d.size.toNat / 32 := by omega
      have hat := entriesOf_getElem? s.disk hj
      rw [wp_bind]
      refine wp_readDentry h.inodes hk hd hok hj ?_
      split
      · next hfree =>
        refine hQ j ⟨by rw [length_entriesOf]; omega, hbefore, fun _ => ?_⟩
        rw [hat, Dentry.entry_eq_none.mpr hfree]
      · next hused =>
        refine ih (j := j + 1) (by omega) (by omega) fun i hi => ?_
        by_cases hij : i = j
        · rw [hij, hat]
          exact ⟨_, congrArg some (Dentry.entry_eq_some.mpr ⟨hused, rfl, rfl⟩)⟩
        · exact hbefore i (by omega)
    · exact hQ j ⟨by rw [length_entriesOf]; omega, hbefore,
        fun hlt => absurd hlt (by rw [length_entriesOf]; omega)⟩

/-- What `dir_link` does: with the result `0` the first free entry names the inode, and otherwise
the directory stores what it stored. -/
structure Linked (ino : ℕ → Option DiskInode) (R : Multiset Ref) (L : Finset ℕ) (n : ℕ)
    (name : Name) (num : ℕ) (s : FS) (d : DiskInode) (r : ℤ) (t : FS) (d' : DiskInode) : Prop where
  inv : FsInv t (upd ino n (some d')) R L none
  spares : Spares ino {n} s t
  type : d'.type = d.type
  link_count : d'.link_count = d.link_count
  inode_num : d'.inode_num = d.inode_num
  done : r = 0 → (∀ i m, ¬ HasEntry (entriesOf s.disk d) i (Name.trunc name) m) ∧
    ∃ i, FirstFree (entriesOf s.disk d) i ∧
      entriesOf t.disk d' = putEntry (entriesOf s.disk d) i (some (Name.trunc name, num))
  failed : r ≠ 0 → nodeOf t.disk d' = nodeOf s.disk d

/-- A name that is new may be added. -/
theorem NamesDistinct.put (h : NamesDistinct es) (hi : i ≤ es.length)
    (hnew : ∀ j a, ¬ HasEntry es j nm a) :
    NamesDistinct (putEntry es i (some (nm, m))) := by
  intro a b nm' x y ha hb
  rw [hasEntry_putEntry hi] at ha hb
  rcases ha with ⟨rfl, ha⟩ | ⟨-, ha⟩ <;> rcases hb with ⟨rfl, hb⟩ | ⟨-, hb⟩
  · rfl
  · cases ha
    exact absurd hb (hnew b y)
  · cases hb
    exact absurd ha (hnew a x)
  · exact h a b nm' x y ha hb

/-- An entry may be freed. -/
theorem NamesDistinct.free (h : NamesDistinct es) (hi : i ≤ es.length) :
    NamesDistinct (putEntry es i none) := by
  intro a b nm' x y ha hb
  rw [hasEntry_putEntry hi] at ha hb
  rcases ha with ⟨-, ha⟩ | ⟨-, ha⟩
  · cases ha
  rcases hb with ⟨-, hb⟩ | ⟨-, hb⟩
  · cases hb
  exact h a b nm' x y ha hb

/-- The entry was written, with what is left of `dir_link`. -/
theorem Linked.of_put (h : FsInv s ino R L none) (hk : (k, n) ∈ R) (hd : ino n = some d)
    (htype : d.type = FS_TYPE_DIR) (hnum : num ≠ 0 ∧ num < NUM_INODES)
    (hnew : ∀ i m, ¬ HasEntry (entriesOf s.disk d) i (Name.trunc name) m)
    (hfree : FirstFree (entriesOf s.disk d) i)
    (hput : EntryPut ino R L n i (some (Name.trunc name, num)) s d r t d') :
    wp (Stops W) (if r ≠ 32 then pure ERR_OPERATION_FAILED
      else do
        let i' ← getInode k
        dcachePut i'.d.inode_num.toNat ⟨Name.trunc name, UInt32.ofNat num⟩ (32 * i)
        pure 0) (fun r t => ∃ d', Linked ino R L n name num s d r t d') t := by
  have hsp := Spares.of_elsewhere (T := {n}) hput.elsewhere rfl
  have hok := h.dirs hd htype
  rcases hput.entries with ⟨rfl, hes⟩ | ⟨hr, -, hes⟩
  · have hmono : ∀ j nm a, HasEntry (entriesOf s.disk d) j nm a →
        HasEntry (entriesOf t.disk d') j nm a := by
      intro j nm a he
      rw [hes, hasEntry_putEntry hfree.le]
      refine .inr ⟨?_, he⟩
      rintro rfl
      exact hfree.not_hasEntry he
    have hinv : FsInv t (upd ino n (some d')) R L none := by
      refine hput.fsInv h hd htype ?_ (hput.dcache_mono h hd htype hmono)
      rw [hes]
      exact hok.names.put hfree.le hnew
    have hdn : d'.inode_num.toNat = n := (hinv.inodes.cache.range upd_self).2.2.1
    rw [if_neg (by simp), wp_bind, wp_getInode, hinv.slot hk upd_self, hdn, wp_bind]
    have hentry : HasEntry (entriesOf t.disk d') i (Name.trunc name) (UInt32.ofNat num).toNat := by
      have htoNat : (UInt32.ofNat num).toNat = num := by
        rw [UInt32.toNat_ofNat']
        have := hnum.2
        unfold NUM_INODES at this
        exact Nat.mod_eq_of_lt (by omega)
      rw [htoNat, hes, hasEntry_putEntry hfree.le]
      exact .inl ⟨rfl, rfl⟩
    refine wp_mono (hinv.dcache.put (i := i) (hinv.seen upd_self) ⟨Name.trunc name,
      UInt32.ofNat num⟩
      Name.fits_trunc fun es' hes' => ?_) ?_
    · rw [dirsOf_of_dir upd_self (hput.type.trans htype)] at hes'
      cases hes'
      exact hentry
    · rintro _ u ⟨hdc, honly⟩
      have hdisk : u.disk = t.disk := by
        obtain ⟨table, q, rfl⟩ := honly
        rfl
      refine ⟨d', hinv.of_dcacheOnly honly hdc,
        hsp.andThen (Spares.of_dcacheOnly honly : Spares ino {n} _ _), hput.type,
        hput.link_count, hput.inode_num, fun _ => ⟨hnew, i, hfree, ?_⟩, fun hr => absurd rfl hr⟩
      rw [hdisk]
      exact hes
  · have hnode := hes
    replace hes : entriesOf t.disk d' = entriesOf s.disk d := congrArg Node.entries hnode
    rw [if_pos hr]
    refine ⟨d', ?_, hsp, hput.type, hput.link_count, hput.inode_num,
      fun hz => absurd hz (by decide), fun _ => hnode⟩
    refine hput.fsInv h hd htype ?_ (hput.dcache_mono h hd htype fun j nm a he => ?_)
    · rw [hes]
      exact hok.names
    · rw [hes]
      exact he

/-- **`dir_link`.** -/
theorem wp_dirLink (h : FsInv s ino R L none) (hk : (k, n) ∈ R) (hlock : k ∈ L)
    (hd : ino n = some d) (htype : d.type = FS_TYPE_DIR) (hclosed : Closed ino (entriesOf s.disk d))
    (hroom : Room 1 R) (name : Name) (hnum : num ≠ 0 ∧ num < NUM_INODES) :
    wp (Stops W) (dirLink k name num)
      (fun r t => ∃ d', Linked ino R L n name num s d r t d') s := by
  unfold dirLink assertDir
  simp only [wp_bind, wp_getInode, wp_asserts, h.slot hk hd, htype, decide_true, if_true]
  refine wp_mono (wp_dirLookup h hk hd htype hclosed hroom) ?_
  rintro (_ | ⟨k', offset⟩) t ⟨hdisk, hsp, hres⟩
  · obtain ⟨hnew, ht⟩ := hres
    simp only [wp_bind, wp_getInode, ht.slot hk hd]
    have hok := ht.dirs hd htype
    refine wp_findFreeEntry ht hk hd htype (j := 0) ?_ (Nat.zero_le _)
      (fun i hi => absurd hi (by omega)) ?_
    · rw [hok.numEntries_eq]
      omega
    intro i hfree
    rw [hdisk] at hfree
    have hentry : (Dentry.mk (Name.trunc name) (UInt32.ofNat num)).entry = some
        (Name.trunc name, num) := by
      have htoNat : (UInt32.ofNat num).toNat = num := by
        rw [UInt32.toNat_ofNat']
        have := hnum.2
        unfold NUM_INODES at this
        exact Nat.mod_eq_of_lt (by omega)
      rw [Dentry.entry_eq_some]
      refine ⟨fun hz => hnum.1 ?_, rfl, htoNat⟩
      rw [← htoNat]
      exact congrArg UInt32.toNat hz
    refine wp_mono (wp_writeDentry ht.inodes hk hd hok hlock Name.fits_trunc (i := i) ?_) ?_
    · have := hfree.le
      rwa [length_entriesOf] at this
    rintro r u ⟨d', hput⟩
    rw [hentry] at hput
    have hes : entriesOf t.disk d = entriesOf s.disk d := by rw [hdisk]
    have hnode : nodeOf t.disk d = nodeOf s.disk d := by rw [hdisk]
    refine wp_mono (Linked.of_put ht hk hd htype hnum (by rw [hes]; exact hnew)
      (by rw [hes]; exact hfree) hput) ?_
    rintro r v ⟨d', hl⟩
    exact ⟨d', hl.inv, (hsp.mono (Set.empty_subset _)).andThen hl.spares, hl.type, hl.link_count,
      hl.inode_num,
      hes ▸ hl.done, hnode ▸ hl.failed⟩
  · obtain ⟨i, m, rfl, he, ht⟩ := hres
    obtain ⟨dm, hdm, hlink⟩ := hclosed i _ m he
    refine wp_then (ht.wp_inodeDeref (fun hl => ?_) ?_) ?_
    · obtain ⟨n', hn'⟩ := h.inodes.cache.ref_of_lock hl
      obtain rfl : n' = m := (ht.inodes.cache.num (Multiset.mem_cons_of_mem hn')).symm.trans
        (ht.inodes.cache.num (Multiset.mem_cons_self _ _))
      exact hn'
    · exact fun _ => ⟨dm, hdm, hlink⟩
    · rintro _ u ⟨hu, hsp'⟩
      rw [dropped_of_links hdm hlink, pendWithout_or (pend_or _ _)] at hu
      have hall := hsp.andThen hsp'
      refine ⟨d, ?_, hall.mono (Set.empty_subset _), rfl, rfl, rfl, fun hz => absurd hz (by decide),
        fun _ => ?_⟩
      · rw [← hd, upd_eq_self]
        exact hu
      · exact (hall.others n d (Set.notMem_empty n) hd).nodeOf_eq

/-! ## Emptiness -/

/-- Only the first two entries may be in use. -/
def OnlyDots (es : Entries) : Prop := ∀ i nm m, 2 ≤ i → ¬ HasEntry es i nm m

variable (h : FsInv s ino R L none) (hk : (k, n) ∈ R) (hd : ino n = some d)
include h hk hd

theorem wp_isemptyFrom (htype : d.type = FS_TYPE_DIR) (fuel : ℕ)
    (hfuel : d.size.toNat / 32 ≤ j + fuel)
    (hbefore : ∀ i nm m, 2 ≤ i → i < j → ¬ HasEntry (entriesOf s.disk d) i nm m) (hj : 2 ≤ j)
    (hyes : OnlyDots (entriesOf s.disk d) → Q true s)
    (hno : ¬ OnlyDots (entriesOf s.disk d) → Q false s) :
    wp (Stops W) (isemptyFrom k fuel (32 * j)) Q s := by
  have hok := h.dirs hd htype
  have hsize := hok.size
  have hend : ∀ j, d.size.toNat / 32 ≤ j →
    (∀ i nm m, 2 ≤ i → i < j → ¬ HasEntry (entriesOf s.disk d) i nm m) →
      OnlyDots (entriesOf s.disk d) := by
    intro j hle hbefore i nm m hi he
    have hlt := he.lt
    rw [length_entriesOf] at hlt
    exact hbefore i nm m hi (by omega) he
  induction fuel generalizing j with
  | zero => exact hyes (hend j (by omega) hbefore)
  | succ fuel ih =>
    unfold isemptyFrom
    rw [wp_bind, wp_getInode, h.slot hk hd]
    split
    · next hlt =>
      have hjlt : j < d.size.toNat / 32 := by omega
      have hat := entriesOf_getElem? s.disk hjlt
      rw [wp_bind]
      refine wp_readDentry h.inodes hk hd hok hjlt ?_
      split
      · next hused =>
        refine hno fun hall => hall j (dentryAt s.disk d j).name
          (dentryAt s.disk d j).inode_num.toNat hj ?_
        exact hat.trans (congrArg some (Dentry.entry_eq_some.mpr ⟨hused, rfl, rfl⟩))
      · next hfree =>
        rw [not_not] at hfree
        refine ih (j := j + 1) (by omega) (fun i nm m hi hi' he => ?_) (by omega)
        by_cases hij : i = j
        · rw [hij, HasEntry, hat, Dentry.entry_eq_none.mpr hfree] at he
          cases he
        · exact hbefore i nm m hi (by omega) he
    · exact hyes (hend j (by omega) hbefore)

/-- **`dir_isempty`** looks at the entries after the first two. -/
theorem wp_dirIsempty (htype : d.type = FS_TYPE_DIR)
    (hyes : OnlyDots (entriesOf s.disk d) → Q true s)
    (hno : ¬ OnlyDots (entriesOf s.disk d) → Q false s) : wp (Stops W) (dirIsempty k) Q s := by
  unfold dirIsempty
  rw [wp_bind, wp_getInode, h.slot hk hd]
  refine wp_isemptyFrom h hk hd htype (numEntries d) (j := 2) ?_
    (fun i _ _ h1 h2 => absurd h2 (by omega)) le_rfl hyes hno
  rw [(h.dirs hd htype).numEntries_eq]
  omega

end OsLab
