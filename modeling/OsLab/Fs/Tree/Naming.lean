import OsLab.Fs.Tree.Calls
/-!
# Removing, linking and listing

The calls that change names, and `do_ls`. A file has one link however many names `do_ln` gave it, so
`do_rm` leaves the tree in order only where the name it removes is the last one. `do_ls` keeps the
references it takes to the listed directory itself: one or three for `.`, and as many for the `..`
of the root. -/

namespace OsLab

open Prog Bytes Multiset

variable {s t u : FS} {ino ino' : ℕ → Option DiskInode} {E : Multiset Ref} {L : Finset ℕ}
  {p : Option ℕ} {k c n m q i pid : ℕ} {d d' : DiskInode} {T T' : Shape} {v : View} {num : ℕ → ℕ}
  {path name nm : Name} {W : Prop}

/-! ## Removing -/

/-- No entry other than entry `i` of directory `q` names inode `m`. -/
def OnlyName (v : View) (T : Shape) (q i m : ℕ) : Prop :=
  ∀ x j nm, x ∈ T.dirs → 2 ≤ j → v.Has x j nm m → x = q ∧ j = i

/-- The file that a path names, if any, has no other name. -/
def LastName (v : View) (T : Shape) (start : ℕ) (path : Name) : Prop :=
  ∀ q name i m, q ∈ T.dirs → Parent v.dirs start path q name → v.Has q i (Name.trunc name) m →
    ¬ v.IsDir m →
    OnlyName v T q i m

section

variable (h : FsOk s ino T num E) (hroom : Room 3 (fdRefs s.mem num + E))
  (hstart : startInode s.mem pid path ∈ T.dirs)
include h hroom hstart

/-- **`do_rm`** of a file's last name. -/
theorem FsAt.wp_doRm (hlast : LastName (viewOf s.disk ino) T (startInode s.mem pid path) path) :
    wp (Stops W) (doRm pid path) (fun r t => ∃ ino', FsOk t ino' T num E ∧ cwds t.mem = cwds s.mem ∧
      ((r ≠ 0 ∧ viewOf t.disk ino' = viewOf s.disk ino) ∨
        r = 0 ∧ ∃ q name i m, q ∈ T.dirs ∧
          Parent (dirsOf s.disk ino) (startInode s.mem pid path) path q name ∧
          isDots name = false ∧ GoneEntry (viewOf s.disk ino) (viewOf t.disk ino') q i
            (Name.trunc name) m false)) s := by
  refine wp_mono (h.tree.wp_doRm h.inv hroom hstart) ?_
  rintro r t (⟨hr, hst, ht⟩ | ⟨hr, q, name, i, m, ino', hq, hdots, hpar, hrem⟩)
  · exact ⟨ino, h.of_spares hst ht le_rfl, hst.cwds_eq, .inl ⟨hr, viewOf_spares hst⟩⟩
  · have hfile : ¬ (viewOf s.disk ino).IsDir m := by
      rintro ⟨nd, hv, ht⟩
      obtain ⟨nd', hv', hkind⟩ := hrem.gone.node
      cases hv.symm.trans hv'
      exact absurd (hkind.mp ht) (by decide)
    have honly := hlast q name i m hq hpar hrem.gone.frees.was hfile
    exact ⟨ino', h.of_gone hrem hq fun _ {x j nm'} hx hj he => honly x j nm' hx hj he,
      hrem.keeps.spares.cwds_eq,
      .inr ⟨hr, q, name, i, m, hq, hpar, hdots, hrem.gone⟩⟩

/-- **`do_rmdir`.** -/
theorem FsAt.wp_doRmdir :
    wp (Stops W) (doRmdir pid path)
      (fun r t => ∃ ino' T', FsOk t ino' T' num E ∧ cwds t.mem = cwds s.mem ∧
      ((r ≠ 0 ∧ T' = T ∧ viewOf t.disk ino' = viewOf s.disk ino) ∨
        r = 0 ∧ ∃ q name i m, q ∈ T.dirs ∧
          Parent (dirsOf s.disk ino) (startInode s.mem pid path) path q name ∧
          T' = T.leave m ∧ isDots name = false ∧
          GoneEntry (viewOf s.disk ino) (viewOf t.disk ino') q i (Name.trunc name) m true)) s := by
  refine wp_mono (h.tree.wp_doRmdir h.inv hroom hstart) ?_
  rintro r t (⟨hr, hst, ht⟩ | ⟨hr, q, name, i, m, ino', hq, hdots, hpar, hrem⟩)
  · exact ⟨ino, T, h.of_spares hst ht le_rfl, hst.cwds_eq, .inl ⟨hr, rfl, viewOf_spares hst⟩⟩
  · exact ⟨ino', _, h.of_gone hrem hq nofun, hrem.keeps.spares.cwds_eq,
      .inr ⟨hr, q, name, i, m, hq, hpar, rfl, hdots, hrem.gone⟩⟩

/-! ## Linking -/

end

/-- A file of the tree has one link. -/
theorem FsAt.one_link (h : FsAt s ino T num E L p) (hm : FsAt.InTree s ino T m)
    (hd : ino m = some d) (hfile : d.type ≠ FS_TYPE_DIR) : d.link_count = 1 ∧ m ∉ T.dirs := by
  have hv : viewOf s.disk ino m = some (nodeOf s.disk d) := viewOf_some hd
  have hnot : m ∉ T.dirs := by
    intro hmT
    obtain ⟨nd, hv', ht, -⟩ := h.tree.node hmT
    cases hv.symm.trans hv'
    exact hfile ht
  obtain ⟨q, hq, i, nm, hi, he⟩ := hm.resolve_left hnot
  exact ⟨h.tree.file hq hi he hv hfile, hnot⟩

variable {dm : DiskInode}

/-- **A file gets another name.** -/
theorem FsAt.of_name (h : FsAt s ino T num E L none) (hq : q ∈ T.dirs) (hdq : ino q = some d)
    (hm : FsAt.InTree s ino T m) (hdm : ino m = some dm) (hfile : dm.type ≠ FS_TYPE_DIR)
    (hinv : FsInv t (upd ino q (some d')) (fdRefs s.mem num + E) L none) (hsp : Spares ino {q} s t)
    (hlink : d'.link_count = d.link_count)
    (hadds : Adds (viewOf s.disk ino) (viewOf t.disk (upd ino q (some d'))) q i nm m) :
    FsAt t (upd ino q (some d')) T num E L none := by
  obtain ⟨hone, hmT⟩ := h.one_link hm hdm hfile
  have hmq : m ≠ q := hadds.ne
  have hvq : viewOf s.disk ino q = some (nodeOf s.disk d) := viewOf_some hdq
  have hvq' : viewOf t.disk (upd ino q (some d')) q = some (nodeOf t.disk d') :=
    viewOf_some upd_self
  have hvm : viewOf s.disk ino m = some (nodeOf s.disk dm) := viewOf_some hdm
  have hkeeps : Keeps ino {q} s (upd ino q (some d')) t := .of_upd hsp rfl
  have hvm' : viewOf t.disk (upd ino q (some d')) m = some (nodeOf s.disk dm) :=
    (hkeeps.viewOf_eq hmq).trans hvm
  refine h.of_mem hsp.procs hsp.fdescs hinv ?_ ?_ (hkeeps.keepsFiles fun k x dx _ hdx htx => ?_)
  · refine h.tree.addFile hadds hq hvq hvq' hlink hvm' hfile hone ?_
    rintro ⟨nd, hv, ht⟩
    cases hvm.symm.trans hv
    exact hfile ht
  · intro x nd hv
    by_cases hxq : x = q
    · rw [hxq]
      exact .inl hq
    · rw [hkeeps.viewOf_eq hxq] at hv
      refine (h.held x nd hv).imp_right (Or.imp_left ?_)
      rintro ⟨y, hy, j, nm', hj, he⟩
      exact ⟨y, hy, j, nm', hj, hadds.keep (fun he => hmT (he ▸ hy)) he⟩
  · rintro rfl
    obtain ⟨nd, hv, ht, -⟩ := h.tree.node hq
    rw [viewOf_some hdx] at hv
    cases hv
    exact absurd (htx.symm.trans ht) (by decide)

/-- **`do_ln`** in its directory. -/
theorem FsAt.wp_linkIn (h : FsAt s ino T num ((k, q) ::ₘ E) L none) (hk : k ∈ L) (hq : q ∈ T.dirs)
    (hm : FsAt.InTree s ino T m) (hdm : ino m = some dm) (hfile : dm.type ≠ FS_TYPE_DIR)
    (hroom : Room 1 (fdRefs s.mem num + (k, q) ::ₘ E)) :
    wp (Stops W) (dirLink k name m)
      (fun r t => ∃ dq', (r ≠ 0 → viewOf t.disk (upd ino q (some dq')) = viewOf s.disk ino) ∧
      FsAt t (upd ino q (some dq')) T num ((k, q) ::ₘ E) L none ∧ dq'.link_count ≠ 0 ∧
        t.mem.procs = s.mem.procs ∧
      (r = 0 → ∃ i, Adds (viewOf s.disk ino) (viewOf t.disk (upd ino q (some dq'))) q i
        (Name.trunc name) m ∧
        ∀ j a, ¬ (viewOf s.disk ino).Has q j (Name.trunc name) a)) s := by
  have hkR : (k, q) ∈ fdRefs s.mem num + (k, q) ::ₘ E := mem_extra
  obtain ⟨dq, hpq⟩ := h.tree.parental h.inv hq
  obtain ⟨h1, h2, -⟩ := h.inv.inodes.cache.range hdm
  have hvq : viewOf s.disk ino q = some (nodeOf s.disk dq) := viewOf_some hpq.live
  have hmq : m ≠ q := by
    rintro rfl
    cases hdm.symm.trans hpq.live
    exact hfile hpq.dir
  refine wp_mono (wp_dirLink h.inv hkR hk hpq.live hpq.dir hpq.closed hroom name ⟨by omega, h2⟩) ?_
  rintro r t ⟨d', hl⟩
  have hkeeps : Keeps ino {q} s (upd ino q (some d')) t := .of_upd hl.spares rfl
  have hvq' : viewOf t.disk (upd ino q (some d')) q = some (nodeOf t.disk d') :=
    viewOf_some upd_self
  have hlinks : d'.link_count ≠ 0 := by
    rw [hl.link_count]
    exact hpq.links
  by_cases hr : r = 0
  · obtain ⟨hnew, i, hfree, hes⟩ := hl.done hr
    have hadds : Adds (viewOf s.disk ino) (viewOf t.disk (upd ino q (some d'))) q i
      (Name.trunc name) m :=
      Adds.of_put hvq hpq.dir hvq' (hl.type.trans hpq.dir) hfree.le
        (fun _ _ => hfree.not_hasEntry) hes (hpq.two i hfree) hmq
        fun x hxq _ => hkeeps.viewOf_eq hxq
    refine ⟨d', fun hne => absurd hr hne,
      h.of_name hq hpq.live hm hdm hfile hl.inv hl.spares hl.link_count hadds, hlinks,
      hl.spares.procs, fun _ => ⟨i, hadds, fun j a he => hnew j a ?_⟩⟩
    exact (View.has_iff (View.dirs_of_node hvq hpq.dir)).mp he
  · have hview : viewOf t.disk (upd ino q (some d')) = viewOf s.disk ino := by
      funext x
      by_cases hxq : x = q
      · rw [hxq, hvq', hvq, hl.failed hr]
      · exact hkeeps.viewOf_eq hxq
    refine ⟨d', fun _ => hview, h.of_same hkeeps hl.inv hview le_rfl fun k x dx _ hdx htx => ?_,
      hlinks, hl.spares.procs,
      fun hr' => absurd hr' hr⟩
    rintro rfl
    cases hdx.symm.trans hpq.live
    exact absurd (htx.symm.trans hpq.dir) (by decide)

/-- The file that one path leads to is passed by the other, as if it were a directory. -/
def PassesSource (v : View) (src_start : ℕ) (src : Name) (dst_start : ℕ) (dst : Name) : Prop :=
  ∃ m, Walk v.dirs src_start (components src) m ∧ ¬ v.IsDir m ∧
    Passes v.dirs dst_start (components dst) m

/-- What `do_ln` comes to: nothing, or another name for a file. -/
def LnDone (ino : ℕ → Option DiskInode) (T : Shape) (num : ℕ → ℕ) (E : Multiset Ref) (pid : ℕ)
    (src dst : Name) (s : FS) (r : ℤ) (t : FS) : Prop :=
  ∃ ino', FsOk t ino' T num E ∧ cwds t.mem = cwds s.mem ∧
    ((r ≠ 0 ∧ viewOf t.disk ino' = viewOf s.disk ino) ∨
      r = 0 ∧ ∃ q name i m nd, q ∈ T.dirs ∧
      Parent (dirsOf s.disk ino) (startInode s.mem pid dst) dst q name ∧
        Walk (dirsOf s.disk ino) (startInode s.mem pid src) (components src) m ∧
        viewOf s.disk ino m = some nd ∧ nd.type ≠ FS_TYPE_DIR ∧
        (∀ j a, ¬ (viewOf s.disk ino).Has q j (Name.trunc name) a) ∧
        Adds (viewOf s.disk ino) (viewOf t.disk ino') q i (Name.trunc name) m)

/-- **`do_ln`**: another name, and no link. -/
theorem FsAt.wp_doLn {src dst : Name} (h : FsOk s ino T num E)
    (hroom : Room 5 (fdRefs s.mem num + E)) (hsrc : startInode s.mem pid src ∈ T.dirs)
    (hdst : startInode s.mem pid dst ∈ T.dirs)
    (hW : PassesSource (viewOf s.disk ino) (startInode s.mem pid src) src
      (startInode s.mem pid dst) dst → W) :
    wp (Stops W) (doLn pid src dst) (LnDone ino T num E pid src dst s) s := by
  unfold doLn
  refine wp_then (h.wp_pathResolveEntry (hroom.mono (by omega)) hsrc) ?_
  rintro (_ | ks) t ⟨hst, hres⟩
  · exact ⟨ino, hres.1, hst.cwds_eq, .inl ⟨by decide, viewOf_spares hst⟩⟩
  · obtain ⟨m, p, hm, hp, ht, hw⟩ := hres
    have hksR : (ks, m) ∈ fdRefs t.mem num + (ks, m) ::ₘ E := mem_extra
    obtain ⟨d, hd, hl⟩ := h.links_of_inTree hm
    refine wp_then (ht.wp_inodeOpen hksR hp fun hk => absurd hk (Finset.notMem_empty ks)) ?_
    rintro _ t1 ⟨-, h1, hs1, hdisk1⟩
    have hall1 := hst.andThen hs1
    have hks1 : (ks, m) ∈ fdRefs t1.mem num + (ks, m) ::ₘ E := mem_extra
    -- the source is closed and nothing was seen
    have hclose : ∀ {u : FS} (r : ℤ), r ≠ 0 → FsAt u ino T num ((ks, m) ::ₘ E) (insert ks ∅) none →
      Spares ino ∅ s u →
        wp (Stops W) (do inodeClose ks; pure r) (LnDone ino T num E pid src dst s) u := by
      intro u r hr hu hsu
      refine wp_mono (hu.wp_closeLinked (Finset.notMem_empty ks) hd hl) ?_
      rintro _ w ⟨rfl, hw, hsw⟩
      have hall := hsu.andThen hsw
      exact ⟨ino, hw, hall.cwds_eq, .inl ⟨hr, viewOf_spares hall⟩⟩
    rw [wp_bind, wp_getInode, h1.inv.slot hks1 hd]
    split
    · exact hclose _ (by decide) h1 hall1
    · next hfile =>
      have hstart1 : startInode t1.mem pid dst = startInode s.mem pid dst := by
        rw [h1.startInode_eq, h.startInode_eq, hall1.cwds_eq]
      have hnotdir : ¬ (viewOf s.disk ino).IsDir m := by
        rintro ⟨nd, hv, htype⟩
        cases (viewOf_some hd).symm.trans hv
        exact hfile htype
      refine wp_then (h1.wp_pathResolveParent ?_ (by rw [hstart1]; exact hdst)
        fun k o hk ho hpass => ?_) ?_
      · rw [hall1.fdRefs_eq, add_cons]
        exact (hroom.mono (by omega)).cons
      · -- the slot that is locked is the source's
        obtain rfl := Finset.mem_singleton.mp hk
        obtain rfl := h1.inv.inodes.cache.one ho hks1
        rw [hstart1, dirsOf_spares hall1] at hpass
        exact hW ⟨o, hw, hnotdir, hpass⟩
      rintro (_ | ⟨kp, name⟩) t2 ⟨hs2, hres2⟩
      · exact hclose _ (by decide) hres2.1 (hall1.andThen hs2)
      · obtain ⟨q, p2, hq, hp2, h2, hpar⟩ := hres2
        have hall2 := hall1.andThen hs2
        rw [hstart1, dirsOf_spares hall1] at hpar
        have hkp2 : (kp, q) ∈ fdRefs t2.mem num + (kp, q) ::ₘ (ks, m) ::ₘ E :=
          mem_extra
        have hks2 : (ks, m) ∈ fdRefs t2.mem num + (kp, q) ::ₘ (ks, m) ::ₘ E :=
          mem_add.mpr (.inr (mem_cons_of_mem (mem_cons_self _ _)))
        refine wp_then (h2.wp_inodeOpen hkp2 hp2 fun hk => ?_) ?_
        · obtain rfl := Finset.mem_singleton.mp hk
          obtain rfl := h2.inv.inodes.cache.one hkp2 hks2
          exact absurd (h.tree.dir hq) hnotdir
        rintro _ t3 ⟨hkp, h3, hs3, -⟩
        have hall3 := hall2.andThen hs3
        have hks3 : (ks, m) ∈ fdRefs t3.mem num + (kp, q) ::ₘ (ks, m) ::ₘ E :=
          mem_add.mpr (.inr (mem_cons_of_mem (mem_cons_self _ _)))
        have hm3 : FsAt.InTree t3 ino T m := by
          unfold FsAt.InTree
          rw [viewOf_spares hall3]
          exact hm
        rw [wp_bind, wp_getInode, h3.inv.slot hks3 hd, (h3.inv.inodes.cache.range hd).2.2.1,
          wp_bind]
        refine wp_mono (h3.wp_linkIn (Finset.mem_insert_self kp _) hq hm3 hd hfile ?_) ?_
        · rw [hall3.fdRefs_eq, add_cons, add_cons]
          exact Room.cons (Room.cons (hroom.mono (by omega)))
        rintro r t4 ⟨dq', hfail, h4, hlinks, hprocs, hdone⟩
        have hdm4 : upd ino q (some dq') m = some d := by
          rw [upd_of_ne _]
          · exact hd
          · rintro rfl
            exact (h.one_link hm hd hfile).2 hq
        refine wp_then (h4.wp_inodeClose (Finset.mem_insert_self kp _)) ?_
        rintro _ t5 ⟨h5, hs5⟩
        rw [dropped_of_links upd_self hlinks, Finset.erase_insert hkp] at h5
        refine wp_mono (h5.wp_closeLinked (Finset.notMem_empty ks) hdm4 hl) ?_
        rintro r' w ⟨rfl, hw', hsw⟩
        have hafter := hs5.andThen hsw
        have hcwd : cwds w.mem = cwds s.mem :=
          cwds_congr (hafter.procs.trans (hprocs.trans hall3.procs))
        rw [viewOf_spares hall3] at hfail hdone
        rw [← viewOf_spares hafter] at hfail hdone
        refine ⟨_, hw', hcwd, ?_⟩
        by_cases hr : r' = 0
        · obtain ⟨i, hadds, hnew⟩ := hdone hr
          exact .inr ⟨hr, q, name, i, m, _, hq, hpar, hw, viewOf_some hd, hfile, hnew, hadds⟩
        · exact .inl ⟨hr, hfail hr⟩

/-! ## Listing -/

/-- The listed directory `n` is in slot `k`, and `c` references to it were kept. -/
structure Listing (ino : ℕ → Option DiskInode) (T : Shape) (num : ℕ → ℕ) (E : Multiset Ref)
    (k n c : ℕ) (s t : FS) : Prop where
  ok : FsAt t ino T num (Multiset.replicate c (k, n) + E) {k} none
  spares : Spares ino ∅ s t

theorem Listing.trans {c' : ℕ} (h : Listing ino T num E k n c s t)
    (h' : Listing ino T num (Multiset.replicate c (k, n) + E) k n c' t u) :
    Listing ino T num E k n (c' + c) s u := by
  refine ⟨?_, h.spares.andThen h'.spares⟩
  rw [replicate_add, add_assoc]
  exact h'.ok

section Listing

variable (hn : n ∈ T.dirs) (hd : ino n = some d) (hk : (k, n) ∈ E)

include hn hd hk

variable (h : FsAt s ino T num E {k} none)
include h

/-- **Looking at the inode of an entry** keeps a reference when the inode is the directory. -/
theorem FsAt.wp_lsInode (he : HasEntry (entriesOf s.disk d) i nm m)
    (hroom : Room 1 (fdRefs s.mem num + E)) (named : Bool) :
    wp (Stops W) (lsInode k i named)
      (fun _ t => ∃ c ≤ 1, (c ≠ 0 → m = n) ∧ Listing ino T num E k n c s t) s := by
  have hkR : (k, n) ∈ fdRefs s.mem num + E := mem_add.mpr (.inr hk)
  obtain ⟨nd, hv, htype, -⟩ := h.tree.node hn
  rw [viewOf_some hd] at hv
  cases hv
  have hok := h.inv.dirs hd htype
  have hlt := he.lt
  rw [length_entriesOf] at hlt
  have hnum : (dentryAt s.disk d i).inode_num.toNat = m := by
    unfold HasEntry at he
    rw [entriesOf_getElem? _ hlt, Option.some.injEq, Dentry.entry_eq_some] at he
    exact he.2.2
  obtain ⟨dm, hdm, hlm⟩ := h.tree.hereditary.closed (.inl hn) hd htype i nm m he
  unfold lsInode
  rw [wp_bind]
  refine wp_readDentry h.inv.inodes hkR hd hok hlt ?_
  rw [hnum, wp_bind]
  refine wp_mono (h.inv.wp_inodeRef hdm hroom) ?_
  rintro ind t ⟨ht, hst, hdisk⟩
  rw [← add_cons] at ht
  have ht' : FsAt t ino T num ((ind, m) ::ₘ E) {k}
    (if (ind, m) ∈ fdRefs s.mem num + E then none else some ind) :=
    h.of_spares hst ht (le_cons_self _ _)
  have hokt : DirOk t.disk d := by
    rw [hdisk]
    exact hok
  dsimp only
  split
  · next hne =>
    -- another inode is locked, looked at and closed
    have hindR : (ind, m) ∈ fdRefs t.mem num + (ind, m) ::ₘ E := mem_extra
    refine wp_then (ht'.wp_inodeOpen hindR (pend_or _ _) fun hl =>
      absurd (Finset.mem_singleton.mp hl) hne) ?_
    rintro _ u ⟨hind, hu, hsu, hdisku⟩
    have hclose : wp (Stops W) (inodeClose ind)
        (fun _ t => ∃ c ≤ 1, (c ≠ 0 → m = n) ∧ Listing ino T num E k n c s t) u := by
      refine wp_mono (hu.wp_inodeClose (Finset.mem_insert_self ind _)) ?_
      rintro _ w ⟨hw, hsw⟩
      rw [dropped_of_links hdm hlm, Finset.erase_insert hind] at hw
      exact ⟨0, by omega, fun h0 => absurd rfl h0, by rwa [replicate_zero, zero_add],
        (hst.andThen hsu).andThen hsw⟩
    split
    · rw [wp_bind]
      have hku : (k, n) ∈ fdRefs u.mem num + (ind, m) ::ₘ E :=
        mem_add.mpr (.inr (mem_cons_of_mem hk))
      exact wp_readDentry hu.inv.inodes hku hd (by rw [hdisku]; exact hokt) hlt hclose
    · exact hclose
  · next hind =>
    rw [not_not] at hind
    subst hind
    -- the directory itself: the reference is kept
    obtain rfl : m = n := (ht.inodes.cache.num (mem_extra (x := (ind, m)))).symm.trans
      (ht.inodes.cache.num (mem_add.mpr (.inr (mem_cons_of_mem hk))))
    rw [if_pos hkR] at ht'
    have hlist : Listing ino T num E ind m 1 s t := ⟨by rwa [replicate_one, singleton_add], hst⟩
    have hdone : ∃ c ≤ 1, (c ≠ 0 → m = m) ∧ Listing ino T num E ind m c s t :=
      ⟨1, le_rfl, fun _ => rfl, hlist⟩
    split
    · rw [wp_bind]
      have hku : (ind, m) ∈ fdRefs t.mem num + (ind, m) ::ₘ E := mem_extra
      exact wp_readDentry ht'.inv.inodes hku hd hokt hlt hdone
    · exact hdone

/-- **One entry.** -/
theorem FsAt.wp_lsEntry (hi : i < d.size.toNat / 32) (hroom : Room 3 (fdRefs s.mem num + E))
    (verbose : Bool) :
    wp (Stops W) (lsEntry k i verbose)
      (fun _ t => ∃ c ≤ 3, (c ≠ 0 → i < 2) ∧ Listing ino T num E k n c s t) s := by
  have hkR : (k, n) ∈ fdRefs s.mem num + E := mem_add.mpr (.inr hk)
  obtain ⟨nd, hv, htype, -⟩ := h.tree.node hn
  have hv' := hv
  rw [viewOf_some hd] at hv
  cases hv
  have hok := h.inv.dirs hd htype
  have hnone : ∃ c ≤ 3, (c ≠ 0 → i < 2) ∧ Listing ino T num E k n c s s :=
    ⟨0, by omega, fun h0 => absurd rfl h0, by rwa [replicate_zero, zero_add], .refl s⟩
  unfold lsEntry
  rw [wp_bind]
  refine wp_readDentry h.inv.inodes hkR hd hok hi ?_
  split
  · exact hnone
  · next hused =>
    have he : HasEntry (entriesOf s.disk d) i (dentryAt s.disk d i).name
      (dentryAt s.disk d i).inode_num.toNat :=
      (entriesOf_getElem? _ hi).trans (congrArg some (Dentry.entry_eq_some.mpr ⟨hused, rfl, rfl⟩))
    have hself : (dentryAt s.disk d i).inode_num.toNat = n → i < 2 := fun hm =>
      h.tree.self_lt hn ((View.has_iff (View.dirs_of_node hv' htype)).mpr (hm ▸ he))
    split
    · rw [wp_bind]
      refine wp_readDentry h.inv.inodes hkR hd hok hi ?_
      -- three columns look at the inode
      refine wp_then (h.wp_lsInode hn hd hk he (hroom.mono (by omega)) false) ?_
      rintro _ t1 ⟨c1, hc1, hm1, h1⟩
      have hroom' : ∀ {c c' t}, Spares ino ∅ s t → c + c' ≤ 3 →
          Room c' (fdRefs t.mem num + (Multiset.replicate c (k, n) + E)) := by
        intro c c' t hst hc x
        have hx := hroom x
        have hrep : (Multiset.replicate c (k, n)).count x ≤ c := by
          rw [count_replicate]
          split <;> omega
        rw [hst.fdRefs_eq]
        simp only [count_add] at hx ⊢
        omega
      have he1 : HasEntry (entriesOf t1.disk d) i (dentryAt s.disk d i).name
          (dentryAt s.disk d i).inode_num.toNat := by
        rw [h1.spares.entriesOf_eq (Set.notMem_empty n) hd]
        exact he
      refine wp_then (h1.ok.wp_lsInode hn hd (mem_add.mpr (.inr hk)) he1
        (hroom' h1.spares (by omega)) false) ?_
      rintro _ t2 ⟨c2, hc2, hm2, h2⟩
      have h12 := h1.trans h2
      have he2 : HasEntry (entriesOf t2.disk d) i (dentryAt s.disk d i).name
          (dentryAt s.disk d i).inode_num.toNat := by
        rw [h12.spares.entriesOf_eq (Set.notMem_empty n) hd]
        exact he
      refine wp_mono (h12.ok.wp_lsInode hn hd (mem_add.mpr (.inr hk)) he2
        (hroom' h12.spares (by omega)) false) ?_
      rintro _ t3 ⟨c3, hc3, hm3, h3⟩
      refine ⟨c3 + (c2 + c1), by omega, fun hne => hself ?_, h12.trans h3⟩
      rcases (by omega : c1 ≠ 0 ∨ c2 ≠ 0 ∨ c3 ≠ 0) with hc | hc | hc
      · exact hm1 hc
      · exact hm2 hc
      · exact hm3 hc
    · refine wp_mono (h.wp_lsInode hn hd hk he (hroom.mono (by omega)) true) ?_
      rintro _ t ⟨c, hc, hm, hlist⟩
      exact ⟨c, by omega, fun hne => hself (hm hne), hlist⟩

/-- **The first `j` entries.** -/
theorem FsAt.wp_lsEntries (hroom : Room 9 (fdRefs s.mem num + E)) (verbose : Bool) (j : ℕ)
    (hj : j ≤ d.size.toNat / 32) :
    wp (Stops W) (lsEntries k verbose j)
      (fun _ t => ∃ c ≤ 3 * min j 2, Listing ino T num E k n c s t) s := by
  induction j with
  | zero => exact ⟨0, by omega, by rwa [replicate_zero, zero_add], .refl s⟩
  | succ j ih =>
    unfold lsEntries
    refine wp_then (ih (by omega)) ?_
    rintro _ t ⟨c, hc, hlist⟩
    have hroom' : Room 3 (fdRefs t.mem num + (Multiset.replicate c (k, n) + E)) := by
      intro x
      have hx := hroom x
      have hrep : (Multiset.replicate c (k, n)).count x ≤ c := by
        rw [count_replicate]
        split <;> omega
      rw [hlist.spares.fdRefs_eq]
      simp only [count_add] at hx ⊢
      omega
    refine wp_mono (hlist.ok.wp_lsEntry hn hd (mem_add.mpr (.inr hk)) (by omega) hroom' verbose) ?_
    rintro _ u ⟨c', hc', hlt, hlist'⟩
    refine ⟨c' + c, ?_, hlist.trans hlist'⟩
    by_cases h0 : c' = 0
    · omega
    · have := hlt h0
      omega

end Listing

/-- **`do_ls`** changes nothing that can be seen, and may keep references to the directory. -/
theorem FsAt.wp_doLs {verbose : Bool} (h : FsOk s ino T num E)
    (hroom : Room 10 (fdRefs s.mem num + E)) (hstart : startInode s.mem pid path ∈ T.dirs) :
    wp (Stops W) (doLs pid path verbose)
      (fun _ t => ∃ c k n, c ≤ 6 ∧ FsOk t ino T num (Multiset.replicate c (k, n) + E) ∧
      viewOf t.disk ino = viewOf s.disk ino ∧ cwds t.mem = cwds s.mem) s := by
  unfold doLs
  refine wp_then (h.wp_pathResolveEntry (hroom.mono (by omega)) hstart) ?_
  rintro (_ | k) t ⟨hst, hres⟩
  · exact ⟨0, 0, 0, by omega, by rw [replicate_zero, zero_add]; exact hres.1, viewOf_spares hst,
      hst.cwds_eq⟩
  · obtain ⟨n, p, hm, hp, ht, -⟩ := hres
    obtain ⟨d, hd, hl⟩ := h.links_of_inTree hm
    have hkR : (k, n) ∈ fdRefs t.mem num + (k, n) ::ₘ E := mem_extra
    refine wp_then (ht.wp_inodeOpen hkR hp fun hl => absurd hl (Finset.notMem_empty k)) ?_
    rintro _ t1 ⟨-, h1, hs1, -⟩
    have hall1 := hst.andThen hs1
    have hk1 : (k, n) ∈ fdRefs t1.mem num + (k, n) ::ₘ E := mem_extra
    have hclose : ∀ {u : FS} {c : ℕ} (r : ℤ), c ≤ 6 → Spares ino ∅ s u →
        FsAt u ino T num ((k, n) ::ₘ (Multiset.replicate c (k, n) + E)) {k} none →
        wp (Stops W) (do inodeClose k; pure r)
          (fun _ t => ∃ c k n, c ≤ 6 ∧ FsOk t ino T num (Multiset.replicate c (k, n) + E) ∧
          viewOf t.disk ino = viewOf s.disk ino ∧ cwds t.mem = cwds s.mem) u := by
      intro u c r hc hsu hu
      rw [← insert_empty_eq] at hu
      refine wp_mono (hu.wp_closeLinked (Finset.notMem_empty k) hd hl) ?_
      rintro _ w ⟨rfl, hw, hsw⟩
      have hall := hsu.andThen hsw
      exact ⟨c, k, n, hc, hw, viewOf_spares hall, hall.cwds_eq⟩
    rw [wp_bind, wp_getInode, h1.inv.slot hk1 hd]
    rw [insert_empty_eq] at h1
    split
    · refine hclose (c := 0) _ (by omega) hall1 ?_
      rwa [replicate_zero, zero_add]
    · next hdir =>
      rw [not_not] at hdir
      have hnT : n ∈ T.dirs := hm.elim id fun hN => h.tree.mem_of_named hN ⟨_, viewOf_some hd, hdir⟩
      refine wp_then (h1.wp_lsEntries hnT hd (mem_cons_self _ _) ?_ verbose _ le_rfl) ?_
      · rw [hall1.fdRefs_eq, add_cons]
        exact hroom.cons
      rintro _ t2 ⟨c, hc, hlist⟩
      have hlist' := hlist.ok
      rw [add_cons] at hlist'
      exact hclose 0 (by omega) (hall1.andThen hlist.spares) hlist'

end OsLab
