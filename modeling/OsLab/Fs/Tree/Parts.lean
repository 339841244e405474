import OsLab.Fs.Tree.State
/-!
# The parts of a call

What the calls are made of, in terms of `FsAt`: slots, paths, reading and writing a file, and
descriptors. -/

namespace OsLab

open Prog Bytes Multiset Finset

variable {s t : FS} {ino : ℕ → Option DiskInode} {R E : Multiset Ref} {L : Finset ℕ} {p : Option ℕ}
  {k n m q i f pid fd : ℕ} {d d' : DiskInode} {T : Shape} {num : ℕ → ℕ} {path : Name} {W : Prop}

/-! ## Slots -/

namespace FsAt

theorem wp_inodeOpen (h : FsAt s ino T num E L p) (hk : (k, n) ∈ fdRefs s.mem num + E)
    (hp : p = none ∨ p = some k) (hW : k ∈ L → W) : wp (Stops W) (inodeOpen k)
    (fun _ t => k ∉ L ∧ FsAt t ino T num E (insert k L) none ∧ Spares ino ∅ s t ∧
      t.disk = s.disk) s := by
  refine wp_mono (h.inv.wp_inodeOpen hk hp hW) ?_
  rintro _ t ⟨hfree, ht, hst, hdisk⟩
  exact ⟨hfree, h.of_spares hst ht le_rfl, hst, hdisk⟩

theorem wp_inodeUnlock (h : FsAt s ino T num E L p) (hk : k ∈ L) :
    wp (Stops W) (inodeUnlock k)
      (fun _ t => FsAt t ino T num E (L.erase k) p ∧ Spares ino ∅ s t ∧ t.disk = s.disk) s := by
  refine wp_mono (h.inv.wp_inodeUnlock hk) ?_
  rintro _ t ⟨ht, hst, hdisk⟩
  exact ⟨h.of_spares hst ht le_rfl, hst, hdisk⟩

theorem wp_inodeClose (h : FsAt s ino T num ((k, n) ::ₘ E) L p) (hk : k ∈ L) :
    wp (Stops W) (inodeClose k)
      (fun _ t => FsAt t (dropped ino n (fdRefs s.mem num + E)) T num E (L.erase k) p ∧
      Spares ino ∅ s t) s := by
  have hinv := h.inv
  rw [add_cons] at hinv
  refine wp_mono (hinv.wp_inodeClose hk) ?_
  rintro _ t ⟨ht, hst⟩
  exact ⟨h.of_released hst ht, hst⟩

theorem wp_inodeDeref (h : FsAt s ino T num ((k, n) ::ₘ E) L p)
    (hfree : k ∈ L → (k, n) ∈ fdRefs s.mem num + E)
    (hp : p = some k → ∃ d, ino n = some d ∧ d.link_count ≠ 0) :
    wp (Stops W) (inodeDeref k)
      (fun _ t => FsAt t (dropped ino n (fdRefs s.mem num + E)) T num E L (pendWithout p k) ∧
      Spares ino ∅ s t) s := by
  have hinv := h.inv
  rw [add_cons] at hinv
  refine wp_mono (hinv.wp_inodeDeref hfree hp) ?_
  rintro _ t ⟨ht, hst⟩
  exact ⟨h.of_released hst ht, hst⟩

/-! ## Paths -/

/-- The inodes that a path may lead to. -/
def InTree (s : FS) (ino : ℕ → Option DiskInode) (T : Shape) (n : ℕ) : Prop :=
  n ∈ T.dirs ∨ Named (viewOf s.disk ino) T n

theorem links_of_inTree (h : FsAt s ino T num E L p) (hn : InTree s ino T n) :
    ∃ d, ino n = some d ∧ d.link_count ≠ 0 :=
  h.tree.hereditary.links hn

variable (hroom : Room 3 (fdRefs s.mem num + E)) (hstart : startInode s.mem pid path ∈ T.dirs)
include hroom hstart

/-- **`path_resolve_entry`.** -/
theorem wp_pathResolveEntry (h : FsOk s ino T num E) :
    wp (Stops W) (pathResolveEntry pid path) (fun r t => Spares ino ∅ s t ∧
      match r with
      | none => FsOk t ino T num E ∧
        ∀ m, ¬ Walk (dirsOf s.disk ino) (startInode s.mem pid path) (components path) m
      | some k => ∃ m p, InTree s ino T m ∧ (p = none ∨ p = some k) ∧
        FsAt t ino T num ((k, m) ::ₘ E) ∅ p ∧
          Walk (dirsOf s.disk ino) (startInode s.mem pid path) (components path) m) s := by
  refine wp_mono (OsLab.wp_pathResolveEntry
    (fun k hk => h.inv.inodes.cache.ref_of_lock hk) hroom h.tree.hereditary
    (.inl hstart) h.inv fun k _ hk => absurd hk (Finset.notMem_empty k)) ?_
  rintro (_ | k) t ⟨hst, hres⟩
  · exact ⟨hst, h.of_spares hst hres.1 le_rfl, hres.2⟩
  · obtain ⟨m, p, hm, hp, ht, hw⟩ := hres
    rw [← add_cons] at ht
    exact ⟨hst, m, p, hm, hp, h.of_spares hst ht (le_cons_self _ _), hw⟩

/-- **`path_resolve_parent`**, perhaps with a slot locked. -/
theorem wp_pathResolveParent (h : FsAt s ino T num E L none)
    (hW : ∀ k m, k ∈ L → (k, m) ∈ fdRefs s.mem num + E →
      Passes (dirsOf s.disk ino) (startInode s.mem pid path) (components path) m → W) :
    wp (Stops W) (pathResolveParent pid path) (fun r t => Spares ino ∅ s t ∧
      match r with
      | none => FsAt t ino T num E L none ∧
          ∀ q name, ¬ Parent (dirsOf s.disk ino) (startInode s.mem pid path) path q name
      | some (k, name) => ∃ q p, q ∈ T.dirs ∧ (p = none ∨ p = some k) ∧
        FsAt t ino T num ((k, q) ::ₘ E) L p ∧
          Parent (dirsOf s.disk ino) (startInode s.mem pid path) path q name) s := by
  refine wp_mono (OsLab.wp_pathResolveParent
    (fun k hk => h.inv.inodes.cache.ref_of_lock hk) hroom h.tree.hereditary
    (.inl hstart) h.inv hW) ?_
  rintro (_ | ⟨k, name⟩) t ⟨hst, hres⟩
  · exact ⟨hst, h.of_spares hst hres.1 le_rfl, hres.2⟩
  · obtain ⟨q, p, hq, hp, ht, hpar⟩ := hres
    rw [← add_cons] at ht
    exact ⟨hst, q, p, h.tree.parent_mem hstart hq hpar, hp,
      h.of_spares hst ht (le_cons_self _ _), hpar⟩

end FsAt

/-! ## Files -/

/-- A file other than a directory changed. -/
theorem FsInv.of_file (h : FsInv s ino R L none) (hd : ino n = some d)
    (hfile : d.type = FS_TYPE_FILE) (hinv : InodeInv t (upd ino n (some d')) R L none)
    (he : Elsewhere ino n s t) (htype : d'.type = d.type) :
    FsInv t (upd ino n (some d')) R L none := by
  have hne : d.type ≠ FS_TYPE_DIR := by
    rw [hfile]
    decide
  have hsp := Spares.of_elsewhere (T := {n}) he rfl
  refine h.of_upd hinv (.inl (htype.trans hfile))
    (fun ht => absurd (htype.symm.trans ht) hne) he.others ?_
  refine h.dcache.mono (by rw [he.mem]) (by rw [he.mem]) hsp.seen fun m es _ hes => ?_
  have hmn : m ≠ n := by
    rintro rfl
    obtain ⟨d1, hd1, ht1, -⟩ := dirsOf_eq_some.mp hes
    rw [upd_self] at hd1
    cases hd1
    exact hne (htype.symm.trans ht1)
  rw [hsp.dirsOf_eq hmn (upd_of_ne hmn)] at hes
  exact ⟨es, hes, fun _ _ _ => id⟩

/-- **A file changed** in its bytes, its size and its pointers. -/
theorem FsAt.of_file (h : FsAt s ino T num E L none) (hd : ino n = some d)
    (hfile : d.type = FS_TYPE_FILE)
    (hinv : InodeInv t (upd ino n (some d')) (fdRefs s.mem num + E) L none)
    (he : Elsewhere ino n s t) (htype : d'.type = d.type) (hlink : d'.link_count = d.link_count)
    (hneed : ∀ i, need t.disk d' i ≤ need s.disk d i) :
    FsAt t (upd ino n (some d')) T num E L none := by
  have hne : d.type ≠ FS_TYPE_DIR := by
    rw [hfile]
    decide
  have hk : Keeps ino {n} s (upd ino n (some d')) t := .of_upd (.of_elsewhere he rfl) rfl
  have hv : viewOf s.disk ino n = some (nodeOf s.disk d) := viewOf_some hd
  have hv' : viewOf t.disk (upd ino n (some d')) n = some (nodeOf t.disk d') := viewOf_some upd_self
  have hnT : ∀ x, x ∈ T.dirs → x ≠ n := by
    rintro x hx rfl
    obtain ⟨nd, hv1, ht1, -⟩ := h.tree.node hx
    cases hv.symm.trans hv1
    exact hne ht1
  have hsame : ∀ x, x ∈ T.dirs →
    viewOf t.disk (upd ino n (some d')) x = viewOf s.disk ino x := fun x hx =>
    hk.viewOf_eq (hnT x hx)
  refine h.of_mem hk.spares.procs hk.spares.fdescs (h.inv.of_file hd hfile hinv he htype) ?_ ?_ ?_
  · refine h.tree.congr (fun hx => View.has_congr (hsame _ hx)) fun {m} hm => ?_
    by_cases hmn : m = n
    · rw [hmn]
      exact ⟨_, _, hv, hv', htype, hlink⟩
    · have hlive : ∃ nd, viewOf s.disk ino m = some nd := by
        obtain ⟨dm, hdm, -⟩ := h.links_of_inTree hm
        exact ⟨_, viewOf_some hdm⟩
      obtain ⟨nd, hvm⟩ := hlive
      exact ⟨nd, nd, hvm, (hk.viewOf_eq hmn).trans hvm, rfl, rfl⟩
  · intro m nd hvm
    by_cases hmn : m = n
    · subst hmn
      cases hvm.symm.trans hv'
      change m ∈ T.dirs ∨ _ ∨ d'.link_count = 0 ∧ _
      rw [hlink]
      exact (h.held m _ hv).imp_right (Or.imp_left fun hN => hN.of_other hsame)
    · rw [hk.viewOf_eq hmn] at hvm
      exact (h.held m nd hvm).imp_right (Or.imp_left fun hN => hN.of_other hsame)
  · intro k m dm _ hdm htm
    by_cases hmn : m = n
    · subst hmn
      cases hd.symm.trans hdm
      exact ⟨d', upd_self, htype.trans htm, hneed⟩
    · exact ⟨dm, (hk.same m hmn).trans hdm, htm, fun i => ((he.others m dm hmn hdm).need_eq i).le⟩

theorem FileWrote.reached {src : Bytes} {offset length r : ℕ}
    (h : FileWrote ino R L k n src offset length s d r t d') (hr : Reached s.disk d offset) :
    Reached t.disk d' (offset + r) := by
  obtain ⟨a, ha, hall⟩ := hr
  refine ⟨a, ha, fun i h1 h2 => ?_⟩
  by_cases hi : i < offset / 4096
  · have := h.need_le i
    rw [hall i h1 hi] at this
    omega
  · by_cases hoff : offset ≤ 4096 * i
    · have := h.mapped (4096 * i) hoff (by omega)
      rwa [Nat.mul_div_cancel_left i (by omega)] at this
    · have := h.mapped offset le_rfl (by omega)
      rwa [show offset / 4096 = i by omega] at this

/-! ## Descriptors -/

variable {mem : Mem}

/-- Descriptors and processes do not show in the file system. -/
theorem FsInv.of_mem (h : FsInv s ino R L p) (hinodes : mem.inodes = s.mem.inodes)
    (hsb : mem.superblock = s.mem.superblock) (htable : mem.dcache_table = s.mem.dcache_table)
    (henabled : mem.dcache_enabled = s.mem.dcache_enabled) : FsInv ⟨mem, s.disk⟩ ino R L p := by
  have hb := h.inodes.blocks
  have hc := h.inodes.cache
  refine ⟨⟨⟨by rw [hsb]; exact hb.geo, hb.owners, by rw [hsb]; exact hb.used⟩,
    { hc with
      slots := by rw [hinodes]; exact hc.slots
      used := by rw [hsb]; exact hc.used }⟩, h.kinds, h.dirs, ?_⟩
  exact h.dcache.mono htable henabled (fun _ => id) fun m es _ hes => ⟨es, hes, fun _ _ _ => id⟩

/-- The memory with other positions in a descriptor. -/
def Mem.seek (m : Mem) (f : ℕ) (wpos rpos : UInt32) : Mem :=
  { m with fdesc_array := upd m.fdesc_array f { m.fdesc_array f with wpos := wpos, rpos := rpos } }

/-- **A position is set** where the file can be written. -/
theorem FsAt.seek (h : FsAt s ino T num E L p) (wpos rpos : UInt32)
    (hr : f ∈ validFds s.mem → ∀ d, ino (num f) = some d → Reached s.disk d wpos.toNat) :
    FsAt ⟨s.mem.seek f wpos rpos, s.disk⟩ ino T num E L p := by
  have hat : ∀ g, ((s.mem.seek f wpos rpos).fdesc_array g).valid = (s.mem.fdesc_array g).valid ∧
      ((s.mem.seek f wpos rpos).fdesc_array g).inode = (s.mem.fdesc_array g).inode := by
    intro g
    simp only [Mem.seek, upd_apply]
    split
    · next hg => rw [hg]; exact ⟨rfl, rfl⟩
    · exact ⟨rfl, rfl⟩
  have hvalid : validFds (s.mem.seek f wpos rpos) = validFds s.mem := by
    unfold validFds
    simp only [(hat _).1]
  have hrefs : fdRefs (s.mem.seek f wpos rpos) num = fdRefs s.mem num :=
    fdRefs_congr hvalid fun g _ => ⟨(hat g).2, rfl⟩
  refine ⟨?_, h.tree, by rw [hrefs]; exact h.held, fun g hg => ?_, fun pid fd g hfd => ?_, h.alone⟩
  · rw [hrefs]
    exact h.inv.of_mem rfl rfl rfl rfl
  · rw [hvalid] at hg
    obtain ⟨d, hd, ht, hr'⟩ := h.files g hg
    refine ⟨d, hd, ht, ?_⟩
    by_cases hgf : g = f
    · subst hgf
      simp only [Mem.seek, upd_self]
      exact hr hg d hd
    · simp only [Mem.seek, upd_of_ne hgf]
      exact hr'
  · rw [hvalid]
    exact h.tables pid fd g hfd

/-- The memory with a descriptor taken. -/
def Mem.takeFd (m : Mem) (pid fd f : ℕ) (x : Fdesc) : Mem :=
  { m with
    fdesc_array := upd m.fdesc_array f x
    procs := upd m.procs pid { m.procs pid with
      fd_table := upd (m.procs pid).fd_table fd (some f) } }

/-- **A reference becomes a descriptor's.** -/
theorem FsAt.takeFd (h : FsAt s ino T num ((k, n) ::ₘ E) L p) {x : Fdesc}
    (hx : x.valid = true ∧ x.inode = k ∧ x.wpos = 0) (hf : f < NUM_FDESCS)
    (hfree : (s.mem.fdesc_array f).valid = false) (hfd : (s.mem.procs pid).fd_table fd = none)
    (hd : ino n = some d) (hfile : d.type = FS_TYPE_FILE) :
    FsAt ⟨s.mem.takeFd pid fd f x, s.disk⟩ ino T (upd num f n) E L p := by
  have hnot : f ∉ validFds s.mem := by
    rw [mem_validFds, hfree]
    simp
  have hne : ∀ {g}, g ∈ validFds s.mem → g ≠ f := by
    rintro g hg rfl
    exact hnot hg
  have hvalid : validFds (s.mem.takeFd pid fd f x) = insert f (validFds s.mem) := by
    ext g
    rw [mem_insert, mem_validFds, mem_validFds]
    simp only [Mem.takeFd, upd_apply]
    by_cases hg : g = f
    · subst hg
      simp [hf, hx.1]
    · simp [hg]
  have hrefs : fdRefs (s.mem.takeFd pid fd f x) (upd num f n) = (k, n) ::ₘ fdRefs s.mem num := by
    have : fdRefs _ (upd num f n) = _ ::ₘ fdRefs _ num := fdRefs_insert hnot hvalid fun g hg =>
      ⟨by simp only [Mem.takeFd, upd_of_ne (hne hg)], upd_of_ne (hne hg)⟩
    rw [this]
    simp only [Mem.takeFd, upd_self, hx.2.1]
  have hsum : fdRefs (s.mem.takeFd pid fd f x) (upd num f n) + E = fdRefs s.mem num +
      (k, n) ::ₘ E := by
    rw [hrefs, cons_add, add_cons]
  -- the tables name the descriptors they named, and the new one once
  have htable : ∀ {pid' fd' g}, ((s.mem.takeFd pid fd f x).procs pid').fd_table fd' = some g →
      g = f ∧ pid' = pid ∧ fd' = fd ∨ g ≠ f ∧ (s.mem.procs pid').fd_table fd' = some g := by
    intro pid' fd' g hg
    have hold : (s.mem.procs pid').fd_table fd' = some g → g ≠ f ∧
      (s.mem.procs pid').fd_table fd' = some g := fun hg =>
      ⟨hne (h.tables pid' fd' g hg), hg⟩
    by_cases hpid : pid' = pid
    · subst hpid
      simp only [Mem.takeFd, upd_self] at hg
      by_cases hfd' : fd' = fd
      · rw [hfd', upd_self] at hg
        exact .inl ⟨(Option.some.inj hg).symm, rfl, hfd'⟩
      · rw [upd_of_ne hfd'] at hg
        exact .inr (hold hg)
    · simp only [Mem.takeFd, upd_of_ne hpid] at hg
      exact .inr (hold hg)
  refine ⟨?_, h.tree, by rw [hsum]; exact h.held, fun g hg => ?_, fun pid' fd' g hg => ?_,
    fun p1 f1 p2 f2 g h1 h2 => ?_⟩
  · rw [hsum]
    exact h.inv.of_mem rfl rfl rfl rfl
  · rw [hvalid, mem_insert] at hg
    rcases hg with rfl | hg
    · rw [upd_self]
      refine ⟨d, hd, hfile, ?_⟩
      simp only [Mem.takeFd, upd_self, hx.2.2]
      exact ⟨0, Nat.zero_le _, fun i _ hi => absurd hi (Nat.not_lt_zero i)⟩
    · rw [upd_of_ne (hne hg)]
      simp only [Mem.takeFd, upd_of_ne (hne hg)]
      exact h.files g hg
  · rw [hvalid, mem_insert]
    exact (htable hg).imp (fun he => he.1) fun he => h.tables pid' fd' g he.2
  · rcases htable h1 with ⟨rfl, rfl, rfl⟩ | ⟨hgf, h1⟩
    · rcases htable h2 with ⟨-, rfl, rfl⟩ | ⟨hgf, -⟩
      · exact ⟨rfl, rfl⟩
      · exact absurd rfl hgf
    · rcases htable h2 with ⟨he, -⟩ | ⟨-, h2⟩
      · exact absurd he hgf
      · exact h.alone p1 f1 p2 f2 g h1 h2

/-- The memory with a descriptor given back. -/
def Mem.dropFd (m : Mem) (pid fd f : ℕ) : Mem :=
  { m with
    fdesc_array := upd m.fdesc_array f { m.fdesc_array f with valid := false }
    procs := upd m.procs pid { m.procs pid with fd_table := upd (m.procs pid).fd_table fd none } }

/-- The references without those of one descriptor. -/
theorem fdRefs_dropFd (hf : f ∈ validFds mem) :
    fdRefs mem num = ((mem.fdesc_array f).inode, num f) ::ₘ fdRefs (mem.dropFd pid fd f) num ∧
      validFds (mem.dropFd pid fd f) = (validFds mem).erase f := by
  have hvalid : validFds (mem.dropFd pid fd f) = (validFds mem).erase f := by
    ext g
    rw [mem_erase, mem_validFds, mem_validFds]
    simp only [Mem.dropFd, upd_apply]
    by_cases hg : g = f <;> simp [hg]
  refine ⟨fdRefs_insert ?_ ?_ fun g hg => ⟨?_, rfl⟩, hvalid⟩
  · rw [hvalid]
    exact notMem_erase _ _
  · rw [hvalid, insert_erase hf]
  · rw [hvalid] at hg
    simp only [Mem.dropFd, upd_of_ne (ne_of_mem_erase hg)]

end OsLab
