import OsLab.Fs.Tree.Parts
/-!
# The calls

Each call from a state in order to a state in order, with what can be seen of the change. A call may
also end with the table or the cache full, or wait for itself; no other halt is left. -/

namespace OsLab

open Prog Bytes Multiset Finset

variable {s t u : FS} {ino ino' : ℕ → Option DiskInode} {E : Multiset Ref} {L : Finset ℕ}
  {p : Option ℕ} {k c n m q i f pid fd : ℕ} {d d' : DiskInode} {T T' : Shape} {num num' : ℕ → ℕ}
  {path name : Name} {S : Set ℕ} {W : Prop}

/-- The directories that processes work in. -/
def cwds (m : Mem) (pid : ℕ) : ℕ := (m.procs pid).cwd_inode

theorem cwds_congr {mem mem' : Mem} (h : mem'.procs = mem.procs) : cwds mem' = cwds mem := by
  unfold cwds
  rw [h]

theorem fdRefs_of_fdescs {mem mem' : Mem} (h : mem'.fdesc_array = mem.fdesc_array) :
    fdRefs mem' num = fdRefs mem num := by
  unfold fdRefs validFds
  rw [h]

theorem Spares.cwds_eq (h : Spares ino S s t) : cwds t.mem = cwds s.mem := cwds_congr h.procs

theorem Spares.fdRefs_eq (h : Spares ino S s t) (num : ℕ → ℕ) :
    fdRefs t.mem num = fdRefs s.mem num :=
  fdRefs_of_fdescs h.fdescs

variable {r : ℤ} {writable : Bool} {length : UInt32}

/-- A reference to an inode with links is dropped, and nothing is seen of it. -/
theorem FsAt.wp_derefLinked (h : FsAt s ino T num ((k, n) ::ₘ E) ∅ p) (hp : p = none ∨ p = some k)
    (hd : ino n = some d) (hl : d.link_count ≠ 0) :
    wp (Stops W) (do inodeDeref k; pure r)
      (fun r' t => r' = r ∧ FsOk t ino T num E ∧ Spares ino ∅ s t) s := by
  refine wp_then (h.wp_inodeDeref (fun hk => absurd hk (notMem_empty k)) fun _ => ⟨d, hd, hl⟩) ?_
  rintro _ t ⟨ht, hst⟩
  rw [dropped_of_links hd hl, pendWithout_or hp] at ht
  exact ⟨rfl, ht, hst⟩

/-- A reference to a locked inode with links is dropped with the lock. -/
theorem FsAt.wp_closeLinked (h : FsAt s ino T num ((k, n) ::ₘ E) (insert k L) none) (hk : k ∉ L)
    (hd : ino n = some d) (hl : d.link_count ≠ 0) :
    wp (Stops W) (do inodeClose k; pure r)
      (fun r' t => r' = r ∧ FsAt t ino T num E L none ∧ Spares ino ∅ s t) s := by
  refine wp_then (h.wp_inodeClose (mem_insert_self k L)) ?_
  rintro _ t ⟨ht, hst⟩
  rw [dropped_of_links hd hl, erase_insert hk] at ht
  exact ⟨rfl, ht, hst⟩

/-! ## Directories of processes -/

/-- The memory with another working directory. -/
def Mem.setCwd (m : Mem) (pid n : ℕ) : Mem :=
  { m with procs := upd m.procs pid { m.procs pid with cwd_inode := n } }

theorem FsAt.setCwd (h : FsAt s ino T num E L p) (pid n : ℕ) :
    FsAt ⟨s.mem.setCwd pid n, s.disk⟩ ino T num E L p := by
  have htable : ∀ pid' fd, ((s.mem.setCwd pid n).procs pid').fd_table fd =
      (s.mem.procs pid').fd_table fd := by
    intro pid' fd
    simp only [Mem.setCwd, upd_apply]
    split
    · next he => rw [he]
    · rfl
  refine ⟨h.inv.of_mem rfl rfl rfl rfl, h.tree, h.held, h.files, fun pid' fd f hf => ?_,
    fun p1 f1 p2 f2 f h1 h2 => ?_⟩
  · rw [htable] at hf
    exact h.tables pid' fd f hf
  · rw [htable] at h1 h2
    exact h.alone p1 f1 p2 f2 f h1 h2

section

variable (h : FsOk s ino T num E) (hroom : Room 3 (fdRefs s.mem num + E))
  (hstart : startInode s.mem pid path ∈ T.dirs)
include h hroom hstart

/-- **`do_cd`** goes to the end of the path, whatever is there. -/
theorem FsAt.wp_doCd :
    wp (Stops W) (doCd pid path)
      (fun _ t => FsOk t ino T num E ∧ viewOf t.disk ino = viewOf s.disk ino ∧
      (cwds t.mem = cwds s.mem ∨ ∃ m, cwds t.mem = upd (cwds s.mem) pid m ∧ FsAt.InTree s ino T m ∧
        Walk (dirsOf s.disk ino) (startInode s.mem pid path) (components path) m)) s := by
  unfold doCd
  refine wp_then (h.wp_pathResolveEntry hroom hstart) ?_
  rintro (_ | k) t ⟨hst, hres⟩
  · exact ⟨hres.1, viewOf_spares hst, .inl hst.cwds_eq⟩
  · obtain ⟨m, p, hm, hp, ht, hw⟩ := hres
    have hnum := ht.inv.inodes.cache.num (mem_extra (x := (k, m)))
    obtain ⟨d, hd, hl⟩ := h.links_of_inTree hm
    rw [wp_bind, wp_getInode, hnum, wp_bind]
    unfold modifyProc
    rw [wp_modifyMem]
    refine wp_mono ((ht.setCwd pid m).wp_derefLinked hp hd hl) ?_
    rintro _ u ⟨-, hu, hsu⟩
    refine ⟨hu, (viewOf_spares hsu).trans (show viewOf t.disk ino = _ from viewOf_spares hst),
      .inr ⟨m, ?_, hm, hw⟩⟩
    funext pid'
    unfold cwds
    rw [hsu.procs]
    simp only [Mem.setCwd, hst.procs, upd_apply]
    split
    · rfl
    · rfl

/-! ## Making and opening -/

/-- What `path_create` comes to, with the new reference among those that no descriptor holds. -/
theorem FsAt.wp_pathCreate {type : UInt16} (htype : type = FS_TYPE_FILE ∨ type = FS_TYPE_DIR)
    (hW : NamesItself (viewOf s.disk ino) (startInode s.mem pid path) path → W) :
    wp (Stops W) (pathCreate pid path type) (fun r t => ∃ ino' T',
      t.mem.procs = s.mem.procs ∧ t.mem.fdesc_array = s.mem.fdesc_array ∧
      ((T' = T ∧ viewOf t.disk ino' = viewOf s.disk ino) ∨
        ∃ q name i n, q ∈ T.dirs ∧
          Parent (dirsOf s.disk ino) (startInode s.mem pid path) path q name ∧
          T' = (if type = FS_TYPE_DIR then T.join n q else T) ∧
          NewEntry (viewOf s.disk ino) (viewOf t.disk ino') q i (Name.trunc name) n type) ∧
      match r with
      | none => FsOk t ino' T' num E ∧ T' = T ∧ viewOf t.disk ino' = viewOf s.disk ino
      | some c => ∃ m d, FsOk t ino' T' num ((c, m) ::ₘ E) ∧ ino' m = some d ∧ d.type = type ∧
        d.link_count ≠ 0 ∧
          ∃ q name, Parent (dirsOf s.disk ino) (startInode s.mem pid path) path q name) s := by
  refine wp_mono (h.tree.wp_pathCreate h.inv hroom hstart htype hW) ?_
  rintro r t (⟨rfl, hst, ht, -⟩ | ⟨q, name, hq, hpar, ⟨ino', hk, hres⟩, -⟩)
  · exact ⟨ino, T, hst.procs, hst.fdescs, .inl ⟨rfl, viewOf_spares hst⟩, h.of_spares hst ht le_rfl,
      rfl, viewOf_spares hst⟩
  · have hdirs : ∀ k n d, (k, n) ∈ fdRefs s.mem num → ino n = some d → d.type = FS_TYPE_FILE →
        n ∉ atCreate ino q := by
      rintro k n d _ hd ht (rfl | hn)
      · obtain ⟨nd, hv, htd, -⟩ := h.tree.node hq
        rw [viewOf_some hd] at hv
        cases hv
        exact absurd (ht.symm.trans htd) (by decide)
      · rw [hn] at hd
        cases hd
    match r, hres with
    | none, ⟨ht, hview⟩ =>
      exact ⟨ino', T, hk.spares.procs, hk.spares.fdescs, .inl ⟨rfl, hview⟩,
        h.of_same hk ht hview le_rfl hdirs, rfl, hview⟩
    | some c, ⟨m, ht, hres⟩ =>
      rw [← add_cons] at ht
      rcases hres with ⟨hview, i, nd, hhas, hvm, htm⟩ | ⟨i, hnew⟩
      · -- the entry was there
        obtain ⟨-, nd', hvm', hl⟩ := h.tree.entry hq hhas
        cases hvm.symm.trans hvm'
        rw [← hview] at hvm
        obtain ⟨d, hd, rfl⟩ := Option.map_eq_some_iff.mp hvm
        exact ⟨ino', T, hk.spares.procs, hk.spares.fdescs, .inl ⟨rfl, hview⟩, m, d,
          h.of_same hk ht hview (le_cons_self _ _) hdirs, hd, htm, hl, q, name, hpar⟩
      · obtain ⟨nd, hvm, htm, hone, -⟩ := hnew.node
        obtain ⟨d, hd, rfl⟩ := Option.map_eq_some_iff.mp hvm
        refine ⟨ino', _, hk.spares.procs, hk.spares.fdescs,
          .inr ⟨q, name, i, m, hq, hpar, rfl, hnew⟩, m, d,
          h.of_new hk ht hq (le_cons_self _ _) hnew, hd, htm, ?_, q, name, hpar⟩
        have hone' : d.link_count = 1 := hone
        rw [hone']
        decide

/-- **`do_mkdir`.** -/
theorem FsAt.wp_doMkdir
    (hW : NamesItself (viewOf s.disk ino) (startInode s.mem pid path) path → W) :
    wp (Stops W) (doMkdir pid path)
      (fun _ t => ∃ ino' T', FsOk t ino' T' num E ∧ t.mem.procs = s.mem.procs ∧
      ((T' = T ∧ viewOf t.disk ino' = viewOf s.disk ino) ∨
        ∃ q name i n, q ∈ T.dirs ∧
          Parent (dirsOf s.disk ino) (startInode s.mem pid path) path q name ∧ T' = T.join n q ∧
          NewEntry (viewOf s.disk ino) (viewOf t.disk ino') q i (Name.trunc name) n FS_TYPE_DIR))
            s := by
  unfold doMkdir
  refine wp_then (h.wp_pathCreate hroom hstart (.inr rfl) hW) ?_
  rintro (_ | c) t ⟨ino', T', hprocs, -, heff, hres⟩
  · exact ⟨ino', T', hres.1, hprocs, .inl hres.2⟩
  · obtain ⟨m, d, ht, hd, -, hl, -⟩ := hres
    refine wp_mono (ht.wp_derefLinked (.inl rfl) hd hl) ?_
    rintro _ u ⟨-, hu, hsu⟩
    refine ⟨ino', T', hu, hsu.procs.trans hprocs, ?_⟩
    rw [viewOf_spares hsu]
    exact heff

end

theorem FsAt.startInode_eq (h : FsAt s ino T num E L p) :
    startInode s.mem pid path = if path.headD 0 = 47 then 1 else cwds s.mem pid := by
  unfold startInode
  rw [h.inv.inodes.blocks.geo.root_inode]
  rfl

/-- What the search for the inode of `do_open` comes to: an inode that was there or, for writing,
one that is new. -/
def OpenFound (ino : ℕ → Option DiskInode) (T : Shape) (num : ℕ → ℕ) (E : Multiset Ref) (start : ℕ)
    (path : Name) (writable : Bool) (s : FS) (r : Option ℕ) (t : FS) : Prop :=
  ∃ ino', t.mem.procs = s.mem.procs ∧ t.mem.fdesc_array = s.mem.fdesc_array ∧
    (viewOf t.disk ino' = viewOf s.disk ino ∨
      ∃ q name i n, q ∈ T.dirs ∧ Parent (dirsOf s.disk ino) start path q name ∧
        NewEntry (viewOf s.disk ino) (viewOf t.disk ino') q i (Name.trunc name) n FS_TYPE_FILE) ∧
    match r with
    | none => FsOk t ino' T num E ∧ viewOf t.disk ino' = viewOf s.disk ino
    | some k => ∃ m p d, FsAt t ino' T num ((k, m) ::ₘ E) ∅ p ∧ (p = none ∨ p = some k) ∧
        ino' m = some d ∧
        d.link_count ≠ 0 ∧ ((∃ o, Walk (dirsOf s.disk ino) start (components path) o) ∨
          writable = true ∧ ∃ q name, Parent (dirsOf s.disk ino) start path q name)

/-- The inode is searched for, after a creation that came to nothing. -/
theorem FsAt.wp_openResolve {ino0 : ℕ → Option DiskInode} (h : FsOk t ino T num E)
    (hroom : Room 3 (fdRefs t.mem num + E)) (hstart : startInode t.mem pid path ∈ T.dirs)
    (hprocs : t.mem.procs = s.mem.procs) (hfds : t.mem.fdesc_array = s.mem.fdesc_array)
    (hview : viewOf t.disk ino = viewOf s.disk ino0) :
    wp (Stops W) (pathResolveEntry pid path)
      (OpenFound ino0 T num E (startInode t.mem pid path) path writable s) t := by
  have hdirs : dirsOf t.disk ino = dirsOf s.disk ino0 := by
    unfold dirsOf
    rw [hview]
  refine wp_mono (h.wp_pathResolveEntry hroom hstart) ?_
  rintro (_ | k) u ⟨hsu, hres⟩
  · exact ⟨ino, hsu.procs.trans hprocs, hsu.fdescs.trans hfds,
      .inl ((viewOf_spares hsu).trans hview), hres.1,
      (viewOf_spares hsu).trans hview⟩
  · obtain ⟨m, p, hm, hp, hu, hw⟩ := hres
    obtain ⟨d, hd, hl⟩ := h.links_of_inTree hm
    rw [hdirs] at hw
    exact ⟨ino, hsu.procs.trans hprocs, hsu.fdescs.trans hfds,
      .inl ((viewOf_spares hsu).trans hview), m, p, d, hu, hp, hd,
      hl, .inl ⟨m, hw⟩⟩

/-- **The inode that `do_open` opens.** -/
theorem FsAt.wp_openInode (h : FsOk s ino T num E) (hroom : Room 3 (fdRefs s.mem num + E))
    (hstart : startInode s.mem pid path ∈ T.dirs)
    (hW : writable = true → NamesItself (viewOf s.disk ino) (startInode s.mem pid path) path → W) :
    wp (Stops W) (openInode pid path writable)
      (OpenFound ino T num E (startInode s.mem pid path) path writable s) s := by
  unfold openInode
  cases writable with
  | false =>
    simp only [Bool.false_eq_true, if_false, pure_bind]
    exact h.wp_openResolve hroom hstart rfl rfl rfl
  | true =>
    simp only [if_true, wp_bind]
    refine wp_mono (h.wp_pathCreate hroom hstart (.inl rfl) (hW rfl)) ?_
    rintro (_ | c) t ⟨ino', T', hprocs, hfds, heff, hres⟩
    · obtain ⟨ht, rfl, hview⟩ := hres
      have hst : startInode t.mem pid path = startInode s.mem pid path := by
        rw [ht.startInode_eq, h.startInode_eq, cwds_congr hprocs]
      rw [← hst] at hstart ⊢
      exact ht.wp_openResolve (by rw [fdRefs_of_fdescs hfds]; exact hroom) hstart hprocs hfds hview
    · obtain ⟨m, d, ht, hd, -, hl, q, name, hpar⟩ := hres
      have hne : ¬ FS_TYPE_FILE = FS_TYPE_DIR := by decide
      simp only [if_neg hne] at heff
      have hT : T' = T := by
        rcases heff with he | ⟨-, -, -, -, -, -, he, -⟩
        · exact he.1
        · exact he
      subst hT
      refine ⟨ino', hprocs, hfds, ?_, m, none, d, ht, .inl rfl, hd, hl, .inr ⟨rfl, q, name, hpar⟩⟩
      rcases heff with he | ⟨q', name', i, n, hq', hpar', -, hnew⟩
      · exact .inl he.2
      · exact .inr ⟨q', name', i, n, hq', hpar', hnew⟩

theorem findNone_some {free : ℕ → Bool} {b x : ℕ} (h : findNone free b = some x) :
    x < b ∧ free x = true := by
  unfold findNone at h
  exact ⟨List.mem_range.mp (List.mem_of_find?_eq_some h), List.find?_some h⟩

/-- **The descriptor that `do_open` makes**, or none. -/
theorem FsAt.wp_openFd {readable : Bool} (h : FsAt s ino T num ((k, m) ::ₘ E) ∅ p)
    (hp : p = none ∨ p = some k) (hd : ino m = some d) (hl : d.link_count ≠ 0) :
    wp (Stops W) (openFd pid readable writable (some k)) (fun r t => ∃ num', FsOk t ino T num' E ∧
      viewOf t.disk ino = viewOf s.disk ino ∧ cwds t.mem = cwds s.mem ∧
        (r = -1 → num' = num ∧ Spares ino ∅ s t)) s := by
  have hkR : (k, m) ∈ fdRefs s.mem num + (k, m) ::ₘ E := mem_extra
  unfold openFd
  refine wp_then (h.wp_inodeOpen hkR hp fun hk => absurd hk (notMem_empty k)) ?_
  rintro _ t ⟨-, ht, hst, hdisk⟩
  have hkt : (k, m) ∈ fdRefs t.mem num + (k, m) ::ₘ E := mem_extra
  have hcwd := hst.cwds_eq
  have hclose : wp (Stops W) (do inodeClose k; pure (-1 : ℤ))
    (fun r u => ∃ num', FsOk u ino T num' E ∧
      viewOf u.disk ino = viewOf s.disk ino ∧ cwds u.mem = cwds s.mem ∧
        (r = -1 → num' = num ∧ Spares ino ∅ s u)) t := by
    refine wp_mono (ht.wp_closeLinked (notMem_empty k) hd hl) ?_
    rintro _ u ⟨rfl, hu, hsu⟩
    exact ⟨num, hu, (viewOf_spares hsu).trans (viewOf_spares hst), hsu.cwds_eq.trans hcwd,
      fun _ => ⟨rfl, hst.andThen hsu⟩⟩
  rw [wp_bind, wp_getInode, ht.inv.slot hkt hd]
  split
  · exact hclose
  · next hdir =>
    have hfile : d.type = FS_TYPE_FILE := (ht.inv.kinds hd).resolve_right hdir
    rw [wp_bind, wp_getMem]
    split
    · exact hclose
    · next fd hfd =>
      split
      · next f hf =>
        obtain ⟨-, hnone⟩ := findNone_some hfd
        obtain ⟨hf32, hfree⟩ := findNone_some hf
        have htake := ht.takeFd (x := ⟨k, true, 0, 0, readable, writable⟩) ⟨rfl, rfl, rfl⟩ hf32
          (by simpa using hfree)
          (Option.isNone_iff_eq_none.mp hnone) hd hfile
        unfold modifyFdesc setFd modifyProc
        rw [wp_bind, wp_modifyMem, wp_bind, wp_modifyMem, wp_bind]
        refine wp_mono (htake.wp_inodeUnlock (mem_insert_self k ∅)) ?_
        rintro _ u ⟨hu, hsu, hdisk'⟩
        rw [erase_insert (notMem_empty k)] at hu
        refine ⟨_, hu, ?_, ?_, fun hr => absurd hr (by omega)⟩
        · rw [hdisk']
          exact (viewOf_spares hst : viewOf t.disk ino = _)
        · rw [← hcwd]
          funext pid'
          unfold cwds
          rw [hsu.procs]
          simp only [Mem.takeFd, upd_apply]
          split
          · next he => rw [he]
          · rfl
      · exact hclose

/-- **`do_open`.** Where the name is not there, and cannot be made, it fails and nothing is seen of
it. -/
theorem FsAt.wp_doOpen {mode : ℕ} (h : FsOk s ino T num E) (hroom : Room 3 (fdRefs s.mem num + E))
    (hstart : startInode s.mem pid path ∈ T.dirs)
    (hW : writableMode mode = true →
      NamesItself (viewOf s.disk ino) (startInode s.mem pid path) path → W) :
    wp (Stops W) (doOpen pid path mode)
      (fun r t => ∃ ino' num', FsOk t ino' T num' E ∧ cwds t.mem = cwds s.mem ∧
      (viewOf t.disk ino' = viewOf s.disk ino ∨
        ∃ q name i n, q ∈ T.dirs ∧
          Parent (dirsOf s.disk ino) (startInode s.mem pid path) path q name ∧
          NewEntry (viewOf s.disk ino) (viewOf t.disk ino') q i (Name.trunc name) n FS_TYPE_FILE) ∧
      ((∀ m, ¬ Walk (dirsOf s.disk ino) (startInode s.mem pid path) (components path) m) →
        (writableMode mode = true →
          ∀ q name, ¬ Parent (dirsOf s.disk ino) (startInode s.mem pid path) path q name) →
        r = -1 ∧ viewOf t.disk ino' = viewOf s.disk ino)) s := by
  rw [doOpen_eq, wp_bind]
  refine wp_mono (h.wp_openInode hroom hstart hW) ?_
  rintro (_ | k) t ⟨ino', hprocs, hfds, heff, hres⟩
  · exact ⟨ino', num, hres.1, cwds_congr hprocs, heff, fun _ _ => ⟨rfl, hres.2⟩⟩
  · obtain ⟨m, p, d, ht, hp, hd, hl, hfound⟩ := hres
    refine wp_mono (ht.wp_openFd hp hd hl) ?_
    rintro r u ⟨num', hu, hview, hcwd, -⟩
    refine ⟨ino', num', hu, hcwd.trans (cwds_congr hprocs), ?_, fun hno hnopar => ?_⟩
    · rw [hview]
      exact heff
    · rcases hfound with ⟨o, ho⟩ | ⟨hw, q, name, hpar⟩
      · exact absurd ho (hno o)
      · exact absurd hpar (hnopar hw q name)

/-! ## Descriptors -/

/-- The descriptor behind a process's `fd`. -/
def fdOf (m : Mem) (pid : ℕ) (fd : ℤ) : Option ℕ :=
  if 0 ≤ fd ∧ fd < NUM_MAX_PROC_FD then (m.procs pid).fd_table fd.toNat else none

theorem wp_getFd {E : Halt → Prop} {fd : ℤ} {Q : Option ℕ → FS → Prop} :
    wp E (getFd pid fd) Q s ↔ Q (fdOf s.mem pid fd) s :=
  Iff.rfl

theorem FsAt.valid_of_fdOf {fd : ℤ} (h : FsAt s ino T num E L p) (hf : fdOf s.mem pid fd = some f) :
    f ∈ validFds s.mem := by
  unfold fdOf at hf
  split at hf
  · exact h.tables pid _ f hf
  · cases hf

theorem Spares.mem_fdRefs (h : Spares ino S s t) (num : ℕ → ℕ) (E : Multiset Ref)
    (hf : f ∈ validFds s.mem) :
    ((s.mem.fdesc_array f).inode, num f) ∈ fdRefs t.mem num + E := by
  rw [h.fdRefs_eq]
  exact mem_add.mpr (.inl (OsLab.mem_fdRefs hf))

/-- The slot of an open descriptor is locked. -/
theorem FsAt.wp_openSlot (h : FsOk s ino T num E) (hf : f ∈ validFds s.mem) :
    wp (Stops W) (inodeOpen (s.mem.fdesc_array f).inode) (fun _ t =>
      FsAt t ino T num E {(s.mem.fdesc_array f).inode} none ∧ Spares ino ∅ s t ∧
        t.disk = s.disk) s := by
  refine wp_mono (h.wp_inodeOpen (mem_add.mpr (.inl (mem_fdRefs hf))) (.inl rfl) fun hk =>
    absurd hk (notMem_empty _)) ?_
  rintro _ t ⟨-, ht, hst, hdisk⟩
  exact ⟨ht, hst, hdisk⟩

theorem FsAt.wp_unlockSlot (h : FsAt s ino T num E {k} none) :
    wp (Stops W) (inodeUnlock k)
      (fun _ t => FsOk t ino T num E ∧ t.disk = s.disk ∧ cwds t.mem = cwds s.mem) s := by
  refine wp_mono (h.wp_inodeUnlock (Finset.mem_singleton_self k)) ?_
  rintro _ t ⟨ht, hst, hdisk⟩
  rw [Finset.erase_singleton] at ht
  exact ⟨ht, hdisk, hst.cwds_eq⟩

theorem Elsewhere.fdescs (h : Elsewhere ino n s t) : t.mem.fdesc_array = s.mem.fdesc_array := by
  rw [h.mem]

theorem Elsewhere.procs (h : Elsewhere ino n s t) : t.mem.procs = s.mem.procs := by rw [h.mem]

/-- A file that is read or written goes from one state in order to another. -/
theorem viewOf_file (he : Elsewhere ino n s t) :
    viewOf t.disk (upd ino n (some d')) = upd (viewOf s.disk ino) n (some (nodeOf t.disk d')) := by
  funext m
  by_cases hm : m = n
  · rw [hm, upd_self, viewOf_some upd_self]
  · rw [upd_of_ne hm]
    exact (Keeps.of_upd (.of_elsewhere he (Set.mem_singleton n)) rfl).viewOf_eq hm

/-- **`do_read`** shows at most what the file has from its position on. -/
theorem FsAt.wp_doRead {fd : ℤ} (h : FsOk s ino T num E) :
    wp (Stops W) (doRead pid fd length)
      (fun r t => ∃ ino', FsOk t ino' T num E ∧ viewOf t.disk ino' = viewOf s.disk ino ∧
      cwds t.mem = cwds s.mem ∧
      match fdOf s.mem pid fd with
      | none => r = (0, fill 0)
      | some f => ∃ nd, viewOf s.disk ino (num f) = some nd ∧
          r.1 ≤ min length.toNat (nd.size.toNat - (s.mem.fdesc_array f).rpos.toNat)) s := by
  unfold doRead
  rw [wp_bind, wp_getFd]
  cases hfd : fdOf s.mem pid fd with
  | none => exact ⟨ino, h, rfl, rfl, rfl⟩
  | some f =>
    have hf := h.valid_of_fdOf hfd
    obtain ⟨d, hd, hfile, -⟩ := h.files f hf
    have hne : d.type ≠ FS_TYPE_DEV := by
      rw [hfile]
      decide
    unfold getFdesc
    simp only [wp_bind, wp_get, wp_ret]
    refine wp_mono (h.wp_openSlot hf) ?_
    rintro _ t ⟨ht, hst, hdisk⟩
    have hk := hst.mem_fdRefs num E hf
    refine wp_mono (wp_inodeRead ht.inv.inodes hk hd hne _ _ _) ?_
    rintro ⟨r, dest⟩ u ⟨d', hr⟩
    have he := hr.grown.toTouched.elsewhere
    have hfields := hr.grown.toTouched.fields
    have hu := ht.of_file hd hfile hr.inv he (by rw [hfields])
      (by rw [hfields]) hr.grown.toTouched.need_le
    have hnode : nodeOf u.disk d' = nodeOf t.disk d := by
      refine Node.ext ?_ ?_ ?_ (funext hr.grown.byte)
      all_goals
        simp only [nodeOf]
        rw [hfields]
    have hview : viewOf u.disk (upd ino (num f) (some d')) = viewOf s.disk ino := by
      rw [viewOf_file he, hnode, ← viewOf_spares hst, ← (viewOf_some hd : viewOf t.disk ino _ = _),
        upd_eq_self]
    have hle : r ≤ min length.toNat (d.size.toNat - (s.mem.fdesc_array f).rpos.toNat) := by
      by_cases hout : d.size.toNat < (s.mem.fdesc_array f).rpos.toNat ∨
          2 ^ 32 ≤ (s.mem.fdesc_array f).rpos.toNat + length.toNat
      · obtain ⟨hr0, -⟩ := hr.outside hout
        rw [(Prod.mk.inj hr0).1]
        exact Nat.zero_le _
      · rw [not_or, not_lt, not_le] at hout
        exact (hr.inside hout.1 hout.2).le
    unfold modifyFdesc
    simp only [wp_modifyMem]
    have hseek := hu.seek (f := f) (u.mem.fdesc_array f).wpos
      ((u.mem.fdesc_array f).rpos + UInt32.ofNat r) fun hfu d1 hd1 => by
        obtain ⟨d2, hd2, -, hr2⟩ := hu.files f hfu
        cases hd1.symm.trans hd2
        exact hr2
    refine wp_mono hseek.wp_unlockSlot ?_
    rintro _ w ⟨hw, hdiskw, hcwd⟩
    refine ⟨_, hw, ?_, ?_, nodeOf s.disk d, viewOf_some hd, hle⟩
    · rw [hdiskw]
      exact hview
    · exact hcwd.trans (cwds_congr (he.procs.trans hst.procs))

/-- What a write of `r` bytes at `offset` makes of a file. -/
structure NodeWrote (src : Bytes) (offset r : ℕ) (nd nd' : Node) : Prop where
  type : nd'.type = nd.type
  link_count : nd'.link_count = nd.link_count
  size : nd'.size.toNat = max nd.size.toNat (offset + r)
  bytes : ∀ p, nd'.bytes p = if offset ≤ p ∧ p < offset + r then src (p - offset) else nd.bytes p

/-- A write of what is there changes nothing. -/
theorem NodeWrote.eq_of_same {src : Bytes} {offset r : ℕ} {nd nd' : Node}
    (h : NodeWrote src offset r nd nd') (hsize : offset + r ≤ nd.size.toNat)
    (hsame : ∀ x < r, src x = nd.bytes (offset + x)) : nd' = nd := by
  refine Node.ext h.type h.link_count (UInt32.toNat_inj.mp (by rw [h.size]; omega))
    (funext fun p => ?_)
  rw [h.bytes]
  split
  · next hp =>
    rw [hsame _ (by omega)]
    congr 1
    omega
  · rfl

/-- **`do_write`** changes the file of the descriptor, in the range it writes. -/
theorem FsAt.wp_doWrite {fd : ℤ} {buff : Bytes} (h : FsOk s ino T num E) :
    wp (Stops W) (doWrite pid fd buff length)
      (fun r t => ∃ ino', FsOk t ino' T num E ∧ cwds t.mem = cwds s.mem ∧
      match fdOf s.mem pid fd with
      | none => r = 0 ∧ viewOf t.disk ino' = viewOf s.disk ino
      | some f => r ≤ length.toNat ∧ ∃ nd nd', viewOf s.disk ino (num f) = some nd ∧
          viewOf t.disk ino' = upd (viewOf s.disk ino) (num f) (some nd') ∧
          NodeWrote buff (s.mem.fdesc_array f).wpos.toNat r nd nd') s := by
  unfold doWrite
  rw [wp_bind, wp_getFd]
  cases hfd : fdOf s.mem pid fd with
  | none => exact ⟨ino, h, rfl, rfl, rfl⟩
  | some f =>
    have hf := h.valid_of_fdOf hfd
    obtain ⟨d, hd, hfile, hreach⟩ := h.files f hf
    have hne : d.type ≠ FS_TYPE_DEV := by
      rw [hfile]
      decide
    unfold getFdesc
    simp only [wp_bind, wp_get, wp_ret]
    refine wp_mono (h.wp_openSlot hf) ?_
    rintro _ t ⟨ht, hst, hdisk⟩
    have hk := hst.mem_fdRefs num E hf
    rw [← hdisk] at hreach
    refine wp_mono (wp_inodeWrite ht.inv.inodes hk hd hne (Finset.mem_singleton_self _) _
      (.inr hreach)) ?_
    rintro r u ⟨d', hw⟩
    have he := hw.elsewhere
    have hu := ht.of_file hd hfile hw.inv he hw.type hw.link_count hw.need_le
    have hreach' := hw.reached hreach
    have hlt := hw.inv.blocks.reached_lt upd_self hreach'
    have hpos : ((u.mem.fdesc_array f).wpos + UInt32.ofNat r).toNat =
        (s.mem.fdesc_array f).wpos.toNat + r := by
      rw [he.fdescs, hst.fdescs, UInt32.toNat_add, UInt32.toNat_ofNat']
      omega
    have hview : viewOf u.disk (upd ino (num f) (some d')) =
        upd (viewOf s.disk ino) (num f) (some (nodeOf u.disk d')) := by
      rw [viewOf_file he, viewOf_spares hst]
    have hnode : NodeWrote buff (s.mem.fdesc_array f).wpos.toNat r (nodeOf s.disk d)
        (nodeOf u.disk d') := by
      have hbytes := hw.bytes
      rw [hdisk] at hbytes
      exact ⟨hw.type, hw.link_count, hw.size, hbytes⟩
    unfold modifyFdesc
    simp only [wp_modifyMem]
    have hseek := hu.seek (f := f) ((u.mem.fdesc_array f).wpos + UInt32.ofNat r)
      (u.mem.fdesc_array f).rpos
      fun _ d1 hd1 => by
        rw [upd_self] at hd1
        cases hd1
        rw [hpos]
        exact hreach'
    refine wp_mono hseek.wp_unlockSlot ?_
    rintro _ w ⟨hw', hdiskw, hcwd⟩
    refine ⟨_, hw', ?_, hw.le, nodeOf s.disk d, nodeOf u.disk d', viewOf_some hd, ?_, hnode⟩
    · exact hcwd.trans (cwds_congr (he.procs.trans hst.procs))
    · rw [hdiskw]
      exact hview

theorem toInt_lt (n : ℤ) : toInt n < 2 ^ 31 := by
  have := @Int.bmod_lt n (2 ^ 32) (by decide)
  unfold toInt
  omega

/-- Any position below two gigabytes is in reach. -/
theorem reached_seek {disk : ℕ → Block} {x : ℤ} (hx : x < 2 ^ 31) :
    Reached disk d (UInt32.ofNat (if x < 0 then 0 else x.toNat)).toNat := by
  generalize hpos : (if x < 0 then 0 else x.toNat) = pos
  have hlt : pos < 2 ^ 31 := by
    rw [← hpos]
    split <;> omega
  rw [UInt32.toNat_ofNat', Nat.mod_eq_of_lt (by omega)]
  exact ⟨pos / 4096, by omega, fun i h1 h2 => absurd h2 (by omega)⟩

/-- **`do_lseek`** sets positions only. -/
theorem FsAt.wp_doLseek {fd offset : ℤ} {whence : ℕ} (h : FsOk s ino T num E) :
    wp (Stops W) (doLseek pid fd offset whence)
      (fun _ t => FsOk t ino T num E ∧ t.disk = s.disk ∧ cwds t.mem = cwds s.mem) s := by
  unfold doLseek
  rw [wp_bind, wp_getFd]
  cases hfd : fdOf s.mem pid fd with
  | none => exact ⟨h, rfl, rfl⟩
  | some f =>
    have hf := h.valid_of_fdOf hfd
    unfold getFdesc
    simp only [wp_bind, wp_get, wp_ret]
    refine wp_mono (h.wp_openSlot hf) ?_
    rintro _ t ⟨ht, hst, hdisk⟩
    simp only [wp_getInode]
    refine wp_mono ht.wp_unlockSlot ?_
    rintro _ u ⟨hu, hdisk', hcwd⟩
    unfold modifyFdesc
    simp only [wp_modifyMem]
    exact ⟨hu.seek _ _ fun _ d _ => reached_seek (by split <;> exact toInt_lt _),
      hdisk'.trans hdisk,
      hcwd.trans hst.cwds_eq⟩

/-- **`do_close`.** -/
theorem FsAt.wp_doClose {fd : ℤ} (h : FsOk s ino T num E) :
    wp (Stops W) (doClose pid fd)
      (fun _ t => ∃ ino', FsOk t ino' T num E ∧ cwds t.mem = cwds s.mem ∧
      (viewOf t.disk ino' = viewOf s.disk ino ∨ ∃ n nd, viewOf s.disk ino n = some nd ∧
        nd.link_count = 0 ∧
        viewOf t.disk ino' = upd (viewOf s.disk ino) n none)) s := by
  unfold doClose
  split
  · exact ⟨ino, h, rfl, .inl rfl⟩
  · next hrange =>
    rw [wp_bind, wp_getFd]
    cases hfd : fdOf s.mem pid fd with
    | none => exact ⟨ino, h, rfl, .inl rfl⟩
    | some f =>
      have hf := h.valid_of_fdOf hfd
      have htab : (s.mem.procs pid).fd_table fd.toNat = some f := by
        unfold fdOf at hfd
        rwa [if_pos (by omega)] at hfd
      obtain ⟨hrefs, hvalid⟩ := fdRefs_dropFd hf
      generalize hmem : s.mem.dropFd pid fd.toNat f = mem' at hrefs hvalid
      have hinv := h.inv
      have hheld := h.held
      rw [hrefs, cons_add] at hinv hheld
      unfold getFdesc
      simp only [wp_bind, wp_get, wp_ret]
      refine wp_mono (hinv.wp_inodeDeref (fun hk => absurd hk (notMem_empty _)) (by simp)) ?_
      rintro _ t ⟨ht, hst⟩
      unfold modifyFdesc setFd modifyProc
      simp only [wp_modifyMem]
      -- the descriptor is invalid and out of the table
      have hfinal : FsOk ⟨t.mem.dropFd pid fd.toNat f, t.disk⟩
          (dropped ino (num f) (fdRefs mem' num + E)) T num E := by
        have hvalid' : validFds (t.mem.dropFd pid fd.toNat f) = validFds mem' := by
          rw [← hmem]
          unfold validFds Mem.dropFd
          rw [hst.fdescs]
        have hrefs' : fdRefs (t.mem.dropFd pid fd.toNat f) num = fdRefs mem' num := by
          refine fdRefs_congr hvalid' fun g _ => ⟨?_, rfl⟩
          rw [← hmem]
          unfold Mem.dropFd
          rw [hst.fdescs]
        have htable : ∀ {pid' fd' g},
          ((t.mem.dropFd pid fd.toNat f).procs pid').fd_table fd' = some g →
            (s.mem.procs pid').fd_table fd' = some g ∧ ¬ (pid' = pid ∧ fd' = fd.toNat) := by
          intro pid' fd' g hg
          unfold Mem.dropFd at hg
          simp only [hst.procs] at hg
          by_cases hpid : pid' = pid
          · subst hpid
            rw [upd_self] at hg
            by_cases hfd' : fd' = fd.toNat
            · simp only [hfd', upd_self] at hg
              cases hg
            · simp only [upd_of_ne hfd'] at hg
              exact ⟨hg, fun he => hfd' he.2⟩
          · rw [upd_of_ne hpid] at hg
            exact ⟨hg, fun he => hpid he.1⟩
        refine ⟨?_, h.tree.released hst _ _, ?_, fun g hg => ?_, fun pid' fd' g hg => ?_,
          fun p1 f1 p2 f2 g h1 h2 => ?_⟩
        · rw [hrefs']
          exact ht.of_mem rfl rfl rfl rfl
        · rw [hrefs']
          exact (hheld.released h.tree hst : Accounted (viewOf t.disk _) T _)
        · rw [hvalid', hvalid] at hg
          obtain ⟨hgf, hg⟩ := mem_erase.mp hg
          obtain ⟨d, hd, hfile, hr⟩ := h.files g hg
          have hgR : ((s.mem.fdesc_array g).inode, num g) ∈ fdRefs mem' num := by
            have hgm : g ∈ validFds mem' := by
              rw [hvalid]
              exact mem_erase.mpr ⟨hgf, hg⟩
            have : (_, num _) ∈ _ := mem_fdRefs hgm
            rw [← hmem] at this ⊢
            simpa only [Mem.dropFd, upd_of_ne hgf] using this
          obtain ⟨d', hd', hfile', hneed⟩ :=
            keepsFiles_released hst (le_add_right _ E) _ _ d hgR hd hfile
          refine ⟨d', hd', hfile', ?_⟩
          simp only [Mem.dropFd, upd_of_ne hgf, hst.fdescs]
          exact hr.mono hneed
        · obtain ⟨hold, hnot⟩ := htable hg
          rw [hvalid', hvalid]
          refine mem_erase.mpr ⟨?_, h.tables pid' fd' g hold⟩
          rintro rfl
          exact hnot (h.alone pid' fd' pid fd.toNat g hold htab)
        · exact h.alone p1 f1 p2 f2 g (htable h1).1 (htable h2).1
      refine ⟨_, hfinal, ?_, ?_⟩
      · funext pid'
        unfold cwds
        simp only [hst.procs, upd_apply]
        split
        · next he => rw [he]
        · rfl
      · rcases dropped_cases with ⟨hino, -⟩ | ⟨hino, -, d, hd, hz⟩
        · rw [hino]
          exact .inl (viewOf_spares hst : viewOf t.disk ino = _)
        · right
          rw [hino]
          refine ⟨num f, nodeOf s.disk d, viewOf_some hd, hz, funext fun x => ?_⟩
          by_cases hx : x = num f
          · rw [hx, upd_self, viewOf_none upd_self]
          · rw [upd_of_ne hx]
            exact hst.viewOf_eq (Set.notMem_empty x) (upd_of_ne hx)

end OsLab
