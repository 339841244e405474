import OsLab.Fs.Tree.Runs
/-!
# Runs by absolute paths

Calls of any processes, by absolute paths and without `do_ln` and `do_ls`, are proper wherever they
are made. So what holds between two calls holds after every run of them from a format, and is told
here of what a state shows. -/

namespace OsLab

open Prog Bytes

variable {s t : FS} {ino : ℕ → Option DiskInode} {T : Shape} {num : ℕ → ℕ} {E : Multiset Ref}
  {pid n : ℕ} {fd : ℤ} {c : FsCall} {r : ℤ × Bytes} {d : DiskInode} {length : UInt32}

/-- **A state that such calls lead to** from a format. -/
abbrev Attained := {t : FS // ∃ s, Formatted s ∧ Run (fun _ c _ => c.Absolute) s t}

theorem Attained.clean (a : Attained) : Clean a.1 := by
  obtain ⟨t, s, hs, hrun⟩ := a
  exact hrun.clean hs

/-- A process makes a directory and a file there and writes two bytes, and another opens the file
too. -/
def busy : List (ℕ × FsCall) :=
  [(1, .mkdir (ascii "/a")), (1, .open (ascii "/a/f") 3), (1, .write 0 (fill 7) 2),
  (2, .open (ascii "/a/f") 3)]

/-- Memory after booting, with the dentry cache on. -/
def cachingMem : Mem := { bareMem with dcache_enabled := true }

theorem booted_cachingMem : Booted cachingMem :=
  ⟨⟨fun _ _ => ⟨0, rfl⟩, fun _ _ => rfl, fun _ _ => rfl⟩, fun _ => rfl⟩

/-- What they leave: the directory has inode 2 and the file, with both descriptors on it, is in the
slot 0. -/
structure Busy (t : FS) : Prop where
  used_block : t.mem.superblock.used_block.toNat = 3
  used_inode : t.mem.superblock.used_inode.toNat = 3
  taken : Taken t.disk 548
  root : (nodesAt t).dirs 1 = some [some (dotName, 1), some (dotDotName, 1), some (ascii "a", 2)]
  links : (inodeAt t 1).type ≠ 0 ∧ (inodeAt t 1).link_count = 3
  sub : (inodeAt t 2).type = FS_TYPE_DIR
  cached : ∃ e ∈ t.mem.dcache_table 26, e.parent_inode = 1 ∧ e.dentry = ⟨ascii "a", 2⟩
  slot : (t.mem.inodes 0).d.type ≠ 0 ∧ (t.mem.inodes 0).ref_count = 2
  fds : (t.mem.procs 1).fd_table 0 = some 0 ∧ (t.mem.procs 2).fd_table 0 = some 1
  rpos : (t.mem.fdesc_array 0).rpos = 0
  rm : ∃ r u, Steps t 1 (.rm (ascii "/a/f")) r u ∧ r.1 = 0
  read : ∃ r u, (doRead 1 0 5).exec t = .ok (r, u) ∧ r.1 = 2

theorem exists_busy : ∃ a : Attained, Busy a.1 := by
  obtain ⟨s, t, rs, hs, hrun, -, htest⟩ := exists_run_of_booted
    (P := fun _ c _ => c.Absolute) booted_cachingMem busy
    (fun _ t => decide (t.mem.superblock.used_block.toNat = 3 ∧
        t.mem.superblock.used_inode.toNat = 3 ∧ Taken t.disk 548 ∧
        (nodesAt t).dirs 1 = some [some (dotName, 1), some (dotDotName, 1), some (ascii "a", 2)] ∧
        ((inodeAt t 1).type ≠ 0 ∧ (inodeAt t 1).link_count = 3) ∧ (inodeAt t 2).type = FS_TYPE_DIR ∧
        (∃ e ∈ t.mem.dcache_table 26, e.parent_inode = 1 ∧ e.dentry = ⟨ascii "a", 2⟩) ∧
        ((t.mem.inodes 0).d.type ≠ 0 ∧ (t.mem.inodes 0).ref_count = 2) ∧
        ((t.mem.procs 1).fd_table 0 = some 0 ∧ (t.mem.procs 2).fd_table 0 = some 1) ∧
        (t.mem.fdesc_array 0).rpos = 0) &&
      (returns (((FsCall.rm (ascii "/a/f")).prog 1).exec t) (fun r _ => decide (r.1 = 0)) &&
        returns ((doRead 1 0 5).exec t) fun r _ => decide (r.1 = 2)))
    (by simp [busy, FsCall.Absolute, ascii]) (by decide +kernel)
  obtain ⟨hshown, hcalls⟩ := Bool.and_eq_true_iff.mp htest
  obtain ⟨hblock, hinode, htaken, hroot, hlinks, hsub, hcached, hslot, hfds, hpos⟩ :=
    of_decide_eq_true hshown
  obtain ⟨hrm, hread⟩ := Bool.and_eq_true_iff.mp hcalls
  obtain ⟨r, u, hstep, hr⟩ := exists_of_returns hrm
  obtain ⟨r', u', hx, hr'⟩ := exists_of_returns hread
  exact ⟨⟨t, s, hs, hrun⟩, hblock, hinode, htaken, hroot, hlinks, hsub, hcached, hslot, hfds, hpos,
    ⟨r, u, hstep, of_decide_eq_true hr⟩, ⟨r', u', hx, of_decide_eq_true hr'⟩⟩

theorem FsAt.ino_eq_some (h : FsOk s ino T num E) :
    ino n = some d ↔ Live s n ∧ inodeAt s n = d := by
  constructor
  · exact fun hd => ⟨h.live_iff.mpr ⟨d, hd⟩, h.inodeAt_eq hd⟩
  · rintro ⟨hl, rfl⟩
    obtain ⟨d, hd⟩ := h.live_iff.mp hl
    rw [h.inodeAt_eq hd]
    exact hd

theorem FsAt.ptrs_eq_some {x : ℕ × Loc} {b : ℕ} (h : FsOk s ino T num E) :
    ptrs s.disk ino x = some b ↔ Live s x.1 ∧ ptr s.disk (inodeAt s x.1) x.2 = some b := by
  unfold ptrs
  simp only [Option.bind_eq_some_iff, h.ino_eq_some, and_assoc, exists_and_left, exists_eq_left']

/-- **No data block is lost, shared or freed twice**: the map has it exactly if one pointer of one
live inode holds it. -/
theorem blocks_owned (a : Attained) :
    (∀ b, Taken a.1.disk b ↔ ∃! x : ℕ × Loc, Live a.1 x.1 ∧
      ptr a.1.disk (inodeAt a.1 x.1) x.2 = some b) ∧
      a.1.mem.superblock.used_block.toNat = (takenBits a.1.disk).card := by
  obtain ⟨ino, T, num, h⟩ := a.clean.held
  have hown := h.inv.inodes.blocks.owners
  refine ⟨fun b => ?_, h.inv.inodes.blocks.used⟩
  simp only [← h.ptrs_eq_some]
  rw [hown.taken_iff, or_false]
  constructor
  · rintro ⟨x, hx⟩
    exact ⟨x, hx, fun y hy => hown.inj hy hx⟩
  · exact ExistsUnique.exists

/-- One block for each directory and one for the file. -/
theorem blocks_owned_three : ∃ a : Attained, (takenBits a.1.disk).card = 3 ∧
    ∃! x : ℕ × Loc, Live a.1 x.1 ∧ ptr a.1.disk (inodeAt a.1 x.1) x.2 = some 548 := by
  obtain ⟨a, ha⟩ := exists_busy
  exact ⟨a, (blocks_owned a).2.symm.trans ha.used_block, ((blocks_owned a).1 548).mp ha.taken⟩

/-- **The superblock counts the live inodes.** -/
theorem inodes_counted (a : Attained) :
    a.1.mem.superblock.used_inode.toNat = {n | Live a.1 n}.ncard := by
  obtain ⟨ino, T, num, h⟩ := a.clean.held
  have hcache := h.inv.inodes.cache
  rw [hcache.used, ← Set.ncard_coe_finset]
  congr 1
  ext n
  simp only [liveNums, Finset.coe_filter, Finset.mem_range, Set.mem_ofPred_eq,
    Option.isSome_iff_exists, ← h.live_iff]
  exact and_iff_right_of_imp fun hn => (hcache.range (h.ino_eq_some.mpr ⟨hn, rfl⟩)).2.1

/-- The root, the directory and the file. -/
theorem inodes_counted_three : ∃ a : Attained, {n | Live a.1 n}.ncard = 3 := by
  obtain ⟨a, ha⟩ := exists_busy
  exact ⟨a, (inodes_counted a).symm.trans ha.used_inode⟩

/-! ## The namespace -/

/-- **The namespace is a tree** of the live directories, and no directory has a name twice. -/
theorem namespace_tree (a : Attained) :
    (∃ T, IsTree (viewAt a.1) T ∧ ∀ n, n ∈ T.dirs ↔ LiveDir (viewAt a.1) n) ∧
    ∀ n es, (viewAt a.1).dirs n = some es → NamesDistinct es := by
  obtain ⟨ino, T, num, h⟩ := a.clean.held
  refine ⟨⟨T, ?_, fun n => h.liveDir_iff.symm⟩, fun n es hes => ?_⟩
  · rw [h.viewAt_eq]
    exact h.tree
  · rw [h.viewAt_eq] at hes
    obtain ⟨nd, hv, ht, rfl⟩ := View.dirs_eq_some.mp hes
    obtain ⟨d, hd, rfl⟩ := Option.map_eq_some_iff.mp hv
    exact (h.inv.dirs hd ht).names

/-- The directory is in the tree. -/
theorem namespace_tree_sub : ∃ (a : Attained) (T : Shape), IsTree (viewAt a.1) T ∧ 2 ∈ T.dirs := by
  obtain ⟨a, ha⟩ := exists_busy
  obtain ⟨⟨T, hT, hdirs⟩, -⟩ := namespace_tree a
  have hhas : HasEntry [some (dotName, 1), some (dotDotName, 1), some (ascii "a", 2)] 2
    (ascii "a") 2 := rfl
  have hlive : Live a.1 2 := .inl (.entry .root ⟨_, ha.root, hhas⟩)
  have hreach : Reach (viewAt a.1) 2 := .entry .root ⟨_, (dirs_viewAt_root a.1).trans ha.root, hhas⟩
  refine ⟨a, T, hT, (hdirs 2).mpr ⟨hreach, nodeOf a.1.disk (inodeAt a.1 2), ?_, ha.sub⟩⟩
  rw [viewAt, if_pos hlive, nodesAt, if_neg (by rw [ha.sub]; decide)]

/-- The entries that name an inode, besides `.` and `..`. -/
def namesOf (v : View) (m : ℕ) : Set (ℕ × ℕ) :=
  {x | LiveDir v x.1 ∧ 2 ≤ x.2 ∧ ∃ nm, v.Has x.1 x.2 nm m}

/-- **Link counts are exact**: a file has one for each of its names, a live directory one for itself
and each sub-directory, and the root one more. -/
theorem links_exact (a : Attained) : (∀ n nd, viewAt a.1 n = some nd → nd.type ≠ FS_TYPE_DIR →
      nd.link_count.toNat = (namesOf (viewAt a.1) n).ncard) ∧
    ∀ n nd, LiveDir (viewAt a.1) n → viewAt a.1 n = some nd →
      nd.link_count.toNat = ((viewAt a.1).subs n).ncard + if n = 1 then 2 else 1 := by
  have hsingle := a.clean.single
  obtain ⟨ino, T, num, h⟩ := a.clean.held
  have hdirs := fun n => h.liveDir_iff (n := n)
  have htree := h.tree
  have hheld := h.held
  rw [← h.viewAt_eq] at htree hheld
  refine ⟨fun n nd hn hfile => ?_, fun n nd hlive hn => htree.links ((hdirs n).mp hlive) hn⟩
  rcases Set.eq_empty_or_nonempty (namesOf (viewAt a.1) n) with hnone | ⟨⟨q, i⟩, hq, hi, nm, he⟩
  · rw [hnone, Set.ncard_empty]
    rcases hheld n nd hn with hin | ⟨q, hq, i, nm, hi, he⟩ | ⟨hl, -⟩
    · obtain ⟨nd', hv, ht⟩ := htree.dir hin
      cases hn.symm.trans hv
      exact absurd ht hfile
    · exact absurd hnone (Set.Nonempty.ne_empty ⟨(q, i), (hdirs q).mpr hq, hi, nm, he⟩)
    · rw [hl]
      rfl
  · have hone : namesOf (viewAt a.1) n = {(q, i)} := by
      ext ⟨x, j⟩
      constructor
      · rintro ⟨hx, hj, nm', he'⟩
        obtain ⟨rfl, rfl⟩ := hsingle x j nm' q i nm n hx hq hj hi he' he
        rfl
      · rintro ⟨⟩
        exact ⟨hq, hi, nm, he⟩
    rw [hone, Set.ncard_singleton, htree.file ((hdirs q).mp hq) hi he hn hfile]
    rfl

/-- The root has three links, and one sub-directory. -/
theorem links_exact_root :
    ∃ (a : Attained) (nd : Node), viewAt a.1 1 = some nd ∧ nd.link_count = 3 ∧
    ((viewAt a.1).subs 1).ncard = 1 := by
  obtain ⟨a, ha⟩ := exists_busy
  obtain ⟨htype, hlinks⟩ := ha.links
  have hroot : viewAt a.1 1 = some (nodeOf a.1.disk (inodeAt a.1 1)) := by
    rw [viewAt_root, nodesAt, if_neg htype]
  have hexact := (links_exact a).2 1 _ a.clean.held.liveDir_root hroot
  have hthree : (nodeOf a.1.disk (inodeAt a.1 1)).link_count.toNat = 3 := by
    rw [nodeOf, hlinks]
    rfl
  exact ⟨a, _, hroot, hlinks, by simp only [if_true] at hexact; omega⟩

/-! ## Caches and descriptors -/

/-- **The dentry cache tells the truth.** -/
theorem dcache_true (a : Attained) : DcacheOk a.1.mem (viewAt a.1).dirs (Seen a.1.disk) := by
  obtain ⟨ino, T, num, h⟩ := a.clean.held
  rw [h.viewAt_eq]
  exact h.inv.dcache

/-- The name of the directory is cached, and the root has it there. -/
theorem dcache_true_name : ∃ (a : Attained) (e : DcacheEntry) (es : Entries) (i : ℕ),
    e ∈ a.1.mem.dcache_table 26 ∧ e.dentry = ⟨ascii "a", 2⟩ ∧ (viewAt a.1).dirs 1 = some es ∧
      e.offset = 32 * i ∧
      HasEntry es i (ascii "a") 2 := by
  obtain ⟨a, ha⟩ := exists_busy
  obtain ⟨e, he, hparent, hdentry⟩ := ha.cached
  have hes := (dirs_viewAt_root a.1).trans ha.root
  obtain ⟨i, hoff, hhas⟩ := (dcache_true a).stored he (by rw [hparent]; exact hes)
  rw [hdentry] at hhas
  exact ⟨a, e, _, i, he, hdentry, hes, hoff, hhas⟩

/-- **Reference counts are exact**: no slot is locked, and one in use has as many references as open
descriptors. -/
theorem slots_counted (a : Attained) (k : Fin NINODE) : (a.1.mem.inodes k).locked = false ∧
    if (a.1.mem.inodes k).d.type = 0 then
      ∃ c, a.1.mem.inodes k = { Inode.cleared with ref_count := c }
    else (a.1.mem.inodes k).ref_count.toNat =
      ((validFds a.1.mem).filter fun f => (a.1.mem.fdesc_array f).inode = k).card := by
  obtain ⟨ino, T, num, h⟩ := a.clean.held
  have hcache := h.inv.inodes.cache
  have hslot := hcache.slots k k.2
  refine ⟨by simpa using hslot.locked, ?_⟩
  split
  · next ht => exact hslot.free fun n hn => (hcache.range (hslot.loaded hn (by simp)).2).2.2.2.1 ht
  · next ht =>
    obtain ⟨n, hn, -⟩ := hcache.ref_of_type k.2 ht
    rw [hslot.count hn, add_zero]
    unfold fdRefs
    rw [Multiset.count_map, Finset.card_def, Finset.filter_val]
    refine congrArg _ (Multiset.filter_congr fun f hf => ⟨fun he => (Prod.mk.inj he).1.symm,
      fun he => ?_⟩)
    have hnum := hslot.num (he ▸ Multiset.mem_add.mpr (.inl (mem_fdRefs hf)))
    rw [he, ← hnum, hslot.num hn]

/-- The slot of the file, with two references. -/
theorem slots_counted_two : ∃ a : Attained, (a.1.mem.inodes 0).ref_count = 2 ∧
    ((validFds a.1.mem).filter fun f => (a.1.mem.fdesc_array f).inode = 0).card = 2 := by
  obtain ⟨a, ha⟩ := exists_busy
  obtain ⟨htype, hrefs⟩ := ha.slot
  have hcount := (slots_counted a ⟨0, by decide⟩).2
  rw [if_neg htype] at hcount
  refine ⟨a, hrefs, hcount.symm.trans ?_⟩
  rw [hrefs]
  rfl

/-- **Descriptors are apart**: one that a process has is open, for a file that is there, and nobody
else's. -/
theorem descriptors_apart (a : Attained) :
    (∀ pid fd f, (a.1.mem.procs pid).fd_table fd = some f →
      f ∈ validFds a.1.mem ∧ ∃ nd, viewAt a.1 (numAt a.1 f) = some nd ∧ nd.type = FS_TYPE_FILE) ∧
    ∀ pid fd pid' fd' f, (a.1.mem.procs pid).fd_table fd = some f →
      (a.1.mem.procs pid').fd_table fd' = some f →
      pid = pid' ∧ fd = fd' := by
  obtain ⟨ino, T, num, h⟩ := a.clean.held
  refine ⟨fun pid fd f hf => ?_, h.alone⟩
  have hvalid := h.tables pid fd f hf
  obtain ⟨d, hd, ht, -⟩ := h.files f hvalid
  rw [h.viewAt_eq, h.numAt_eq hvalid]
  exact ⟨hvalid, _, viewOf_some hd, ht⟩

/-- The two have a descriptor each. -/
theorem descriptors_apart_two : ∃ (a : Attained) (f f' : ℕ), (a.1.mem.procs 1).fd_table 0 = some f ∧
    (a.1.mem.procs 2).fd_table 0 = some f' ∧ f ∈ validFds a.1.mem ∧ f' ∈ validFds a.1.mem ∧
      f ≠ f' := by
  obtain ⟨a, ha⟩ := exists_busy
  obtain ⟨hf, hf'⟩ := ha.fds
  obtain ⟨hvalid, halone⟩ := descriptors_apart a
  refine ⟨a, 0, 1, hf, hf', (hvalid 1 0 0 hf).1, (hvalid 2 0 1 hf').1, fun heq => ?_⟩
  exact absurd (halone 1 0 2 0 0 hf (heq ▸ hf')).1 (by decide)

end OsLab
