import OsLab.Fs.Runs.Modes
import OsLab.Fs.Runs.Sizes
import OsLab.Fs.Runs.Resolution
/-!
# An open that fails

`do_open` makes the file before it looks for a descriptor, and a failed open undoes nothing of that.
Where it had nothing to make, a failed open is not seen at all: not in the tree, the bitmap, the
inode table, the descriptors or the references. Where it tried to, an inode number is used up,
whatever went wrong afterwards. -/

namespace OsLab

open Prog Bytes

variable {s t u : FS} {ino ino' : ℕ → Option DiskInode} {T : Shape} {num : ℕ → ℕ} {E : Multiset Ref}
  {n m pid mode q : ℕ} {path name : Name}

/-! ## What an open must leave alone -/

/-- The reference count of an inode, in the slot that holds it. -/
def refCount (m : Mem) (n : ℕ) : ℕ :=
  match cachedAt m n with
  | some k => (m.inodes k).ref_count.toNat
  | none => 0

/-- **Nothing was done**: the tree, the inodes and blocks that are allocated, the descriptors, the
tables of the processes and the reference counts are the same. -/
structure Untouched (s t : FS) : Prop where
  tree : viewAt t = viewAt s
  inodes : ∀ n < NUM_INODES, (tableAt t.disk n).type = 0 ↔ (tableAt s.disk n).type = 0
  blocks : takenBits t.disk = takenBits s.disk
  fdescs : t.mem.fdesc_array = s.mem.fdesc_array
  tables : ∀ pid, (t.mem.procs pid).fd_table = (s.mem.procs pid).fd_table
  refs : ∀ n, refCount t.mem n = refCount s.mem n

/-- **The open makes a file**: it is for writing, and the directory of the path has no entry of that
name. -/
def Creates (s : FS) (pid : ℕ) (path : Name) (mode : ℕ) : Prop :=
  writableMode mode = true ∧
    ∃ q name, Parent (viewAt s).dirs (startInode s.mem pid path) path q name ∧
    ∀ i m, ¬ (viewAt s).Has q i (Name.trunc name) m

/-- A path has one directory and one last name. -/
theorem Parent.unique {dirs : ℕ → Option Entries} (hd : ∀ n es, dirs n = some es → NamesDistinct es)
    {start q' : ℕ} {name' : Name} (h : Parent dirs start path q name)
    (h' : Parent dirs start path q' name') : q = q' ∧ name = name' := by
  have hnil : strEnd path = true → components path = [] := fun hend => by
    rw [components_eq_slashFree, slashFree_of_strEnd hend]
  cases h with
  | last hcomp hw _ =>
    cases h' with
    | last hcomp' hw' _ =>
      obtain ⟨rfl, hname⟩ := List.append_inj' (hcomp.symm.trans hcomp') rfl
      exact ⟨hw.unique hd hw', List.singleton_inj.mp hname⟩
    | here hend =>
      rw [hnil hend] at hcomp
      exact absurd hcomp (by simp)
  | here hend =>
    cases h' with
    | last hcomp' _ _ =>
      rw [hnil hend] at hcomp'
      exact absurd hcomp' (by simp)
    | here _ => exact ⟨rfl, rfl⟩

/-- A number that is used makes a difference. -/
theorem UsesNumber.not_untouched (h : UsesNumber s t) : ¬ Untouched s t := by
  obtain ⟨n, hn, hlt, htype⟩ := h
  intro hu
  exact hn ⟨hlt, fun hz => htype ((hu.inodes n hlt).mpr hz)⟩

/-- The blocks in use are those that the live inodes point to. -/
theorem InodeInv.takenBits_eq {R R' : Multiset Ref} {L L' : Finset ℕ} {p p' : Option ℕ}
    (h : InodeInv s ino R L p) (ht : InodeInv t ino R' L' p')
    (hsame : ∀ n d, ino n = some d → SameBlocks s.disk t.disk d) :
    takenBits t.disk = takenBits s.disk := by
  have hptrs : ptrs t.disk ino = ptrs s.disk ino := by
    funext a
    unfold ptrs
    cases hd : ino a.1 with
    | none => rfl
    | some d => exact congrFun (hsame a.1 d hd).ptr_eq a.2
  have htaken : ∀ b, Taken t.disk b ↔ Taken s.disk b := fun b => by
    rw [ht.blocks.owners.taken_iff, h.blocks.owners.taken_iff, hptrs]
  have hbit : ∀ disk, ∀ b < NDATA,
    (Taken disk (DATA + b) ↔ mapBit disk b = true) := fun disk b hb => by
    unfold Taken
    rw [Nat.add_sub_cancel_left]
    exact ⟨fun h => h.2.2, fun h => ⟨Nat.le_add_right _ _, Nat.add_lt_add_left hb _, h⟩⟩
  ext b
  simp only [takenBits, Finset.mem_filter, Finset.mem_range]
  refine and_congr_right fun hb => ?_
  rw [← hbit _ b hb, ← hbit _ b hb]
  exact htaken (DATA + b)

theorem FsAt.refCount_eq (h : FsOk s ino T num E) {k : ℕ} (hk : (k, n) ∈ fdRefs s.mem num + E) :
    refCount s.mem n = (fdRefs s.mem num + E).count (k, n) := by
  unfold refCount
  rw [h.cachedAt_eq_some.mpr hk]
  exact h.inv.inodes.cache.count hk

/-- **What works on no inode leaves everything alone.** -/
theorem FsAt.untouched (h : FsOk s ino T num E) (ht : FsOk t ino T num E) (hst : Spares ino ∅ s t) :
    Untouched s t := by
  have hrefs := hst.fdRefs_eq num
  refine ⟨?_, fun n hn => hst.types n hn (Set.notMem_empty n), ?_, hst.fdescs,
    fun pid => by rw [hst.procs], fun n => ?_⟩
  · rw [ht.viewAt_eq, h.viewAt_eq, viewOf_spares hst]
  · exact h.inv.inodes.takenBits_eq ht.inv.inodes fun n d hd => hst.others n d
      (Set.notMem_empty n) hd
  · by_cases hk : ∃ k, (k, n) ∈ fdRefs s.mem num + E
    · obtain ⟨k, hk⟩ := hk
      rw [h.refCount_eq hk, ht.refCount_eq (by rw [hrefs]; exact hk), hrefs]
    · have hnone : ∀ {x : FS}, FsOk x ino T num E → fdRefs x.mem num = fdRefs s.mem num →
          refCount x.mem n = 0 := by
        intro x hx hR
        unfold refCount
        cases hc : cachedAt x.mem n with
        | none => rfl
        | some k =>
          rw [hx.cachedAt_eq_some, hR] at hc
          exact absurd ⟨k, hc⟩ hk
      rw [hnone ht hrefs, hnone h rfl]

/-! ## The two halves of the call -/

/-- The inode that the first half found, with a reference to it. -/
def Found (ino : ℕ → Option DiskInode) (T : Shape) (num : ℕ → ℕ) (E : Multiset Ref) (r : Option ℕ)
    (t : FS) : Prop :=
  match r with
  | none => FsOk t ino T num E
  | some k => ∃ m p d, FsAt t ino T num ((k, m) ::ₘ E) ∅ p ∧ (p = none ∨ p = some k) ∧
      ino m = some d ∧ d.link_count ≠ 0

/-- A descriptor that is not made costs nothing more. -/
theorem Found.wp_openFd {readable writable : Bool} {r : Option ℕ} (h : Found ino T num E r s) :
    wp (Stops True) (openFd pid readable writable r)
      (fun a t => a = -1 → FsOk t ino T num E ∧ Spares ino ∅ s t) s := by
  cases r with
  | none => exact fun _ => ⟨h, .refl s⟩
  | some k =>
    obtain ⟨m, p, d, h, hp, hd, hl⟩ := h
    refine wp_mono (h.wp_openFd hp hd hl) ?_
    rintro a t ⟨num', ht, -, -, hfail⟩ ha
    obtain ⟨rfl, hst⟩ := hfail ha
    exact ⟨ht, hst⟩

section Between

variable (h : FsOk s ino T num E) (hroom : Room 3 (fdRefs s.mem num + E))
  (hstart : startInode s.mem pid path ∈ T.dirs)

include h hroom hstart

theorem FsAt.wp_resolve : wp (Stops True) (pathResolveEntry pid path)
    (fun r t => Spares ino ∅ s t ∧ Found ino T num E r t) s := by
  refine wp_mono (h.wp_pathResolveEntry hroom hstart) ?_
  rintro (_ | k) t ⟨hst, hres⟩
  · exact ⟨hst, hres.1⟩
  · obtain ⟨m, p, hm, hp, ht, -⟩ := hres
    obtain ⟨d, hd, hl⟩ := h.links_of_inTree hm
    exact ⟨hst, m, p, d, ht, hp, hd, hl⟩

variable {type : UInt16}

/-- Where the name is there, `path_create` only looks. -/
theorem FsAt.wp_pathCreate_found
    (hfound : ∀ q name, Parent (dirsOf s.disk ino) (startInode s.mem pid path) path q name →
      ∃ i m, (viewOf s.disk ino).Has q i (Name.trunc name) m) :
    wp (Stops True) (pathCreate pid path type)
      (fun r t => Spares ino ∅ s t ∧ Found ino T num E r t) s := by
  rw [pathCreate_eq]
  refine h.tree.wp_lookIn h.inv hroom hstart (fun t hst ht _ => ⟨hst, h.of_spares hst ht le_rfl⟩)
    fun k q name t hst ht hq hpar => ?_
  obtain ⟨dq, hparental⟩ := h.tree.parental h.inv hq
  have hqt := hparental.of_spares hst
  unfold createIn
  refine wp_then (wp_dirLookup ht (Multiset.mem_cons_self _ _) hqt.live hqt.dir hqt.closed
    (hroom.cons.mono (by omega))) ?_
  rintro (_ | ⟨c, offset⟩) u ⟨-, hsu, hres⟩
  · -- the entry that is there would have been found
    obtain ⟨i, m, he⟩ := hfound q name hpar
    rw [← viewOf_spares hst, View.has_iff (View.dirs_of_node (viewOf_some hqt.live) hqt.dir)] at he
    exact absurd he (hres.1 i m)
  · obtain ⟨i, m, -, he, hu⟩ := hres
    obtain ⟨dm, hdm, hlm⟩ := hqt.closed i _ m he
    refine wp_mono (wp_createFound hu (pend_or _ _)
      (Finset.notMem_empty k) hdm hlm hqt.live hqt.links fun _ => trivial) ?_
    · rintro r w ⟨hsw, hres⟩
      have hall := (hst.andThen hsu).andThen hsw
      refine ⟨hall, ?_⟩
      match r, hres with
      | none, hw => exact h.of_spares hall hw le_rfl
      | some c', ⟨hc', hw, _⟩ =>
        subst hc'
        rw [← Multiset.add_cons] at hw
        exact ⟨m, none, dm, h.of_spares hall hw (Multiset.le_cons_self _ _), .inl rfl, hdm, hlm⟩

/-- Where the name is not there, `path_create` uses a number, whether it makes the name or not. -/
theorem FsAt.wp_pathCreate_new (htype : type = FS_TYPE_FILE ∨ type = FS_TYPE_DIR)
    (hpar : Parent (dirsOf s.disk ino) (startInode s.mem pid path) path q name)
    (hno : ∀ i m, ¬ (viewOf s.disk ino).Has q i (Name.trunc name) m) :
    wp (Stops True) (pathCreate pid path type) (fun _ t => UsesNumber s t) s := by
  refine wp_mono (h.tree.wp_pathCreate h.inv hroom hstart htype fun _ => trivial) ?_
  rintro r t (⟨-, -, -, hnopar⟩ | ⟨q', name', -, hpar', -, huses⟩)
  · exact absurd hpar (hnopar q name)
  · obtain ⟨rfl, rfl⟩ := hpar.unique (fun _ _ => h.inv.names_distinct) hpar'
    exact huses hno

/-- The state after a search keeps what the next search needs. -/
theorem FsAt.next (ht : FsOk t ino' T num E) (hprocs : t.mem.procs = s.mem.procs)
    (hfds : t.mem.fdesc_array = s.mem.fdesc_array) :
    Room 3 (fdRefs t.mem num + E) ∧ startInode t.mem pid path ∈ T.dirs := by
  constructor
  · rw [fdRefs_of_fdescs hfds]
    exact hroom
  · rw [ht.startInode_eq, cwds_congr hprocs, ← h.startInode_eq]
    exact hstart

/-- **A failed `do_open` leaves everything alone if and only if it had nothing to make.** -/
theorem FsAt.wp_doOpen_failed :
    wp (Stops True) (doOpen pid path mode)
      (fun a t => a = -1 → (Untouched s t ↔ ¬ Creates s pid path mode)) s := by
  have hview := h.viewAt_eq
  rw [doOpen_eq, wp_bind]
  by_cases hc : Creates s pid path mode
  · obtain ⟨hw, q, name, hpar, hno⟩ := id hc
    rw [hview] at hpar hno
    rw [hw, openInode, if_pos rfl, wp_bind]
    refine wp_mono (wp_and (h.wp_pathCreate hroom hstart (.inl rfl) fun _ => trivial)
      (h.wp_pathCreate_new hroom hstart (.inl rfl) hpar hno)) ?_
    have hlast : ∀ {r : Option ℕ} {t : FS} {ino'}, UsesNumber s t → Found ino' T num E r t →
        wp (Stops True) (openFd pid (readableMode mode) true r)
        (fun a u => a = -1 → (Untouched s u ↔ ¬ Creates s pid path mode)) t := by
      rintro r t ino' ⟨n, hn, hseen⟩ hfound
      refine wp_mono hfound.wp_openFd fun a u hu ha => iff_of_false ?_ (not_not.mpr hc)
      exact UsesNumber.not_untouched ⟨n, hn, (hu ha).2.seen n hseen⟩
    rintro (_ | c) t ⟨⟨ino', T', hprocs, hfds, heff, hres⟩, huses⟩
    · obtain ⟨ht, rfl, -⟩ := hres
      obtain ⟨hroom', hstart'⟩ := h.next hroom hstart ht hprocs hfds
      refine wp_mono (ht.wp_resolve hroom' hstart') ?_
      rintro r u ⟨hsu, hfound⟩
      obtain ⟨n, hn, hseen⟩ := huses
      exact hlast ⟨n, hn, hsu.seen n hseen⟩ hfound
    · obtain ⟨m, d, ht, hd, -, hl, -⟩ := hres
      have hT : T' = T := by
        rcases heff with he | ⟨_, _, _, _, _, _, he, _⟩
        · exact he.1
        · exact he.trans (if_neg (by decide))
      subst hT
      exact hlast huses ⟨m, none, d, ht, .inl rfl, hd, hl⟩
  · have hlast : ∀ {r : Option ℕ} {t : FS}, Spares ino ∅ s t → Found ino T num E r t →
        wp (Stops True) (openFd pid (readableMode mode) (writableMode mode) r)
          (fun a u => a = -1 → (Untouched s u ↔ ¬ Creates s pid path mode)) t := by
      intro r t hst hfound
      refine wp_mono hfound.wp_openFd fun a u hu ha => iff_of_true ?_ hc
      exact h.untouched (hu ha).1 (hst.andThen (hu ha).2)
    unfold openInode
    cases hw : writableMode mode with
    | false =>
      rw [if_neg (by decide), pure_bind]
      refine wp_mono (h.wp_resolve hroom hstart) ?_
      rintro r t ⟨hst, hfound⟩
      rw [← hw]
      exact hlast hst hfound
    | true =>
      have hfound : ∀ q name, Parent (dirsOf s.disk ino) (startInode s.mem pid path) path q name →
          ∃ i m, (viewOf s.disk ino).Has q i (Name.trunc name) m := by
        intro q name hpar
        by_contra hno
        push Not at hno
        exact hc ⟨hw, q, name, by rw [hview]; exact hpar, by rw [hview]; exact hno⟩
      rw [if_pos rfl, wp_bind]
      refine wp_mono (h.wp_pathCreate_found hroom hstart hfound) ?_
      rintro (_ | c) t ⟨hst, ht⟩
      · obtain ⟨hroom', hstart'⟩ := h.next hroom hstart ht hst.procs hst.fdescs
        refine wp_mono (FsAt.wp_resolve ht hroom' hstart') ?_
        rintro r u ⟨hsu, hu⟩
        rw [← hw]
        exact hlast (hst.andThen hsu) hu
      · rw [← hw]
        exact hlast hst ht

end Between

/-! ## Runs -/

/-- **In every state that calls lead to, an open that answers -1 leaves everything as it was if and
only if it had no file to make.** -/
theorem failed_open_untouched_iff {r : ℤ × Bytes} (hs : Formatted s)
    (hrun : Run (fun pid c t => c.Proper pid t) s t)
    (hproper : (FsCall.open path mode).Proper pid t) (hopen : Steps t pid (.open path mode) r u)
    (hfail : r.1 = -1) :
    Untouched t u ↔ ¬ Creates t pid path mode := by
  obtain ⟨E, ino, T, num, h⟩ := Run.held hs hrun
  obtain ⟨a, t', hx, hret⟩ := exists_of_exec_bind hopen
  cases hret
  have hroom := (h.room hproper.2 (by decide)).mono (show 3 ≤ 10 by decide)
  exact wp_ok (h.wp_doOpen_failed hroom (h.liveDir_iff.mp hproper.1)) hx hfail

/-- A process has opened `/a` until its table is full. To open `/a` again fails and leaves all as it
was, and to open `/b` fails too and does not. -/
theorem failed_open_untouched_full :
    ∃ s t u u' r r', Formatted s ∧ Run (fun pid c t => c.Proper pid t) s t ∧
    Steps t 1 (.open (ascii "/a") O_WRONLY) r u ∧ r.1 = -1 ∧ Untouched t u ∧
    Steps t 1 (.open (ascii "/b") O_WRONLY) r' u' ∧ r'.1 = -1 ∧ ¬ Untouched t u' := by
  let es : Entries := [some (dotName, 1), some (dotDotName, 1), some (ascii "a", 2)]
  obtain ⟨s, t, -, hs, hrun, -, htest⟩ := exists_run (P := fun _ c _ => c.Absolute)
    (List.replicate NUM_MAX_PROC_FD (1, .open (ascii "/a") O_WRONLY))
    (fun _ t => decide ((nodesAt t).dirs 1 = some es) &&
      returns (((FsCall.open (ascii "/a") O_WRONLY).prog 1).exec t)
      (fun r _ => decide (r.1 = -1)) &&
      returns (((FsCall.open (ascii "/b") O_WRONLY).prog 1).exec t) (fun r _ => decide (r.1 = -1)))
    (fun x hx _ => by rw [List.eq_of_mem_replicate hx]; rfl) (by decide +kernel)
  obtain ⟨htest, hopen'⟩ := Bool.and_eq_true_iff.mp htest
  obtain ⟨hes, hopen⟩ := Bool.and_eq_true_iff.mp htest
  obtain ⟨r, u, hstep, hr⟩ := exists_of_returns hopen
  obtain ⟨r', u', hstep', hr'⟩ := exists_of_returns hopen'
  have hes := of_decide_eq_true hes
  have hclean := hrun.clean hs
  have hproper : ∀ path, path.headD 0 = 47 → (FsCall.open path O_WRONLY).Proper 1 t := fun _ hp =>
    hclean.proper (c := .open _ _) hp
  have hiff := failed_open_untouched_iff hs (hrun.proper hs) (hproper _ rfl) hstep
    (of_decide_eq_true hr)
  have hiff' := failed_open_untouched_iff hs (hrun.proper hs) (hproper _ rfl) hstep'
    (of_decide_eq_true hr')
  refine ⟨s, t, u, u', r, r', hs, hrun.proper hs, hstep, of_decide_eq_true hr, hiff.mpr ?_, hstep',
    of_decide_eq_true hr', fun hsame => hiff'.mp hsame ?_⟩
  · rintro ⟨-, q, name, hpar, hno⟩
    rw [hclean.held.startInode_eq_one rfl] at hpar
    obtain ⟨rfl, rfl⟩ := hpar.of_single (by decide : _ = [ascii "a"]) (by decide)
    exact hno 2 2 ((View.has_congr (viewAt_root t)).mpr ((View.has_iff hes).mpr rfl))
  · have hno : ∀ m, m ∉ namedBy es (Name.trunc (ascii "b")) := fun _ => List.not_mem_nil
    refine ⟨rfl, 1, ascii "b", ?_, fun i m he => hno m (mem_namedBy hes he)⟩
    rw [hclean.held.startInode_eq_one rfl]
    exact .last (by decide : components _ = [] ++ [ascii "b"]) (.nil 1)
      ((dirs_viewAt_root t).trans hes)

/-- **A failed open makes a file.** A process opens `/a` until its table is full. To open `/b` for
writing then fails, and there is a third inode. -/
theorem failed_open_creates : ∃ s t u r, Formatted s ∧ Run (fun _ c _ => c.isFile = true) s t ∧
    Steps t 1 (.open (ascii "/b") O_WRONLY) r u ∧ r.1 = -1 ∧ ¬ Untouched t u := by
  obtain ⟨s, t, -, hs, hrun, -, htest⟩ := exists_run (P := fun _ c _ => c.isFile = true)
    (List.replicate NUM_MAX_PROC_FD (1, .open (ascii "/a") O_WRONLY))
    (fun _ t => decide ((tableAt t.disk 3).type = 0) &&
      returns (((FsCall.open (ascii "/b") O_WRONLY).prog 1).exec t) fun r u =>
        decide (r.1 = -1 ∧ (tableAt u.disk 3).type ≠ 0))
    (fun x hx _ => by rw [List.eq_of_mem_replicate hx]; rfl) (by decide +kernel)
  rw [Bool.and_eq_true] at htest
  obtain ⟨r, u, hstep, hafter⟩ := exists_of_returns htest.2
  obtain ⟨hr, hused⟩ := of_decide_eq_true hafter
  refine ⟨s, t, u, r, hs, hrun, hstep, hr, fun hsame => hused ?_⟩
  exact (hsame.inodes 3 (by decide)).mpr (of_decide_eq_true htest.1)

end OsLab
