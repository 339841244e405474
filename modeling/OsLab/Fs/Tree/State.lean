import OsLab.Fs.Tree.Remove
/-!
# Between calls

`FsOk` is what holds of the file system between two calls: the inodes and directories are in order,
the namespace is a tree, every inode is in the tree or held by a reference, and the open descriptors
are among the references. `num` says which inode a descriptor was opened for, and `E` are the
references that no descriptor holds. Inside a call the same holds with slots locked and one,
perhaps, not loaded (`FsAt`). -/

namespace OsLab

open Prog Bytes Multiset

variable {s t : FS} {ino ino' : ℕ → Option DiskInode} {R R' E E' : Multiset Ref} {L L' : Finset ℕ}
  {p p' : Option ℕ} {k c n m q i f : ℕ} {d d' : DiskInode} {nm : Name} {T T' : Shape} {v v' : View}
  {num num' : ℕ → ℕ} {mem mem' : Mem} {isdir : Bool} {type : UInt16}

/-! ## Descriptors -/

/-- The descriptors in use. -/
def validFds (m : Mem) : Finset ℕ := {f ∈ Finset.range NUM_FDESCS | (m.fdesc_array f).valid}

/-- The references that open descriptors hold. -/
def fdRefs (m : Mem) (num : ℕ → ℕ) : Multiset Ref :=
  (validFds m).val.map fun f => ((m.fdesc_array f).inode, num f)

theorem mem_validFds : f ∈ validFds mem ↔ f < NUM_FDESCS ∧ (mem.fdesc_array f).valid = true := by
  simp [validFds]

/-- A reference that no descriptor holds is counted. -/
theorem mem_extra {R E : Multiset Ref} {x : Ref} : x ∈ R + x ::ₘ E :=
  Multiset.mem_add.mpr (.inr (Multiset.mem_cons_self x E))

theorem mem_fdRefs (hf : f ∈ validFds mem) : ((mem.fdesc_array f).inode, num f) ∈ fdRefs mem num :=
  mem_map_of_mem (fun f => ((mem.fdesc_array f).inode, num f)) hf

theorem card_fdRefs_le : (fdRefs mem num).card ≤ NUM_FDESCS := by
  unfold fdRefs
  rw [card_map]
  exact (Finset.card_filter_le _ _).trans (Finset.card_range _).le

theorem fdRefs_congr (hfds : validFds mem' = validFds mem)
    (h : ∀ f ∈ validFds mem, (mem'.fdesc_array f).inode = (mem.fdesc_array f).inode ∧
      num' f = num f) :
    fdRefs mem' num' = fdRefs mem num := by
  unfold fdRefs
  rw [hfds]
  refine map_congr rfl fun f hf => ?_
  obtain ⟨h1, h2⟩ := h f hf
  rw [h1, h2]

/-- A descriptor more. -/
theorem fdRefs_insert (hf : f ∉ validFds mem) (hfds : validFds mem' = insert f (validFds mem))
    (h : ∀ g ∈ validFds mem, (mem'.fdesc_array g).inode = (mem.fdesc_array g).inode ∧
      num' g = num g) :
    fdRefs mem' num' = ((mem'.fdesc_array f).inode, num' f) ::ₘ fdRefs mem num := by
  unfold fdRefs
  rw [hfds, Finset.insert_val_of_notMem hf, map_cons]
  congr 1
  refine map_congr rfl fun g hg => ?_
  obtain ⟨h1, h2⟩ := h g hg
  rw [h1, h2]

/-! ## The invariant -/

/-- **The file system is in order**, with the slots `L` locked and `p` waiting to be loaded. -/
structure FsAt (s : FS) (ino : ℕ → Option DiskInode) (T : Shape) (num : ℕ → ℕ) (E : Multiset Ref)
    (L : Finset ℕ) (p : Option ℕ) : Prop where
  inv : FsInv s ino (fdRefs s.mem num + E) L p
  tree : IsTree (viewOf s.disk ino) T
  held : Accounted (viewOf s.disk ino) T (fdRefs s.mem num + E)
  files : ∀ f ∈ validFds s.mem, ∃ d, ino (num f) = some d ∧ d.type = FS_TYPE_FILE ∧
    Reached s.disk d (s.mem.fdesc_array f).wpos.toNat
  tables : ∀ pid fd f, (s.mem.procs pid).fd_table fd = some f → f ∈ validFds s.mem
  alone : ∀ pid fd pid' fd' f, (s.mem.procs pid).fd_table fd = some f →
    (s.mem.procs pid').fd_table fd' = some f →
    pid = pid' ∧ fd = fd'

/-- **The file system between two calls.** -/
abbrev FsOk (s : FS) (ino : ℕ → Option DiskInode) (T : Shape) (num : ℕ → ℕ) (E : Multiset Ref) :
    Prop := FsAt s ino T num E ∅ none

theorem Reached.mono {disk disk' : ℕ → Block} {offset : ℕ} (h : Reached disk d offset)
    (hneed : ∀ i, need disk' d' i ≤ need disk d i) : Reached disk' d' offset := by
  obtain ⟨a, ha, hall⟩ := h
  refine ⟨a, ha, fun i h1 h2 => ?_⟩
  have := hneed i
  rw [hall i h1 h2] at this
  omega

theorem Accounted.mono (h : Accounted v T R) (hR : R ≤ R') : Accounted v T R' := by
  intro m nd hv
  refine (h m nd hv).imp_right (Or.imp_right fun ⟨hl, k, hk⟩ => ⟨hl, k, mem_of_le hR hk⟩)

/-- A file that stays keeps its blocks. -/
def KeepsFiles (ino : ℕ → Option DiskInode) (s : FS) (ino' : ℕ → Option DiskInode) (t : FS)
    (R : Multiset Ref) : Prop :=
  ∀ k n d, (k, n) ∈ R → ino n = some d → d.type = FS_TYPE_FILE →
    ∃ d', ino' n = some d' ∧ d'.type = FS_TYPE_FILE ∧ ∀ i, need t.disk d' i ≤ need s.disk d i

/-- **A call that leaves descriptors and processes alone.** -/
theorem FsAt.of_mem (h : FsAt s ino T num E L p) (hprocs : t.mem.procs = s.mem.procs)
    (hfds : t.mem.fdesc_array = s.mem.fdesc_array)
    (hinv : FsInv t ino' (fdRefs s.mem num + E') L' p') (htree : IsTree (viewOf t.disk ino') T')
    (hheld : Accounted (viewOf t.disk ino') T' (fdRefs s.mem num + E'))
    (hfiles : KeepsFiles ino s ino' t (fdRefs s.mem num)) : FsAt t ino' T' num E' L' p' := by
  have hvalid : validFds t.mem = validFds s.mem := by
    unfold validFds
    rw [hfds]
  have hrefs : fdRefs t.mem num = fdRefs s.mem num :=
    fdRefs_congr hvalid fun f _ => ⟨by rw [hfds], rfl⟩
  refine ⟨by rw [hrefs]; exact hinv, htree, by rw [hrefs]; exact hheld, fun f hf => ?_,
    fun pid fd f hfd => ?_, ?_⟩
  · rw [hvalid] at hf
    obtain ⟨d, hd, ht, hr⟩ := h.files f hf
    obtain ⟨d', hd', ht', hneed⟩ := hfiles _ _ d (mem_fdRefs hf) hd ht
    rw [hfds]
    exact ⟨d', hd', ht', hr.mono hneed⟩
  · rw [hprocs] at hfd
    rw [hvalid]
    exact h.tables pid fd f hfd
  · rw [hprocs]
    exact h.alone

variable {S : Set ℕ}

/-- A program that leaves the inodes outside a set alone keeps the files outside. -/
theorem Keeps.keepsFiles (h : Keeps ino S s ino' t)
    (hS : ∀ k n d, (k, n) ∈ R → ino n = some d → d.type = FS_TYPE_FILE → n ∉ S) :
    KeepsFiles ino s ino' t R := by
  intro k n d hk hd ht
  have hn := hS k n d hk hd ht
  exact ⟨d, (h.same n hn).trans hd, ht, fun i => ((h.spares.others n d hn hd).need_eq i).le⟩

/-! ## Nothing to be seen -/

/-- **The inodes look as they did.** -/
theorem FsAt.of_same (h : FsAt s ino T num E L p) (hk : Keeps ino S s ino' t)
    (hinv : FsInv t ino' (fdRefs s.mem num + E') L' p')
    (hview : viewOf t.disk ino' = viewOf s.disk ino) (hE : E ≤ E')
    (hS : ∀ k n d, (k, n) ∈ fdRefs s.mem num → ino n = some d → d.type = FS_TYPE_FILE → n ∉ S) :
    FsAt t ino' T num E' L' p' := by
  refine h.of_mem hk.spares.procs hk.spares.fdescs hinv ?_ ?_ (hk.keepsFiles hS)
  · rw [hview]
    exact h.tree
  · rw [hview]
    exact h.held.mono (Multiset.add_le_add_left hE)

theorem FsAt.of_spares (h : FsAt s ino T num E L p) (hs : Spares ino ∅ s t)
    (hinv : FsInv t ino (fdRefs s.mem num + E') L' p') (hE : E ≤ E') : FsAt t ino T num E' L' p' :=
  h.of_same (.of_spares hs) hinv (viewOf_spares hs) hE fun _ n _ _ _ _ => Set.notMem_empty n

theorem FsAt.range (h : FsAt s ino T num E L p) {nd : Node} (hv : viewOf s.disk ino m = some nd) :
    m < NUM_INODES := by
  obtain ⟨d, hd, -⟩ := Option.map_eq_some_iff.mp hv
  exact (h.inv.inodes.cache.range hd).2.1

/-! ## A reference less -/

/-- What becomes of an inode when a reference to it is dropped. -/
theorem dropped_cases :
    (dropped ino n R = ino ∧ ((∃ k, (k, n) ∈ R) ∨ ∀ d, ino n = some d → d.link_count ≠ 0)) ∨
      (dropped ino n R = upd ino n none ∧ (∀ k, (k, n) ∉ R) ∧ ∃ d, ino n = some d ∧
        d.link_count = 0) := by
  by_cases hR : ∃ k, (k, n) ∈ R
  · obtain ⟨k, hk⟩ := hR
    exact .inl ⟨dropped_of_mem hk, .inl ⟨k, hk⟩⟩
  · rw [not_exists] at hR
    by_cases hl : ∃ d, ino n = some d ∧ d.link_count = 0
    · obtain ⟨d, hd, hz⟩ := hl
      refine .inr ⟨dropped_of_free (fun x hx he => ?_) hd hz, hR, d, hd, hz⟩
      exact hR x.1 (by rw [← he]; exact hx)
    · have hlinks : ∀ d, ino n = some d → d.link_count ≠ 0 := fun d hd hz => hl ⟨d, hd, hz⟩
      refine .inl ⟨?_, .inr hlinks⟩
      unfold dropped
      refine if_neg fun hdrop => ?_
      obtain ⟨d, hd, hz⟩ := (Option.any_eq_true _ _).mp hdrop.2
      exact hlinks d hd (of_decide_eq_true hz)

/-- What is dropped was outside the tree. -/
theorem IsTree.released (h : IsTree (viewOf s.disk ino) T) (hs : Spares ino ∅ s t) (n : ℕ)
    (R : Multiset Ref) :
    IsTree (viewOf t.disk (dropped ino n R)) T := by
  rcases dropped_cases with ⟨he, -⟩ | ⟨he, -, d, hd, hz⟩
  · rw [he, viewOf_spares hs]
    exact h
  · rw [he]
    have hv : viewOf s.disk ino n = some (nodeOf s.disk d) := viewOf_some hd
    refine h.outside (m := n) (fun hn => ?_) (fun hn => ?_) fun x hx => ?_
    · obtain ⟨nd, hv', -, hl⟩ := h.node hn
      cases hv.symm.trans hv'
      exact hl hz
    · obtain ⟨q, hq, i, nm, -, he⟩ := hn
      obtain ⟨-, nd, hv', hl⟩ := h.entry hq he
      cases hv.symm.trans hv'
      exact hl hz
    · exact hs.viewOf_eq (Set.notMem_empty x) (upd_of_ne hx)

theorem Named.of_other (hN : Named v T m) (hother : ∀ x, x ∈ T.dirs → v' x = v x) :
    Named v' T m := by
  obtain ⟨q, hq, i, nm, hi, he⟩ := hN
  exact ⟨q, hq, i, nm, hi, (View.has_congr (hother q hq)).mpr he⟩

theorem Accounted.released (h : Accounted (viewOf s.disk ino) T ((k, n) ::ₘ R))
    (htree : IsTree (viewOf s.disk ino) T) (hs : Spares ino ∅ s t) :
    Accounted (viewOf t.disk (dropped ino n R)) T R := by
  -- an inode other than the one that is dropped is held as it was
  have hold : ∀ m nd, viewOf s.disk ino m = some nd →
    (m = n → (∃ k, (k, n) ∈ R) ∨ nd.link_count ≠ 0) →
      m ∈ T.dirs ∨ Named (viewOf s.disk ino) T m ∨ nd.link_count = 0 ∧ ∃ k, (k, m) ∈ R := by
    intro m nd hv hn
    refine (h m nd hv).imp_right (Or.imp_right fun ⟨hl, k', hk'⟩ => ⟨hl, ?_⟩)
    rcases mem_cons.mp hk' with he | hk'
    · obtain ⟨-, rfl⟩ := Prod.mk.inj he
      exact (hn rfl).resolve_right fun hne => hne hl
    · exact ⟨k', hk'⟩
  rcases dropped_cases with ⟨he, hcase⟩ | ⟨he, -, d, hd, hz⟩
  · rw [he, viewOf_spares hs]
    refine fun m nd hv => hold m nd hv ?_
    rintro rfl
    obtain ⟨d, hd, rfl⟩ := Option.map_eq_some_iff.mp hv
    exact hcase.imp_right fun hl => hl d hd
  · rw [he]
    intro m nd hv
    have hmn : m ≠ n := by
      rintro rfl
      rw [viewOf_none upd_self] at hv
      cases hv
    have hsame : ∀ x, x ≠ n → viewOf t.disk (upd ino n none) x = viewOf s.disk ino x := fun x hx =>
      hs.viewOf_eq (Set.notMem_empty x) (upd_of_ne hx)
    rw [hsame m hmn] at hv
    refine (hold m nd hv fun he => absurd he hmn).imp_right
      (Or.imp_left fun hN => hN.of_other fun x hx => hsame x ?_)
    rintro rfl
    obtain ⟨nd', hv', -, hl⟩ := htree.node hx
    rw [viewOf_some hd] at hv'
    cases hv'
    exact hl hz

/-- What the remaining references hold is not dropped. -/
theorem keepsFiles_released (hs : Spares ino ∅ s t) (hR : R ≤ R') :
    KeepsFiles ino s (dropped ino n R') t R := by
  intro k m d hk hd ht
  refine ⟨d, ?_, ht, fun i => ((hs.others m d (Set.notMem_empty m) hd).need_eq i).le⟩
  by_cases hmn : m = n
  · rw [dropped_of_mem (hmn ▸ mem_of_le hR hk)]
    exact hd
  · unfold dropped
    split
    · rw [upd_of_ne hmn]
      exact hd
    · exact hd

/-- **A reference that no descriptor holds is dropped.** -/
theorem FsAt.of_released (h : FsAt s ino T num ((k, n) ::ₘ E) L p) (hs : Spares ino ∅ s t)
    (hinv : FsInv t (dropped ino n (fdRefs s.mem num + E)) (fdRefs s.mem num + E) L' p') :
    FsAt t (dropped ino n (fdRefs s.mem num + E)) T num E L' p' := by
  have hheld := h.held
  rw [add_cons] at hheld
  exact h.of_mem hs.procs hs.fdescs hinv (h.tree.released hs n _) (hheld.released h.tree hs)
    (keepsFiles_released hs (le_add_right _ _))

/-! ## An entry more, an entry less -/

theorem Accounted.newEntry (h : Accounted v T R) (hq : q ∈ T.dirs)
    (hnew : NewEntry v v' q i nm n type) :
    Accounted v' (if type = FS_TYPE_DIR then T.join n q else T) R := by
  have hsub : ∀ x, x ∈ T.dirs → x ∈ (if type = FS_TYPE_DIR then T.join n q else T).dirs := by
    intro x hx
    split
    · exact .inr hx
    · exact hx
  have hnq := hnew.adds.ne
  intro x nd hv
  by_cases hxn : x = n
  · refine .inr (.inl ⟨q, hsub q hq, i, nm, hnew.adds.two, ?_⟩)
    rw [hxn]
    exact (hnew.adds.has (Ne.symm hnq)).mpr (.inr ⟨rfl, rfl, rfl, rfl⟩)
  by_cases hxq : x = q
  · rw [hxq]
    exact .inl (hsub q hq)
  rw [hnew.adds.other x hxq hxn] at hv
  refine (h x nd hv).imp (hsub x) (Or.imp_left ?_)
  rintro ⟨y, hy, j, nm', hj, he⟩
  refine ⟨y, hsub y hy, j, nm', hj, hnew.adds.keep ?_ he⟩
  -- the new inode had no entries
  rintro rfl
  obtain ⟨nd', hv', -⟩ := he.isDir
  rw [hnew.fresh] at hv'
  cases hv'

theorem Accounted.goneEntry (h : Accounted v T R) (hq : q ∈ T.dirs)
    (hgone : GoneEntry v v' q i nm m isdir) (hheld : ∀ nd, v' m = some nd → ∃ k, (k, m) ∈ R) :
    Accounted v' (if isdir then T.leave m else T) R := by
  have hmq := hgone.frees.ne
  obtain ⟨ndm, hvm, hkind⟩ := hgone.node
  have hsub : ∀ x, x ≠ m → x ∈ T.dirs → x ∈ (if isdir then T.leave m else T).dirs := by
    intro x hxm hx
    split
    · exact ⟨hx, hxm⟩
    · exact hx
  intro x nd hv
  by_cases hxm : x = m
  · subst hxm
    refine .inr (.inr ⟨?_, hheld nd hv⟩)
    rcases hgone.after with hn | ⟨nd', hv', hz⟩
    · rw [hn] at hv
      cases hv
    · cases hv.symm.trans hv'
      exact hz
  by_cases hxq : x = q
  · rw [hxq]
    exact .inl (hsub q (Ne.symm hmq) hq)
  rw [hgone.frees.other x hxq hxm] at hv
  refine (h x nd hv).imp (hsub x hxm) (Or.imp_left ?_)
  rintro ⟨y, hy, j, nm', hj, he⟩
  -- the inode that goes named nothing
  have hym : y ≠ m := by
    rintro rfl
    obtain ⟨nd', hv', ht'⟩ := he.isDir
    cases hvm.symm.trans hv'
    exact hgone.empty (hkind.mp ht') j nm' x hj he
  exact ⟨y, hsub y hym hy, j, nm', hj, hgone.frees.keep hym he hxm⟩

/-- **After a creation.** -/
theorem FsAt.of_new (h : FsAt s ino T num E L p) (hk : Keeps ino (atCreate ino q) s ino' t)
    (hinv : FsInv t ino' (fdRefs s.mem num + E') L' p') (hq : q ∈ T.dirs) (hE : E ≤ E')
    (hnew : NewEntry (viewOf s.disk ino) (viewOf t.disk ino') q i nm n type) :
    FsAt t ino' (if type = FS_TYPE_DIR then T.join n q else T) num E' L' p' := by
  refine h.of_mem hk.spares.procs hk.spares.fdescs hinv
    (h.tree.newEntry hq hnew fun m nd hv => h.range hv)
    ((h.held.mono (Multiset.add_le_add_left hE)).newEntry hq hnew)
      (hk.keepsFiles fun k x d _ hd ht => ?_)
  rintro (rfl | hx)
  · obtain ⟨nd, hv, htd, -⟩ := h.tree.node hq
    rw [viewOf_some hd] at hv
    cases hv
    exact absurd (ht.symm.trans htd) (by decide)
  · rw [hx] at hd
    cases hd

/-- **After a removal.** -/
theorem FsAt.of_gone (h : FsAt s ino T num E L p)
    (hrem : Removed ino (fdRefs s.mem num + E) L' q i nm m isdir s t ino') (hq : q ∈ T.dirs)
    (honly : isdir = false → ∀ {x j nm'}, x ∈ T.dirs → 2 ≤ j → (viewOf s.disk ino).Has x j nm' m →
      x = q ∧ j = i) :
    FsAt t ino' (if isdir then T.leave m else T) num E L' none := by
  refine h.of_mem hrem.keeps.spares.procs hrem.keeps.spares.fdescs hrem.inv
    (h.tree.goneEntry hq hrem.gone honly)
    (h.held.goneEntry hq hrem.gone fun nd hv => ?_) ?_
  · obtain ⟨d, hd, -⟩ := Option.map_eq_some_iff.mp hv
    exact hrem.held d hd
  · intro k x d hk hd ht
    by_cases hxm : x = m
    · subst hxm
      -- the file goes on in its descriptors
      obtain ⟨d', hd'⟩ := hrem.inv.inodes.cache.live (mem_add.mpr (.inl hk))
      obtain ⟨dm, c, hm, rfl, hsame⟩ := hrem.child d' hd'
      cases hd.symm.trans hm
      exact ⟨_, hd', ht, fun i => (samePtrs_links.need_eq _ i).le.trans (hsame.need_eq i).le⟩
    · have hxq : x ≠ q := by
        rintro rfl
        obtain ⟨nd, hv, htd, -⟩ := h.tree.node hq
        rw [viewOf_some hd] at hv
        cases hv
        exact absurd (ht.symm.trans htd) (by decide)
      exact hrem.keeps.keepsFiles (R := {(k, x)}) (fun k' x' d' hk' _ _ => by
        obtain ⟨rfl, rfl⟩ := Prod.mk.inj (mem_singleton.mp hk')
        simp [hxm, hxq]) k x d (mem_singleton_self _) hd ht

end OsLab
