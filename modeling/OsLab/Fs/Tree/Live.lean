import OsLab.Fs.Tree.Format
/-!
# What a state shows

The namespace read off a state, with nothing added to it: the inode of a number is the copy in the
cache, or else the one in the table. An inode is live when entries lead to it from the root, or a
slot holds it. Between two calls that is what the invariant speaks of. -/

namespace OsLab

open Prog Bytes

variable {s : FS} {ino : ℕ → Option DiskInode} {T : Shape} {num : ℕ → ℕ} {E : Multiset Ref}
  {v v' : View} {k n m i : ℕ} {nm : Name} {d : DiskInode} {nd : Node}

/-! ## Reachable inodes -/

/-- Entries lead from the root to the inode. -/
inductive Reach (v : View) : ℕ → Prop
  | root : Reach v 1
  | entry {n i m : ℕ} {nm : Name} (hn : Reach v n) (he : v.Has n i nm m) : Reach v m

/-- **What is reached is the tree**, also in a view that shows more than the tree. -/
theorem IsTree.reach_iff (h : IsTree v T) (hv : ∀ n, n ∈ T.dirs ∨ Named v T n → v' n = v n) :
    Reach v' n ↔ n ∈ T.dirs ∨ Named v T n := by
  have hdirs : ∀ j n, n ∈ T.dirs → T.depth n ≤ j → Reach v' n := by
    intro j
    -- along the parents, whose depths fall
    induction j with
    | zero =>
      intro n hn hj
      by_cases h1 : n = 1
      · rw [h1]
        exact .root
      · exact absurd (h.depth_lt hn h1) (by omega)
    | succ j ih =>
      intro n hn hj
      by_cases h1 : n = 1
      · rw [h1]
        exact .root
      · obtain ⟨i, nm, -, he⟩ := h.named hn h1
        have hlt := h.depth_lt hn h1
        have hpar := h.par_mem hn
        exact .entry (ih (T.par n) hpar (by omega)) ((View.has_congr (hv _ (.inl hpar))).mpr he)
  constructor
  · intro hr
    induction hr with
    | root => exact .inl h.root
    | @entry n i m nm hn he ih =>
      rw [View.has_congr (hv n ih)] at he
      rcases ih with hn | hn
      · exact (h.entry hn he).1
      · exact (h.entry (h.mem_of_named hn he.isDir) he).1
  · rintro (hn | ⟨q, hq, i, nm, -, he⟩)
    · exact hdirs _ n hn le_rfl
    · exact .entry (hdirs _ q hq le_rfl) ((View.has_congr (hv q (.inl hq))).mpr he)

theorem IsTree.reach (h : IsTree v T) : Reach v n ↔ n ∈ T.dirs ∨ Named v T n :=
  h.reach_iff fun _ _ => rfl

/-- A directory that is reached is in the tree. -/
theorem IsTree.mem_iff (h : IsTree v T) : n ∈ T.dirs ↔ Reach v n ∧ v.IsDir n := by
  rw [h.reach]
  constructor
  · exact fun hn => ⟨.inl hn, h.dir hn⟩
  · rintro ⟨hn | hn, hd⟩
    · exact hn
    · exact h.mem_of_named hn hd

/-! ## The inodes of a state -/

instance (m : Mem) (n k : ℕ) : Decidable (HasInode m n k) := inferInstanceAs (Decidable (_ ∧ _ ∧ _))

/-- The slot that `inode_ref` would find for an inode number. -/
def cachedAt (m : Mem) (n : ℕ) : Option ℕ :=
  (List.range NINODE).find? fun k => decide (HasInode m n k)

/-- **The current inode of a number**: the cached copy, or else the disk inode. -/
def inodeAt (s : FS) (n : ℕ) : DiskInode :=
  match cachedAt s.mem n with
  | some k => (s.mem.inodes k).d
  | none => tableAt s.disk n

/-- What is seen of the numbers whose inode has a type. -/
def nodesAt (s : FS) : View :=
  fun n => if (inodeAt s n).type = 0 then none else some (nodeOf s.disk (inodeAt s n))

/-- Entries lead to the inode, or a slot holds it. -/
def Live (s : FS) (n : ℕ) : Prop := Reach (nodesAt s) n ∨ (cachedAt s.mem n).isSome

open Classical in
/-- **What is seen of the live inodes.** -/
noncomputable def viewAt (s : FS) : View := fun n => if Live s n then nodesAt s n else none

theorem viewAt_cached (h : (cachedAt s.mem n).isSome) : viewAt s n = nodesAt s n := if_pos (.inr h)

theorem viewAt_root (s : FS) : viewAt s 1 = nodesAt s 1 := if_pos (.inl .root)

theorem dirs_viewAt_root (s : FS) : (viewAt s).dirs 1 = (nodesAt s).dirs 1 := by
  unfold View.dirs
  rw [viewAt_root]

section Between

variable (h : FsOk s ino T num E)

include h

theorem FsAt.hasInode (hk : (k, n) ∈ fdRefs s.mem num + E) : HasInode s.mem n k := by
  have hcache := h.inv.inodes.cache
  have hino := (hcache.loaded hk nofun).2
  refine ⟨(hcache.range hino).2.2.2.1, hcache.num hk, ?_⟩
  have hcount := hcache.count hk
  have hpos := Multiset.count_pos.mpr hk
  rw [UInt16.lt_iff_toNat_lt, hcount]
  exact hpos

theorem FsAt.ref_of_hasInode (hk : k < NINODE) (hhas : HasInode s.mem n k) :
    (k, n) ∈ fdRefs s.mem num + E := by
  have hcache := h.inv.inodes.cache
  obtain ⟨m, hm, -⟩ := hcache.ref_of_type hk hhas.1
  obtain rfl : m = n := (hcache.num hm).symm.trans hhas.2.1
  exact hm

/-- The cache is found where the references are. -/
theorem FsAt.cachedAt_eq_some : cachedAt s.mem n = some k ↔ (k, n) ∈ fdRefs s.mem num + E := by
  have hfound : ∀ {j}, cachedAt s.mem n = some j → (j, n) ∈ fdRefs s.mem num + E := by
    intro j hj
    have hlt := List.mem_range.mp (List.mem_of_find?_eq_some hj)
    have hhas := List.find?_some (p := fun k => decide (HasInode s.mem n k)) hj
    exact h.ref_of_hasInode hlt (of_decide_eq_true hhas)
  refine ⟨hfound, fun hk => ?_⟩
  have hcache := h.inv.inodes.cache
  cases hj : cachedAt s.mem n with
  | none =>
    have hnone := List.find?_eq_none.mp hj k (List.mem_range.mpr (hcache.bound hk))
    exact absurd (decide_eq_true (h.hasInode hk)) hnone
  | some j => rw [hcache.uniq (hfound hj) hk]

/-- **The current inode is the live one.** -/
theorem FsAt.inodeAt_eq (hd : ino n = some d) : inodeAt s n = d := by
  unfold inodeAt
  have hcache := h.inv.inodes.cache
  cases hk : cachedAt s.mem n with
  | none =>
    refine hcache.table hd fun k hkn => ?_
    rw [h.cachedAt_eq_some.mpr hkn] at hk
    cases hk
  | some k => exact h.inv.slot (h.cachedAt_eq_some.mp hk) hd

theorem FsAt.nodesAt_eq (hv : viewOf s.disk ino n = some nd) : nodesAt s n = some nd := by
  obtain ⟨d, hd, rfl⟩ := Option.map_eq_some_iff.mp hv
  unfold nodesAt
  rw [h.inodeAt_eq hd, if_neg (h.inv.inodes.cache.range hd).2.2.2.1]

theorem FsAt.nodesAt_inTree (n : ℕ) (hn : FsAt.InTree s ino T n) :
    nodesAt s n = viewOf s.disk ino n := by
  obtain ⟨d, hd, -⟩ := h.links_of_inTree hn
  rw [h.nodesAt_eq (viewOf_some hd), viewOf_some hd]

/-- **The live inodes.** -/
theorem FsAt.live_iff : Live s n ↔ ∃ d, ino n = some d := by
  unfold Live
  rw [h.tree.reach_iff h.nodesAt_inTree, Option.isSome_iff_exists]
  constructor
  · rintro (hn | ⟨k, hk⟩)
    · obtain ⟨d, hd, -⟩ := h.links_of_inTree hn
      exact ⟨d, hd⟩
    · exact h.inv.inodes.cache.live (h.cachedAt_eq_some.mp hk)
  · rintro ⟨d, hd⟩
    rcases h.held n _ (viewOf_some hd) with hn | hn | ⟨-, k, hk⟩
    · exact .inl (.inl hn)
    · exact .inl (.inr hn)
    · exact .inr ⟨k, h.cachedAt_eq_some.mpr hk⟩

/-- **A state between two calls shows what the invariant speaks of.** -/
theorem FsAt.viewAt_eq : viewAt s = viewOf s.disk ino := by
  funext n
  unfold viewAt
  split
  · next hl =>
    obtain ⟨d, hd⟩ := h.live_iff.mp hl
    rw [h.nodesAt_eq (viewOf_some hd), viewOf_some hd]
  · next hl =>
    rw [viewOf_none]
    by_contra hne
    exact hl (h.live_iff.mpr (Option.ne_none_iff_exists'.mp hne))

end Between

end OsLab
