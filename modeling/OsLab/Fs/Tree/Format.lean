import OsLab.Fs.Tree.Naming
/-!
# A formatted card

`do_mkfs` clears the block map and the inode table and makes the root directory. Over a memory that
caches no inode and has no descriptor open, that is a file system in order whose only inode is the
root. -/

namespace OsLab

open Prog Bytes Finset

variable {s t : FS} {ino : ℕ → Option DiskInode} {m : Mem} {disk : ℕ → Block} {d : DiskInode}
  {k n b : ℕ}

/-- **No inode is cached and no descriptor is open.** A free slot is as `inode_clear` left it, but
for a count that deleting an inode may have left there. -/
structure Idle (m : Mem) : Prop where
  slots : ∀ k < NINODE, ∃ c, m.inodes k = { Inode.cleared with ref_count := c }
  fds : ∀ f < NUM_FDESCS, (m.fdesc_array f).valid = false
  tables : ∀ pid fd, (m.procs pid).fd_table fd = none

/-! ## The blank card -/

/-- The card with `n` blocks cleared, from `b` on. -/
def zeroed (disk : ℕ → Block) (b n : ℕ) : ℕ → Block :=
  fun i => if b ≤ i ∧ i < b + n then fill 0 else disk i

variable {E : Halt → Prop}

theorem wp_clearBlocks {Q : Unit → FS → Prop} :
    wp E (clearBlocks n b) Q s ↔ Q () ⟨s.mem, zeroed s.disk b n⟩ := by
  induction n generalizing s b with
  | zero =>
    have hnone : zeroed s.disk b 0 = s.disk := funext fun i => if_neg (by omega)
    rw [hnone]
    exact Iff.rfl
  | succ n ih =>
    unfold clearBlocks
    rw [wp_bind, wp_blockMemset, ih]
    have hstep : zeroed (upd s.disk b (fill 0)) (b + 1) n = zeroed s.disk b (n + 1) := by
      funext i
      unfold zeroed
      by_cases hi : i = b
      · rw [hi, if_neg (by omega), if_pos (by omega), upd_self]
      · rw [upd_of_ne hi]
        exact if_congr (by omega) rfl rfl
    change Q () ⟨s.mem, zeroed (upd s.disk b (fill 0)) (b + 1) n⟩ ↔ _
    rw [hstep]

/-- The block map and the inode table cleared. -/
abbrev blank (disk : ℕ → Block) : ℕ → Block := zeroed disk 1 (DATA - 1)

theorem blank_eq (hb : 1 ≤ b) (hlt : b < DATA) : blank disk b = fill 0 := if_pos (by omega)

theorem mapBit_blank (hb : b < NDATA) : mapBit (blank disk) b = false := by
  unfold mapBit
  have : b / 32768 ≤ NDATA / 32768 := Nat.div_le_div_right hb.le
  have hlt : 1 + b / 32768 < DATA := by
    simp only [NDATA, DATA] at this ⊢
    omega
  rw [blank_eq (by omega) hlt]
  simp [bit]

theorem tableAt_blank (hn : n < NUM_INODES) : (tableAt (blank disk) n).type = 0 := by
  unfold tableAt
  rw [blank_eq (by omega) (by simp only [NUM_INODES, DATA] at hn ⊢; omega)]
  rfl

/-- **The blank card, with no inodes.** -/
theorem Idle.fsInv (h : Idle m) (hsb : m.superblock = mkfsSuperblock)
    (hdc : ∀ b, m.dcache_table b = []) :
    FsInv ⟨m, blank disk⟩ (fun _ => none) 0 ∅ none := by
  have htaken : ∀ b, ¬ Taken (blank disk) b := fun b hb => by
    obtain ⟨h1, h2, hbit⟩ := hb
    rw [mapBit_blank (by omega)] at hbit
    cases hbit
  have hbits : takenBits (blank disk) = ∅ := by
    ext b
    simp only [takenBits, mem_filter, mem_range, notMem_empty, iff_false, not_and]
    intro hb
    rw [mapBit_blank hb]
    exact Bool.false_ne_true
  have hlive : liveNums (fun _ => none) = ∅ := by simp [liveNums]
  refine ⟨⟨⟨?_, ⟨by simp [ptrs], fun b => ?_, by simp⟩, ?_⟩,
    ⟨fun k hk => ?_, by simp, by simp, by simp, by simp,
    by simp, by simp, ?_⟩⟩, by simp, by simp, .of_empty hdc⟩
  · rw [hsb]
    exact rfl
  · simp [htaken b, ptrs]
  · rw [hbits, hsb]
    rfl
  · obtain ⟨c, hc⟩ := h.slots k hk
    refine ⟨by simp, by simp, by simp, by simp, fun _ => ⟨c, hc⟩, ?_, by simp⟩
    rw [hc]
    simp [Inode.cleared]
  · rw [hlive, hsb]
    rfl

/-! ## The root directory -/

/-- The tree of one directory. -/
def rootShape : Shape := ⟨{1}, fun _ => 1, fun _ => 0⟩

/-- What a new root directory shows. -/
structure RootOnly (v : View) : Prop where
  root : ∃ nd, v 1 = some nd ∧ nd.type = FS_TYPE_DIR ∧ nd.link_count = 2 ∧
    nd.entries = [some (dotName, 1), some (dotDotName, 1)]
  only : ∀ n, n ≠ 1 → v n = none

theorem RootOnly.isTree {v : View} (h : RootOnly v) : IsTree v rootShape := by
  obtain ⟨nd, hv, ht, hl, hes⟩ := h.root
  have hdirs : v.dirs 1 = some nd.entries := View.dirs_of_node hv ht
  rw [hes] at hdirs
  have hnone : ∀ {n i nm m}, n ∈ rootShape.dirs → 2 ≤ i → ¬ v.Has n i nm m := by
    rintro n i nm m rfl hi hh
    have hlt := ((View.has_iff hdirs).mp hh).lt
    simp only [List.length_cons, List.length_nil] at hlt
    omega
  refine ⟨rfl, rfl, ?_, ?_, ?_, fun _ => rfl, fun hn hne => absurd hn hne,
    fun hn hi hh => absurd hh (hnone hn hi),
    fun hn hi hh => absurd hh (hnone hn hi), fun hn hi hh => absurd hh (hnone hn hi),
      fun hn hne => absurd hn hne,
    fun hn hi _ hh => absurd hh (hnone hn hi), ?_⟩
  · rintro n rfl
    exact ⟨nd, hv, ht⟩
  · rintro n rfl
    exact (View.has_iff hdirs).mpr rfl
  · rintro n rfl
    exact (View.has_iff hdirs).mpr rfl
  · rintro n nd' rfl hv'
    cases hv.symm.trans hv'
    have hsubs : v.subs 1 = ∅ := by
      ext i
      simp only [View.subs, Set.mem_ofPred_eq, Set.mem_empty_iff_false, iff_false]
      rintro ⟨hi, nm, m, hh, -⟩
      exact hnone rfl hi hh
    rw [hl, hsubs, Set.ncard_empty]
    rfl

/-- `do_mkfs` once the card is blank. -/
def makeRoot : FSM ℤ := do
  let root ← inodeAlloc FS_TYPE_DIR
  let i ← getInode root
  asserts (decide (i.d.inode_num.toNat = ROOT_INODE)) .rootInodeNumber
  inodeOpen root
  modifyDisk root fun d => { d with link_count := 1 }
  let dots ← linkDots root ROOT_INODE ROOT_INODE
  asserts dots .rootLink
  modifyDisk root fun d => { d with link_count := d.link_count + 1 }
  inodeClose root
  pure 0

theorem doMkfs_eq : doMkfs = (do
    dcacheReset
    modifySuperblock fun _ => mkfsSuperblock
    let sb ← getSuperblock
    clearBlocks (sb.datablock_offset - sb.block_map_offset) sb.block_map_offset
    makeRoot) := rfl

/-- The halts of `do_mkfs`. -/
def MkfsStops (e : Halt) : Prop := Stops False e ∨ e = .rootLink

theorem Stops.mkfs (e : Halt) (h : Stops False e) : MkfsStops e := .inl h

theorem wp_makeRoot (h : FsInv s (fun _ => none) 0 ∅ none)
    (hblank : ∀ n < NUM_INODES, (tableAt s.disk n).type = 0) :
    wp MkfsStops makeRoot (fun r t => r = 0 ∧ ∃ ino, FsInv t ino 0 ∅ none ∧
      RootOnly (viewOf t.disk ino) ∧
      Keeps (fun _ => none) {1} s ino t) s := by
  have hroom : Room 2 0 := fun x => by rw [Multiset.count_zero]; omega
  unfold makeRoot
  refine wp_then (wp_weaken (h.wp_inodeAlloc (.inr rfl)) Stops.mkfs) ?_
  rintro k t ⟨n, hnew⟩
  -- the table was blank, so the first free inode is number 1
  obtain ⟨h1, hlt, -⟩ := hnew.inv.inodes.cache.range upd_self
  obtain rfl : n = 1 := by
    by_contra hne
    exact hnew.first 1 le_rfl (by omega) (hblank 1 (by decide))
  have hk : (k, 1) ∈ (k, 1) ::ₘ (0 : Multiset Ref) := Multiset.mem_cons_self _ _
  have hnum : decide ((t.mem.inodes k).d.inode_num.toNat = ROOT_INODE) = true :=
    decide_eq_true (hnew.inv.inodes.cache.num hk)
  simp only [wp_bind, wp_getInode, wp_asserts, hnum, if_true]
  refine wp_mono (wp_weaken (hnew.inv.wp_inodeOpen hk (.inr rfl) (notMem_empty k)) Stops.mkfs) ?_
  rintro _ t1 ⟨-, h₁, hs1, hdisk1⟩
  refine wp_mono (h₁.wp_setLinks hk upd_self rfl) ?_
  rintro _ t2 ⟨h2, hk2, hdisk2⟩
  rw [upd_idem] at h2 hk2
  refine wp_mono (wp_weaken
    (wp_linkDots h2 hk (mem_insert_self k ∅) upd_self rfl ?_ (by decide : (1 : UInt16) ≠ 0)
    (by decide) hroom.cons) Stops.mkfs) ?_
  · rw [entriesOf_links, FsInv.entriesOf_newInode]
  rintro dots t3 ⟨d, hd⟩
  cases dots with
  | false => exact .inr rfl
  | true =>
    rw [if_pos rfl]
    have hd3 : FsInv t3 (upd (upd (fun _ => none) 1 (some { newInode FS_TYPE_DIR 1 with
      link_count := 1 })) 1 (some d))
      ((k, 1) ::ₘ 0) (insert k ∅) none := hd.inv
    rw [upd_idem] at hd3
    have hlinks : d.link_count + 1 = 2 := by
      rw [hd.link_count]
      rfl
    refine wp_mono (hd3.wp_setLinks hk upd_self (by rw [hlinks])) ?_
    rintro _ t4 ⟨h4, hk4, hdisk4⟩
    rw [upd_idem] at h4 hk4
    refine wp_mono (wp_weaken
      (h4.wp_closeLinked (notMem_empty k) upd_self (by decide : (2 : UInt16) ≠ 0)) Stops.mkfs) ?_
    rintro _ t5 ⟨h5, hs5⟩
    refine ⟨rfl, _, h5, ⟨⟨nodeOf t5.disk { d with link_count := 2 }, viewOf_some upd_self, ?_, rfl,
      ?_⟩, fun n hn => ?_⟩, ?_⟩
    · exact hd.type
    · change entriesOf t5.disk { d with link_count := 2 } = _
      rw [hs5.entriesOf_eq (Set.notMem_empty 1) upd_self, entriesOf_links, hdisk4]
      exact hd.done rfl
    · exact viewOf_none (upd_of_ne hn)
    · have hk3 : Keeps _ {1} t2 (upd _ 1 (some d)) t3 := .of_upd hd.spares rfl
      rw [upd_idem] at hk3
      have hempty : (∅ : Set ℕ) ⊆ {1} := Set.empty_subset _
      exact hnew.keeps.trans ((Keeps.of_spares (hs1.mono hempty)).trans
        (hk2.trans (hk3.trans (hk4.trans
        (.of_spares (hs5.mono hempty))))))

/-- The memory `do_mkfs` makes the root directory in. -/
def formatMem (m : Mem) : Mem :=
  { m with dcache_table := fun _ => [], superblock := mkfsSuperblock }

/-- `do_mkfs` makes the root directory on a blank card. -/
theorem wp_doMkfs_iff {Q : ℤ → FS → Prop} :
    wp E doMkfs Q s ↔ wp E makeRoot Q ⟨formatMem s.mem, blank s.disk⟩ := by
  have hcount : mkfsSuperblock.datablock_offset - mkfsSuperblock.block_map_offset = DATA - 1 := rfl
  rw [doMkfs_eq]
  unfold dcacheReset
  simp only [wp_bind, wp_modifyMem, wp_modifySuperblock, wp_getSuperblock, wp_clearBlocks]
  rw [Store.setSuper_superblock, hcount]
  exact Iff.rfl

theorem exec_doMkfs : doMkfs.exec s = makeRoot.exec ⟨formatMem s.mem, blank s.disk⟩ := by
  have hsame : wp (fun e => doMkfs.exec s = .error e) makeRoot
    (fun r t => doMkfs.exec s = .ok (r, t))
      ⟨formatMem s.mem, blank s.disk⟩ := by
    rw [← wp_doMkfs_iff]
    unfold wp
    split <;> assumption
  unfold wp at hsame
  split at hsame
  · next hx => rw [hx, hsame]
  · next hx => rw [hx, hsame]

/-- **`do_mkfs`**: a file system whose only inode is the root. -/
theorem Idle.wp_doMkfs (h : Idle s.mem) :
    wp MkfsStops doMkfs (fun r t => r = 0 ∧ t.mem.procs = s.mem.procs ∧
      t.mem.fdesc_array = s.mem.fdesc_array ∧
      t.mem.dcache_enabled = s.mem.dcache_enabled ∧ ∃ ino, FsInv t ino 0 ∅ none ∧
        RootOnly (viewOf t.disk ino)) s := by
  have hidle : Idle (formatMem s.mem) := ⟨h.slots, h.fds, h.tables⟩
  rw [wp_doMkfs_iff]
  refine wp_mono (wp_makeRoot (hidle.fsInv rfl fun _ => rfl) fun n hn => tableAt_blank hn) ?_
  rintro r t ⟨hr, ino, hinv, hroot, hkeeps⟩
  exact ⟨hr, hkeeps.spares.procs, hkeeps.spares.fdescs, hkeeps.spares.enabled, ino, hinv, hroot⟩

/-- **A formatted card is in order.** -/
theorem FsInv.formatted (h : FsInv t ino 0 ∅ none) (hroot : RootOnly (viewOf t.disk ino))
    (hidle : Idle m) (hprocs : t.mem.procs = m.procs) (hfds : t.mem.fdesc_array = m.fdesc_array) :
    FsOk t ino rootShape (fun _ => 0) 0 := by
  have hvalid : validFds t.mem = ∅ := by
    ext f
    rw [mem_validFds, hfds]
    simp only [notMem_empty, iff_false, not_and]
    intro hf
    rw [hidle.fds f hf]
    exact Bool.false_ne_true
  have hrefs : fdRefs t.mem (fun _ => 0) = 0 := by
    unfold fdRefs
    rw [hvalid]
    rfl
  refine ⟨?_, hroot.isTree, fun n nd hv => .inl ?_, fun f hf => ?_, fun pid fd f hf => ?_,
    fun pid fd pid' fd' f hf => ?_⟩
  · rw [hrefs]
    exact h
  · by_contra hn
    rw [hroot.only n hn] at hv
    cases hv
  · rw [hvalid] at hf
    cases hf
  · rw [hprocs, hidle.tables] at hf
    cases hf
  · rw [hprocs, hidle.tables] at hf
    cases hf

end OsLab
