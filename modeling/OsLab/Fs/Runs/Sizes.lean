import OsLab.Fs.Tree.Runs
import OsLab.Fs.Descriptors
/-!
# Sizes and offsets

`inode_write` raises the size to the offset that its loop ends at, also where the loop wrote
nothing. That offset is a `uint32_t` which no line checks: what keeps it from wrapping is that
`do_lseek` sets positions below `2^31`, and that the card has no room to go from there to `2^32`.
The sums of `do_lseek` are `int`s, and wrap. -/

namespace OsLab

open Prog Bytes

variable {s t u : FS} {ino : ℕ → Option DiskInode} {R : Multiset Ref} {L : Finset ℕ} {k n pid : ℕ}
  {d d' : DiskInode}

/-! ## Calls on files -/

/-- The calls that open a file and work on it. -/
def FsCall.isFile : FsCall → Bool
  | .open _ _ => true
  | read _ _ => true
  | write _ _ _ => true
  | lseek _ _ _ => true
  | _ => false

/-- The offset of `do_lseek` is an `int`. -/
def FsCall.InRange : FsCall → Prop
  | lseek _ offset _ => -2 ^ 31 ≤ offset ∧ offset < 2 ^ 31
  | _ => True

/-- What these calls keep: nobody leaves the root directory. -/
structure AtRoot (s : FS) : Prop where
  held : FsHeld 0 s
  cwds : ∀ pid, cwds s.mem pid = 1

theorem Formatted.atRoot (h : Formatted s) : AtRoot s := ⟨h.held.1, h.held.2.2⟩

variable {c : FsCall} {r : ℤ × Bytes} {offset fd : ℤ} {whence : ℕ} {length : UInt32} {buff : Bytes}

theorem AtRoot.proper (h : AtRoot s) (hc : c.isFile = true) : c.Proper pid s := by
  have hstart : ∀ path, StartsLive s pid path := fun path => by
    refine h.held.startsLive (.inr ?_)
    rw [h.cwds pid]
    exact h.held.liveDir_root
  cases c with
  | «open» path mode => exact ⟨hstart path, h.held.roomAt⟩
  | read _ _ | write _ _ _ | lseek _ _ _ => trivial
  | _ => cases hc

theorem AtRoot.step (h : AtRoot s) (hc : c.isFile = true) (hs : Steps s pid c r t) : AtRoot t := by
  obtain ⟨⟨E', hheld, hE⟩, heff⟩ := h.held.step (h.proper hc) hs
  have hcwd : OsLab.cwds t.mem = OsLab.cwds s.mem := by
    cases c with
    | «open» _ _ | read _ _ | write _ _ _ | lseek _ _ _ => exact heff.1
    | _ => cases hc
  have hkeeps : c.keepsRefs = true := by cases c <;> first | rfl | cases hc
  rw [hE hkeeps] at hheld
  refine ⟨hheld, fun pid' => ?_⟩
  rw [hcwd]
  exact h.cwds pid'

theorem Run.atRoot {P : ℕ → FsCall → FS → Prop} (hP : ∀ pid c t, P pid c t → c.isFile = true)
    (hs : Formatted s) (hrun : Run P s t) : AtRoot t := by
  induction hrun with
  | nil => exact hs.atRoot
  | snoc _ hp hstep ih => exact ih.step (hP _ _ _ hp) hstep

/-! ## One write -/

/-- The file grows by the bytes written: it ends where they end, they are the source's, and the
others below the old size are as they were. -/
structure GrowsByWritten (src : Bytes) (offset total : ℕ) (s : FS) (d : DiskInode) (t : FS)
    (d' : DiskInode) : Prop where
  size : d'.size.toNat = if total = 0 then d.size.toNat else max d.size.toNat (offset + total)
  wrote : ∀ p, offset ≤ p → p < offset + total → byteAt t.disk d' p = src (p - offset)
  kept : ∀ p < d.size.toNat, ¬ (offset ≤ p ∧ p < offset + total) →
    byteAt t.disk d' p = byteAt s.disk d p

/-- There is something to write, and a block to begin with. -/
def CanBegin (s : FS) (d : DiskInode) (offset length : ℕ) : Prop :=
  0 < length ∧ (takenBits s.disk).card + need s.disk d (offset / 4096) ≤ NDATA

theorem FileWrote.growsByWritten_iff {src : Bytes} {offset length total : ℕ}
    (h : FileWrote ino R L k n src offset length s d total t d') :
    GrowsByWritten src offset total s d t d' ↔ 0 < total ∨ offset ≤ d.size.toNat := by
  have hsize := h.size
  constructor
  · intro hg
    have hgsize := hg.size
    split at hgsize <;> omega
  · intro hc
    refine ⟨?_, fun p h1 h2 => ?_, fun p _ hout => ?_⟩
    · split <;> omega
    · rw [h.bytes, if_pos ⟨h1, h2⟩]
    · rw [h.bytes, if_neg hout]

/-- **`inode_write` from any offset**: what it writes, as long as the offset did not wrap. -/
theorem wp_inodeWrite_any {H : Halt → Prop} (h : InodeInv s ino R L none) (hk : (k, n) ∈ R)
    (hd : ino n = some d) (htype : d.type ≠ FS_TYPE_DEV) (hlock : k ∈ L) (src : Bytes) {offset : ℕ}
    (length : ℕ) (hoff : offset < 2 ^ 32) :
    wp H (inodeWrite k src offset length)
      (fun r t => r ≤ length ∧ (0 < r ↔ CanBegin s d offset length) ∧
      (offset + r < 2 ^ 32 → ∃ d', FileWrote ino R L k n src offset length s d r t d')) s := by
  obtain rfl := h.slot hk hd
  unfold inodeWrite
  rw [wp_bind, wp_getInode, if_neg htype, wp_bind]
  refine wp_mono (wp_and (wp_inodeWriteLoop_any h.blocks hd rfl length (Nat.zero_le _)
    (by omega) hoff)
    (wp_inodeWriteLoop_first (E := H) h.blocks hd rfl hoff)) ?_
  rintro r t ⟨⟨d', htouched, -, hle, hw⟩, hbegin⟩
  rw [Nat.sub_zero] at hw
  by_cases hlt : offset + r.1 < 2 ^ 32
  · refine wp_mono (FileWrote.of_wrote h hk hd (hw (.inl hlt)) hlt hlock) ?_
    rintro a u ⟨rfl, hu⟩
    exact ⟨hle, hbegin, fun _ => hu⟩
  · -- the offset wrapped: the size is what it is, and the slot is written back
    have hlocked : (t.mem.inodes k).locked = true := by
      rw [htouched.inode]
      exact (h.cache.slots k (h.cache.bound hk)).locked.mpr hlock
    have hdone : ∀ {v : FS}, (v.mem.inodes k).locked = true → wp H (do inodeSync k; pure r.1)
        (fun a _ => a = r.1) v := by
      intro v hv
      unfold inodeSync writeBack
      simp only [wp_bind, wp_getInode, wp_asserts, hv, if_true, wp_getSuperblock, wp_blockOpen,
        wp_blockData,
        wp_setBlockData, wp_blockClose, wp_pure]
    have hend : wp H (do
        let i ← getInode k
        if i.d.size.toNat < r.2 then modifyDisk k fun d => { d with size := UInt32.ofNat r.2 }
        inodeSync k
        pure r.1) (fun a _ => a = r.1) t := by
      rw [wp_bind, wp_getInode]
      split
      · rw [wp_bind, wp_modifyDisk]
        exact hdone (by rw [Store.setInode_inodes, upd_self]; exact hlocked)
      · exact hdone hlocked
    refine wp_mono hend ?_
    rintro a u rfl
    exact ⟨hle, hbegin, fun hlt' => absurd hlt' hlt⟩

/-- An empty file, open and locked. -/
structure LockedFile (s : FS) (ino : ℕ → Option DiskInode) (R : Multiset Ref) (L : Finset ℕ)
    (k n : ℕ) (d : DiskInode) :
    Prop where
  inv : InodeInv s ino R L none
  ref : (k, n) ∈ R
  lock : k ∈ L
  inode : ino n = some d
  type : d.type = FS_TYPE_FILE
  empty : d.size = 0

/-- A file that was just opened is one. -/
theorem exists_lockedFile_of (test : ℕ → FS → Bool)
    (h : returns ((makeRoot >>= fun _ => script [(1, .open (ascii "/f") 3)]).exec zeroCard)
      (fun _ t =>
      decide ((t.mem.fdesc_array 0).valid = true) && returns
        ((inodeOpen (t.mem.fdesc_array 0).inode).exec t) fun _ u =>
        decide ((u.mem.inodes (t.mem.fdesc_array 0).inode).d.size = 0) && test
          (t.mem.fdesc_array 0).inode u) = true) :
    ∃ s ino R L k n d, LockedFile s ino R L k n d ∧ test k s = true := by
  obtain ⟨s, t, rs, hs, hrun, -, htest⟩ := exists_run (P := fun _ c _ => c.isFile = true)
    [(1, .open (ascii "/f") 3)] _ (by simp [FsCall.isFile]) h
  obtain ⟨hvalid, hopen⟩ := Bool.and_eq_true_iff.mp htest
  obtain ⟨a, u, hx, hu⟩ := exists_of_returns hopen
  obtain ⟨hsize, hlast⟩ := Bool.and_eq_true_iff.mp hu
  obtain ⟨⟨ino, T, num, hok⟩, -⟩ := hrun.atRoot (fun _ _ _ hp => hp) hs
  have hf : 0 ∈ validFds t.mem := mem_validFds.mpr ⟨by decide, of_decide_eq_true hvalid⟩
  obtain ⟨hat, hsp, -⟩ := wp_ok (hok.wp_openSlot (W := False) hf) hx
  have hf' : 0 ∈ validFds u.mem := by
    unfold validFds
    rw [hsp.fdescs]
    exact hf
  obtain ⟨d, hd, htype, -⟩ := hat.files 0 hf'
  have href := hsp.mem_fdRefs num 0 hf
  refine ⟨u, ino, _, _, _, _, d, ⟨hat.inv.inodes, href, Finset.mem_singleton_self _, hd, htype,
    ?_⟩, hlast⟩
  rw [← hat.inv.inodes.slot href hd]
  exact of_decide_eq_true hsize

theorem exists_lockedFile : ∃ s ino R L k n d, LockedFile s ino R L k n d := by
  obtain ⟨s, ino, R, L, k, n, d, h, -⟩ := exists_lockedFile_of (fun _ _ => true) (by decide +kernel)
  exact ⟨s, ino, R, L, k, n, d, h⟩

/-- **`inode_write` grows a file by the bytes it wrote exactly where it can write some, or does not
begin past the end**, for offsets and lengths that end below `2^32`. It returns in either case. -/
theorem inodeWrite_growsByWritten_iff (h : InodeInv s ino R L none) (hk : (k, n) ∈ R)
    (hlock : k ∈ L) (hd : ino n = some d) (htype : d.type = FS_TYPE_FILE ∨ d.type = FS_TYPE_DIR)
    (src : Bytes) (offset length : UInt32) (hend : offset.toNat + length.toNat < 2 ^ 32) :
    ∃ total t, (inodeWrite k src offset.toNat length.toNat).exec s = .ok (total, t) ∧
      total ≤ length.toNat ∧
      (GrowsByWritten src offset.toNat total s d t (t.mem.inodes k).d ↔
        CanBegin s d offset.toNat length.toNat ∨ offset.toNat ≤ d.size.toNat) := by
  have hdev : d.type ≠ FS_TYPE_DEV := by rcases htype with htype | htype <;> rw [htype] <;> decide
  obtain ⟨total, t, hx, hle, hbegin, hw⟩ :=
    exists_of_wp (wp_inodeWrite_any h hk hd hdev hlock src length.toNat offset.toNat_lt)
  obtain ⟨d', hfile⟩ := hw (by omega)
  refine ⟨total, t, hx, hle, ?_⟩
  rw [hfile.inv.slot hk upd_self, ← hbegin]
  exact hfile.growsByWritten_iff

/-- Three bytes in an empty file, from its third byte on. -/
theorem inodeWrite_growsByWritten_gap :
    ∃ s k d t, (inodeWrite k (fill 7) 2 3).exec s = .ok (3, t) ∧ d.size = 0 ∧
    GrowsByWritten (fill 7) 2 3 s d t (t.mem.inodes k).d := by
  obtain ⟨s, ino, R, L, k, n, d, h, htest⟩ := exists_lockedFile_of
    (fun k s => returns ((inodeWrite k (fill 7) 2 3).exec s) fun r _ => decide (r = 3))
    (by decide +kernel)
  obtain ⟨r, t, hx, hr⟩ := exists_of_returns htest
  obtain rfl := of_decide_eq_true hr
  have hbegin :
    CanBegin s d 2 3 := (wp_ok (wp_inodeWrite_any (H := fun _ => False) h.inv h.ref h.inode
    (by rw [h.type]; decide) h.lock (fill 7) 3 (by decide : 2 < 2 ^ 32)) hx).2.1.mp (by decide)
  obtain ⟨total, t', hx', -, hiff⟩ := inodeWrite_growsByWritten_iff h.inv h.ref h.lock h.inode
    (.inl h.type) (fill 7) 2 3
    (by decide)
  obtain ⟨rfl, rfl⟩ : total = 3 ∧ t' = t := by
    have heq := hx'.symm.trans hx
    simpa using heq
  exact ⟨s, k, d, _, hx, h.empty, hiff.mpr (.inl hbegin)⟩

/-- **A write of nothing past the end makes a file longer.** -/
theorem inodeWrite_grows_unwritten : ∃ s ino R L k n d total t, LockedFile s ino R L k n d ∧
    (inodeWrite k (fill 0) 5 0).exec s = .ok (total, t) ∧
      ¬ GrowsByWritten (fill 0) 5 total s d t (t.mem.inodes k).d := by
  obtain ⟨s, ino, R, L, k, n, d, h⟩ := exists_lockedFile
  obtain ⟨total, t, hx, -, hbegin, hw⟩ := exists_of_wp
    (wp_inodeWrite_any h.inv h.ref h.inode (by rw [h.type]; decide) h.lock
    (fill 0) 0 (by decide : 5 < 2 ^ 32))
  obtain rfl : total = 0 := by
    by_contra hne
    exact absurd (hbegin.mp (Nat.pos_of_ne_zero hne)).1 (lt_irrefl 0)
  obtain ⟨d', hfile⟩ := hw (by decide)
  refine ⟨s, ino, R, L, k, n, d, 0, t, h, hx, ?_⟩
  rw [hfile.inv.slot h.ref upd_self, hfile.growsByWritten_iff, h.empty]
  decide

/-! ## Positions along runs -/

/-- Where `do_lseek` is asked to go, in whole numbers. -/
def seekTarget (s : FS) (f : ℕ) (offset : ℤ) (whence : ℕ) : ℤ :=
  let fp := s.mem.fdesc_array f
  match whence with
  | 0 => offset
  | 1 => max (fp.rpos.toNat : ℤ) fp.wpos.toNat + offset
  | 2 => (s.mem.inodes fp.inode).d.size.toNat + offset
  | _ => max fp.rpos.toNat fp.wpos.toNat

/-- The position that `do_lseek` sets. -/
def seekPos (s : FS) (f : ℕ) (offset : ℤ) (whence : ℕ) : ℕ :=
  let target := toInt (seekTarget s f offset whence)
  if target < 0 then 0 else target.toNat

/-- **No offset wraps.** A write ends below `2^32`, where the position and the size go on from; a
directory has room for an entry below `2^32`; no size decreases; and a position decreases only to
where a seek was asked to go. -/
structure NoWrap (c : FsCall) (pid : ℕ) (s : FS) (r : ℤ × Bytes) (t : FS) : Prop where
  written : ∀ fd buff length f, c = .write fd buff length → fdOf s.mem pid fd = some f →
    ∃ (a : ℕ) (nd nd' : Node), r.1 = a ∧ (s.mem.fdesc_array f).wpos.toNat + a < 2 ^ 32 ∧
      (t.mem.fdesc_array f).wpos.toNat = (s.mem.fdesc_array f).wpos.toNat + a ∧
      viewAt s (numAt s f) = some nd ∧ viewAt t (numAt s f) = some nd' ∧
      nd'.size.toNat = max nd.size.toNat ((s.mem.fdesc_array f).wpos.toNat + a)
  entry : ∀ n nd, viewAt t n = some nd → nd.type = FS_TYPE_DIR → nd.size.toNat + 32 < 2 ^ 32
  size : ∀ n nd nd', viewAt s n = some nd → viewAt t n = some nd' → nd.size.toNat ≤ nd'.size.toNat
  wpos : ∀ f ∈ validFds s.mem, (t.mem.fdesc_array f).wpos.toNat < (s.mem.fdesc_array f).wpos.toNat →
    ∃ fd offset whence, c = .lseek fd offset whence ∧ fdOf s.mem pid fd = some f ∧
      ((t.mem.fdesc_array f).wpos.toNat : ℤ) = max 0 (seekTarget s f offset whence)

/-- **A seek does not leave the `int`s for a position below the one it starts at.** -/
def FsCall.SeekFits (pid : ℕ) (s : FS) : FsCall → Prop
  | lseek fd offset whence => ∀ f, fdOf s.mem pid fd = some f →
      seekTarget s f offset whence < 2 ^ 31 ∨
      ((s.mem.fdesc_array f).wpos.toNat : ℤ) ≤ max 0 (seekTarget s f offset whence - 2 ^ 32)
  | _ => True

/-! ### Positions -/

theorem mwp_getFd {E : Halt → Prop} {m : Mem} {Q : Option ℕ → Mem → Prop} :
    (getFd pid fd).mwp E Q m ↔ Q (fdOf m pid fd) m :=
  Iff.rfl

/-- `do_read` leaves the positions for writing. -/
theorem mwp_doRead_wpos (fd : ℤ) (length : UInt32) (m : Mem) :
    (doRead pid fd length).mwp (fun _ => True)
    (fun _ m' => ∀ g, (m'.fdesc_array g).wpos = (m.fdesc_array g).wpos) m := by
  unfold doRead
  rw [mwp_bind, mwp_getFd]
  cases fdOf m pid fd with
  | none => exact fun g => rfl
  | some f =>
    simp only [mwp_bind]
    refine sparesFds_inodeOpen.mwp fun _ m1 h1 => opens_inodeRead.sparesFds.mwp fun r m2 h2 => ?_
    refine sparesFds_inodeUnlock.mwp fun _ m3 h3 g => ?_
    rw [h3.fdescs, ← h1.fdescs, ← h2.fdescs]
    change (upd m2.fdesc_array f _ g).wpos = _
    by_cases hg : g = f
    · rw [hg, upd_self]
    · rw [upd_of_ne hg]

/-- `do_write` moves the position by what it wrote. -/
theorem mwp_doWrite_wpos {m : Mem} : (doWrite pid fd buff length).mwp (fun _ => True)
    (fun r m' => match fdOf m pid fd with
      | none => m' = m
      | some f => m'.fdesc_array = upd m.fdesc_array f
          { m.fdesc_array f with wpos := (m.fdesc_array f).wpos + UInt32.ofNat r }) m := by
  unfold doWrite
  rw [mwp_bind, mwp_getFd]
  cases fdOf m pid fd with
  | none => exact rfl
  | some f =>
    simp only [mwp_bind]
    refine sparesFds_inodeOpen.mwp fun _ m1 h1 => opens_inodeWrite.sparesFds.mwp fun r m2 h2 => ?_
    refine sparesFds_inodeUnlock.mwp fun _ m3 h3 => ?_
    rw [mwp_pure, h3.fdescs, ← h1.fdescs, ← h2.fdescs]

/-- What `do_write` did, told from the call. -/
theorem Steps.wpos_of_write (hs : Steps s pid (.write fd buff length) r t) :
    ∃ b : ℕ, r.1 = b ∧ match fdOf s.mem pid fd with
      | none => t.mem = s.mem
      | some f => t.mem.fdesc_array = upd s.mem.fdesc_array f
          { s.mem.fdesc_array f with wpos := (s.mem.fdesc_array f).wpos + UInt32.ofNat b } := by
  obtain ⟨b, u, hx, hr⟩ := exists_of_exec_bind hs
  cases hr
  exact ⟨b, rfl, wp_ok (wp_of_mwp mwp_doWrite_wpos) hx⟩

theorem toInt_add {a b : ℤ} : toInt (toInt a + b) = toInt (a + b) := by
  unfold toInt
  exact Int.bmod_add_bmod

variable {fd : ℤ} {f : ℕ}

/-- **`do_lseek` sets the position that its arithmetic comes to.** -/
theorem FsAt.wp_doLseek_wpos {T : Shape} {num : ℕ → ℕ} {E : Multiset Ref}
    (h : FsOk s ino T num E) : wp (Stops False) (doLseek pid fd offset whence) (fun _ t =>
      match fdOf s.mem pid fd with
      | none => t = s
      | some f => ∃ rpos, t.mem.fdesc_array = upd s.mem.fdesc_array f
          { s.mem.fdesc_array f with
            wpos := UInt32.ofNat (seekPos s f offset whence), rpos := rpos }) s := by
  unfold doLseek
  rw [wp_bind, wp_getFd]
  cases hfd : fdOf s.mem pid fd with
  | none => exact rfl
  | some f =>
    have hf := h.valid_of_fdOf hfd
    obtain ⟨d, hd, -⟩ := h.files f hf
    unfold getFdesc
    simp only [wp_bind, wp_get, wp_ret]
    refine wp_mono (h.wp_openSlot hf) ?_
    rintro _ t ⟨ht, hst, -⟩
    -- the slot that is looked at has the size it had
    have hsize : (t.mem.inodes (s.mem.fdesc_array f).inode).d.size =
        (s.mem.inodes (s.mem.fdesc_array f).inode).d.size := by
      rw [ht.inv.inodes.slot (hst.mem_fdRefs num E hf) hd,
        h.inv.inodes.slot (Multiset.mem_add.mpr (.inl (mem_fdRefs hf))) hd]
    have hset : ∀ target : ℤ, target = toInt (seekTarget s f offset whence) →
        wp (Stops False) (do
          inodeUnlock (s.mem.fdesc_array f).inode
          let i ← getInode (s.mem.fdesc_array f).inode
          modifyFdesc f fun fp => { fp with
            wpos := UInt32.ofNat (if target < 0 then 0 else target.toNat)
            rpos := UInt32.ofNat (min (if target < 0 then 0 else target.toNat) i.d.size.toNat) }
          pure ((if target < 0 then 0 else target.toNat : ℕ) : ℤ)) (fun _ u => ∃ rpos,
            u.mem.fdesc_array =
            upd s.mem.fdesc_array f { s.mem.fdesc_array f with
              wpos := UInt32.ofNat (seekPos s f offset whence), rpos := rpos }) t := by
      rintro target rfl
      refine wp_then (wp_and ht.wp_unlockSlot (wp_of_mwp (sparesFds_inodeUnlock t.mem))) ?_
      rintro _ u ⟨-, hu⟩
      rw [wp_bind, wp_getInode, wp_bind]
      unfold modifyFdesc
      rw [wp_modifyMem, wp_pure]
      dsimp only
      rw [hu.fdescs, hst.fdescs]
      exact ⟨_, rfl⟩
    simp only [wp_bind, wp_getInode, hsize] at hset ⊢
    rcases whence with _ | _ | _ | whence
    · exact hset _ rfl
    · exact hset _ toInt_add
    · exact hset _ rfl
    · exact hset _ rfl


theorem seekPos_lt (s : FS) (f : ℕ) (offset : ℤ) (whence : ℕ) :
    seekPos s f offset whence < 2 ^ 31 := by
  have hlt := toInt_lt (seekTarget s f offset whence)
  unfold seekPos
  dsimp only
  split <;> omega

/-- An `int` sum that leaves the range comes back `2^32` lower. -/
theorem seekPos_eq (hoff : -2 ^ 31 ≤ offset ∧ offset < 2 ^ 31) :
    (seekPos s f offset whence : ℤ) = if seekTarget s f offset whence < 2 ^ 31 then max 0
    (seekTarget s f offset whence)
      else max 0 (seekTarget s f offset whence - 2 ^ 32) := by
  have hbounds : -2 ^ 31 ≤ seekTarget s f offset whence ∧
      seekTarget s f offset whence < 2 ^ 32 + 2 ^ 31 := by
    have hr := (s.mem.fdesc_array f).rpos.toNat_lt
    have hw := (s.mem.fdesc_array f).wpos.toNat_lt
    have hsize := (s.mem.inodes (s.mem.fdesc_array f).inode).d.size.toNat_lt
    rcases whence with _ | _ | _ | whence <;> simp only [seekTarget] <;> omega
  have hint : toInt (seekTarget s f offset whence) = if seekTarget s f offset whence < 2 ^ 31 then
      seekTarget s f offset whence else seekTarget s f offset whence - 2 ^ 32 := by
    unfold toInt
    rw [Int.bmod_def]
    split <;> split <;> omega
  unfold seekPos
  simp only [hint]
  split <;> split <;> omega

/-! ### One call -/

section Between

variable {T : Shape} {num : ℕ → ℕ} {E : Multiset Ref} {nd : Node} (h : FsOk s ino T num E)
  (hv : viewAt s n = some nd) (hdir : nd.type = FS_TYPE_DIR)
include h hv hdir

/-- A directory has the blocks it says it has, so it ends far below `2^32`. -/
theorem FsAt.dir_size_lt : nd.size.toNat + 32 < 2 ^ 32 := by
  rw [h.viewAt_eq] at hv
  obtain ⟨d, hd, rfl⟩ := Option.map_eq_some_iff.mp hv
  have hok := h.inv.dirs hd hdir
  have hle := h.inv.inodes.blocks.mapped_le hd (a := 0) (c := (d.size.toNat + 4095) / 4096)
    fun i _ hi => by
    have hmap := hok.mapped (4096 * i) (by omega)
    rwa [Nat.mul_div_cancel_left i (by decide)] at hmap
  unfold NDATA at hle
  change d.size.toNat + 32 < 2 ^ 32
  omega

/-- A directory is as long as its entries. -/
theorem FsAt.dir_size : nd.size.toNat = 32 * nd.entries.length := by
  rw [h.viewAt_eq] at hv
  obtain ⟨d, hd, rfl⟩ := Option.map_eq_some_iff.mp hv
  have hok := h.inv.dirs hd hdir
  have hlen : (nodeOf s.disk d).entries.length = d.size.toNat / 32 := length_entriesOf
  rw [hlen]
  exact hok.size.symm

end Between

/-- The calls on files and their sizes. -/
theorem FsCall.Effect.size_le (he : c.Effect pid s r t) (hc : c.isFile = true) (hs : FsHeld 0 s)
    (ht : FsHeld 0 t) {nd nd' : Node} (hv : viewAt s n = some nd) (hv' : viewAt t n = some nd') :
    nd.size.toNat ≤ nd'.size.toNat := by
  have hsame : viewAt t = viewAt s → nd.size.toNat ≤ nd'.size.toNat := fun h => by
    rw [h, hv] at hv'
    cases hv'
    exact le_rfl
  cases c with
  | «open» path mode =>
    rcases he.2.1 with h | ⟨q, name, i, m, hq, -, hnew, -⟩
    · exact hsame h
    · by_cases hnq : n = q
      · -- the directory is as long as its entries, and has one more
        subst hnq
        obtain ⟨ino, T, num, hs⟩ := hs
        obtain ⟨ino', T', num', ht⟩ := ht
        obtain ⟨nd0, hnd0, hdir⟩ := hq.2
        cases hv.symm.trans hnd0
        obtain ⟨nd1, hnd1, hdir'⟩ := hnew.adds.dir.mpr hq.2
        cases hv'.symm.trans hnd1
        have hlen := hnew.longer hv hv'
        rw [hs.dir_size hv hdir, ht.dir_size hv' hdir']
        omega
      · have hnm : n ≠ m := by
          rintro rfl
          rw [hnew.fresh] at hv
          cases hv
        rw [hnew.adds.other n hnq hnm, hv] at hv'
        cases hv'
        exact le_rfl
  | read fd length => exact hsame he.2.1
  | write fd buff length =>
    obtain ⟨-, -, hres⟩ := he
    cases hf : fdOf s.mem pid fd with
    | none =>
      rw [hf] at hres
      exact hsame hres.2
    | some f =>
      rw [hf] at hres
      obtain ⟨a, -, -, nd0, nd1, hnd0, hview, hw⟩ := hres
      rw [hview, upd_apply] at hv'
      split at hv'
      · next hn =>
        subst hn
        cases hv'
        cases hv.symm.trans hnd0
        rw [hw.size]
        exact le_max_left _ _
      · cases hv.symm.trans hv'
        exact le_rfl
  | lseek fd offset whence => exact hsame he.2
  | _ => cases hc

/-- A write moves on by what it wrote, below `2^32`. -/
theorem AtRoot.written (h : AtRoot s)
    (hs : Steps s pid (.write fd buff length) r t) (hf : fdOf s.mem pid fd = some f) :
    (∀ g ≠ f, t.mem.fdesc_array g = s.mem.fdesc_array g) ∧
    ∃ (a : ℕ) (nd nd' : Node), r.1 = a ∧ (s.mem.fdesc_array f).wpos.toNat + a < 2 ^ 32 ∧
      (t.mem.fdesc_array f).wpos.toNat = (s.mem.fdesc_array f).wpos.toNat + a ∧
      viewAt s (numAt s f) = some nd ∧ viewAt t (numAt s f) = some nd' ∧
      nd'.size.toNat = max nd.size.toNat ((s.mem.fdesc_array f).wpos.toNat + a) := by
  obtain ⟨-, -, -, hres⟩ := h.held.step (h.proper rfl) hs
  rw [hf] at hres
  obtain ⟨a, ha, -, nd, nd', hnd, hview, hw⟩ := hres
  obtain ⟨b, hb, hfds⟩ := hs.wpos_of_write
  rw [hf] at hfds
  obtain rfl : a = b := Int.ofNat_inj.mp (ha.symm.trans hb)
  have hlt := nd'.size.toNat_lt
  have hsize := hw.size
  refine ⟨fun g hg => ?_, a, nd, nd', ha, by omega, ?_, hnd, ?_, hsize⟩
  · rw [hfds, upd_of_ne hg]
  · rw [hfds, upd_self]
    change ((s.mem.fdesc_array f).wpos + UInt32.ofNat a).toNat = _
    rw [UInt32.toNat_add, UInt32.toNat_ofNat']
    omega
  · rw [hview, upd_self]

/-- The positions after a seek. -/
theorem AtRoot.sought (h : AtRoot s)
    (hs : Steps s pid (.lseek fd offset whence) r t) : (fdOf s.mem pid fd = none → t = s) ∧
      ∀ f, fdOf s.mem pid fd = some f → ∃ rpos, t.mem.fdesc_array = upd s.mem.fdesc_array f
        { s.mem.fdesc_array f with
          wpos := UInt32.ofNat (seekPos s f offset whence), rpos := rpos } := by
  obtain ⟨ino, T, num, hok⟩ := h.held
  have hres := wp_ok hok.wp_doLseek_wpos (exec_of_answer hs)
  constructor
  · intro hf
    rwa [hf] at hres
  · intro f hf
    rwa [hf] at hres

/-- A descriptor that is open stays as it is when another is opened. -/
theorem Steps.fdesc_of_open {path : Name} {mode : ℕ} {g : ℕ}
    (hs : Steps s pid (.open path mode) r t) (hg : g ∈ validFds s.mem) :
    t.mem.fdesc_array g = s.mem.fdesc_array g := by
  obtain ⟨-, hsame⟩ | ⟨fd, f, k, -, hfree, -, hfds, -⟩ :=
    wp_ok (wp_of_mwp mwp_doOpen_fds) (exec_of_answer hs)
  · rw [hsame.fdescs]
  · rw [hfds, upd_of_ne]
    rintro rfl
    rw [(mem_validFds.mp hg).2] at hfree
    cases hfree

/-- **One call.** -/
theorem AtRoot.noWrap_iff (h : AtRoot s) (hc : c.isFile = true) (hin : c.InRange)
    (hs : Steps s pid c r t) : NoWrap c pid s r t ↔ c.SeekFits pid s := by
  have ht := h.step hc hs
  have heff := (h.held.step (h.proper hc) hs).2
  have hsize : ∀ n nd nd', viewAt s n = some nd → viewAt t n = some nd' →
    nd.size.toNat ≤ nd'.size.toNat :=
    fun _ _ _ hv hv' => heff.size_le hc h.held ht.held hv hv'
  have hentry : ∀ n nd, viewAt t n = some nd → nd.type = FS_TYPE_DIR →
      nd.size.toNat + 32 < 2 ^ 32 := by
    obtain ⟨ino, T, num, hok⟩ := ht.held
    exact fun _ _ hv hdir => hok.dir_size_lt hv hdir
  cases c with
  | «open» path mode =>
    refine ⟨fun _ => trivial, fun _ => ⟨nofun, hentry, hsize, fun f hf hlt => ?_⟩⟩
    rw [hs.fdesc_of_open hf] at hlt
    exact absurd hlt (lt_irrefl _)
  | read fd length =>
    obtain ⟨b, u, hx, hr⟩ := exists_of_exec_bind hs
    cases hr
    refine ⟨fun _ => trivial, fun _ => ⟨nofun, hentry, hsize, fun f _ hlt => ?_⟩⟩
    rw [wp_ok (wp_of_mwp (mwp_doRead_wpos fd length s.mem)) hx f] at hlt
    exact absurd hlt (lt_irrefl _)
  | write fd buff length =>
    refine ⟨fun _ => trivial, fun _ => ⟨fun fd' buff' length' f hcall hf => ?_, hentry, hsize,
      fun g _ hlt => ?_⟩⟩
    · cases hcall
      exact (h.written hs hf).2
    · cases hf : fdOf s.mem pid fd with
      | none =>
        obtain ⟨b, -, hm⟩ := hs.wpos_of_write
        rw [hf] at hm
        rw [hm] at hlt
        exact absurd hlt (lt_irrefl _)
      | some f =>
        obtain ⟨hother, a, -, -, -, -, hpos, -⟩ := h.written hs hf
        by_cases hg : g = f
        · rw [hg, hpos] at hlt
          omega
        · rw [hother g hg] at hlt
          exact absurd hlt (lt_irrefl _)
  | lseek fd offset whence =>
    obtain ⟨hnone, hsome⟩ := h.sought hs
    cases hf : fdOf s.mem pid fd with
    | none =>
      obtain rfl := hnone hf
      refine ⟨fun _ f hf' => ?_,
        fun _ => ⟨nofun, hentry, hsize, fun f _ hlt => absurd hlt (lt_irrefl _)⟩⟩
      rw [hf] at hf'
      cases hf'
    | some f =>
      obtain ⟨rpos, hfds⟩ := hsome f hf
      -- the position is an int that is not negative
      have heq : (seekPos s f offset whence : ℤ) = _ := seekPos_eq hin
      have hpos : (t.mem.fdesc_array f).wpos.toNat = seekPos s f offset whence := by
        rw [hfds, upd_self]
        change (UInt32.ofNat (seekPos s f offset whence)).toNat = _
        rw [UInt32.toNat_ofNat']
        have hlt := seekPos_lt s f offset whence
        omega
      constructor
      · intro hno g hg
        cases hf.symm.trans hg
        by_cases hlt : (t.mem.fdesc_array f).wpos.toNat < (s.mem.fdesc_array f).wpos.toNat
        · obtain ⟨ino, T, num, hok⟩ := h.held
          obtain ⟨_, _, _, hcall, -, hgoal⟩ := hno.wpos f (hok.valid_of_fdOf hf) hlt
          cases hcall
          rw [hpos, heq] at hgoal
          split at hgoal
          · exact .inl ‹_›
          · omega
        · rw [hpos] at hlt
          split at heq
          · exact .inl ‹_›
          · exact .inr (by omega)
      · intro hfit
        refine ⟨nofun, hentry, hsize, fun g _ hlt => ?_⟩
        by_cases hg : g = f
        · subst hg
          refine ⟨fd, offset, whence, rfl, hf, ?_⟩
          rw [hpos] at hlt ⊢
          rcases hfit g hf with hx | hx
          · rw [heq, if_pos hx]
          · split at heq <;> omega
        · rw [hfds, upd_of_ne hg] at hlt
          exact absurd hlt (lt_irrefl _)
  | _ => cases hc

/-- **Offsets never wrap, but for the sums of `do_lseek`**: in every state that calls on files lead
to from a format, the range assertion of `inode_mapblock` does not fire, and a call moves no offset
past its end exactly where a seek fits. -/
theorem offsets_noWrap_iff {c : FsCall} (hs : Formatted s)
    (hrun : Run (fun _ c _ => c.isFile = true ∧ c.InRange) s t) (hc : c.isFile = true ∧ c.InRange) :
    (c.prog pid).exec t ≠ .error .blockInFileOutOfRange ∧
      ∀ r u, Steps t pid c r u → (NoWrap c pid t r u ↔ c.SeekFits pid t) := by
  have h := hrun.atRoot (fun _ _ _ hp => hp.1) hs
  refine ⟨fun he => ?_, fun r u hstep => h.noWrap_iff hc.1 hc.2 hstep⟩
  rcases wp_error (h.held.wp_call (h.proper hc.1)) he with he | he | ⟨he, -⟩ <;> cases he

/-- Three bytes are written to a new file. -/
theorem offsets_noWrap_write :
    ∃ s t u r, Formatted s ∧ Run (fun _ c _ => c.isFile = true ∧ c.InRange) s t ∧
    Steps t 1 (.write 0 (fill 7) 3) r u ∧ NoWrap (.write 0 (fill 7) 3) 1 t r u := by
  obtain ⟨s, t, rs, hs, hrun, -, htest⟩ := exists_run
    (P := fun _ c _ => c.isFile = true ∧ c.InRange)
    [(1, .open (ascii "/f") 3)]
    (fun _ t => returns (((FsCall.write 0 (fill 7) 3).prog 1).exec t) fun _ _ => true)
    (by simp [FsCall.isFile, FsCall.InRange]) (by decide +kernel)
  obtain ⟨r, u, hstep, -⟩ := exists_of_returns htest
  have hc : (FsCall.write 0 (fill 7) 3).isFile = true ∧ (FsCall.write 0 (fill 7) 3).InRange :=
    ⟨rfl, trivial⟩
  exact ⟨s, t, u, r, hs, hrun, hstep, ((offsets_noWrap_iff hs hrun hc).2 r u hstep).mpr trivial⟩

/-- **A file that was written past two gigabytes is sought from its position**, by nothing, and the
position is the start. -/
theorem offset_wraps : ∃ s t u r, Formatted s ∧ Run (fun _ c _ => c.isFile = true ∧ c.InRange) s t ∧
    Steps t 1 (.lseek 0 0 1) r u ∧ ¬ NoWrap (.lseek 0 0 1) 1 t r u := by
  obtain ⟨s, t, rs, hs, hrun, -, htest⟩ := exists_run
    (P := fun _ c _ => c.isFile = true ∧ c.InRange)
    [(1, .open (ascii "/f") 3), (1, .lseek 0 (2 ^ 31 - 1) 0), (1, .write 0 (fill 7) 1)]
    (fun _ t => decide ((t.mem.fdesc_array 0).valid = true ∧
      (t.mem.fdesc_array 0).wpos.toNat = 2 ^ 31) &&
      returns (((FsCall.lseek 0 0 1).prog 1).exec t) fun _ u => decide
        ((u.mem.fdesc_array 0).wpos.toNat = 0))
    (by simp [FsCall.isFile, FsCall.InRange]) (by decide +kernel)
  rw [Bool.and_eq_true] at htest
  obtain ⟨hvalid, hbefore⟩ := of_decide_eq_true htest.1
  obtain ⟨r, u, hstep, hafter⟩ := exists_of_returns htest.2
  have hafter := of_decide_eq_true hafter
  refine ⟨s, t, u, r, hs, hrun, hstep, fun hno => ?_⟩
  obtain ⟨fd, offset, whence, hcall, -, hgoal⟩ :=
    hno.wpos 0 (mem_validFds.mpr ⟨by decide, hvalid⟩) (by omega)
  cases hcall
  rw [hafter] at hgoal
  simp only [seekTarget] at hgoal
  omega

end OsLab
