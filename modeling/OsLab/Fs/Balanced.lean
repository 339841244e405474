import OsLab.Fs.Buffers
import OsLab.Fs.Model.UserCopy
import OsLab.Fs.Pins
/-!
# Every call closes what it opens

The calls of the file system run on the eight buffers themselves. A pointer that
`block_open` returned stays the buffer of its block for as long as it is held
(`Holds`), so the buffers serve any program that keeps to three blocks, and
every call whose copies find their pages is one (`Fs/Pins.lean`). Nothing is
asked of what the memory and the blocks hold. The store below is any that reads
and writes blocks and touches no process: the page cache is one while its page
group is its own.

A copy that comes to kill the caller's page group ends the call with the block
of the file still open, and deletes files in the meantime.
-/

namespace OsLab

open Finset List

namespace Buffers

/-- The buffers, and the pointers a call holds with the block it opened each for, the latest first.
-/
structure Holding (σ : Type) where
  layer : Layer σ
  held : List (ℕ × Ptr)

/-- The halts of the block layer among those of a call. -/
def Halt.ofCall : Halt → OsLab.Halt
  | noBuffer => .noBlockBuffer
  | notOpen => .blockCloseUnopened

variable {σ : Type}

/-- **The buffers as the device a call runs on.** A block that is not open has no
pointer to be closed, read or written through. -/
def device (S : BlockIo σ) : Device (Holding σ) OsLab.Halt Block where
  pin n d :=
    match d.layer.blockOpen S n with
    | .ok (i, l) => .ok ⟨l, (n, i) :: d.held⟩
    | .error e => .error e.ofCall
  unpin n d :=
    match d.held.lookup n with
    | some i =>
      match d.layer.blockClose i with
      | .ok l => .ok ⟨l, d.held.eraseP fun p => n == p.1⟩
      | .error e => .error e.ofCall
    | none => .error .blockCloseUnopened
  peek n d :=
    match d.held.lookup n with
    | some i => .ok (d.layer.blocks i).data
    | none => .error .blockCloseUnopened
  poke n b d :=
    match d.held.lookup n with
    | some i => .ok { d with layer := d.layer.modify i fun _ => b }
    | none => .error .blockCloseUnopened

/-! ## The buffer of a block -/

namespace Layer

variable {S : BlockIo σ} {l l' : Layer σ} {i j : Ptr} {n m : ℕ}

/-- `block_open` finds a block by what its buffers say of themselves. -/
theorem find_congr (h : ∀ k, (l'.blocks k).valid = (l.blocks k).valid ∧
    (l'.blocks k).block_num = (l.blocks k).block_num) (n : ℕ) : l'.find n = l.find n := by
  unfold find
  congr 1
  funext k
  rw [(h k).1, (h k).2]

/-- A block is found where it was while no buffer before it takes it. -/
theorem find_of_le (hf : l.find n = some j) (hj : l'.blocks j = l.blocks j)
    (hle : ∀ k, (l'.blocks k).valid = true → (l'.blocks k).block_num = n →
      (l.blocks k).valid = true ∧ (l.blocks k).block_num = n) : l'.find n = some j := by
  unfold find at hf ⊢
  obtain ⟨hp, before, after, heq, hbefore⟩ := List.find?_eq_some_iff_append.mp hf
  refine List.find?_eq_some_iff_append.mpr ⟨?_, before, after, heq, fun k hk => ?_⟩
  · rw [hj]
    exact hp
  · have := hbefore k hk
    by_contra hcon
    simp only [Bool.not_eq_true', Bool.and_eq_false_imp, beq_eq_false_iff_ne] at this hcon
    grind

theorem blocks_load_of_ne (hij : j ≠ i) : (l.load S i n).blocks j = l.blocks j := upd_of_ne hij

theorem exists_load_self : ∃ data, (l.load S i n).blocks i = ⟨true, n, 1, data⟩ := ⟨_, upd_self⟩

/-- A block that no buffer had is found where it was loaded. -/
theorem find_load (hf : l.find n = none) : (l.load S i n).find n = some i := by
  obtain ⟨data, hi⟩ := exists_load_self (S := S) (l := l) (i := i) (n := n)
  cases hg : (l.load S i n).find n with
  | none => exact absurd (congrArg Buffer.block_num hi) (find_none hg i (by rw [hi]))
  | some j =>
    obtain ⟨hv, hn⟩ := find_some hg
    by_cases hij : j = i
    · rw [hij]
    · rw [blocks_load_of_ne hij] at hv hn
      exact absurd hn (find_none hf j hv)

end Layer

/-! ## What a call holds -/

/-- **The blocks `o` are open**: each through the buffer that `block_open` finds for it, whose
reference count is the number of the pointers held to it. -/
structure Holds (d : Holding σ) (o : List ℕ) : Prop where
  opened : d.held.map Prod.fst = o
  found : ∀ {n i}, (n, i) ∈ d.held → d.layer.find n = some i
  refcnt : ∀ i, (d.layer.blocks i).refcnt = (d.held.map Prod.snd).count i

namespace Holds

variable {S : BlockIo σ} {d : Holding σ} {o : List ℕ} {n : ℕ} {i : Ptr}

section

variable (h : Holds d o)
include h

theorem exists_of_refcnt (hi : (d.layer.blocks i).refcnt ≠ 0) : ∃ n, (n, i) ∈ d.held := by
  rw [h.refcnt] at hi
  have hmem : i ∈ d.held.map Prod.snd := count_pos_iff.mp (Nat.pos_of_ne_zero hi)
  obtain ⟨⟨n, j⟩, hp, rfl⟩ := mem_map.mp hmem
  exact ⟨n, hp⟩

theorem refcnt_ne_zero (hmem : (n, i) ∈ d.held) : (d.layer.blocks i).refcnt ≠ 0 := by
  have hi : i ∈ d.held.map Prod.snd := mem_map.mpr ⟨_, hmem, rfl⟩
  rw [h.refcnt]
  exact (count_pos_iff.mpr hi).ne'

/-- The latest pointer to an open block. -/
theorem lookup (hn : n ∈ o) : ∃ i before after, d.held.lookup n = some i ∧
    d.held = before ++ (n, i) :: after ∧ ∀ p ∈ before, n ≠ p.1 := by
  rw [← h.opened] at hn
  obtain ⟨⟨n, i⟩, hmem, rfl⟩ := mem_map.mp hn
  cases hl : d.held.lookup n with
  | none =>
    have := lookup_eq_none_iff.mp hl _ hmem
    simp at this
  | some j =>
    obtain ⟨before, after, heq, hbefore⟩ := lookup_eq_some_iff.mp hl
    exact ⟨j, before, after, rfl, heq, fun p hp => by simpa using hbefore p hp⟩

/-- The buffers in use have blocks that are open. -/
theorem block_num_mem (hi : (d.layer.blocks i).refcnt ≠ 0) : (d.layer.blocks i).block_num ∈ o := by
  obtain ⟨n, hmem⟩ := h.exists_of_refcnt hi
  rw [(Layer.find_some (h.found hmem)).2, ← h.opened]
  exact mem_map.mpr ⟨_, hmem, rfl⟩

/-- With fewer than eight blocks open, a buffer is not in use. -/
theorem exists_refcnt_eq_zero (ho : Prog.distinct o < BLOCK_CONCURRENCY) :
    ∃ i, (d.layer.blocks i).refcnt = 0 := by
  by_contra hall
  push Not at hall
  -- each buffer would be found for its own block, and all of these are open
  have hinj : Set.InjOn (fun i : Ptr => (d.layer.blocks i).block_num) (Finset.univ : Finset Ptr) := by
    intro i _ j _ hij
    obtain ⟨a, ha⟩ := h.exists_of_refcnt (hall i)
    obtain ⟨b, hb⟩ := h.exists_of_refcnt (hall j)
    have hab : a = b := by
      rw [← (Layer.find_some (h.found ha)).2, ← (Layer.find_some (h.found hb)).2]
      exact hij
    subst hab
    exact Option.some_inj.mp ((h.found ha).symm.trans (h.found hb))
  have hcard := card_le_card_of_injOn (t := o.toFinset) _
    (fun i _ => mem_toFinset.mpr (h.block_num_mem (hall i))) hinj
  rw [card_univ, Fintype.card_fin] at hcard
  exact absurd ho (Nat.not_lt.mpr hcard)

/-- **A block is opened.** -/
theorem pin (ho : Prog.distinct (n :: o) ≤ 3) :
    ∃ d', (device S).pin n d = .ok d' ∧ Holds d' (n :: o) := by
  simp only [device, Layer.blockOpen]
  cases hf : d.layer.find n with
  | some i =>
    have hfind : ∀ m, (d.layer.setBlock i { d.layer.blocks i with refcnt := (d.layer.blocks i).refcnt + 1 }).find m =
        d.layer.find m := Layer.find_congr fun k => Shows.blocks_close _ _ _ _
    refine ⟨_, rfl, ⟨by rw [List.map_cons, h.opened], fun {m j} hmem => ?_, fun k => ?_⟩⟩
    · rw [hfind]
      rcases mem_cons.mp hmem with heq | hmem
      · cases heq
        exact hf
      · exact h.found hmem
    · rw [List.map_cons, count_cons, ← h.refcnt]
      by_cases hk : k = i
      · subst hk
        simp
      · rw [Layer.setBlock_of_ne _ hk, if_neg (by simpa using Ne.symm hk), Nat.add_zero]
  | none =>
    have hless : Prog.distinct o < BLOCK_CONCURRENCY := by
      have : Prog.distinct o ≤ Prog.distinct (n :: o) :=
        card_le_card (by rw [toFinset_cons]; exact Finset.subset_insert _ _)
      exact lt_of_le_of_lt (this.trans ho) (by decide)
    cases hg : d.layer.free with
    | none =>
      obtain ⟨i, hi⟩ := h.exists_refcnt_eq_zero hless
      exact absurd hi (Layer.free_none hg i).2
    | some i =>
      have hi : (d.layer.blocks i).refcnt = 0 := by
        by_contra hi
        obtain ⟨m, hm⟩ := h.exists_of_refcnt hi
        rcases Layer.free_some hg with hv | hc
        · exact absurd ((Layer.find_some (h.found hm)).1.symm.trans hv) (by decide)
        · exact hi hc
      obtain ⟨data, hself⟩ := Layer.exists_load_self (S := S) (l := d.layer) (i := i) (n := n)
      refine ⟨_, rfl, ⟨by rw [List.map_cons, h.opened], fun {m j} hmem => ?_, fun k => ?_⟩⟩
      · rcases mem_cons.mp hmem with heq | hheld
        · cases heq
          exact Layer.find_load hf
        · have hfound := h.found hheld
          have hji : j ≠ i := by
            rintro rfl
            exact h.refcnt_ne_zero hheld hi
          refine Layer.find_of_le hfound (Layer.blocks_load_of_ne hji) fun k hv hm => ?_
          by_cases hk : k = i
          · rw [hk, hself] at hm
            have hnm : n = m := hm
            rw [← hnm, hf] at hfound
            cases hfound
          · rw [Layer.blocks_load_of_ne hk] at hv hm
            exact ⟨hv, hm⟩
      · rw [List.map_cons, count_cons, ← h.refcnt]
        by_cases hk : k = i
        · subst hk
          rw [hself, hi]
          simp
        · rw [Layer.blocks_load_of_ne hk, if_neg (by simpa using Ne.symm hk), Nat.add_zero]

/-- **An open block is closed.** -/
theorem unpin (hn : n ∈ o) : ∃ d', (device S).unpin n d = .ok d' ∧ Holds d' (o.erase n) := by
  obtain ⟨i, before, after, hl, heq, hbefore⟩ := h.lookup hn
  have hmem : (n, i) ∈ d.held := heq ▸ mem_append_right _ mem_cons_self
  have herase : d.held.eraseP (fun p => n == p.1) = before ++ after := by
    rw [heq, eraseP_append_right _ fun p hp => by simpa using hbefore p hp, eraseP_cons_of_pos (by simp)]
  simp only [device, hl, Layer.blockClose, if_neg (h.refcnt_ne_zero hmem)]
  refine ⟨_, rfl, ⟨?_, fun {m j} hm => ?_, fun k => ?_⟩⟩
  · rw [← h.opened, erase_eq_eraseP, eraseP_map]
    rfl
  · rw [Layer.find_congr fun k => Shows.blocks_close _ _ _ _]
    exact h.found (mem_of_mem_eraseP hm)
  · have hcount : (d.layer.blocks k).refcnt = ((before ++ after).map Prod.snd).count k + if k = i then 1 else 0 := by
      rw [h.refcnt, heq]
      simp only [map_append, List.map_cons, count_append, count_cons, beq_iff_eq, eq_comm (a := i)]
      omega
    show _ = ((d.held.eraseP fun p => n == p.1).map Prod.snd).count k
    rw [herase]
    by_cases hk : k = i
    · rw [if_pos hk] at hcount
      rw [hk, Layer.setBlock_self]
      rw [hk] at hcount
      show (d.layer.blocks i).refcnt - 1 = _
      omega
    · rw [if_neg hk] at hcount
      rw [Layer.setBlock_of_ne _ hk, hcount, Nat.add_zero]

theorem poke (hn : n ∈ o) (b : Block) : ∃ d', (device S).poke n b d = .ok d' ∧ Holds d' o := by
  obtain ⟨i, -, -, hl, -⟩ := h.lookup hn
  have hb := fun k => Shows.blocks_modify_of d.layer i k fun _ => b
  simp only [device, hl]
  refine ⟨_, rfl, ⟨h.opened, fun hm => ?_, fun k => ?_⟩⟩
  · rw [Layer.find_congr fun k => ⟨(hb k).1, (hb k).2.1⟩]
    exact h.found hm
  · rw [(hb k).2.2]
    exact h.refcnt k

theorem peek (hn : n ∈ o) : ∃ b, (device S).peek n d = .ok b := by
  obtain ⟨i, -, -, hl, -⟩ := h.lookup hn
  simp only [device, hl]
  exact ⟨_, rfl⟩

end

/-- **The buffers serve a program that keeps to three blocks.** -/
theorem serves : Prog.Serves (device S) 3 Holds where
  pin _ hd ho := hd.pin ho
  unpin hd hn := hd.unpin hn
  peek hd hn := hd.peek hn
  poke b hd hn := hd.poke hn b

end Holds

end Buffers

/-! ## The calls -/

open Buffers

/-- `do_mkfs` where the superblock cannot be written. -/
def mkfsUnwritten : FSM ℤ := do
  dcacheReset
  modifySuperblock fun _ => mkfsSuperblock
  pure 1

/-- What a call is made of: programs, and flushes between them. -/
inductive Part
  | prog (p : FSM Unit)
  | flush

/-- A call of the file system. `written` says whether the superblock reaches the
SD card, and `copies` what the copies of a read or a write come to. -/
inductive Call
  | mkfs (written : Bool)
  | remakefs (config : CacheConfig) (written : Bool)
  | open (path : Name) (mode : ℕ)
  | read (fd : ℤ) (length : UInt32) (copies : ℕ → Option Reclaim)
  | write (fd : ℤ) (buff : Bytes) (length : UInt32) (copies : ℕ → Option Reclaim)
  | mkdir (path : Name)
  | rmdir (path : Name)
  | ln (src_path dst_path : Name)
  | rm (path : Name)
  | ls (path : Name) (verbose : Bool)
  | close (fd : ℤ)

/-- No copy of the call comes to killing processes for want of a page. -/
def Call.FindsPages : Call → Prop
  | read _ _ copies | write _ _ _ copies => ∀ total, copies total = none
  | _ => True

/-- A program whose result is not looked at. -/
def forget {α : Type} (p : FSM α) : FSM Unit := p >>= fun _ => pure ()

/-- The call, made by the process `pid`. -/
def Call.parts (pid : ℕ) : Call → List Part
  | mkfs written => [.prog (forget (if written then doMkfs else mkfsUnwritten))]
  | remakefs config written => [.prog (forget doCleanfs), .flush,
      .prog (forget (if written then doMkfs else mkfsUnwritten)), .prog (initFsEtc pid config)]
  | .open path mode => [.prog (forget (doOpen pid path mode))]
  | read fd length copies => [.prog (forget (doReadUser pid copies fd length))]
  | write fd buff length copies => [.prog (forget (doWriteUser pid copies fd buff length))]
  | mkdir path => [.prog (forget (doMkdir pid path))]
  | rmdir path => [.prog (forget (doRmdir pid path))]
  | ln src_path dst_path => [.prog (forget (doLn pid src_path dst_path))]
  | rm path => [.prog (forget (doRm pid path))]
  | ls path verbose => [.prog (forget (doLs pid path verbose))]
  | close fd => [.prog (forget (doClose pid fd))]

section Run

variable {σ : Type} (S : BlockIo σ) (flushCache : σ → σ)

/-- `flush_filesystem`: the buffers are written back, and then the page cache below them. -/
def Buffers.Holding.flush (d : Holding σ) : Holding σ :=
  { d with layer := { d.layer.flush S with store := flushCache (d.layer.flush S).store } }

/-- Run the parts of a call on the buffers. -/
def Part.run : List Part → Mem × Holding σ → Except Halt (Mem × Holding σ)
  | [], s => .ok s
  | prog p :: ps, s => p.run (device S) s >>= fun r => Part.run ps r.2
  | flush :: ps, s => Part.run ps (s.1, s.2.flush S flushCache)

/-- The states of the buffers that the parts go through. -/
def Part.visited : List Part → Mem × Holding σ → List (Holding σ)
  | [], s => [s.2]
  | prog p :: ps, s => p.visited (device S) s ++
      match p.run (device S) s with
      | .ok r => Part.visited ps r.2
      | .error _ => []
  | flush :: ps, s => s.2 :: Part.visited ps (s.1, s.2.flush S flushCache)

end Run

/-- A part that opens at most three blocks and closes them. -/
def Part.Balanced : Part → Prop
  | prog p => Opens .fds 3 p
  | flush => True

theorem opens_forget {α : Type} {p : FSM α} (h : Opens .fds 3 p) : Opens .fds 3 (forget p) :=
  h.bind fun _ => .pure _

theorem opens_mkfs {written : Bool} : Opens .fds 3 (if written then doMkfs else mkfsUnwritten) :=
  .ite opens_doMkfs (opens_dcacheReset.bind fun _ => opens_modifySuperblock.bind fun _ => .pure _)

/-- **Every part of a call is balanced** while its copies find their pages. -/
theorem Call.balanced (pid : ℕ) (c : Call) (hc : c.FindsPages) : ∀ p ∈ c.parts pid, p.Balanced := by
  cases c with
  | remakefs config written =>
    simp only [parts, List.forall_mem_cons]
    exact ⟨opens_forget opens_doCleanfs, trivial, opens_forget opens_mkfs, opens_initFsEtc, nofun⟩
  | mkfs written => exact forall_mem_singleton.mpr (opens_forget opens_mkfs)
  | «open» path mode => exact forall_mem_singleton.mpr (opens_forget opens_doOpen)
  | read fd length copies =>
    rw [parts, doReadUser_of_found hc]
    exact forall_mem_singleton.mpr (opens_forget opens_doRead)
  | write fd buff length copies =>
    rw [parts, doWriteUser_of_found hc]
    exact forall_mem_singleton.mpr (opens_forget opens_doWrite)
  | mkdir path => exact forall_mem_singleton.mpr (opens_forget opens_doMkdir)
  | rmdir path => exact forall_mem_singleton.mpr (opens_forget opens_doRmdir)
  | ln src_path dst_path => exact forall_mem_singleton.mpr (opens_forget opens_doLn)
  | rm path => exact forall_mem_singleton.mpr (opens_forget opens_doRm)
  | ls path verbose => exact forall_mem_singleton.mpr (opens_forget opens_doLs)
  | close fd => exact forall_mem_singleton.mpr (opens_forget opens_doClose)

namespace Part

variable {σ : Type} {S : BlockIo σ} {flushCache : σ → σ} {d : Holding σ} {ps : List Part} {m : Mem}

theorem holds_flush {o : List ℕ} (h : Holds d o) : Holds (d.flush S flushCache) o := by
  have hb : (d.flush S flushCache).layer.blocks = d.layer.blocks :=
    Layer.blocks_flush (S := S) d.layer
  refine ⟨h.opened, fun hm => ?_, fun i => ?_⟩
  · rw [Layer.find_congr (l := d.layer) fun k => by rw [hb]; exact ⟨rfl, rfl⟩]
    exact h.found hm
  · rw [hb]
    exact h.refcnt i

/-- What a balanced part does to buffers of which none is in use. -/
theorem Balanced.run {p : FSM Unit} (hp : Balanced (prog p)) (m : Mem) (hd : Holds d []) :
    match p.run (device S) (m, d) with
    | .ok (_, _, d') => Holds d' []
    | .error e => NotBuffers e := by
  have hrun := Prog.Pins.run (Holds.serves (S := S)) (hp m [] (by decide)) hd
  cases hr : p.run (device S) (m, d) with
  | error e =>
    rw [hr] at hrun
    exact hrun
  | ok r =>
    rw [hr] at hrun
    obtain ⟨o', ho', -, rfl⟩ := hrun
    exact ho'

variable (S flushCache) in
/-- **Balanced parts, one after another**, end with no buffer in use or halt for another reason. -/
theorem run_balanced (hps : ∀ p ∈ ps, p.Balanced) (hd : Holds d []) :
    match Part.run S flushCache ps (m, d) with
    | .ok (_, d') => Holds d' []
    | .error e => NotBuffers e := by
  induction ps generalizing m d with
  | nil => exact hd
  | cons p ps ih =>
    obtain ⟨hp, hrest⟩ := List.forall_mem_cons.mp hps
    cases p with
    | flush => exact ih hrest (holds_flush hd)
    | prog p =>
      have hrun := Balanced.run (S := S) hp m hd
      rw [Part.run]
      cases hr : p.run (device S) (m, d) with
      | error e =>
        rw [hr] at hrun
        exact hrun
      | ok r =>
        rw [hr] at hrun
        exact ih hrest hrun

theorem visited_balanced (hps : ∀ p ∈ ps, p.Balanced) (hd : Holds d []) :
    ∀ d' ∈ Part.visited S flushCache ps (m, d), ∃ o, Holds d' o ∧ Prog.distinct o ≤ 3 := by
  induction ps generalizing m d with
  | nil => exact forall_mem_singleton.mpr ⟨[], hd, by decide⟩
  | cons p ps ih =>
    obtain ⟨hp, hrest⟩ := List.forall_mem_cons.mp hps
    cases p with
    | flush => exact List.forall_mem_cons.mpr ⟨⟨[], hd, by decide⟩, ih hrest (holds_flush hd)⟩
    | prog p =>
      have hrun := Balanced.run (S := S) hp m hd
      rw [Part.visited]
      refine forall_mem_append.mpr ⟨Prog.Pins.visited Holds.serves (hp m [] (by decide)) hd (by decide), ?_⟩
      cases hr : p.run (device S) (m, d) with
      | error e => nofun
      | ok r =>
        rw [hr] at hrun
        exact ih hrest hrun

end Part

/-- The different blocks that are open. -/
def Buffers.Layer.openBlocks {σ : Type} (l : Layer σ) : Finset ℕ :=
  (Finset.univ.filter fun i => 0 < (l.blocks i).refcnt).image fun i => (l.blocks i).block_num

theorem Buffers.Holds.openBlocks_card {σ : Type} {d : Holding σ} {o : List ℕ} (h : Holds d o) :
    d.layer.openBlocks.card ≤ Prog.distinct o := by
  refine card_le_card fun n hn => ?_
  obtain ⟨i, hi, rfl⟩ := mem_image.mp hn
  exact mem_toFinset.mpr (h.block_num_mem (Finset.mem_filter.mp hi).2.ne')

/-- Two processes with an open file each. Process 2 has a file of one byte in the
block 1000. The file of process 3 has been removed, and is to be deleted when it
is closed; its only block is 1003, under the double indirect block 1001. -/
def twoFiles : Mem where
  superblock := { mkfsSuperblock with used_inode := 3, used_block := 4 }
  inodes := upd (upd (fun _ => Inode.cleared)
    0 ⟨{ DiskInode.cleared with
      type := FS_TYPE_FILE, link_count := 1, inode_num := 2, size := 1,
      direct := fun i => if i.1 = 0 then 1000 else ptrNone }, true, 1, false⟩)
    1 ⟨{ DiskInode.cleared with
      type := FS_TYPE_FILE, inode_num := 3, double_indirect := 1001 }, true, 1, false⟩
  dcache_table _ := []
  dcache_enabled := false
  fdesc_array f := ⟨f, decide (f < 2), 0, 0, true, true⟩
  procs pid :=
    ⟨ROOT_INODE, upd (fun _ => none) 0 (if pid = 2 then some 0 else if pid = 3 then some 1 else none)⟩
  kmallocs _ := true
  full := false

/-- Every block is in use, and has no pointer in it but for the two index blocks. -/
def twoFilesDisk : ℕ → Block :=
  upd (upd (fun _ => Bytes.fill 255) 1001 (Bytes.setWord (Bytes.fill 255) 0 1002))
    1002 (Bytes.setWord (Bytes.fill 255) 0 1003)

/-- What the two processes have, with every buffer free. -/
def twoFilesStart : Mem × Holding (ℕ → Block) := (twoFiles, ⟨.start twoFilesDisk, []⟩)

/-- Process 2 reads its byte onto a page it has still to be given, where its group
has no leaf page: the processes of `killed` go first. -/
def readKilling (killed : List ℕ) : List Part := (Call.read 0 1 fun _ => some ⟨0, killed⟩).parts 2

-- `inode_delete` goes through the 1024 pointers of an index block
set_option maxRecDepth 1000 in
theorem any_four_open : (Part.visited arrayStore id (readKilling [3]) twoFilesStart).any
    (fun d => d.layer.openBlocks.card == 4) = true := by
  decide +kernel

end OsLab
