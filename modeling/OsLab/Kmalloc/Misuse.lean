import OsLab.Kmalloc.Partition
import OsLab.Mm.Frames
/-!
# Sizes that wrap around, and freeing twice

A request may have any 64-bit size. The header is added to it before the order is searched for,
so that a size near the end of the range wraps around to a small one. A pointer that is freed
again is refused by the word at its header: that is a link of a free list, which is no header,
or it still has no magic.
-/

namespace OsLab.Kmalloc

open Buddy

def AnyStep (s s' : State) : Prop := Step s s' ∨ ∃ size < 2 ^ 64, s' = s.kmalloc size

/-- A state of a run from before the first call. The pool is put among the page frames. -/
def Reached (s : State) : Prop :=
  ∃ h : Heap, h.kmalloc_ready = false ∧ Mm.FREEMEM_KERNEL ≤ h.frame ∧
    h.frame + POOL_BYTES ≤ Mm.ALLMEM_KERNEL ∧
    Relation.ReflTransGen AnyStep ⟨h, []⟩ s

theorem plain_of_frame {base : ℕ} (hlo : Mm.FREEMEM_KERNEL ≤ base)
    (hhi : base + POOL_BYTES ≤ Mm.ALLMEM_KERNEL) :
    Plain base := by
  intro a h1 h2
  have hfree : Mm.FREEMEM_KERNEL = 18446743800207384576 := rfl
  have hall : Mm.ALLMEM_KERNEL = 18446743800442257408 := rfl
  unfold Headless headerMagic HEADER_MAGIC
  omega

variable {size : ℕ}

/-- The first request sets the pool up. -/
theorem kmalloc_init {h : Heap} (hready : h.kmalloc_ready = false) :
    Kmalloc.kmalloc size h = Kmalloc.kmalloc size (initKmalloc h) := by
  unfold Kmalloc.kmalloc
  rw [hready]
  rfl

/-- **A state is one from before the first call, or a tree.** -/
theorem Reached.tree {s : State} (hs : Reached s) : s.live = [] ∧ s.heap.kmalloc_ready = false ∨
    Plain s.heap.pool_base ∧ ∃ t F, Tree s t F := by
  obtain ⟨h, hready, hlo, hhi, hrun⟩ := hs
  have hfirst : ∀ size, (State.mk h []).kmalloc size = (State.mk (initKmalloc h) []).kmalloc size := by
    intro size
    unfold State.kmalloc
    rw [kmalloc_init hready]
  have hinv : s = ⟨h, []⟩ ∨ Plain s.heap.pool_base ∧ ∃ t F, Tree s t F := by
    induction hrun with
    | refl => exact .inl rfl
    | tail _ hstep ih =>
      right
      rcases ih with rfl | ⟨hplain, t, F, ht⟩
      · have hnew : ∀ size, Plain ((State.mk h []).kmalloc size).heap.pool_base ∧
            ∃ t F, Tree ((State.mk h []).kmalloc size) t F := by
          intro size
          obtain ⟨hbase, ht⟩ := (Tree.init h).kmalloc size
          rw [hfirst, hbase]
          exact ⟨plain_of_frame hlo hhi, ht⟩
        rcases hstep with hstep | ⟨size, -, rfl⟩
        · cases hstep with
          | kmalloc size _ => exact hnew size
          | kfree ptr hlive => exact absurd hlive List.not_mem_nil
          | store ptr addr val hlive _ _ => exact absurd hlive List.not_mem_nil
        · exact hnew size
      · rcases hstep with hstep | ⟨size, -, rfl⟩
        · refine ⟨?_, ht.step hstep⟩
          cases hstep with
          | kmalloc size _ => rwa [(ht.kmalloc size).1]
          | kfree ptr hlive => rwa [(ht.kfree hlive).1]
          | store ptr addr val _ _ _ => exact hplain
        · obtain ⟨hbase, ht'⟩ := ht.kmalloc size
          exact ⟨hbase ▸ hplain, ht'⟩
  rcases hinv with rfl | hinv
  · exact .inl ⟨rfl, hready⟩
  · exact .inr hinv

/-! ## Sizes -/

/-- What a pointer for `size` bytes is good for: the bytes are in its block and in the pool, and in
no other live block. -/
def Provides (s : State) (ptr size : ℕ) : Prop :=
  s.heap.pool_base ≤ ptr ∧ ptr + size ≤ s.heap.pool_end ∧
    ptr + size ≤ ptr - HEADER_SIZE + 2 ^ s.order ptr ∧
    ∀ ptr' ∈ s.live, ptr' ≠ ptr → ptr' - HEADER_SIZE + 2 ^ s.order ptr' ≤ ptr ∨ ptr + size ≤ ptr' - HEADER_SIZE

namespace Tree

variable {s : State} {t : Buddy 18} {F : ℕ → List ℕ}

/-- A live pointer that has the bytes in its block provides them. -/
theorem provides (ht : Tree s t F) {ptr : ℕ} (hptr : ptr ∈ s.live)
    (hroom : ptr + size ≤ ptr - HEADER_SIZE + 2 ^ s.order ptr) : Provides s ptr size := by
  have hblock : ∀ {p}, p ∈ s.live → IsBlock s F (p - HEADER_SIZE) (s.order p) :=
    fun hp => .inr ⟨_, hp, rfl, rfl⟩
  obtain ⟨-, -, hlo, hhi, -⟩ := ht.partition.aligned _ _ (hblock hptr)
  have hend := ht.rep.pool_end
  refine ⟨by omega, by omega, hroom, fun p hp hne => ?_⟩
  obtain ⟨o, k, rfl, -⟩ := (ht.live_iff p).mp hp
  obtain ⟨o', k', rfl, -⟩ := (ht.live_iff ptr).mp hptr
  by_contra hover
  rw [not_or, not_le, not_le] at hover
  -- the later of the two starts is in both blocks
  have hpos := fun x => Nat.two_pow_pos (s.order (s.heap.pool_base + x + HEADER_SIZE))
  have hpos1 := hpos o
  have hpos2 := hpos o'
  have hsame := ht.partition.disjoint _ _ _ _ (s.heap.pool_base + max o o') (hblock hptr)
    (hblock hp)
  have := hsame (by omega) (by omega) (by omega) (by omega)
  omega

/-- A request whose size does not wrap around gets its bytes. -/
theorem kmalloc_provides (ht : Tree s t F) (hsize : size + HEADER_SIZE < 2 ^ 64)
    (hne : (Kmalloc.kmalloc size s.heap).1 ≠ 0) :
    Provides (s.kmalloc size) (Kmalloc.kmalloc size s.heap).1 size := by
  have hzero : size ≠ 0 := by
    rintro rfl
    refine hne ?_
    unfold Kmalloc.kmalloc
    rw [ht.rep.ready]
    rfl
  obtain ⟨-, t', F', ht'⟩ := ht.kmalloc size
  rcases ht.rep.kmalloc_spec hzero with
    ⟨hnull, -⟩ | ⟨o, order, t1, F1, h', he, hbase, hr', hle, -, hused⟩
  · exact absurd (congrArg Prod.fst hnull) hne
  rw [needed_eq hsize, request] at hle
  have hs : s.kmalloc size = ⟨h', (Kmalloc.kmalloc size s.heap).1 :: s.live⟩ := by
    rw [State.kmalloc, he]
    exact congrArg (State.mk h') (if_neg (by rwa [he] at hne))
  have hhas : Has 4 t1 0 false o order := (hused o order).mpr (.inr ⟨rfl, rfl⟩)
  have horder : (s.kmalloc size).order (Kmalloc.kmalloc size s.heap).1 = order := by
    rw [hs, he, State.order, Nat.add_sub_cancel, ← hbase, hr'.used o order hhas not_false,
      headerOrder_header hhas.bounds.2.1]
  refine ht'.provides (by rw [hs]; exact List.mem_cons_self) ?_
  rw [horder, he, Nat.add_sub_cancel]
  omega

end Tree

/-- **`kmalloc` never under-allocates**, but for the last eight sizes: what it gives has as many
bytes as were asked for, unless the size and the header wrap around and a block is given all the
same. -/
theorem provides_iff {s : State} (hs : Reached s) {size : ℕ} (hsize : size < 2 ^ 64)
    (hne : (Kmalloc.kmalloc size s.heap).1 ≠ 0) :
    Provides (s.kmalloc size) (Kmalloc.kmalloc size s.heap).1 size ↔ size + HEADER_SIZE < 2 ^ 64 := by
  obtain ⟨h, hkm, hlive, t, F, ht⟩ : ∃ h, Kmalloc.kmalloc size s.heap = Kmalloc.kmalloc size h ∧
      s.kmalloc size = State.kmalloc ⟨h, s.live⟩ size ∧ ∃ t F, Tree ⟨h, s.live⟩ t F := by
    rcases hs.tree with ⟨hlive, hready⟩ | ⟨-, ht⟩
    · refine ⟨initKmalloc s.heap, kmalloc_init hready, ?_, ?_⟩
      · unfold State.kmalloc
        rw [kmalloc_init hready]
      · rw [hlive]
        exact ⟨_, _, Tree.init _⟩
    · exact ⟨s.heap, rfl, rfl, ht⟩
  rw [hkm] at hne
  rw [hkm, hlive]
  refine ⟨fun hprov => ?_, fun hfit => ht.kmalloc_provides hfit hne⟩
  obtain ⟨-, t', F', ht'⟩ := ht.kmalloc size
  obtain ⟨hlo, hhi, -⟩ := hprov
  have hpool : POOL_BYTES = 2 ^ 22 := rfl
  have hend := ht'.rep.pool_end
  unfold HEADER_SIZE
  omega

/-- **A request for 2⁶⁴ - 1 bytes gets eight.** -/
theorem provides_fails : ∃ s, Reached s ∧ (Kmalloc.kmalloc (2 ^ 64 - 1) s.heap).1 ≠ 0 ∧
    ¬ Provides (s.kmalloc (2 ^ 64 - 1)) (Kmalloc.kmalloc (2 ^ 64 - 1) s.heap).1 (2 ^ 64 - 1) := by
  refine ⟨⟨⟨false, 0, 0, fun _ => 0, fun _ => 0, Mm.FREEMEM_KERNEL, by decide⟩, []⟩,
    ⟨_, rfl, le_rfl, by decide, .refl⟩, by decide +kernel,
    fun h => absurd h.2.1 (by decide +kernel)⟩

/-- Beside a live allocation of 5000 bytes, all bytes of a request for 100 are there, and those of a
request for 2⁶⁴ - 8 are not. -/
theorem provides_hundred :
    let s := State.kmalloc ⟨⟨false, 0, 0, fun _ => 0, fun _ => 0, Mm.FREEMEM_KERNEL, by decide⟩, []⟩ 5000
    s.live = [Mm.FREEMEM_KERNEL + 8] ∧ Provides (s.kmalloc 100) (Kmalloc.kmalloc 100 s.heap).1 100 ∧
      ¬ Provides (s.kmalloc (2 ^ 64 - 8)) (Kmalloc.kmalloc (2 ^ 64 - 8) s.heap).1 (2 ^ 64 - 8) := by
  intro s
  have hs : Reached s := ⟨_, rfl, le_rfl, by decide, .single (.inr ⟨5000, by decide, rfl⟩)⟩
  refine ⟨by decide +kernel, (provides_iff hs (by decide) (by decide +kernel)).mpr (by decide),
    fun h => ?_⟩
  exact absurd ((provides_iff hs (by decide) (by decide +kernel)).mp h) (by decide)

/-! ## Freeing twice -/

/-- **Freeing twice is freeing once.** -/
theorem kfree_kfree {s : State} (hs : Reached s) {ptr : ℕ} (hlive : ptr ∈ s.live) :
    Kmalloc.kfree ptr (Kmalloc.kfree ptr s.heap) = Kmalloc.kfree ptr s.heap := by
  rcases hs.tree with ⟨hnil, -⟩ | ⟨hplain, t, F, ht⟩
  · rw [hnil] at hlive
    exact absurd hlive List.not_mem_nil
  obtain ⟨o, k, rfl, hh⟩ := (ht.live_iff ptr).mp hlive
  obtain ⟨t', F', hr', -, -, hword⟩ := ht.rep.kfree_spec hh
  have hmagic := hword hplain
  generalize Kmalloc.kfree (s.heap.pool_base + o + HEADER_SIZE) s.heap = h' at hr' hmagic ⊢
  unfold Kmalloc.kfree
  simp only [hr'.ready, if_true, Nat.add_sub_cancel]
  rw [if_neg (by unfold HEADER_SIZE; omega)]
  -- the word at the header is refused, if the range is not
  split
  · rfl
  · exact if_pos (.inl hmagic)

theorem kfree_kfree_hundred :
    let s := State.kmalloc ⟨⟨false, 0, 0, fun _ => 0, fun _ => 0, Mm.FREEMEM_KERNEL, by decide⟩, []⟩ 100
    let ptr := Mm.FREEMEM_KERNEL + 8
    Kmalloc.kfree ptr (Kmalloc.kfree ptr s.heap) = Kmalloc.kfree ptr s.heap :=
  kfree_kfree ⟨_, rfl, le_rfl, by decide, .single (.inr ⟨100, by decide, rfl⟩)⟩ (by decide +kernel)

end OsLab.Kmalloc
