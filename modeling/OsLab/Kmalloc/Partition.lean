import OsLab.Kmalloc.Pool
/-!
# The pool is always partitioned

A run allocates, frees live pointers, and stores into the bytes it was
given. In every state reached the free blocks and the live ones partition
the pool, so a request fails only for want of room, and freeing everything
gives the whole pool back.
-/

namespace OsLab.Kmalloc

open Buddy List

/-- The allocator and the pointers it has handed out. -/
structure State where
  heap : Heap
  live : List ℕ

/-- The order in the header of the block of a pointer. -/
def State.order (s : State) (ptr : ℕ) : ℕ := headerOrder (s.heap.mem (ptr - HEADER_SIZE))

def State.kmalloc (s : State) (size : ℕ) : State :=
  let (ptr, heap) := Kmalloc.kmalloc size s.heap
  ⟨heap, if ptr = 0 then s.live else ptr :: s.live⟩

def State.kfree (s : State) (ptr : ℕ) : State := ⟨Kmalloc.kfree ptr s.heap, s.live.erase ptr⟩

/-- One step of the kernel's use of the allocator. -/
inductive Step : State → State → Prop
  | kmalloc (s : State) (size : ℕ) (hsize : size ≤ 2 ^ 63) : Step s (s.kmalloc size)
  | kfree (s : State) (ptr : ℕ) (hlive : ptr ∈ s.live) : Step s (s.kfree ptr)
  | store (s : State) (ptr addr val : ℕ) (hlive : ptr ∈ s.live) (h1 : ptr ≤ addr)
      (h2 : addr < ptr - HEADER_SIZE + 2 ^ s.order ptr) :
      Step s ⟨s.heap.store addr val, s.live⟩

/-! ## What is on the lists, and what is live -/

/-- A block of order `k` at `a` is on its list. -/
def IsFree (F : ℕ → List ℕ) (a k : ℕ) : Prop := MIN_ORDER ≤ k ∧ k ≤ MAX_ORDER ∧ a ∈ F k

/-- A block of order `k` at `a` has been handed out. -/
def IsLive (s : State) (a k : ℕ) : Prop :=
  ∃ ptr ∈ s.live, a = ptr - HEADER_SIZE ∧ s.order ptr = k

def IsBlock (s : State) (F : ℕ → List ℕ) (a k : ℕ) : Prop := IsFree F a k ∨ IsLive s a k

/-- **The blocks partition the pool.** `F k` is what the list of order `k`
holds. -/
structure Partition (s : State) (F : ℕ → List ℕ) : Prop where
  walk : ∀ k, MIN_ORDER ≤ k → k ≤ MAX_ORDER →
    Chain s.heap.mem (s.heap.free_lists (orderIndex k)) (F k)
  aligned : ∀ a k, IsBlock s F a k → MIN_ORDER ≤ k ∧ k ≤ MAX_ORDER ∧ s.heap.pool_base ≤ a ∧
    a + 2 ^ k ≤ s.heap.pool_base + POOL_BYTES ∧ 2 ^ k ∣ a - s.heap.pool_base
  cover : ∀ x, s.heap.pool_base ≤ x → x < s.heap.pool_base + POOL_BYTES →
    ∃ a k, IsBlock s F a k ∧ a ≤ x ∧ x < a + 2 ^ k
  disjoint : ∀ a k a' k' x, IsBlock s F a k → IsBlock s F a' k' → a ≤ x → x < a + 2 ^ k →
    a' ≤ x → x < a' + 2 ^ k' → a = a' ∧ k = k'
  apart : ∀ a k k', IsFree F a k → ¬ IsLive s a k'
  once : ∀ k, (F k).Nodup
  live_once : s.live.Nodup
  merged : ∀ k < MAX_ORDER, ∀ o o', Buddies k o o' → s.heap.pool_base + o ∈ F k →
    s.heap.pool_base + o' ∉ F k

/-! ## The tree of a state -/

/-- The tree of the pool, with the live pointers as its blocks in use. -/
structure Tree (s : State) (t : Buddy 18) (F : ℕ → List ℕ) : Prop where
  rep : Rep s.heap t F fun _ => False
  live_once : s.live.Nodup
  live_iff : ∀ ptr, ptr ∈ s.live ↔
    ∃ o k, ptr = s.heap.pool_base + o + HEADER_SIZE ∧ Has 4 t 0 false o k

namespace Tree

variable {s : State} {t : Buddy 18} {F : ℕ → List ℕ}

section

variable (ht : Tree s t F)
include ht

theorem order_eq {o k : ℕ} (hh : Has 4 t 0 false o k) :
    s.order (s.heap.pool_base + o + HEADER_SIZE) = k := by
  have hb := hh.bounds
  unfold State.order
  rw [Nat.add_sub_cancel, ht.rep.used o k hh not_false, headerOrder_header (by omega)]

theorem isFree_iff {a k : ℕ} :
    IsFree F a k ↔ ∃ o, a = s.heap.pool_base + o ∧ Has 4 t 0 true o k := by
  refine ⟨fun hf => (ht.rep.mem_iff k a).mp hf.2.2, fun hf => ?_⟩
  obtain ⟨o, -, hh⟩ := id hf
  have hb := hh.bounds
  exact ⟨hb.1, hb.2.1, (ht.rep.mem_iff k a).mpr hf⟩

theorem isLive_iff {a k : ℕ} :
    IsLive s a k ↔ ∃ o, a = s.heap.pool_base + o ∧ Has 4 t 0 false o k := by
  constructor
  · intro ⟨ptr, hlive, ha, hk⟩
    obtain ⟨o, j, rfl, hh⟩ := (ht.live_iff ptr).mp hlive
    rw [ht.order_eq hh] at hk
    rw [Nat.add_sub_cancel] at ha
    exact ⟨o, ha, hk ▸ hh⟩
  · intro ⟨o, ha, hh⟩
    exact ⟨_, (ht.live_iff _).mpr ⟨o, k, rfl, hh⟩, by rw [Nat.add_sub_cancel, ha], ht.order_eq hh⟩

theorem isBlock_iff {a k : ℕ} :
    IsBlock s F a k ↔ ∃ b o, a = s.heap.pool_base + o ∧ Has 4 t 0 b o k := by
  unfold IsBlock
  rw [ht.isFree_iff, ht.isLive_iff, Bool.exists_bool, or_comm]

/-- **A tree partitions the pool.** -/
theorem partition : Partition s F := by
  have hpool : POOL_BYTES = 2 ^ (4 + 18) := rfl
  refine ⟨ht.rep.chain, ?_, ?_, ?_, ?_, ht.rep.nodup, ht.live_once, ?_⟩
  · intro a k hblock
    obtain ⟨b, o, rfl, hh⟩ := ht.isBlock_iff.mp hblock
    obtain ⟨h1, h2, -, h3, h4⟩ := hh.bounds
    refine ⟨h1, h2, by omega, by omega, ?_⟩
    rwa [Nat.add_sub_cancel_left]
  · intro x h1 h2
    obtain ⟨o, rfl⟩ := Nat.exists_eq_add_of_le h1
    obtain ⟨b, a, k, hh, h3, h4⟩ := exists_has (m := 4) t (Nat.zero_le o) (by omega)
    exact ⟨_, k, ht.isBlock_iff.mpr ⟨b, a, rfl, hh⟩, by omega, by omega⟩
  · intro a k a' k' x hb hb' h1 h2 h3 h4
    obtain ⟨b, o, rfl, hh⟩ := ht.isBlock_iff.mp hb
    obtain ⟨b', o', rfl, hh'⟩ := ht.isBlock_iff.mp hb'
    obtain ⟨x, rfl⟩ := Nat.exists_eq_add_of_le (show s.heap.pool_base ≤ x by omega)
    obtain ⟨-, rfl, rfl⟩ := hh.unique hh' (x := x) (by omega) (by omega) (by omega) (by omega)
    exact ⟨rfl, rfl⟩
  · intro a k k' hf hl
    obtain ⟨o, rfl, hh⟩ := ht.isFree_iff.mp hf
    obtain ⟨o', he, hh'⟩ := ht.isLive_iff.mp hl
    obtain rfl : o = o' := by omega
    have := (hh.unique_start hh').1
    simp at this
  · intro k hk o o' hbud h1 h2
    have hfree : ∀ {x}, s.heap.pool_base + x ∈ F k → Has 4 t 0 true x k := by
      intro x hx
      obtain ⟨y, he, hh⟩ := (ht.rep.mem_iff k _).mp hx
      obtain rfl : x = y := by omega
      exact hh
    obtain ⟨j, rfl⟩ : ∃ j, k = 4 + j := ⟨k - 4, by have := (hfree h1).bounds; omega⟩
    exact ht.rep.merged.not_both_free (dvd_zero _) (hfree h1) hbud (hfree h2)

/-! ## One step -/

/-- **Allocating keeps a tree.** -/
theorem kmalloc (size : ℕ) :
    (s.kmalloc size).heap.pool_base = s.heap.pool_base ∧ ∃ t' F', Tree (s.kmalloc size) t' F' := by
  unfold State.kmalloc
  by_cases hzero : size = 0
  · have hnull : Kmalloc.kmalloc size s.heap = (0, s.heap) := by
      unfold Kmalloc.kmalloc
      simp only [ht.rep.ready, if_true, if_pos hzero]
    rw [hnull]
    exact ⟨rfl, t, F, ht⟩
  · rcases ht.rep.kmalloc_spec hzero with
      ⟨hnull, -⟩ | ⟨o, order, t', F', h', he, hbase, hr', -, hnew, hused⟩
    · rw [hnull]
      exact ⟨rfl, t, F, ht⟩
    · rw [he]
      have hne : s.heap.pool_base + o + HEADER_SIZE ≠ 0 := by
        unfold HEADER_SIZE
        omega
      simp only [if_neg hne]
      refine ⟨hbase, t', F', hr', nodup_cons.mpr ⟨fun hmem => ?_, ht.live_once⟩, fun ptr => ?_⟩
      · obtain ⟨o', k, he', hh⟩ := (ht.live_iff _).mp hmem
        obtain rfl : o = o' := by omega
        exact hnew k hh
      · rw [mem_cons, ht.live_iff]
        simp only [hbase, hused]
        constructor
        · rintro (he' | ⟨o', k, he', hh⟩)
          · exact ⟨o, order, he', .inr ⟨rfl, rfl⟩⟩
          · exact ⟨o', k, he', .inl hh⟩
        · rintro ⟨o', k, he', hh | ⟨ho, -⟩⟩
          · exact .inr ⟨o', k, he', hh⟩
          · exact .inl (by rw [he', ho])

/-- **Freeing a live pointer keeps a tree.** -/
theorem kfree {ptr : ℕ} (hlive : ptr ∈ s.live) :
    (s.kfree ptr).heap.pool_base = s.heap.pool_base ∧ ∃ t' F', Tree (s.kfree ptr) t' F' := by
  obtain ⟨o, k, rfl, hh⟩ := (ht.live_iff ptr).mp hlive
  obtain ⟨t', F', hr', hbase, hused, -⟩ := ht.rep.kfree_spec hh
  refine ⟨hbase, t', F', hr', ht.live_once.erase _, fun ptr => ?_⟩
  unfold State.kfree
  rw [ht.live_once.mem_erase_iff, ht.live_iff]
  simp only [hbase, hused]
  constructor
  · intro ⟨hne, o', k', he, hh'⟩
    exact ⟨o', k', he, hh', fun ho => hne (by rw [he, ho])⟩
  · intro ⟨o', k', he, hh', hne⟩
    exact ⟨by omega, o', k', he, hh'⟩

/-- **Storing into a block in use keeps the tree**: the block's header and
the links of the free blocks are elsewhere. -/
theorem store {ptr addr val : ℕ} (hlive : ptr ∈ s.live) (h1 : ptr ≤ addr)
    (h2 : addr < ptr - HEADER_SIZE + 2 ^ s.order ptr) :
    Tree ⟨s.heap.store addr val, s.live⟩ t F := by
  obtain ⟨o, k, rfl, hh⟩ := (ht.live_iff ptr).mp hlive
  rw [ht.order_eq hh, Nat.add_sub_cancel] at h2
  unfold HEADER_SIZE at h1
  obtain ⟨x, rfl⟩ := Nat.exists_eq_add_of_le (show s.heap.pool_base ≤ addr by omega)
  refine ⟨ht.rep.store (fun _ => False) (fun k' => ?_) ?_, ht.live_once, ht.live_iff⟩
  · exact ht.rep.notMem_of_used hh (by omega) (by omega)
  · intro o' k' hh' _
    refine .inl ⟨fun he => ?_, not_false⟩
    obtain rfl : x = o' := by omega
    have := (hh.eq_of_mem hh' (by omega) (by omega)).2.1
    omega

/-! ## Runs -/

theorem step {s' : State} (hstep : Step s s') : ∃ t' F', Tree s' t' F' := by
  cases hstep with
  | kmalloc size _ => exact (ht.kmalloc size).2
  | kfree ptr hlive => exact (ht.kfree hlive).2
  | store ptr addr val hlive h1 h2 => exact ⟨t, F, ht.store hlive h1 h2⟩

end

theorem init (h : Heap) : Tree ⟨initKmalloc h, []⟩ .free (upd (fun _ => []) 22 [h.frame]) := by
  refine ⟨rep_initKmalloc h, nodup_nil, fun ptr => ⟨nofun, ?_⟩⟩
  intro ⟨o, k, _, hh⟩
  exact absurd hh.1 (by simp)

theorem run {h : Heap} (hrun : Relation.ReflTransGen Step ⟨initKmalloc h, []⟩ s) :
    ∃ t F, Tree s t F := by
  induction hrun with
  | refl => exact ⟨_, _, init h⟩
  | tail _ hstep ih =>
    obtain ⟨t, F, ht⟩ := ih
    exact ht.step hstep

/-- **A failed request has no room**: every run of bytes of its size and
alignment meets a live block. -/
theorem full (ht : Tree s t F) {size k o : ℕ} (hpos : 1 ≤ size) (hsize : size ≤ 2 ^ 63)
    (hnull : (Kmalloc.kmalloc size s.heap).1 = 0) (hk : request size ≤ 2 ^ k) (hdvd : 2 ^ k ∣ o)
    (hin : o + 2 ^ k ≤ POOL_BYTES) :
    ∃ a j, IsLive s a j ∧ a < s.heap.pool_base + o + 2 ^ k ∧ s.heap.pool_base + o < a + 2 ^ j := by
  rw [← needed_eq (by unfold HEADER_SIZE; omega)] at hk
  have hsize0 : size ≠ 0 := by omega
  rcases ht.rep.kmalloc_spec hsize0 with ⟨-, hnone⟩ | ⟨o', order, t', F', h', he, -⟩
  · by_contra hno
    obtain ⟨o', k', hh, hle⟩ := ht.rep.merged.exists_free (dvd_zero _) hdvd (Nat.zero_le o)
      (show o + 2 ^ k ≤ 0 + 2 ^ (4 + 18) by
        have hpool : POOL_BYTES = 2 ^ (4 + 18) := rfl
        omega)
      (fun o' k' hh => by
        by_contra hover
        exact hno ⟨_, k', ht.isLive_iff.mpr ⟨o', rfl, hh⟩, by omega, by omega⟩)
    exact hnone o' k' (hk.trans (Nat.pow_le_pow_right (by decide) hle)) hh
  · rw [he] at hnull
    unfold HEADER_SIZE at hnull
    omega

/-- Freeing live pointers, one after the other. -/
theorem kfree_all {ps : List ℕ} (ht : Tree s t F) (hperm : ps.Perm s.live) :
    (ps.foldl (fun h ptr => Kmalloc.kfree ptr h) s.heap).pool_base = s.heap.pool_base ∧
    ∃ t' F', Tree ⟨ps.foldl (fun h ptr => Kmalloc.kfree ptr h) s.heap, []⟩ t' F' := by
  induction ps generalizing s t F with
  | nil =>
    obtain ⟨heap, live⟩ := s
    obtain rfl : live = [] := nil_perm.mp hperm
    exact ⟨rfl, t, F, ht⟩
  | cons ptr ps ih =>
    have hlive : ptr ∈ s.live := hperm.subset mem_cons_self
    obtain ⟨hbase, t', F', ht'⟩ := ht.kfree hlive
    have hperm' : ps.Perm (s.kfree ptr).live := (cons_perm_iff_perm_erase.mp hperm).2
    obtain ⟨hbase', hrest⟩ := ih ht' hperm'
    exact ⟨hbase'.trans hbase, hrest⟩

/-- **With nothing live the pool is one free block.** -/
theorem empty (ht : Tree s t F) (hlive : s.live = []) (k : ℕ) :
    F k = if k = 22 then [s.heap.pool_base] else [] := by
  have hnone : ∀ o k, ¬ Has 4 t 0 false o k := by
    intro o k hh
    have := (ht.live_iff _).mpr ⟨o, k, rfl, hh⟩
    rw [hlive] at this
    exact not_mem_nil this
  obtain rfl : t = .free := ht.rep.merged.eq_free hnone
  have hmem : ∀ a, a ∈ F k ↔ k = 22 ∧ a = s.heap.pool_base := by
    intro a
    rw [ht.rep.mem_iff]
    constructor
    · intro ⟨o, ha, _, ho, hk⟩
      exact ⟨hk, by omega⟩
    · intro ⟨hk, ha⟩
      exact ⟨0, ha, rfl, rfl, hk⟩
  by_cases hk : k = 22
  · rw [if_pos hk]
    refine perm_singleton.mp ((perm_ext_iff_of_nodup (ht.rep.nodup k)
      (nodup_singleton _)).mpr fun a => ?_)
    rw [hmem, mem_singleton]
    exact and_iff_right hk
  · rw [if_neg hk]
    exact eq_nil_iff_forall_not_mem.mpr fun a ha => hk ((hmem a).mp ha).1

end Tree

/-- **The allocator keeps its pool.** In every state of every run the
blocks partition the pool; a request of at least one byte fails only if
every run of bytes of the size and alignment it needs meets a live block;
and freeing the live pointers in any order leaves the one block of order
22. -/
theorem reachable_partition (h : Heap) (s : State)
    (hrun : Relation.ReflTransGen Step ⟨initKmalloc h, []⟩ s) :
    (∃ F, Partition s F) ∧
    (∀ size k o, 1 ≤ size → size ≤ 2 ^ 63 → (kmalloc size s.heap).1 = 0 →
      IsLeast {k | max 16 (size + 8) ≤ 2 ^ k} k → 2 ^ k ∣ o → o + 2 ^ k ≤ POOL_BYTES →
      ∃ a j, IsLive s a j ∧ a < s.heap.pool_base + o + 2 ^ k ∧ s.heap.pool_base + o < a + 2 ^ j) ∧
    ∀ ps : List ℕ, ps.Perm s.live →
      let h' := ps.foldl (fun h ptr => kfree ptr h) s.heap
      ∀ k, MIN_ORDER ≤ k → k ≤ MAX_ORDER →
        Chain h'.mem (h'.free_lists (orderIndex k))
          (if k = MAX_ORDER then [s.heap.pool_base] else []) := by
  obtain ⟨t, F, ht⟩ := Tree.run hrun
  refine ⟨⟨F, ht.partition⟩, ?_, ?_⟩
  · intro size k o hpos hsize hnull hleast hdvd hin
    exact ht.full hpos hsize hnull hleast.1 hdvd hin
  · intro ps hperm h' k hk1 hk2
    obtain ⟨hbase, t', F', ht'⟩ := ht.kfree_all hperm
    have hF := ht'.empty rfl k
    rw [hbase] at hF
    have hwalk := ht'.rep.chain k hk1 hk2
    rw [hF] at hwalk
    exact hwalk

theorem reachable_partition_hundred :
    let h : Heap := ⟨false, 0, 0, fun _ => 0, fun _ => 0, 4096, by decide⟩
    let s := (State.mk (initKmalloc h) []).kmalloc 100
    Relation.ReflTransGen Step ⟨initKmalloc h, []⟩ s ∧ s.live = [4104] ∧ ∃ F, Partition s F := by
  intro h s
  have hrun : Relation.ReflTransGen Step ⟨initKmalloc h, []⟩ s :=
    .single (.kmalloc _ 100 (by decide))
  exact ⟨hrun, by decide +kernel, (reachable_partition h s hrun).1⟩

end OsLab.Kmalloc
