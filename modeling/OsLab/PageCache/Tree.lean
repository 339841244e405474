import OsLab.PageCache.Model
/-!
# The cache's page table as a tree

A frame of the cache's group has a role, a level and a number: a page at
level `0` holds the block of that number, a table at level `l` covers
the numbers that agree with its own after `l` digits, and the directory
is at level `3`. `Tree` says that the group's frames are exactly the nodes
of one such tree and that each frame's back pointer is the entry that
maps it. Evictions and allocations are specified against it, whether or
not a frame's own record of its address is right.
-/

namespace OsLab.PageCache

open Prog Finset

variable {β : Type} {n : ℕ}

/-! ## The smallest programs -/

section Wp

variable {E : Halt → Prop} {s : Store (Mem β) β}

@[simp] theorem wp_getMem {Q : Mem β → Store (Mem β) β → Prop} : wp E getMem Q s ↔ Q s.mem s :=
  Iff.rfl

variable {Q : Unit → Store (Mem β) β → Prop} {t : ℕ} {b : β}

@[simp] theorem wp_modifyMem {f : Mem β → Mem β} :
    wp E (modifyMem f) Q s ↔ Q () { s with mem := f s.mem } := Iff.rfl

@[simp] theorem wp_asserts {c : Bool} {h : Halt} :
    wp E (asserts c h) Q s ↔ if c then Q () s else E h := by
  cases c <;> rfl

@[simp] theorem wp_getPte {Q : Pte → Store (Mem β) β → Prop} {a : ℕ × ℕ} :
    wp E (getPte a) Q s ↔ Q (s.mem.table a.1 a.2) s := Iff.rfl

@[simp] theorem wp_sdRead {Q : β → Store (Mem β) β → Prop} : wp E (sdRead t) Q s ↔ Q (s.disk t) s :=
  Iff.rfl

@[simp] theorem wp_sdWrite : wp E (sdWrite t b) Q s ↔ Q () { s with disk := upd s.disk t b } :=
  Iff.rfl

@[simp] theorem wp_sdWritePage : wp E (sdWritePage n t b) Q s ↔
      Q () ⟨{ s.mem with writes := (n, t) :: s.mem.writes }, upd s.disk t b⟩ := Iff.rfl

end Wp

/-! ## Roles -/

/-- An entry that maps frame `f` of level `l`. -/
def Maps (l f : ℕ) (p : Pte) : Prop :=
  p.present = true ∧ p.pfn = f ∧ p.leaf = decide (l = 0) ∧ (l = 0 → p.user = true)

/-- The entry of a page that was evicted. -/
def SwappedOut (p : Pte) : Prop := p.present = false ∧ p.soft = true

/-- The entry a table is mapped by. -/
def dirPte (f : ℕ) : Pte := ⟨true, false, false, false, false, false, f⟩

/-- The entry a page is mapped by when it is first loaded. -/
def pagePte (f : ℕ) : Pte := ⟨true, true, true, false, true, false, f⟩

variable {l : ℕ} {m' : Mem β}

theorem maps_dirPte {f : ℕ} (hl : l ≠ 0) : Maps l f (dirPte f) := by
  simp [Maps, dirPte, Pte.leaf, hl]

theorem maps_pagePte (f : ℕ) : Maps 0 f (pagePte f) := by simp [Maps, pagePte, Pte.leaf]

variable {f id : ℕ} {m : Mem β} {s : Store (Mem β) β} {role : ℕ → ℕ × ℕ} {E : Halt → Prop} {p : Pte}

theorem Maps.ne_empty (h : Maps l f p) : p ≠ Pte.empty := by
  rintro rfl
  cases h.1

/-- A block number of the file system's part of the card. -/
def FsPage (n : ℕ) : Prop := FS_START_SECTOR ≤ 8 * n ∧ 8 * n < FS_END_SECTOR

/-- **The group is a tree.** `role` gives each frame of the group its level and
number. -/
structure Tree (m : Mem β) (role : ℕ → ℕ × ℕ) : Prop where
  nodup : m.group.Nodup
  used : m.used = m.group.length
  started : ∀ f ∈ m.group, m.start f = true ∧ f < MAX_PAGE_NUM
  top_mem : m.cache_pgdir ∈ m.group
  top_role : role m.cache_pgdir = (3, 0)
  top_pte : (m.pages m.cache_pgdir).pte = none
  inj : ∀ f ∈ m.group, ∀ g ∈ m.group, role f = role g → f = g
  /-- Every role is on the way to a block of the file system. -/
  range : ∀ f ∈ m.group, role f = (3, 0) ∨
    (role f).1 < 3 ∧ ∃ n, FsPage n ∧ (role f).2 = n / 512 ^ (role f).1
  up : ∀ f ∈ m.group, (role f).1 < 3 →
    ∃ g ∈ m.group, role g = ((role f).1 + 1, (role f).2 / 512) ∧
      (m.pages f).pte = some (g, (role f).2 % 512) ∧
      Maps (role f).1 f (m.table g ((role f).2 % 512))
  down : ∀ g ∈ m.group, ∀ l q, role g = (l + 1, q) →
    ∀ k < 512, m.table g k = Pte.empty ∨
      (∃ f ∈ m.group, role f = (l, 512 * q + k) ∧ Maps l f (m.table g k)) ∨
      (l = 0 ∧ SwappedOut (m.table g k))

namespace Tree

variable {m : Mem β} {role : ℕ → ℕ × ℕ} {f : ℕ} (h : Tree m role)
include h

/-- Only the directory is at level `3`. -/
theorem eq_top (hf : f ∈ m.group) (h3 : ¬ (role f).1 < 3) : f = m.cache_pgdir := by
  rcases h.range f hf with hr | ⟨hr, -⟩
  · exact h.inj f hf _ h.top_mem (hr.trans h.top_role.symm)
  · exact absurd hr h3

/-- **The leaf test finds the pages.** -/
theorem isLeaf_iff (hf : f ∈ m.group) : isLeaf m f = true ↔ (role f).1 = 0 := by
  unfold isLeaf
  by_cases h3 : (role f).1 < 3
  · obtain ⟨g, -, -, hp, ht⟩ := h.up f hf h3
    rw [hp]
    simp only [ht.2.2.1, decide_eq_true_eq]
  · rw [h.eq_top hf h3, h.top_pte, h.top_role]
    simp

/-- A frame of the group is not a free one. -/
theorem ne_of_free (hid : m.start id = false) (hf : f ∈ m.group) : f ≠ id := by
  rintro rfl
  rw [(h.started f hf).1] at hid
  cases hid

/-- A page's number is that of a block of the file system. -/
theorem fsPage (hf : f ∈ m.group) (hr : role f = (0, n)) : FsPage n := by
  rcases h.range f hf with h3 | ⟨-, n', hn', hq⟩
  · rw [h3] at hr; cases hr
  · rw [hr] at hq
    simp only [pow_zero, Nat.div_one] at hq
    exact hq ▸ hn'

/-- A present entry is over the frame it maps. -/
theorem no_child {g k l q : ℕ} (hg : g ∈ m.group) (hrg : role g = (l + 1, q))
    (hk : k < 512) (hent : (m.table g k).present = false) (hl : l < 3) (hf : f ∈ m.group) :
    role f ≠ (l, 512 * q + k) := by
  intro hr
  obtain ⟨y, hy, hry, -, hmaps⟩ := h.up f hf (by rw [hr]; exact hl)
  rw [hr] at hry hmaps
  have hyg : y = g := by
    refine h.inj y hy g hg ?_
    rw [hry, hrg]
    have : (512 * q + k) / 512 = q := by omega
    simp only [this]
  have hkk : (512 * q + k) % 512 = k := by omega
  rw [hyg] at hmaps
  simp only [hkk] at hmaps
  rw [hmaps.1] at hent
  cases hent

end Tree

/-! ## The state of the cache -/

/-- The frames in use. -/
def busy (m : Mem β) : Finset ℕ := {f ∈ Finset.range MAX_PAGE_NUM | m.start f = true}

/-- What holds of the cache in any run: its frames are a tree, `K` frames
belong to other groups, and there is room for the group to fill up. -/
structure Base (K : ℕ) (m : Mem β) (role : ℕ → ℕ × ℕ) : Prop where
  tree : Tree m role
  aligned : ∀ f ∈ m.group, (role f).1 = 0 → (m.pages f).uva % 4096 = 0
  busy : (busy m).card = K + m.group.length
  room : K + m.capacity + 1 ≤ MAX_PAGE_NUM
  cur : m.cur_kernel_mem ≤ MAX_PAGE_NUM

theorem busy_start_true (hf : m.start f = false) (hlt : f < MAX_PAGE_NUM)
    (hm' : m'.start = upd m.start f true) : (busy m').card = (busy m).card + 1 := by
  have hins : busy m' = insert f (busy m) := by
    ext x
    simp only [busy, mem_filter, mem_range, mem_insert, hm', upd_apply]
    by_cases hx : x = f
    · simp [hx, hlt]
    · simp [hx]
  rw [hins, card_insert_of_notMem]
  simp [busy, hf]

theorem busy_start_false (hf : m.start f = true) (hlt : f < MAX_PAGE_NUM)
    (hm' : m'.start = upd m.start f false) : (busy m').card + 1 = (busy m).card := by
  have her : busy m' = (busy m).erase f := by
    ext x
    simp only [busy, mem_filter, mem_range, mem_erase, hm', upd_apply]
    by_cases hx : x = f
    · simp [hx]
    · simp [hx]
  have hmem : f ∈ busy m := by simp [busy, hf, hlt]
  rw [her]
  exact card_erase_add_one hmem

/-- What neither eviction nor allocation changes. -/
structure Static (m m' : Mem β) : Prop where
  pgdir : m'.cache_pgdir = m.cache_pgdir
  capacity : m'.capacity = m.capacity
  policy : m'.policy = m.policy
  evict : m'.evict = m.evict
  env : m'.env = m.env

theorem Static.refl (m : Mem β) : Static m m := ⟨rfl, rfl, rfl, rfl, rfl⟩

theorem Static.trans {m'' : Mem β} (h : Static m m') (h' : Static m' m'') : Static m m'' :=
  ⟨h'.pgdir.trans h.pgdir, h'.capacity.trans h.capacity, h'.policy.trans h.policy,
    h'.evict.trans h.evict, h'.env.trans h.env⟩

/-! ## Eviction -/

variable [PageWords β]

/-- The memory after the page in frame `f` was evicted, from entry `k` of
table `g`. The page goes where the frame's own record says. -/
def evictPage (m : Mem β) (f g k : ℕ) (group : List ℕ) : Mem β :=
  let loc := (m.pages f).uva / SECTOR_SIZE
  let p : Pte := { m.table g k with present := false, soft := true, pfn := loc }
  { m with
    group := group.erase f
    used := m.used - 1
    start := upd m.start f false
    table := upd m.table g (upd (m.table g) k p)
    data := upd m.data g (PageWords.ofWords (upd (m.table g) k p))
    pages := upd m.pages f { m.pages f with pte := none }
    writes := ((m.pages f).sector, loc) :: m.writes
    swap_counter_out := m.swap_counter_out + 1 }

/-- `swapout` took the page of block `n` in frame `f`. -/
structure Evicts (role : ℕ → ℕ × ℕ) (s t : Store (Mem β) β) (f n g : ℕ) (group : List ℕ) :
    Prop where
  pick : s.mem.evict.pick (isLeaf s.mem) s.mem.group = some (f, group)
  mem : f ∈ s.mem.group
  role_eq : role f = (0, n)
  table_mem : g ∈ s.mem.group
  table_role : role g = (1, n / 512)
  maps : Maps 0 f (s.mem.table g (n % 512))
  mem_eq : t.mem = evictPage s.mem f g (n % 512) group
  disk_eq : t.disk = upd s.disk ((s.mem.pages f).uva / SECTOR_SIZE) (s.mem.data f)

namespace Evicts

variable {role : ℕ → ℕ × ℕ} {s t : Store (Mem β) β} {f n g : ℕ} {group : List ℕ}

theorem static (he : Evicts role s t f n g group) : Static s.mem t.mem := by
  rw [he.mem_eq]
  exact ⟨rfl, rfl, rfl, rfl, rfl⟩

theorem perm (he : Evicts role s t f n g group) : group.Perm s.mem.group :=
  s.mem.evict.pick_perm he.pick

/-- The group loses the evicted frame. -/
theorem mem_iff (he : Evicts role s t f n g group) (ht : Tree s.mem role) (x : ℕ) :
    x ∈ t.mem.group ↔ x ≠ f ∧ x ∈ s.mem.group := by
  rw [he.mem_eq]
  change x ∈ group.erase f ↔ _
  rw [(he.perm.nodup_iff.mpr ht.nodup).mem_erase_iff, he.perm.mem_iff]

variable {x : ℕ} (he : Evicts role s t f n g group)
include he

theorem tables_mem (ht : Tree s.mem role) (hx : x ∈ s.mem.group) (hl : (role x).1 ≠ 0) :
    x ∈ t.mem.group := by
  refine (he.mem_iff ht x).mpr ⟨?_, hx⟩
  rintro rfl
  rw [he.role_eq] at hl
  exact hl rfl

/-- Only the entry of the page changes. -/
theorem entry_eq {y k : ℕ} (h : (y, k) ≠ (g, n % 512)) : t.mem.table y k = s.mem.table y k := by
  rw [he.mem_eq]
  change upd s.mem.table g _ y k = _
  by_cases hy : y = g
  · subst hy
    rw [upd_self, upd_of_ne]
    rintro rfl
    exact h rfl
  · rw [upd_of_ne hy]

theorem entry_self : SwappedOut (t.mem.table g (n % 512)) ∧
    (t.mem.table g (n % 512)).pfn = (s.mem.pages f).uva / SECTOR_SIZE := by
  rw [he.mem_eq]
  change SwappedOut (upd s.mem.table g _ g _) ∧ (upd s.mem.table g _ g _).pfn = _
  rw [upd_self, upd_self]
  exact ⟨⟨rfl, rfl⟩, rfl⟩

/-- An entry that maps no page is left alone. -/
theorem entry_eq_of {y k : ℕ}
    (h : (s.mem.table y k).present = false ∨ (s.mem.table y k).leaf = false) :
    t.mem.table y k = s.mem.table y k := by
  refine he.entry_eq fun heq => ?_
  obtain ⟨rfl, rfl⟩ := Prod.mk.inj heq
  obtain ⟨hp, -, hl, -⟩ := he.maps
  rcases h with h | h
  · rw [hp] at h; cases h
  · rw [hl] at h; cases h

theorem pages_eq (hx : x ≠ f) : t.mem.pages x = s.mem.pages x := by
  rw [he.mem_eq]
  exact upd_of_ne hx

theorem used_eq (ht : Tree s.mem role) : t.mem.used + 1 = s.mem.used := by
  have hpos : 0 < s.mem.group.length := List.length_pos_of_mem he.mem
  have := ht.used
  rw [he.mem_eq]
  change s.mem.used - 1 + 1 = _
  omega

/-- **Evicting a page keeps the tree.** -/
theorem tree (h : Tree s.mem role) : Tree t.mem role := by
  have hmem := he.mem_iff h
  have hr := he.role_eq
  have htop : s.mem.cache_pgdir ≠ f := by rintro rfl; rw [h.top_role] at hr; cases hr
  -- the entry of another frame is not the one that changes
  have hcell : ∀ x ∈ s.mem.group, x ≠ f → ∀ y ∈ s.mem.group,
      role y = ((role x).1 + 1, (role x).2 / 512) → (y, (role x).2 % 512) ≠ (g, n % 512) := by
    intro x hx hxf y hym hy heq
    obtain ⟨rfl, hk⟩ := Prod.mk.inj heq
    rw [he.table_role] at hy
    obtain ⟨h1, h2⟩ := Prod.mk.inj hy
    apply hxf
    refine h.inj x hx f he.mem (Prod.ext ?_ ?_)
    · rw [hr]; simp only; omega
    · rw [hr]; simp only; omega
  refine
    { nodup := ?_, used := ?_, started := ?_, top_mem := ?_, top_role := ?_, top_pte := ?_,
      inj := ?_, range := ?_, up := ?_, down := ?_ }
  · rw [he.mem_eq]
    exact (he.perm.nodup_iff.mpr h.nodup).erase f
  · rw [he.mem_eq]
    change s.mem.used - 1 = (group.erase f).length
    rw [List.length_erase_of_mem (he.perm.mem_iff.mpr he.mem), he.perm.length_eq, h.used]
  · intro x hx
    obtain ⟨hxf, hxm⟩ := (hmem x).mp hx
    refine ⟨?_, (h.started x hxm).2⟩
    rw [he.mem_eq]
    change upd s.mem.start f false x = true
    rw [upd_of_ne hxf]
    exact (h.started x hxm).1
  · rw [he.static.pgdir]
    exact (hmem _).mpr ⟨htop, h.top_mem⟩
  · rw [he.static.pgdir]
    exact h.top_role
  · rw [he.static.pgdir, he.pages_eq htop]
    exact h.top_pte
  · intro x hx y hy
    exact h.inj x ((hmem x).mp hx).2 y ((hmem y).mp hy).2
  · intro x hx
    exact h.range x ((hmem x).mp hx).2
  · intro x hx hl
    obtain ⟨hxf, hxm⟩ := (hmem x).mp hx
    obtain ⟨y, hym, hry, hpte, hmaps⟩ := h.up x hxm hl
    refine ⟨y, he.tables_mem h hym (by rw [hry]; simp), hry, ?_, ?_⟩
    · rw [he.pages_eq hxf]
      exact hpte
    · rw [he.entry_eq (hcell x hxm hxf y hym hry)]
      exact hmaps
  · intro y hy l q hry k hk
    obtain ⟨hyf, hym⟩ := (hmem y).mp hy
    by_cases hyk : (y, k) = (g, n % 512)
    · obtain ⟨rfl, rfl⟩ := Prod.mk.inj hyk
      have hry' := he.table_role
      rw [hry] at hry'
      refine .inr (.inr ⟨?_, he.entry_self.1⟩)
      have := (Prod.mk.inj hry').1
      omega
    · rw [he.entry_eq hyk]
      rcases h.down y hym l q hry k hk with hent | ⟨x, hx, hrx, hent⟩ | hent
      · exact .inl hent
      · refine .inr (.inl ⟨x, (hmem x).mpr ⟨?_, hx⟩, hrx, hent⟩)
        rintro rfl
        rw [hr] at hrx
        obtain ⟨rfl, hn⟩ := Prod.mk.inj hrx
        apply hyk
        have hyg : y = g := by
          refine h.inj y hym g he.table_mem ?_
          rw [hry, he.table_role]
          have : q = n / 512 := by omega
          rw [this]
        rw [hyg]
        have : k = n % 512 := by omega
        rw [this]
      · exact .inr (.inr hent)

theorem base {K : ℕ} (h : Base K s.mem role) : Base K t.mem role := by
  have ht := he.tree h.tree
  refine ⟨ht, ?_, ?_, ?_, ?_⟩
  · intro x hx h0
    obtain ⟨hxf, hxm⟩ := (he.mem_iff h.tree x).mp hx
    rw [he.pages_eq hxf]
    exact h.aligned x hxm h0
  · have hb : (PageCache.busy t.mem).card + 1 = _ :=
      busy_start_false (h.tree.started f he.mem).1 (h.tree.started f he.mem).2 (by
        rw [he.mem_eq]; rfl)
    have := h.busy
    have := he.used_eq h.tree
    have := h.tree.used
    have := ht.used
    omega
  · rw [he.static.capacity]
    exact h.room
  · rw [he.mem_eq]
    exact h.cur

end Evicts

variable {K fuel cur : ℕ} {start : ℕ → Bool}

/-- **`swapout` evicts a page**, unless the group has none. -/
theorem wp_swapout (h : Base K s.mem role)
    (hE : (∀ f ∈ s.mem.group, (role f).1 ≠ 0) → E .reclaimFailed) :
    wp E swapout (fun _ t => ∃ f n g group, Evicts role s t f n g group) s := by
  unfold swapout
  simp only [wp_bind, wp_getMem]
  cases hpick : s.mem.evict.pick (isLeaf s.mem) s.mem.group with
  | none =>
    refine hE fun f hf h0 => ?_
    have := s.mem.evict.pick_none hpick f hf
    rw [(h.tree.isLeaf_iff hf).mpr h0] at this
    cases this
  | some r =>
    obtain ⟨f, group⟩ := r
    obtain ⟨hf, hleaf⟩ := s.mem.evict.pick_leaf hpick
    have h0 := (h.tree.isLeaf_iff hf).mp hleaf
    obtain ⟨g, hg, hrg, hpte, hmaps⟩ := h.tree.up f hf (by omega)
    obtain ⟨n, hr⟩ : ∃ n, role f = (0, n) := ⟨(role f).2, Prod.ext h0 rfl⟩
    rw [hr] at hrg hpte hmaps
    have hal : (s.mem.pages f).uva % BLOCK_SIZE = 0 := h.aligned f hf h0
    simp only [wp_bind, wp_modifyMem, fsCacheSwapAlloc, hal, wp_asserts, decide_true, if_true,
      wp_pure, wp_sdWritePage, hpte, setPte, pageframeDestruct, modifyPage, freePageframe,
      wp_getMem, (h.tree.started f hf).1]
    exact ⟨f, n, g, group, hpick, hf, hr, hg, hrg, hmaps, rfl, rfl⟩

/-! ## Making room -/

/-- Some pages were evicted, one after another. -/
inductive Evicted (role : ℕ → ℕ × ℕ) : Store (Mem β) β → Store (Mem β) β → Prop
  | refl (s : Store (Mem β) β) : Evicted role s s
  | step {s t u : Store (Mem β) β} {f n g : ℕ} {group : List ℕ} :
      Evicts role s t f n g group → Evicted role t u → Evicted role s u

namespace Evicted

variable {role : ℕ → ℕ × ℕ} {s u : Store (Mem β) β} {K : ℕ} (h : Evicted role s u)
include h

/-- What every eviction keeps, evictions keep. -/
theorem induct {J : Store (Mem β) β → Prop} (hb : Base K s.mem role)
    (hJ : ∀ s t f n g group, Base K s.mem role → Evicts role s t f n g group → J s → J t)
    (hs : J s) : J u := by
  induction h with
  | refl s => exact hs
  | step he _ ih => exact ih (he.base hb) (hJ _ _ _ _ _ _ hb he hs)

theorem base (hb : Base K s.mem role) : Base K u.mem role := by
  induction h with
  | refl s => exact hb
  | step he _ ih => exact ih (he.base hb)

theorem static : Static s.mem u.mem := by
  induction h with
  | refl s => exact .refl _
  | step he _ ih => exact he.static.trans ih

theorem tables_mem (hb : Base K s.mem role) {x : ℕ} (hx : x ∈ s.mem.group) (hl : (role x).1 ≠ 0) :
    x ∈ u.mem.group :=
  h.induct (J := fun t => x ∈ t.mem.group) hb
    (fun _ _ _ _ _ _ hb he hx => he.tables_mem hb.tree hx hl) hx

theorem entry_eq (hb : Base K s.mem role) {y k : ℕ}
    (hp : s.mem.table y k = p) (hno : p.present = false ∨ p.leaf = false) : u.mem.table y k = p :=
  h.induct (J := fun t => t.mem.table y k = p) hb
    (fun _ _ _ _ _ _ _ he ht => (he.entry_eq_of (by rw [ht]; exact hno)).trans ht) hp

end Evicted

/-- The tables of the group. -/
def tables (m : Mem β) (role : ℕ → ℕ × ℕ) : List ℕ :=
  m.group.filter fun f => decide ((role f).1 ≠ 0)

omit [PageWords β] in
/-- The tables of the file system's part of the card are at most `258`. -/
theorem Tree.length_tables_le (h : Tree m role) : (tables m role).length ≤ 258 := by
  classical
  let roles : Finset (ℕ × ℕ) := {(3, 0), (2, 0)} ∪ (Finset.range 256).image fun j => (1, 256 + j)
  have hroles : roles.card ≤ 258 := by
    refine (card_union_le _ _).trans ?_
    have h1 : ({(3, 0), (2, 0)} : Finset (ℕ × ℕ)).card ≤ 2 := card_le_two
    have h2 : ((Finset.range 256).image fun j => (1, 256 + j)).card ≤ 256 :=
      card_image_le.trans (card_range 256).le
    omega
  have htables : ∀ f ∈ tables m role, f ∈ m.group ∧ (role f).1 ≠ 0 := by
    intro f hf
    simpa [tables] using hf
  have hmaps : ∀ f ∈ (tables m role).toFinset, role f ∈ roles := by
    intro f hf
    obtain ⟨hf, hl⟩ := htables f (List.mem_toFinset.mp hf)
    simp only [roles, mem_union, mem_insert, mem_singleton, mem_image,
      mem_range]
    rcases h.range f hf with h3 | ⟨h3, n, ⟨hn1, hn2⟩, hq⟩
    · exact .inl (.inl h3)
    · unfold FS_START_SECTOR at hn1
      unfold FS_END_SECTOR at hn2
      obtain h1 | h2 : (role f).1 = 1 ∨ (role f).1 = 2 := by omega
      · rw [h1, pow_one] at hq
        exact .inr ⟨(role f).2 - 256, by omega, Prod.ext h1.symm (by simp only; omega)⟩
      · rw [h2] at hq
        exact .inl (.inr (Prod.ext h2 (by simp only; omega)))
  have hinj : Set.InjOn role ((tables m role).toFinset : Set ℕ) := by
    intro f hf g hg he
    exact h.inj f (htables f (List.mem_toFinset.mp hf)).1 g
      (htables g (List.mem_toFinset.mp hg)).1 he
  have hcard := card_le_card_of_injOn role hmaps hinj
  have hnodup : (tables m role).Nodup := h.nodup.filter _
  rw [List.toFinset_card_of_nodup hnodup] at hcard
  omega

omit [PageWords β] in
/-- A group without pages is small. -/
theorem Tree.length_le_of_tables (h : Tree m role) (ht : ∀ f ∈ m.group, (role f).1 ≠ 0) :
    m.group.length ≤ 258 := by
  have hall : tables m role = m.group := List.filter_eq_self.mpr fun f hf => by simpa using ht f hf
  rw [← hall]
  exact h.length_tables_le

theorem wp_shrinkLoop (h : Base K s.mem role) (hfuel : s.mem.used < fuel)
    (hE : s.mem.capacity ≤ 258 → E .reclaimFailed) :
    wp E (shrinkLoop 1 fuel) (fun _ t => Evicted role s t ∧ t.mem.used < t.mem.capacity ∧
      (s.mem.used < s.mem.capacity → t = s)) s := by
  induction fuel generalizing s with
  | zero => omega
  | succ fuel ih =>
    unfold shrinkLoop
    simp only [wp_bind, wp_getMem]
    by_cases hc : s.mem.capacity < s.mem.used + 1
    · rw [if_pos hc, wp_bind]
      have hno : (∀ f ∈ s.mem.group, (role f).1 ≠ 0) → E .reclaimFailed := by
        intro ht
        have := h.tree.length_le_of_tables ht
        have := h.tree.used
        exact hE (by omega)
      refine wp_mono (wp_swapout h hno) ?_
      rintro - t ⟨f, n, g, group, he⟩
      have hused := he.used_eq h.tree
      refine wp_mono (ih (he.base h) (by omega) (by rw [he.static.capacity]; exact hE)) ?_
      rintro - u ⟨hev, hlt, -⟩
      exact ⟨.step he hev, hlt, fun hlt' => by omega⟩
    · rw [if_neg hc]
      exact ⟨.refl s, by omega, fun _ => rfl⟩

/-- **`shrink_pagegroup` leaves room for a frame**, and does nothing when
there is room. -/
theorem wp_shrinkPagegroup (h : Base K s.mem role) (hE : s.mem.capacity ≤ 258 → E .reclaimFailed) :
    wp E (shrinkPagegroup 1) (fun _ t => Evicted role s t ∧ t.mem.used < t.mem.capacity ∧
      (s.mem.used < s.mem.capacity → t = s)) s := by
  unfold shrinkPagegroup
  simp only [wp_bind, wp_getMem]
  exact wp_shrinkLoop h (by omega) hE

/-! ## Allocation -/

theorem nextFit_free (h : nextFit start fuel cur = some id) :
    id < MAX_PAGE_NUM ∧ start id = false := by
  induction fuel generalizing cur with
  | zero => cases h
  | succ fuel ih =>
    unfold nextFit at h
    split at h
    · next hc => cases h; exact hc
    · exact ih h

/-- Ahead of the cursor, a search that fails met taken frames only. -/
theorem taken_of_nextFit_none (h : nextFit start fuel cur = none)
    (hf : f < MAX_PAGE_NUM) (hcur : cur ≤ f) (hfuel : f < cur + fuel) : start f = true := by
  induction fuel generalizing cur with
  | zero => omega
  | succ fuel ih =>
    unfold nextFit at h
    split at h
    · cases h
    · next hc =>
      by_cases hfc : f = cur
      · subst hfc
        by_contra hs
        exact hc ⟨hf, by simpa using hs⟩
      · rw [if_neg (by omega)] at h
        exact ih h (by omega) (by omega)

/-- And behind it, once it has wrapped. -/
theorem taken_of_nextFit_none_wrap
    (h : nextFit start fuel cur = none) (hf : f < MAX_PAGE_NUM) (hcur : cur ≤ MAX_PAGE_NUM)
    (hfuel : f + max 1 (MAX_PAGE_NUM - cur) < fuel) : start f = true := by
  induction fuel generalizing cur with
  | zero => omega
  | succ fuel ih =>
    unfold nextFit at h
    split at h
    · cases h
    · by_cases hw : MAX_PAGE_NUM ≤ cur + 1
      · rw [if_pos hw] at h
        exact taken_of_nextFit_none h hf (Nat.zero_le _) (by omega)
      · rw [if_neg hw] at h
        exact ih h (by omega) (by omega)

omit [PageWords β] in
/-- **A search succeeds while two frames are free.** The last frame alone can
be missed, when the cursor starts past the end. -/
theorem exists_nextFit (hcur : m.cur_kernel_mem ≤ MAX_PAGE_NUM)
    (hb : (busy m).card + 2 ≤ MAX_PAGE_NUM) :
    ∃ id, nextFit m.start MAX_PAGE_NUM m.cur_kernel_mem = some id := by
  cases hn : nextFit m.start MAX_PAGE_NUM m.cur_kernel_mem with
  | some id => exact ⟨id, rfl⟩
  | none =>
    exfalso
    have hall : Finset.range (MAX_PAGE_NUM - 1) ⊆ busy m := by
      intro f hf
      have hf := mem_range.mp hf
      simp only [busy, mem_filter, mem_range]
      refine ⟨by omega, ?_⟩
      by_cases hle : m.cur_kernel_mem ≤ f
      · exact taken_of_nextFit_none hn (by omega) hle (by omega)
      · exact taken_of_nextFit_none_wrap hn (by omega) hcur (by omega)
    have := card_le_card hall
    rw [card_range] at this
    omega

/-- The memory after frame `id` was given to the group. -/
def takeFrame (m : Mem β) (id : ℕ) : Mem β :=
  { m with
    cur_kernel_mem := id + 1
    group := id :: m.group
    used := m.used + 1
    start := upd m.start id true }

/-- **`alloc_pageframe` gives the next free frame**, after evictions if the
group is full. -/
theorem wp_allocPageframe (h : Base K s.mem role) (hE : s.mem.capacity ≤ 258 → E .reclaimFailed) :
    wp E allocPageframe (fun id t => ∃ u, Evicted role s u ∧ u.mem.used < u.mem.capacity ∧
      nextFit u.mem.start MAX_PAGE_NUM u.mem.cur_kernel_mem = some id ∧
      t = ⟨takeFrame u.mem id, u.disk⟩) s := by
  unfold allocPageframe
  simp only [wp_bind]
  refine wp_mono (wp_shrinkPagegroup h hE) ?_
  rintro - u ⟨hev, hlt, -⟩
  have hu := hev.base h
  simp only [wp_getMem]
  have hb : (busy u.mem).card + 2 ≤ MAX_PAGE_NUM := by
    have := hu.busy
    have := hu.tree.used
    have := hu.room
    omega
  obtain ⟨id, hid⟩ := exists_nextFit hu.cur hb
  simp only [hid, wp_bind, wp_modifyMem, wp_pure]
  -- the room made above is still there when the frame is attached
  have hu' : Base K { u.mem with cur_kernel_mem := id + 1 } role :=
    { hu with
      tree := { hu.tree with }, cur := (nextFit_free hid).1 }
  refine wp_mono (wp_shrinkPagegroup (s := ⟨{ u.mem with cur_kernel_mem := id + 1 }, u.disk⟩) hu'
    (by rw [← hev.static.capacity] at hE; exact hE)) ?_
  rintro - w ⟨-, -, hw⟩
  rw [hw hlt]
  exact ⟨u, hev, hlt, hid, rfl⟩

end OsLab.PageCache
