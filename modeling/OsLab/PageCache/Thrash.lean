import OsLab.PageCache.Runs
/-!
# Eviction, first in, first out

Under first in, first out the pages of the group are a queue: a page enters
at the head and leaves at the tail, and tables come and go without moving
a page. A page is therefore evicted after as many frames have been taken
as the group can have (`Doomed`). A long enough run of reads evicts a
block, swaps it in and evicts it again.
-/

namespace OsLab.PageCache

open Prog List

variable {β : Type}

/-! ## The queue of pages -/

/-- The pages of the group, the latest first. -/
def queue (m : Mem β) (role : ℕ → ℕ × ℕ) : List ℕ := m.group.filter fun f => decide ((role f).1 = 0)

variable {f n id q : ℕ} {group : List ℕ} {m' : Mem β} {u : Store (Mem β) β}

/-- The policy moves the frame it takes to the end, and no other leaf. -/
theorem fifoEvict_eq {leaf : ℕ → Bool} {l l' : List ℕ} (h : fifoEvict leaf l = some (f, l')) :
    ∃ front, l' = front ++ [f] ∧ l.filter leaf = front.filter leaf ++ [f] := by
  unfold fifoEvict at h
  split at h
  · cases h
  · next g rest hd =>
    cases h
    have hleaf : leaf f = true := by
      have := dropWhile_get_zero_not (fun f => !leaf f) l.reverse (by simp [hd])
      simpa [hd] using this
    have hnone : (l.reverse.takeWhile fun f => !leaf f).filter leaf = [] := by
      refine filter_eq_nil_iff.mpr fun x hx => ?_
      simpa using mem_takeWhile_imp hx
    refine ⟨(l.reverse.takeWhile fun f => !leaf f).reverse ++ rest.reverse, by simp, ?_⟩
    have hl : l = ((l.reverse.takeWhile fun f => !leaf f) ++ f :: rest).reverse := by
      rw [← hd, takeWhile_append_dropWhile, reverse_reverse]
    calc l.filter leaf
        = (((l.reverse.takeWhile fun f => !leaf f) ++ f :: rest).reverse).filter leaf := by rw [← hl]
      _ = (rest.reverse.filter leaf) ++ [f] := by simp [filter_append, filter_reverse, hnone, hleaf]
      _ = _ := by simp [filter_append, filter_reverse, hnone]

variable {K : ℕ} {s t : Store (Mem β) β} {role : ℕ → ℕ × ℕ} {g N c : ℕ}

/-- **An eviction takes the last page.** -/
theorem Evicts.queue_eq [PageWords β] (he : Evicts role s t f n g group) (h : Tree s.mem role)
    (hfifo : s.mem.evict = .fifo) :
    queue s.mem role = queue t.mem role ++ [f] := by
  have hpick := he.pick
  rw [hfifo] at hpick
  obtain ⟨front, rfl, hfilter⟩ := fifoEvict_eq hpick
  have hnodup := he.perm.nodup_iff.mpr h.nodup
  have hnot : f ∉ front := fun hf => by
    have := disjoint_of_nodup_append hnodup hf
    simp at this
  have hgroup : t.mem.group = front := by
    rw [he.mem_eq]
    change (front ++ [f]).erase f = front
    rw [erase_append_right _ hnot, erase_cons_head, append_nil]
  have hcongr : ∀ x ∈ s.mem.group, isLeaf s.mem x = decide ((role x).1 = 0) := fun x hx => by
    rw [Bool.eq_iff_iff, h.isLeaf_iff hx, decide_eq_true_iff]
  have hfront : ∀ x ∈ front, x ∈ s.mem.group :=
    fun x hx => he.perm.mem_iff.mp (mem_append_left _ hx)
  unfold queue
  rw [← filter_congr hcongr, hfilter, hgroup,
    filter_congr fun x hx => hcongr x (hfront x hx)]

/-- A page enters at the head. -/
theorem Adds.queue_eq {m : Mem β} {l k : ℕ} (ha : Adds role m m' id g l q k)
    (h : Tree m role) : queue m' (upd role id (l, 512 * q + k)) =
      if l = 0 then id :: queue m role else queue m role := by
  have htail : m.group.filter (fun f => decide ((upd role id (l, 512 * q + k) f).1 = 0)) =
      queue m role :=
    filter_congr fun f hf => by rw [ha.role_eq h hf]
  unfold queue at htail ⊢
  rw [ha.group, filter_cons, htail, upd_self]
  simp

/-! ## A page on its way out -/

/-- Block `n₀` was evicted, to the sector of address `a`. -/
structure Gone (n₀ a : ℕ) (s : Store (Mem β) β) (role : ℕ → ℕ × ℕ) : Prop where
  swapped : ∃ low ∈ s.mem.group, role low = (1, n₀ / 512) ∧
    SwappedOut (s.mem.table low (n₀ % 512)) ∧
    (s.mem.table low (n₀ % 512)).pfn = a / SECTOR_SIZE
  written : (8 * n₀, a / SECTOR_SIZE) ∈ s.mem.writes

/-- Block `n₀` is in frame `f₀`, which goes when `p` more frames are
taken, to the sector of address `a`. -/
structure Waits (f₀ n₀ a p : ℕ) (s : Store (Mem β) β) (role : ℕ → ℕ × ℕ) : Prop where
  role_eq : role f₀ = (0, n₀)
  uva : (s.mem.pages f₀).uva = a
  sector : (s.mem.pages f₀).sector = 8 * n₀
  queue : ∃ front behind, queue s.mem role = front ++ f₀ :: behind ∧
    behind.length + (s.mem.capacity - s.mem.used) + 1 ≤ p

/-- The group is first in, first out, and block `n₀` is gone or soon
will be. -/
def Doomed (f₀ n₀ a p : ℕ) (s : Store (Mem β) β) (role : ℕ → ℕ × ℕ) : Prop :=
  s.mem.evict = .fifo ∧ (Gone n₀ a s role ∨ Waits f₀ n₀ a p s role)

variable {f₀ n₀ a p low N' : ℕ}

theorem Waits.mem (h : Waits f₀ n₀ a p s role) : f₀ ∈ s.mem.group := by
  obtain ⟨front, behind, hq, -⟩ := h.queue
  have : f₀ ∈ PageCache.queue s.mem role := by rw [hq]; simp
  exact mem_of_mem_filter this

theorem Doomed.gone (h : Doomed f₀ n₀ a 0 s role) : Gone n₀ a s role := by
  rcases h.2 with hg | hw
  · exact hg
  · obtain ⟨front, behind, -, hp⟩ := hw.queue
    omega

theorem Gone.evict [PageWords β] (h : Gone n₀ a s role) (ht : Tree s.mem role)
    (he : Evicts role s t f n g group) : Gone n₀ a t role := by
  obtain ⟨low, hlow, hr, hso⟩ := h.swapped
  refine ⟨⟨low, he.tables_mem ht hlow (by rw [hr]; simp), hr, ?_⟩, ?_⟩
  · rw [he.entry_eq_of (.inl hso.1.1)]
    exact hso
  · rw [he.mem_eq]
    exact mem_cons_of_mem _ h.written

/-- **An eviction takes the page or brings its turn nearer.** -/
theorem Doomed.evict [PageWords β] (h : Doomed f₀ n₀ a p s role) (ht : Tree s.mem role)
    (he : Evicts role s t f n g group) : Doomed f₀ n₀ a p t role := by
  refine ⟨he.static.evict.trans h.1, ?_⟩
  rcases h.2 with hg | hw
  · exact .inl (hg.evict ht he)
  · obtain ⟨front, behind, hq, hp⟩ := hw.queue
    have hqt := he.queue_eq ht h.1
    rw [hq] at hqt
    have hused := he.used_eq ht
    rcases eq_nil_or_concat behind with rfl | ⟨behind, x, rfl⟩
    · -- the page was the last
      obtain ⟨-, hf⟩ := append_inj' hqt rfl
      obtain rfl : f₀ = f := by simpa using hf
      have hn := he.role_eq
      rw [hw.role_eq] at hn
      obtain rfl := (Prod.mk.inj hn).2
      refine .inl ⟨⟨g, he.tables_mem ht he.table_mem (by rw [he.table_role]; simp), he.table_role,
        he.entry_self.1, by rw [he.entry_self.2, hw.uva]⟩, ?_⟩
      rw [he.mem_eq]
      refine mem_cons.mpr (.inl ?_)
      rw [hw.sector, hw.uva]
    · rw [concat_eq_append, ← cons_append, ← append_assoc] at hqt
      obtain ⟨hqt, -⟩ := append_inj' hqt rfl
      have hmem : f₀ ∈ t.mem.group := by
        have : f₀ ∈ queue t.mem role := by rw [← hqt]; simp
        exact mem_of_mem_filter this
      have hne : f₀ ≠ f := ((he.mem_iff ht f₀).mp hmem).1
      refine .inr ⟨hw.role_eq, ?_, ?_, front, behind, hqt.symm, ?_⟩
      · rw [he.pages_eq hne]; exact hw.uva
      · rw [he.pages_eq hne]; exact hw.sector
      · rw [he.static.capacity]
        rw [length_concat] at hp
        omega

/-- **A frame taken brings the page's turn nearer.** -/
theorem Doomed.add (h : Doomed f₀ n₀ a p s role) (ht : Tree s.mem role)
    {l k : ℕ} (ha : Adds role s.mem t.mem id g l q k) (hn : l = 0 → 512 * q + k ≠ n₀) :
    Doomed f₀ n₀ a (p - 1) t (upd role id (l, 512 * q + k)) := by
  refine ⟨ha.static.evict.trans h.1, ?_⟩
  rcases h.2 with hg | hw
  · obtain ⟨low, hlow, hr, hso⟩ := hg.swapped
    refine .inl ⟨⟨low, (ha.mem_iff low).mpr (.inr hlow), ?_, ?_⟩, ?_⟩
    · rw [ha.role_eq ht hlow]; exact hr
    · rw [ha.entries low hlow]
      · exact hso
      · intro hc
        obtain ⟨rfl, rfl⟩ := Prod.mk.inj hc
        have hrg := ha.table_role
        rw [hr] at hrg
        obtain ⟨h1, rfl⟩ := Prod.mk.inj hrg
        exact hn (by omega) (Nat.div_add_mod _ _)
    · rw [ha.writes]
      exact hg.written
  · have hne : f₀ ≠ id := ha.ne ht hw.mem
    obtain ⟨front, behind, hq, hp⟩ := hw.queue
    refine .inr ⟨?_, ?_, ?_, if l = 0 then id :: front else front, behind, ?_, ?_⟩
    · rw [upd_of_ne hne]; exact hw.role_eq
    · rw [ha.pages f₀ hne]; exact hw.uva
    · rw [ha.pages f₀ hne]; exact hw.sector
    · rw [ha.queue_eq ht, hq]
      split <;> rfl
    · have := ha.room
      rw [ha.static.capacity, ha.used]
      omega

theorem Doomed.mono (h : Doomed f₀ n₀ a p s role) {p' : ℕ} (hp : p ≤ p') :
    Doomed f₀ n₀ a p' s role := by
  refine ⟨h.1, h.2.imp id fun hw => ⟨hw.role_eq, hw.uva, hw.sector, ?_⟩⟩
  obtain ⟨front, behind, hq, hle⟩ := hw.queue
  exact ⟨front, behind, hq, by omega⟩

/-- A page just loaded goes after a group's worth of frames. -/
theorem Loads.doomed (hl : Loads role u t n id low)
    (ht : Tree u.mem role) (hfifo : u.mem.evict = .fifo) (ha : (t.mem.pages id).uva = a) :
    Doomed id n a u.mem.capacity t (upd role id (0, n)) := by
  have hadds := hl.toAdds
  have hq := hadds.queue_eq ht
  rw [Nat.div_add_mod, if_pos rfl] at hq
  refine ⟨hl.static.evict.trans hfifo, .inr ⟨upd_self, ha, hl.sector, [], _, hq, ?_⟩⟩
  have hlen : (queue u.mem role).length ≤ u.mem.group.length := length_filter_le _ _
  have := ht.used
  have := hl.room
  rw [hl.static.capacity, hl.used]
  omega

/-! ## Blocks and frames not used yet -/

/-- No block from number `N` on was touched. -/
structure Untouched (N : ℕ) (s : Store (Mem β) β) (role : ℕ → ℕ × ℕ) : Prop where
  page : ∀ f ∈ s.mem.group, ∀ n, role f = (0, n) → n < N
  entry : ∀ g ∈ s.mem.group, ∀ q, role g = (1, q) → ∀ k < 512, N ≤ 512 * q + k →
    s.mem.table g k = Pte.empty

theorem Untouched.evict [PageWords β] (h : Untouched N s role) (ht : Tree s.mem role)
    (he : Evicts role s t f n g group) : Untouched N t role := by
  have hmem := he.mem_iff ht
  refine ⟨fun x hx => h.page x ((hmem x).mp hx).2, fun y hy q hr k hk hN => ?_⟩
  rw [he.entry_eq_of]
  · exact h.entry y ((hmem y).mp hy).2 q hr k hk hN
  · rw [h.entry y ((hmem y).mp hy).2 q hr k hk hN]
    exact .inl rfl

theorem Untouched.add (h : Untouched N s role) (ht : Tree s.mem role)
    {l k : ℕ} (ha : Adds role s.mem t.mem id g l q k) (hN : l = 0 → 512 * q + k < N')
    (hle : N ≤ N') : Untouched N' t (upd role id (l, 512 * q + k)) := by
  refine ⟨?_, ?_⟩
  · intro f hf n hr
    rcases (ha.mem_iff f).mp hf with rfl | hf
    · rw [upd_self] at hr
      obtain ⟨h0, rfl⟩ := Prod.mk.inj hr
      exact hN h0
    · rw [ha.role_eq ht hf] at hr
      exact (h.page f hf n hr).trans_le hle
  · intro y hy q' hr j hj hN'
    rcases (ha.mem_iff y).mp hy with rfl | hy
    · rw [upd_self] at hr
      have := (Prod.mk.inj hr).1
      exact ha.clear (by omega) j
    · rw [ha.role_eq ht hy] at hr
      rw [ha.entries y hy]
      · exact h.entry y hy q' hr j hj (by omega)
      · intro hc
        obtain ⟨rfl, rfl⟩ := Prod.mk.inj hc
        have hrg := ha.table_role
        rw [hr] at hrg
        obtain ⟨h1, rfl⟩ := Prod.mk.inj hrg
        have := hN (by omega)
        omega

theorem Untouched.not_swappedOut (h : Untouched N s role) (ht : Tree s.mem role)
    (hn : FsPage n) (hN : N ≤ n) : ¬ SwappedOut (lookupPte s.mem (4096 * n)) := by
  intro hso
  rcases ht.lookupPte_cases hn with he | ⟨low, hlow, hr, he⟩
  · rw [he] at hso
    cases hso.2
  · rw [he, h.entry low hlow _ hr _ (Nat.mod_lt _ (by omega))
      (by rw [Nat.div_add_mod]; exact hN)] at hso
    cases hso.2

/-- The frames from the cursor on were never used, and the cursor is at
most `q` frames further than there are tables. -/
structure Ahead (q : ℕ) (s : Store (Mem β) β) (role : ℕ → ℕ × ℕ) : Prop where
  fresh : ∀ f, s.mem.cur_kernel_mem ≤ f → s.mem.start f = false ∧ (s.mem.pages f).uva = 0
  cur : s.mem.cur_kernel_mem ≤ (tables s.mem role).length + q
  room : q + 258 < MAX_PAGE_NUM

/-- The next frame is the one at the cursor. -/
theorem Ahead.eq_cur (h : Ahead q s role) (ht : Tree s.mem role)
    (hfit : nextFit s.mem.start MAX_PAGE_NUM s.mem.cur_kernel_mem = some id) :
    id = s.mem.cur_kernel_mem := by
  have hcur := h.cur
  have hroom := h.room
  have := ht.length_tables_le
  have hlt : s.mem.cur_kernel_mem < MAX_PAGE_NUM := by omega
  have hunfold : nextFit s.mem.start MAX_PAGE_NUM s.mem.cur_kernel_mem =
      some s.mem.cur_kernel_mem := if_pos ⟨hlt, (h.fresh _ le_rfl).1⟩
  rw [hunfold] at hfit
  exact (Option.some.inj hfit).symm

theorem Ahead.evict [PageWords β] (h : Ahead q s role) (he : Evicts role s t f n g group) :
    Ahead q t role := by
  have htab : (tables t.mem role).length = (tables s.mem role).length := by
    have hg : t.mem.group = group.erase f := by rw [he.mem_eq]; rfl
    unfold tables
    rw [hg, ← countP_eq_length_filter, ← countP_eq_length_filter, countP_erase,
      he.perm.countP_eq, he.role_eq]
    simp
  refine ⟨?_, ?_, h.room⟩
  · intro x hx
    rw [he.mem_eq] at hx ⊢
    obtain ⟨hstart, huva⟩ := h.fresh x hx
    refine ⟨?_, ?_⟩
    · change upd s.mem.start f false x = false
      rw [upd_apply]
      split
      · rfl
      · exact hstart
    · change (upd s.mem.pages f _ x).uva = 0
      rw [upd_apply]
      split
      · next hxf => rw [← hxf]; exact huva
      · exact huva
  · rw [htab]
    have : t.mem.cur_kernel_mem = s.mem.cur_kernel_mem := by rw [he.mem_eq]; rfl
    rw [this]
    exact h.cur

theorem Ahead.add (h : Ahead q s role) (ht : Tree s.mem role)
    {l i k : ℕ} (ha : Adds role s.mem t.mem id g l i k) {q' : ℕ}
    (hq : (if l = 0 then q + 1 else q) ≤ q') (hroom : q' + 258 < MAX_PAGE_NUM) :
    Ahead q' t (upd role id (l, 512 * i + k)) := by
  have hid := h.eq_cur ht ha.fit
  have hcur' : t.mem.cur_kernel_mem = s.mem.cur_kernel_mem + 1 := by rw [ha.cur, hid]
  have htab : (tables t.mem (upd role id (l, 512 * i + k))).length =
      (if l = 0 then 0 else 1) + (tables s.mem role).length := by
    have htail : s.mem.group.filter
        (fun f => decide ((upd role id (l, 512 * i + k) f).1 ≠ 0)) = tables s.mem role :=
      filter_congr fun f hf => by rw [ha.role_eq ht hf]
    unfold tables at htail ⊢
    rw [ha.group, filter_cons, htail, upd_self]
    by_cases hl : l = 0
    · simp [hl]
    · simp [hl, Nat.add_comm]
  refine ⟨?_, ?_, hroom⟩
  · intro f hf
    rw [hcur'] at hf
    have hne : f ≠ id := by omega
    obtain ⟨hstart, huva⟩ := h.fresh f (by omega)
    refine ⟨?_, ?_⟩
    · rw [ha.start, upd_of_ne hne]
      exact hstart
    · rw [ha.pages f hne]
      exact huva
  · have := h.cur
    rw [hcur', htab]
    split at hq <;> simp [*] <;> omega

/-! ## Runs of reads -/

/-- What holds while blocks are read for the first time, from number `N`
on: none was touched, and neither were the frames for them. -/
structure Fresh (N q : ℕ) (s : Store (Mem β) β) (role : ℕ → ℕ × ℕ) : Prop where
  untouched : Untouched N s role
  ahead : Ahead q s role
  fifo : s.mem.evict = .fifo

/-- A page more: the block of number `N` at most, and one frame. -/
theorem Fresh.load (h : Fresh N q u role)
    (ht : Tree u.mem role) (hl : Loads role u t n id low) (hn : n < N') (hN : N ≤ N')
    (hq : q + 1 + 258 < MAX_PAGE_NUM) : Fresh N' (q + 1) t (upd role id (0, n)) := by
  have ha := hl.toAdds
  have h1 := h.untouched.add ht ha (fun _ => by rw [Nat.div_add_mod]; exact hn) hN
  have h2 := h.ahead.add ht ha (by rw [if_pos rfl]) hq
  rw [Nat.div_add_mod] at h1 h2
  exact ⟨h1, h2, ha.static.evict.trans h.fifo⟩

variable [PageWords β]

theorem kept_fresh : Kept K (Fresh (β := β) N q) where
  evict hb he h := ⟨h.untouched.evict hb.tree he, h.ahead.evict he, he.static.evict.trans h.fifo⟩
  table hb ha hl h :=
    ⟨h.untouched.add hb.tree ha (fun h0 => absurd h0 hl) le_rfl,
      h.ahead.add hb.tree ha (by rw [if_neg hl]) h.ahead.room, ha.static.evict.trans h.fifo⟩

theorem kept_doomed : Kept K (Doomed (β := β) f₀ n₀ a p) where
  evict hb he h := h.evict hb.tree he
  table hb ha hl h := (h.add hb.tree ha fun h0 => absurd h0 hl).mono (Nat.sub_le _ _)

theorem Kept.and {J J' : Store (Mem β) β → (ℕ → ℕ × ℕ) → Prop} (hJ : Kept K J) (hJ' : Kept K J') :
    Kept K fun s role => J s role ∧ J' s role where
  evict hb he h := ⟨hJ.evict hb he h.1, hJ'.evict hb he h.2⟩
  table hb ha hl h := ⟨hJ.table hb ha hl h.1, hJ'.table hb ha hl h.2⟩

variable {E : Halt → Prop} {J : Store (Mem β) β → (ℕ → ℕ × ℕ) → Prop}

/-- **A read of a block that has no page loads it.** -/
theorem wp_cachedBlockRead_loads (hJ : Kept K J) (hb : Base K s.mem role) (hs : J s role)
    (hp : s.mem.policy = .writeBack) (hE : s.mem.capacity ≤ 258 → E .reclaimFailed) (hn : FsPage n)
    (hout : SwappedOut (lookupPte s.mem (4096 * n)) →
      inSwap s.mem.env (lookupPte s.mem (4096 * n)).pfn = false → E .outOfBounds)
    (hno : ∀ u role', Base K u.mem role' → J u role' → ∀ f ∈ u.mem.group, role' f ≠ (0, n)) :
    wp E (cachedBlockRead (8 * n)) (fun _ t => ∃ role1 u id low, Base K u.mem role1 ∧ J u role1 ∧
      Static s.mem u.mem ∧ Loads role1 u t n id low ∧
      ((lookupPte s.mem (4096 * n) = Pte.empty ∧ (t.mem.pages id).uva = 4096 * n) ∨
        (SwappedOut (lookupPte s.mem (4096 * n)) ∧ inSwap s.mem.env (lookupPte s.mem (4096 * n)).pfn = true ∧
          (t.mem.pages id).uva = (u.mem.pages id).uva))) s := by
  unfold cachedBlockRead
  simp only [wp_bind, wp_getMem, hp]
  refine wp_mono (wp_cacheSwapin hJ hb hs hE hn hout true) ?_
  rintro va t ⟨rfl, role1, u, hu, hJu, hst, hcase⟩
  -- the page is there to be read
  have hread : ∀ id low, Loads role1 u t n id low → ∀ Q : β → Store (Mem β) β → Prop,
      (∀ b, Q b t) → wp E (memcpyUva2kva (4096 * n) t.mem.cache_pgdir) Q t := by
    intro id low hl Q hQ
    have htree := hl.toAdds.tree hu.tree
    rw [Nat.div_add_mod] at htree
    simp only [memcpyUva2kva, wp_bind]
    refine wp_uva2kva (htree.maps_lookupPte ((hl.toAdds.mem_iff id).mpr (.inl rfl))
      upd_self) ?_
    exact hQ _
  rcases hcase with ⟨f, hf, hr, -⟩ | ⟨he, id, low, hl, huva, -⟩ | ⟨hso, hin, id, low, hl, huva⟩
  · exact absurd hr (hno u role1 hu hJu f hf)
  · exact hread id low hl _ fun _ => ⟨role1, u, id, low, hu, hJu, hst, hl, .inl ⟨he, huva⟩⟩
  · exact hread id low hl _ fun _ => ⟨role1, u, id, low, hu, hJu, hst, hl, .inr ⟨hso, hin, huva⟩⟩

/-- **A first read** takes a frame for the block, and is followed by others
as good. -/
theorem wp_read_fresh (hJ : Kept K J) (hb : Base K s.mem role) (h : Fresh n q s role)
    (hs : J s role) (hp : s.mem.policy = .writeBack) (hE : s.mem.capacity ≤ 258 → E .reclaimFailed)
    (hn : FsPage n) (hq : q + 1 + 258 < MAX_PAGE_NUM) :
    wp E (cachedBlockRead (8 * n)) (fun _ t => ∃ role1 u id low, Base K u.mem role1 ∧ J u role1 ∧
      Static s.mem u.mem ∧ u.mem.evict = .fifo ∧ Loads role1 u t n id low ∧
      (t.mem.pages id).uva = 4096 * n ∧ Base K t.mem (upd role1 id (0, n)) ∧
      Fresh (n + 1) (q + 1) t (upd role1 id (0, n))) s := by
  have hso : ¬ SwappedOut (lookupPte s.mem (4096 * n)) :=
    h.untouched.not_swappedOut hb.tree hn le_rfl
  refine wp_mono (wp_cachedBlockRead_loads (kept_fresh.and hJ) hb ⟨h,
    hs⟩ hp hE hn (fun h' => absurd h' hso) ?_) ?_
  · intro u role' _ hu f hf hr
    exact lt_irrefl n (hu.1.untouched.page f hf n hr)
  · rintro - t ⟨role1, u, id, low, hu, ⟨hfr, hJu⟩, hst, hl, hcase⟩
    have huva : (t.mem.pages id).uva = 4096 * n := by
      rcases hcase with ⟨-, huva⟩ | ⟨hso', -⟩
      · exact huva
      · exact absurd hso' hso
    have hbt := hl.toAdds.base hu fun _ => by rw [huva]; omega
    rw [Nat.div_add_mod] at hbt
    exact ⟨role1, u, id, low, hu, hJu, hst, hfr.fifo, hl, huva, hbt,
      hfr.load hu.tree hl (by omega) (by omega) hq⟩

/-- The reads of `m` blocks from number `n` on. -/
def reads (n m : ℕ) : List (Op β) := (List.range' n m).map .read

theorem wp_runOps_append (os os' : List (Op β)) {Q : List (Option β) → Store (Mem β) β → Prop} :
    wp E (runOps (os ++ os')) Q s ↔
      wp E (runOps os) (fun r t => wp E (runOps os') (fun r' u => Q (r ++ r') u) t) s := by
  induction os generalizing s Q with
  | nil => rfl
  | cons o os ih => simp only [cons_append, runOps, wp_bind, ih, wp_pure]

/-- **A doomed block goes** while others are read. -/
theorem wp_reads {m : ℕ} (hb : Base K s.mem role) (h : Fresh N q s role)
    (hd : Doomed f₀ n₀ a p s role) (hp : s.mem.policy = .writeBack)
    (hE : s.mem.capacity ≤ 258 → E .reclaimFailed) (hn : ∀ i < m, FsPage (N + i)) (hn0 : n₀ < N)
    (hq : q + m + 258 < MAX_PAGE_NUM) :
    wp E (runOps (reads N m)) (fun _ t => ∃ role', Base K t.mem role' ∧
      Fresh (N + m) (q + m) t role' ∧ Doomed f₀ n₀ a (p - m) t role' ∧ Static s.mem t.mem) s := by
  induction m generalizing s role N q p with
  | zero => exact ⟨role, hb, h, hd, .refl _⟩
  | succ m ih =>
    simp only [reads, List.range'_succ, map_cons, runOps, Op.prog, wp_bind, wp_pure]
    refine wp_mono (wp_read_fresh kept_doomed hb h hd hp hE (hn 0 (by omega))
      (by omega)) ?_
    rintro - t ⟨role1, u, id, low, hu, hdu, hst, -, hl, -, hbt, hfr⟩
    have hdt := hdu.add hu.tree hl.toAdds fun _ => by rw [Nat.div_add_mod]; omega
    rw [Nat.div_add_mod] at hdt
    have hst' := hst.trans hl.static
    refine wp_mono (ih hbt hfr hdt (hst'.policy.trans hp) (by rw [hst'.capacity]; exact hE)
      (fun i hi => ?_) (by omega) (by omega)) ?_
    · have := hn (i + 1) (by omega)
      rwa [Nat.add_assoc, Nat.add_comm 1 i]
    · rintro - w ⟨role', hbw, hfw, hdw, hstw⟩
      rw [Nat.add_assoc, Nat.add_comm 1 m] at hfw
      rw [Nat.add_assoc, Nat.add_comm 1 m] at hfw
      rw [Nat.sub_sub, Nat.add_comm 1 m] at hdw
      exact ⟨role', hbw, hfw, hdw, hst'.trans hstw⟩

/-- Read block `n`, then as many others as the group has frames, then `n`
again, then as many others again. -/
def thrash (n capacity : ℕ) : List (Op β) :=
  .read n :: (reads (n + 1) capacity ++ .read n :: reads (n + 1 + capacity) capacity)

variable (hb : Base K s.mem role) (h : Fresh n 0 s role) (hp : s.mem.policy = .writeBack)
include hb h hp

/-- **A block is pushed out** by as many others as the group has frames. -/
theorem wp_pushOut (hc : s.mem.capacity = c) (hE : c ≤ 258 → E .reclaimFailed)
    (hn : ∀ i < c + 1, FsPage (n + i)) (hq : c + 1 + 258 < MAX_PAGE_NUM) :
    wp E (runOps (.read n :: reads (n + 1) c)) (fun _ t => ∃ f role', Base K t.mem role' ∧
      Fresh (n + 1 + c) (1 + c) t role' ∧ Doomed f n (4096 * n) 0 t role' ∧ Static s.mem t.mem) s := by
  subst hc
  simp only [runOps, Op.prog, wp_bind, wp_pure]
  refine wp_mono (wp_read_fresh kept_fresh hb h h hp hE (hn 0 (by omega)) (by omega)) ?_
  rintro - s1 ⟨role1, u, f1, low, hu, -, hst1, hfifo, hl, huva, hb1, hfr1⟩
  have hd1 := hl.doomed hu.tree hfifo huva
  have hst1 := hst1.trans hl.static
  have hcap : u.mem.capacity = s.mem.capacity := by rw [← hl.static.capacity, hst1.capacity]
  rw [hcap] at hd1
  rw [Nat.zero_add] at hfr1
  refine wp_mono (wp_reads hb1 hfr1 hd1 (hst1.policy.trans hp)
    (by rw [hst1.capacity]; exact hE) (fun i hi => ?_) (by omega) (by omega)) ?_
  · rw [Nat.add_assoc]
    exact hn (1 + i) (by omega)
  · rintro - s2 ⟨role2, hb2, hfr2, hd2, hst2⟩
    rw [Nat.sub_self] at hd2
    exact ⟨f1, role2, hb2, hfr2, hd2, hst1.trans hst2⟩

omit h hp in
/-- Its entry says where it went, and it is read into a new frame. -/
theorem wp_readAgain {N f : ℕ} (hfr : Fresh N q s role) (hd : Doomed f n (4096 * n) 0 s role)
    (hp : s.mem.policy = .writeBack) (hE : s.mem.capacity ≤ 258 → E .reclaimFailed) (hn : FsPage n)
    (hout : inSwap s.mem.env (8 * n) = false → E .outOfBounds) :
    wp E (cachedBlockRead (8 * n)) (fun _ t => inSwap s.mem.env (8 * n) = true ∧ ∃ role1 u id low, Base K u.mem role1 ∧
      Fresh N q u role1 ∧ Static s.mem u.mem ∧ Loads role1 u t n id low ∧ (t.mem.pages id).uva = 0) s := by
  obtain ⟨low2, hlow2, hrlow2, hso2, hpfn2⟩ := hd.gone.swapped
  have hlook : SwappedOut (lookupPte s.mem (4096 * n)) ∧ (lookupPte s.mem (4096 * n)).pfn = 8 * n := by
    rw [hb.tree.lookupPte_eq hlow2 hrlow2]
    refine ⟨hso2, hpfn2.trans ?_⟩
    unfold SECTOR_SIZE
    omega
  refine wp_mono (wp_cachedBlockRead_loads (kept_fresh.and kept_doomed) hb ⟨hfr, hd⟩ hp hE hn
    (fun _ => by rw [hlook.2]; exact hout) ?_) ?_
  · intro w role' hbw hw f hf
    obtain ⟨low', hlow', hr', hso', -⟩ := hw.2.gone.swapped
    have := hbw.tree.no_child hlow' hr' (Nat.mod_lt n (by omega)) hso'.1 (by omega) hf
    rwa [Nat.div_add_mod] at this
  · rintro - s3 ⟨role3, w, f3, low3, hw, ⟨hfrw, -⟩, hst3, hl3, hcase⟩
    rcases hcase with ⟨he, -⟩ | ⟨-, hin, huva3⟩
    · rw [he] at hlook
      cases hlook.1.2
    · rw [hlook.2] at hin
      refine ⟨hin, role3, w, f3, low3, hw, hfrw, hst3, hl3, ?_⟩
      rw [huva3]
      have := hfrw.ahead.eq_cur hw.tree hl3.fit
      exact (hfrw.ahead.fresh f3 this.ge).2

/-- **The second eviction of a block goes astray.** The swap-in took a frame
that was never used, whose address is zero. -/
theorem wp_thrash (hc : s.mem.capacity = c) (hE : c ≤ 258 → E .reclaimFailed)
    (hn : ∀ i < 2 * c + 1, FsPage (n + i)) (hq : 2 * c + 2 + 258 < MAX_PAGE_NUM)
    (hin : inSwap s.mem.env (8 * n) = true) :
    wp E (runOps (thrash n c)) (fun _ t => (8 * n, 0) ∈ t.mem.writes) s := by
  unfold thrash
  rw [← cons_append, wp_runOps_append]
  refine wp_mono (wp_pushOut hb h hp hc hE (fun i hi => hn i (by omega)) (by omega)) ?_
  rintro - s2 ⟨f1, role2, hb2, hfr2, hd2, hst2⟩
  subst hc
  simp only [runOps, Op.prog, wp_bind, wp_pure]
  refine wp_mono (wp_readAgain hb2 hfr2 hd2 (hst2.policy.trans hp) (by rw [hst2.capacity]; exact hE)
    (hn 0 (by omega)) fun hout => ?_) ?_
  · rw [hst2.env, hin] at hout
    cases hout
  · rintro - s3 ⟨-, role3, w, f3, low3, hw, hfrw, hst3, hl3, huva3⟩
    have hst3 := hst2.trans hst3
    have hd3 := hl3.doomed hw.tree hfrw.fifo huva3
    rw [hst3.capacity] at hd3
    have hst3 := hst3.trans hl3.static
    have hb3 := hl3.toAdds.base hw fun _ => by rw [huva3]
    rw [Nat.div_add_mod] at hb3
    have hfr3 : Fresh (n + 1 + s.mem.capacity) _ s3 _ := hfrw.load hw.tree hl3 (by omega) le_rfl (by omega)
    refine wp_mono (wp_reads hb3 hfr3 hd3 (hst3.policy.trans hp)
      (by rw [hst3.capacity]; exact hE) (fun i hi => ?_) (by omega) (by omega)) ?_
    · rw [Nat.add_assoc, Nat.add_assoc]
      exact hn _ (by omega)
    · rintro - s4 ⟨role4, -, -, hd4, -⟩
      rw [Nat.sub_self] at hd4
      exact hd4.gone.written

theorem exists_thrash (hc : s.mem.capacity = c) (hc' : 258 < c)
    (hn : ∀ i < 2 * c + 1, FsPage (n + i)) (hq : 2 * c + 2 + 258 < MAX_PAGE_NUM)
    (hin : inSwap s.mem.env (8 * n) = true) :
    ∃ r t, (runOps (thrash n c)).exec s = .ok (r, t) ∧ (8 * n, 0) ∈ t.mem.writes :=
  exists_of_wp (wp_thrash hb h hp hc (fun hle => by omega) hn hq hin)

/-- **Where the store outside `swap_using` traps**, the block is not read a
second time. -/
theorem readAgain_traps (hc : s.mem.capacity = c) (hc' : 258 < c) (hn : ∀ i < c + 1, FsPage (n + i))
    (hq : c + 1 + 258 < MAX_PAGE_NUM) (hin : inSwap s.mem.env (8 * n) = false) :
    (runOps (.read n :: reads (n + 1) c ++ [.read n])).exec s = .error .outOfBounds := by
  have hwp : wp (· = .outOfBounds) (runOps (.read n :: reads (n + 1) c ++ [.read n])) (fun _ _ => False) s := by
    rw [wp_runOps_append]
    refine wp_mono (wp_pushOut hb h hp hc (fun hle => by omega) hn hq) ?_
    rintro - s2 ⟨f1, role2, hb2, hfr2, hd2, hst2⟩
    simp only [runOps, Op.prog, wp_bind, wp_pure]
    refine wp_mono (wp_readAgain hb2 hfr2 hd2 (hst2.policy.trans hp) (fun hle => ?_) (hn 0 (by omega)) fun _ => rfl) ?_
    · rw [hst2.capacity] at hle
      omega
    · rintro - s3 ⟨hin', -⟩
      rw [hst2.env, hin] at hin'
      cases hin'
  cases hx : (runOps (.read n :: reads (n + 1) c ++ [.read n])).exec s with
  | error e => rw [wp_error hwp hx]
  | ok r => exact (wp_ok hwp (a := r.1) (t := r.2) hx).elim

end OsLab.PageCache
