import OsLab.PageCache.Tree
/-!
# Reading and writing through the cache

Mapping a frame adds one node to the tree (`Adds`): `find_pte` adds the
tables on the way to a block, `cache_swapin` adds its page. Whatever is
kept by evictions and by new tables (`Kept`) therefore holds when the page
is added, and `wp_cacheSwapin` says what the page then is: one that was
there, one loaded for the first time, or one swapped in.
-/

namespace OsLab.PageCache

open Prog

variable {β : Type} {K : ℕ}

/-! ## Adding a node -/

/-- The next free frame `id` was taken and mapped by entry `k` of table `g`,
which mapped none, as a frame of level `l`. -/
structure Adds (role : ℕ → ℕ × ℕ) (m m' : Mem β) (id g l q k : ℕ) : Prop where
  fit : nextFit m.start MAX_PAGE_NUM m.cur_kernel_mem = some id
  room : m.used < m.capacity
  table_mem : g ∈ m.group
  table_role : role g = (l + 1, q)
  index : k < 512
  absent : (m.table g k).present = false
  level : l < 3
  range : ∃ n, FsPage n ∧ 512 * q + k = n / 512 ^ l
  static : Static m m'
  group : m'.group = id :: m.group
  used : m'.used = m.used + 1
  start : m'.start = upd m.start id true
  cur : m'.cur_kernel_mem = id + 1
  writes : m'.writes = m.writes
  out : m'.swap_counter_out = m.swap_counter_out
  pages : ∀ f ≠ id, m'.pages f = m.pages f
  pte : (m'.pages id).pte = some (g, k)
  maps : Maps l id (m'.table g k)
  entries : ∀ f ∈ m.group, ∀ j, (f, j) ≠ (g, k) → m'.table f j = m.table f j
  clear : l ≠ 0 → ∀ j, m'.table id j = Pte.empty
  data : ∀ f ∈ m.group, f ≠ g → m'.data f = m.data f

namespace Adds

variable {role : ℕ → ℕ × ℕ} {m m' : Mem β} {id g l q k : ℕ}

theorem mem_iff (ha : Adds role m m' id g l q k) (f : ℕ) : f ∈ m'.group ↔ f = id ∨ f ∈ m.group := by
  rw [ha.group, List.mem_cons]

theorem free (ha : Adds role m m' id g l q k) : m.start id = false := (nextFit_free ha.fit).2

variable {f : ℕ}

section

variable (ha : Adds role m m' id g l q k) (h : Tree m role)
include ha h

theorem ne (hf : f ∈ m.group) : f ≠ id := h.ne_of_free ha.free hf

/-- A frame that was there keeps its role. -/
theorem role_eq (hf : f ∈ m.group) : upd role id (l, 512 * q + k) f = role f :=
  upd_of_ne (ha.ne h hf)

/-- And none had the new one. -/
theorem role_ne (hf : f ∈ m.group) : role f ≠ (l, 512 * q + k) :=
  h.no_child ha.table_mem ha.table_role ha.index ha.absent ha.level hf

/-- **A node more is still a tree.** -/
theorem tree : Tree m' (upd role id (l, 512 * q + k)) := by
  have hmem := ha.mem_iff
  have hk := ha.index
  have hdiv : (512 * q + k) / 512 = q := by omega
  have hmod : (512 * q + k) % 512 = k := by omega
  refine
    { nodup := ?_, used := ?_, started := ?_, top_mem := ?_, top_role := ?_, top_pte := ?_,
      inj := ?_, range := ?_, up := ?_, down := ?_ }
  · rw [ha.group, List.nodup_cons]
    exact ⟨fun hm => ha.ne h hm rfl, h.nodup⟩
  · rw [ha.used, ha.group, h.used, List.length_cons]
  · intro f hf
    rw [ha.start]
    rcases (hmem f).mp hf with rfl | hf
    · exact ⟨upd_self, (nextFit_free ha.fit).1⟩
    · rw [upd_of_ne (ha.ne h hf)]
      exact h.started f hf
  · rw [ha.static.pgdir]
    exact (hmem _).mpr (.inr h.top_mem)
  · rw [ha.static.pgdir, ha.role_eq h h.top_mem]
    exact h.top_role
  · rw [ha.static.pgdir, ha.pages _ (ha.ne h h.top_mem)]
    exact h.top_pte
  · intro f hf f' hf' he
    rcases (hmem f).mp hf with rfl | hf <;> rcases (hmem f').mp hf' with rfl | hf'
    · rfl
    · rw [upd_self, ha.role_eq h hf'] at he
      exact absurd he.symm (ha.role_ne h hf')
    · rw [upd_self, ha.role_eq h hf] at he
      exact absurd he (ha.role_ne h hf)
    · rw [ha.role_eq h hf, ha.role_eq h hf'] at he
      exact h.inj f hf f' hf' he
  · intro f hf
    rcases (hmem f).mp hf with rfl | hf
    · rw [upd_self]
      exact .inr ⟨ha.level, ha.range⟩
    · rw [ha.role_eq h hf]
      exact h.range f hf
  · intro f hf hlf
    rcases (hmem f).mp hf with rfl | hf
    · rw [upd_self] at hlf ⊢
      simp only [hdiv, hmod]
      exact ⟨g, (hmem g).mpr (.inr ha.table_mem), by rw [ha.role_eq h ha.table_mem, ha.table_role],
        ha.pte, ha.maps⟩
    · rw [ha.role_eq h hf] at hlf ⊢
      obtain ⟨y, hy, hry, hpte, hmaps⟩ := h.up f hf hlf
      refine ⟨y, (hmem y).mpr (.inr hy), by rw [ha.role_eq h hy]; exact hry, ?_, ?_⟩
      · rw [ha.pages f (ha.ne h hf)]
        exact hpte
      · rw [ha.entries y hy]
        · exact hmaps
        · intro he
          obtain ⟨rfl, hkk⟩ := Prod.mk.inj he
          have habs := ha.absent
          rw [← hkk, hmaps.1] at habs
          cases habs
  · intro y hy l' q' hry j hj
    rcases (hmem y).mp hy with rfl | hy
    · rw [upd_self] at hry
      obtain ⟨hl, rfl⟩ := Prod.mk.inj hry
      exact .inl (ha.clear (by omega) j)
    · rw [ha.role_eq h hy] at hry
      by_cases hc : (y, j) = (g, k)
      · obtain ⟨rfl, rfl⟩ := Prod.mk.inj hc
        have hrg := ha.table_role
        rw [hry] at hrg
        obtain ⟨hl, rfl⟩ := Prod.mk.inj hrg
        obtain rfl : l' = l := by omega
        exact .inr (.inl ⟨id, (hmem id).mpr (.inl rfl), upd_self, ha.maps⟩)
      · rw [ha.entries y hy j hc]
        rcases h.down y hy l' q' hry j hj with he | ⟨f, hf, hr, he⟩ | he
        · exact .inl he
        · exact .inr (.inl ⟨f, (hmem f).mpr (.inr hf), by rw [ha.role_eq h hf]; exact hr, he⟩)
        · exact .inr (.inr he)

end

theorem base (ha : Adds role m m' id g l q k) (h : Base K m role)
    (hal : l = 0 → (m'.pages id).uva % 4096 = 0) : Base K m' (upd role id (l, 512 * q + k)) := by
  have hlt := (nextFit_free ha.fit).1
  refine ⟨ha.tree h.tree, ?_, ?_, ?_, ?_⟩
  · intro f hf h0
    rcases (ha.mem_iff f).mp hf with rfl | hf
    · rw [upd_self] at h0
      exact hal h0
    · rw [ha.role_eq h.tree hf] at h0
      rw [ha.pages f (ha.ne h.tree hf)]
      exact h.aligned f hf h0
  · rw [busy_start_true ha.free hlt ha.start, h.busy, ha.group, List.length_cons]
    omega
  · rw [ha.static.capacity]
    exact h.room
  · rw [ha.cur]
    exact hlt

/-- A frame taken and mapped, from the fields. -/
theorem of {x : Pageframe} {p : Pte} {tb : ℕ → Pte} {d d' : β} (h : Tree m role)
    (hfit : nextFit m.start MAX_PAGE_NUM m.cur_kernel_mem = some id) (hroom : m.used < m.capacity)
    (hg : g ∈ m.group) (hrg : role g = (l + 1, q)) (hk : k < 512)
    (habs : (m.table g k).present = false) (hl : l < 3) (hn : ∃ n, FsPage n ∧
      512 * q + k = n / 512 ^ l) (hp : Maps l id p) (hclear : l ≠ 0 → tb = fun _ => Pte.empty)
    (hst : Static m m') (hgroup : m'.group = id :: m.group) (hused : m'.used = m.used + 1)
    (hstart : m'.start = upd m.start id true) (hcur : m'.cur_kernel_mem = id + 1)
    (hwrites : m'.writes = m.writes) (hout : m'.swap_counter_out = m.swap_counter_out)
    (hpages : m'.pages = upd m.pages id x) (hx : x.pte = some (g, k))
    (htable : m'.table = upd (upd m.table id tb) g (upd (m.table g) k p))
    (hdata : m'.data = upd (upd m.data id d) g d') : Adds role m m' id g l q k := by
  have hne : ∀ f ∈ m.group, f ≠ id := fun f hf => h.ne_of_free (nextFit_free hfit).2 hf
  refine ⟨hfit, hroom, hg, hrg, hk, habs, hl, hn, hst, hgroup, hused, hstart, hcur, hwrites, hout,
    ?_, ?_, ?_, ?_, ?_, ?_⟩
  · intro f hf
    rw [hpages, upd_of_ne hf]
  · rw [hpages, upd_self, hx]
  · rw [htable, upd_self, upd_self]
    exact hp
  · intro f hf j hfj
    rw [htable]
    by_cases hfg : f = g
    · subst hfg
      rw [upd_self, upd_of_ne]
      rintro rfl
      exact hfj rfl
    · rw [upd_of_ne hfg, upd_of_ne (hne f hf)]
  · intro hl j
    rw [htable, upd_of_ne (hne g hg).symm, upd_self, hclear hl]
  · intro f hf hfg
    rw [hdata, upd_of_ne hfg, upd_of_ne (hne f hf)]

end Adds

variable [PageWords β]

/-! ## Walking down -/

/-- What evictions and new tables keep. -/
structure Kept (K : ℕ) (J : Store (Mem β) β → (ℕ → ℕ × ℕ) → Prop) : Prop where
  evict : ∀ {s t role f n g group}, Base K s.mem role → Evicts role s t f n g group → J s role →
    J t role
  table : ∀ {s role m' id g l q k}, Base K s.mem role → Adds role s.mem m' id g l q k → l ≠ 0 →
    J s role → J ⟨m', s.disk⟩ (upd role id (l, 512 * q + k))

variable {s : Store (Mem β) β} {n : ℕ} {role : ℕ → ℕ × ℕ} {m : Mem β}

theorem Kept.evicted {J : Store (Mem β) β → (ℕ → ℕ × ℕ) → Prop} (hJ : Kept K J)
    {u : Store (Mem β) β} (hev : Evicted role s u) (hb : Base K s.mem role) (hs : J s role) :
    J u role :=
  hev.induct (J := fun t => J t role) hb (fun _ _ _ _ _ _ hb he hs => hJ.evict hb he hs) hs

variable {K : ℕ} {J : Store (Mem β) β → (ℕ → ℕ × ℕ) → Prop} {E : Halt → Prop}

/-- A frame is taken for entry `k` of table `g`, which maps no page. -/
theorem wp_allocUnder (hJ : Kept K J) (h : Base K s.mem role) (hs : J s role)
    (hE : s.mem.capacity ≤ 258 → E .reclaimFailed) {g k : ℕ} (hg : g ∈ s.mem.group)
    (hl : (role g).1 ≠ 0) (hno : (s.mem.table g k).present = false) :
    wp E allocPageframe (fun id t => ∃ u, Base K u.mem role ∧ J u role ∧ Static s.mem u.mem ∧
      g ∈ u.mem.group ∧ g ≠ id ∧
      u.mem.table g k = s.mem.table g k ∧ u.mem.used < u.mem.capacity ∧
      nextFit u.mem.start MAX_PAGE_NUM u.mem.cur_kernel_mem = some id ∧ t = ⟨takeFrame u.mem id, u.disk⟩) s := by
  refine wp_mono (wp_allocPageframe h hE) ?_
  rintro id t ⟨u, hev, hroom, hfit, rfl⟩
  have hu := hev.base h
  have hgu := hev.tables_mem h hg hl
  exact ⟨u, hu, hJ.evicted hev h hs, hev.static, hgu, hu.tree.ne_of_free (nextFit_free hfit).2 hgu,
    hev.entry_eq h rfl (.inl hno), hroom, hfit, rfl⟩

/-- **One level down**: the table is there afterwards. It was there already
and nothing happened, or it is new and empty. -/
theorem wp_nextLevel (hJ : Kept K J)
    (h : Base K s.mem role) (hs : J s role) (hE : s.mem.capacity ≤ 258 → E .reclaimFailed)
    {g l : ℕ} (hl : l = 1 ∨ l = 2) (hg : g ∈ s.mem.group)
    (hrg : role g = (l + 1, n / 512 ^ l / 512)) (hn : FsPage n) :
    wp E (nextLevel g (n / 512 ^ l % 512)) (fun f t => ∃ role', Base K t.mem role' ∧ J t role' ∧
      Static s.mem t.mem ∧ f ∈ t.mem.group ∧ role' f = (l, n / 512 ^ l) ∧
      ((t = s ∧ role' = role) ∨ (s.mem.table g (n / 512 ^ l % 512)).present = false ∧
        ∀ j, t.mem.table f j = Pte.empty)) s := by
  have hl0 : l ≠ 0 := by omega
  have hdiv : 512 * (n / 512 ^ l / 512) + n / 512 ^ l % 512 = n / 512 ^ l := Nat.div_add_mod _ _
  have hk : n / 512 ^ l % 512 < 512 := Nat.mod_lt _ (by omega)
  unfold nextLevel
  simp only [wp_bind, wp_getPte]
  rcases h.tree.down g hg l _ hrg _ hk with he | ⟨f, hf, hr, hp, hpfn, -⟩ | ⟨h0, -⟩
  · have hpres : (s.mem.table g (n / 512 ^ l % 512)).present = false := by rw [he]; rfl
    rw [hpres]
    simp only [Bool.false_eq_true, if_false, wp_bind, addPage]
    refine wp_mono (wp_allocUnder hJ h hs hE hg (by rw [hrg]; simp) hpres) ?_
    rintro new t ⟨u, hu, hJu, hst, hgu, hne, heu, hroom, hfit, rfl⟩
    rw [he] at heu
    have hpte : id { Pte.empty with pfn := new, present := true } = dirPte new := rfl
    simp only [bindPage, wp_bind, wp_getPte, takeFrame, heu, setPte, wp_modifyMem, modifyPage,
      wp_pure, clearPgdir, upd_of_ne hne, upd_self, hpte]
    -- the table is new, whatever else became of the memory
    have hnew : ∀ {m'}, Adds role u.mem m' new g l (n / 512 ^ l / 512) (n / 512 ^ l % 512) →
        ∃ role', Base K m' role' ∧ J ⟨m', u.disk⟩ role' ∧ Static s.mem m' ∧ new ∈ m'.group ∧
          role' new = (l, n / 512 ^ l) ∧ (⟨m', u.disk⟩ = s ∧ role' = role ∨ True ∧ ∀ j, m'.table new j = Pte.empty) := by
      intro m' hadds
      have hb' := hadds.base hu fun h0 => absurd h0 hl0
      have hJ' := hJ.table hu hadds hl0 hJu
      rw [hdiv] at hb' hJ'
      exact ⟨_, hb', hJ', hst.trans hadds.static, (hadds.mem_iff new).mpr (.inl rfl), upd_self,
        .inr ⟨trivial, hadds.clear hl0⟩⟩
    exact hnew (.of hu.tree hfit hroom hgu hrg hk (by rw [heu]; rfl) (by omega) ⟨n, hn, hdiv⟩
      (maps_dirPte hl0) (fun _ => rfl) ⟨rfl, rfl, rfl, rfl, rfl⟩ rfl rfl rfl rfl rfl rfl rfl rfl
      (upd_comm hne) (upd_comm hne))
  · rw [hp]
    simp only [if_true, wp_pure, hpfn]
    exact ⟨role, h, hs, .refl _, hf, by rw [hr, hdiv], .inl ⟨trivial, rfl⟩⟩
  · exact absurd h0 hl0

theorem vpn_page (n : ℕ) :
    vpn2 (4096 * n) = n / 512 ^ 2 % 512 ∧ vpn1 (4096 * n) = n / 512 ^ 1 % 512 ∧
      vpn0 (4096 * n) = n % 512 := by
  unfold vpn2 vpn1 vpn0
  refine ⟨?_, ?_, ?_⟩ <;> omega

variable {low f : ℕ}

omit [PageWords β] in
/-- The walk to the last table of a block. -/
theorem Tree.walk (h : Tree m role) (hlow : low ∈ m.group) (hr : role low = (1, n / 512)) :
    (m.table m.cache_pgdir (vpn2 (4096 * n))).present = true ∧
      (m.table (m.table m.cache_pgdir (vpn2 (4096 * n))).pfn (vpn1 (4096 * n))).present = true ∧
      (m.table (m.table m.cache_pgdir (vpn2 (4096 * n))).pfn (vpn1 (4096 * n))).pfn = low := by
  obtain ⟨h2, h1, -⟩ := vpn_page n
  obtain ⟨mid, hmid, hrmid, -, hp1, hpfn1, -⟩ := h.up low hlow (by rw [hr]; simp)
  rw [hr] at hrmid hp1 hpfn1
  obtain ⟨top, htop, hrtop, -, hp2, hpfn2, -⟩ := h.up mid hmid (by rw [hrmid]; simp)
  rw [hrmid] at hrtop hp2 hpfn2
  obtain rfl : top = m.cache_pgdir := h.eq_top htop (by rw [hrtop]; simp)
  have hdd : n / 512 / 512 = n / 512 ^ 2 := Nat.div_div_eq_div_mul n 512 512
  simp only [hdd] at hp2 hpfn2
  rw [h2, h1, pow_one, hpfn2]
  exact ⟨hp2, hp1, hpfn1⟩

omit [PageWords β] in
/-- The entry of a block. -/
theorem Tree.lookupPte_eq (h : Tree m role) (hlow : low ∈ m.group) (hr : role low = (1, n / 512)) :
    lookupPte m (4096 * n) = m.table low (n % 512) := by
  obtain ⟨h2, h1, hpfn⟩ := h.walk hlow hr
  unfold lookupPte
  simp only [h2, h1, hpfn, Bool.and_self, if_true, (vpn_page n).2.2]

omit [PageWords β] in
/-- A block has an entry where it has a table. -/
theorem Tree.lookupPte_cases (h : Tree m role) (hn : FsPage n) :
    lookupPte m (4096 * n) = Pte.empty ∨
      ∃ low ∈ m.group, role low = (1, n / 512) ∧
        lookupPte m (4096 * n) = m.table low (n % 512) := by
  obtain ⟨h2, h1, -⟩ := vpn_page n
  have htop : n / 512 ^ 2 < 512 := by
    obtain ⟨-, hlt⟩ := hn
    unfold FS_END_SECTOR at hlt
    omega
  by_cases hp : (m.table m.cache_pgdir (vpn2 (4096 * n))).present = true ∧
      (m.table (m.table m.cache_pgdir (vpn2 (4096 * n))).pfn (vpn1 (4096 * n))).present = true
  · obtain ⟨hp2, hp1⟩ := hp
    rw [h2, Nat.mod_eq_of_lt htop] at hp2 hp1
    rw [h1, pow_one] at hp1
    -- both entries are present, so each maps the table below it
    rcases h.down _ h.top_mem 2 0 h.top_role _ htop with he | ⟨mid, hmid, hrmid, hm⟩ | ⟨h0, -⟩
    · rw [he] at hp2; cases hp2
    · rw [hm.2.1] at hp1
      rcases h.down mid hmid 1 _ hrmid (n / 512 % 512) (Nat.mod_lt _ (by omega)) with
        he | ⟨low, hlow, hrlow, -⟩ | ⟨h0, -⟩
      · rw [he] at hp1; cases hp1
      · have hr : role low = (1, n / 512) := by
          rw [hrlow]
          have : 512 * (512 * 0 + n / 512 ^ 2) + n / 512 % 512 = n / 512 := by omega
          rw [this]
        exact .inr ⟨low, hlow, hr, h.lookupPte_eq hlow hr⟩
      · cases h0
    · cases h0
  · refine .inl ?_
    unfold lookupPte
    rw [if_neg]
    rwa [Bool.and_eq_true_iff]

/-- **`find_pte` finds the entry of a block**, in a table that was there or
in a new one. -/
theorem wp_findPte (hJ : Kept K J)
    (h : Base K s.mem role) (hs : J s role) (hE : s.mem.capacity ≤ 258 → E .reclaimFailed)
    (hn : FsPage n) :
    wp E (findPte (4096 * n) s.mem.cache_pgdir) (fun a t => ∃ role' low, Base K t.mem role' ∧
      J t role' ∧ Static s.mem t.mem ∧ a = (low, n % 512) ∧ low ∈ t.mem.group ∧
      role' low = (1, n / 512) ∧
      t.mem.table low (n % 512) = lookupPte s.mem (4096 * n)) s := by
  obtain ⟨h2, h1, h0⟩ := vpn_page n
  have htop : n / 512 ^ 2 / 512 = 0 := by
    obtain ⟨-, hlt⟩ := hn
    unfold FS_END_SECTOR at hlt
    omega
  unfold findPte
  simp only [wp_bind, h2, h1, h0, wp_pure]
  refine wp_mono (wp_nextLevel hJ h hs hE (.inr rfl) h.tree.top_mem
    (by rw [htop]; exact h.tree.top_role) hn) ?_
  rintro mid t ⟨role1, ht, hs1, hst, hmid, hrmid, hcase⟩
  refine wp_mono (wp_nextLevel hJ ht hs1 (by rw [hst.capacity]; exact hE) (.inl rfl) hmid
    (by rw [hrmid, Nat.div_div_eq_div_mul]; norm_num) hn) ?_
  rintro low u ⟨role2, hu, hs2, hst', hlow, hrlow, hcase'⟩
  rw [pow_one] at hrlow
  refine ⟨role2, low, hu, hs2, hst.trans hst', rfl, hlow, hrlow, ?_⟩
  rcases hcase' with ⟨rfl, rfl⟩ | ⟨hno, hempty⟩
  · rcases hcase with ⟨rfl, rfl⟩ | ⟨-, hempty⟩
    · exact (hu.tree.lookupPte_eq hlow hrlow).symm
    · -- a new table has no entry for `low` to be under
      obtain ⟨y, hy, hry, -, hmaps⟩ := hu.tree.up low hlow (by rw [hrlow]; simp)
      rw [hrlow] at hry hmaps
      have hym : y = mid := by
        refine hu.tree.inj y hy mid hmid ?_
        rw [hry, hrmid, Nat.div_div_eq_div_mul]
        norm_num
      rw [hym, hempty] at hmaps
      exact absurd rfl hmaps.ne_empty
  · rw [hempty]
    unfold lookupPte
    simp only [h2, h1]
    rcases hcase with ⟨rfl, rfl⟩ | ⟨hno2, -⟩
    · obtain ⟨y, hy, hry, -, -, hpfn, -⟩ := ht.tree.up mid hmid (by rw [hrmid]; simp)
      rw [hrmid] at hry hpfn
      obtain rfl : y = t.mem.cache_pgdir := ht.tree.eq_top hy (by rw [hry]; simp)
      rw [hpfn, hno, Bool.and_false]
      rfl
    · rw [hno2, Bool.false_and]
      rfl

/-! ## Bringing a block in -/

omit [PageWords β] in
/-- The entry of a cached block. -/
theorem Tree.maps_lookupPte (h : Tree m role)
    (hf : f ∈ m.group) (hr : role f = (0, n)) : Maps 0 f (lookupPte m (4096 * n)) := by
  obtain ⟨low, hlow, hrlow, -, hmaps⟩ := h.up f hf (by rw [hr]; simp)
  rw [hr] at hrlow hmaps
  rw [h.lookupPte_eq hlow hrlow]
  exact hmaps

/-- **A cached block is found without further ado.** -/
theorem wp_uva2kva {Q : ℕ → Store (Mem β) β → Prop} {va : ℕ} (h : Maps 0 f (lookupPte s.mem va))
    (hQ : Q f s) :
    wp E (uva2kva va s.mem.cache_pgdir) Q s := by
  unfold lookupPte at h
  simp only at h
  split at h
  · next hp =>
    obtain ⟨h2, h1⟩ := Bool.and_eq_true_iff.mp hp
    simp only [uva2kva, allocPage, findPte, nextLevel, wp_bind, wp_getPte, h2, if_true, wp_pure,
      h1, ne_eq, h.ne_empty, not_false_eq_true, h.1, h.2.1]
    exact hQ
  · exact absurd rfl h.ne_empty

/-- Block `n` was given frame `id`, in table `low`. -/
structure Loads (role : ℕ → ℕ × ℕ) (u t : Store (Mem β) β) (n id low : ℕ) : Prop
    extends Adds role u.mem t.mem id low 0 (n / 512) (n % 512) where
  disk : t.disk = u.disk
  sector : (t.mem.pages id).sector = 8 * n

/-- **`cache_swapin` brings a block in.** The block has a page and nothing
happens; or it never had one, and gets one that knows its address; or its
page was evicted, and it gets one whose frame still has the address of an
earlier use. The place that such a page leaves is freed as if it were one of
the swap area. -/
theorem wp_cacheSwapin (hJ : Kept K J)
    (h : Base K s.mem role) (hs : J s role) (hE : s.mem.capacity ≤ 258 → E .reclaimFailed)
    (hn : FsPage n) (hout : SwappedOut (lookupPte s.mem (4096 * n)) →
      inSwap s.mem.env (lookupPte s.mem (4096 * n)).pfn = false → E .outOfBounds) (load : Bool) :
    wp E (cacheSwapin (8 * n) load) (fun va t => va = 4096 * n ∧ ∃ role1 u, Base K u.mem role1 ∧
      J u role1 ∧ Static s.mem u.mem ∧
      ((∃ f ∈ u.mem.group, role1 f = (0, n) ∧ t = u) ∨
        (lookupPte s.mem (4096 * n) = Pte.empty ∧ ∃ id low, Loads role1 u t n id low ∧
          (t.mem.pages id).uva = 4096 * n ∧ (load = true → t.mem.data id = u.disk (8 * n))) ∨
        (SwappedOut (lookupPte s.mem (4096 * n)) ∧ inSwap s.mem.env (lookupPte s.mem (4096 * n)).pfn = true ∧
          ∃ id low, Loads role1 u t n id low ∧ (t.mem.pages id).uva = (u.mem.pages id).uva))) s := by
  have hva : 8 * n * SECTOR_SIZE = 4096 * n := by unfold SECTOR_SIZE; omega
  have hk : n % 512 < 512 := Nat.mod_lt _ (by omega)
  have hnum : ∃ i, FsPage i ∧ 512 * (n / 512) + n % 512 = i / 512 ^ 0 :=
    ⟨n, hn, by rw [Nat.div_add_mod, pow_zero, Nat.div_one]⟩
  unfold cacheSwapin
  simp only [wp_bind, wp_getMem, hva]
  refine wp_mono (wp_findPte hJ h hs hE hn) ?_
  rintro a t ⟨role1, low, ht, hs1, hst, rfl, hlow, hrlow, hent⟩
  simp only [wp_getPte, ← hent]
  rcases ht.tree.down low hlow 0 _ hrlow (n % 512) hk with he | ⟨f, hf, hr, hmaps⟩ | ⟨-, he⟩
  · -- the block never had a page
    rw [he]
    simp only [ne_eq, not_true_eq_false, if_false, wp_bind]
    refine wp_mono (wp_allocUnder hJ ht hs1 (by rw [hst.capacity]; exact hE) hlow (by rw [hrlow]; simp)
      (by rw [he]; rfl)) ?_
    rintro new w ⟨u, hu, hu', hst', hlow', hnew, heu, hroom, hfit, rfl⟩
    rw [he] at heu
    have hpte : Pte.urw { Pte.empty with pfn := new, present := true } = pagePte new := rfl
    have habs : (u.mem.table low (n % 512)).present = false := by rw [heu]; rfl
    have hst' := hst.trans hst'
    cases load with
    | false =>
      simp only [modifyPage, wp_modifyMem, Bool.false_eq_true, if_false, wp_pure, bindPage, wp_bind,
        wp_getPte, setPte, takeFrame, heu, hpte, upd_self, upd_idem]
      refine ⟨trivial, role1, u, hu, hu', hst', .inr (.inl ⟨trivial, new, low, ?_, by simp,
        False.elim⟩)⟩
      exact ⟨.of hu.tree hfit hroom hlow' hrlow hk habs (by omega) hnum (maps_pagePte new) (absurd rfl) ⟨rfl, rfl, rfl, rfl, rfl⟩
        rfl rfl rfl rfl rfl rfl rfl rfl (congrArg (fun x => upd x low _) upd_eq_self.symm)
        (congrArg (fun x => upd x low _) upd_eq_self.symm), rfl, by simp⟩
    | true =>
      simp only [modifyPage, wp_modifyMem, if_true, wp_pure, bindPage, wp_bind, wp_sdRead, setData,
        wp_getPte, setPte, takeFrame, upd_of_ne hnew, heu, hpte, upd_self, upd_idem]
      refine ⟨trivial, role1, u, hu, hu', hst', .inr (.inl ⟨trivial, new, low, ?_, by simp,
        fun _ => by simp [upd_of_ne hnew.symm]⟩)⟩
      exact ⟨.of hu.tree hfit hroom hlow' hrlow hk habs (by omega) hnum (maps_pagePte new) (absurd rfl) ⟨rfl, rfl, rfl, rfl, rfl⟩
        rfl rfl rfl rfl rfl rfl rfl rfl rfl rfl, rfl, by simp⟩
  · simp only [ne_eq, hmaps.ne_empty, not_false_eq_true, if_true, hmaps.1, Bool.not_true,
      Bool.false_eq_true, if_false, wp_pure]
    exact ⟨trivial, role1, t, ht, hs1, hst, .inl ⟨f, hf, by rw [hr, Nat.div_add_mod], rfl⟩⟩
  · -- its page was evicted
    have hne : t.mem.table low (n % 512) ≠ Pte.empty := by
      intro hc
      rw [hc] at he
      cases he.2
    simp only [ne_eq, hne, not_false_eq_true, if_true, he.1, Bool.not_false, he.2, wp_bind,
      wp_asserts]
    refine wp_mono (wp_allocUnder hJ ht hs1 (by rw [hst.capacity]; exact hE) hlow (by rw [hrlow]; simp) he.1) ?_
    rintro new w ⟨u, hu, hu', hst', hlow', hnew, heu, hroom, hfit, rfl⟩
    -- the walk of `swapin` finds the tables where they were
    obtain ⟨h2, h1, hpfn⟩ := hu.tree.walk hlow' hrlow
    have hpgdir : s.mem.cache_pgdir = u.mem.cache_pgdir := (hst.trans hst').pgdir.symm
    have h0 := (vpn_page n).2.2
    have hsoft : (u.mem.table low (n % 512)).soft = true := by rw [heu]; exact he.2
    have habs : (u.mem.table low (n % 512)).present = false := by rw [heu]; exact he.1
    have henv : u.mem.env = s.mem.env := (hst.trans hst').env
    simp only [modifyPage, wp_modifyMem, swapin, wp_bind, wp_getPte, takeFrame, hpgdir, h2, h1, hpfn,
      h0, hsoft, wp_asserts, if_true, wp_sdRead, setData, setPte, bindPage, regularSwapFree, freeSwap, wp_pure,
      wp_getMem, upd_of_ne hnew, upd_self, upd_idem, henv]
    rw [← hent] at hout
    split
    case isFalse hin => exact hout he (by rw [← heu]; exact Bool.eq_false_of_not_eq_true hin)
    case isTrue hin =>
    refine ⟨trivial, role1, u, hu, hu', hst.trans hst',
      .inr (.inr ⟨he, by rw [← heu]; exact hin, new, low, ?_, by simp⟩)⟩
    refine ⟨.of hu.tree hfit hroom hlow' hrlow hk habs (by omega) hnum ?_ (absurd rfl) ⟨rfl, rfl, rfl, rfl, henv.symm⟩
      rfl rfl rfl rfl rfl rfl rfl rfl rfl rfl, rfl, by simp⟩
    simp [Maps, Pte.urwx, Pte.urw, Pte.leaf]

end OsLab.PageCache
