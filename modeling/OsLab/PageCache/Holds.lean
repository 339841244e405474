import OsLab.PageCache.Access
/-!
# What the cache holds

The cache holds `v` when each block is in its page, if it has one, and on
the card otherwise, and every page's frame knows the page's address.
Evictions, new tables, reads and writes keep this, as long as no page is
swapped in.
-/

namespace OsLab.PageCache

open Prog

variable {β : Type} [PageWords β]

/-- **The cache holds `v`**, by block number. -/
structure Holds (v : ℕ → β) (s : Store (Mem β) β) (role : ℕ → ℕ × ℕ) : Prop where
  page : ∀ f ∈ s.mem.group, ∀ n, role f = (0, n) →
    (s.mem.pages f).uva = 4096 * n ∧ (s.mem.pages f).sector = 8 * n
  resident : ∀ f ∈ s.mem.group, ∀ n, role f = (0, n) → s.mem.data f = v n
  stored : ∀ n, FsPage n → (∀ f ∈ s.mem.group, role f ≠ (0, n)) → s.disk (8 * n) = v n
  honest : ∀ w ∈ s.mem.writes, w.1 = w.2
  /-- Pages are swapped out by evictions only. -/
  swapped : ∀ g ∈ s.mem.group, ∀ q, role g = (1, q) → ∀ k < 512, SwappedOut (s.mem.table g k) →
    0 < s.mem.swap_counter_out

variable {K : ℕ} {v : ℕ → β} {s t u : Store (Mem β) β} {role : ℕ → ℕ × ℕ} {n f g : ℕ}

/-- **An eviction loses nothing**: the block goes to its own sector. -/
theorem Holds.evict (h : Holds v s role) (hb : Base K s.mem role) {group : List ℕ}
    (he : Evicts role s t f n g group) : Holds v t role := by
  have hmem := he.mem_iff hb.tree
  obtain ⟨huva, hsec⟩ := h.page f he.mem n he.role_eq
  have hloc : (s.mem.pages f).uva / SECTOR_SIZE = 8 * n := by
    rw [huva]
    unfold SECTOR_SIZE
    omega
  refine ⟨?_, ?_, ?_, ?_, ?_⟩
  · intro x hx k hr
    obtain ⟨hxf, hxm⟩ := (hmem x).mp hx
    rw [he.pages_eq hxf]
    exact h.page x hxm k hr
  · intro x hx k hr
    obtain ⟨-, hxm⟩ := (hmem x).mp hx
    rw [he.mem_eq]
    change upd s.mem.data g _ x = _
    rw [upd_of_ne]
    · exact h.resident x hxm k hr
    · rintro rfl
      rw [he.table_role] at hr
      cases hr
  · intro k hk hno
    rw [he.disk_eq, hloc]
    by_cases hkn : k = n
    · subst hkn
      rw [upd_self]
      exact h.resident f he.mem k he.role_eq
    · rw [upd_of_ne (by omega)]
      refine h.stored k hk fun x hx hr => hno x ((hmem x).mpr ⟨?_, hx⟩) hr
      rintro rfl
      rw [he.role_eq] at hr
      exact hkn (Prod.mk.inj hr).2.symm
  · intro w hw
    rw [he.mem_eq] at hw
    rcases List.mem_cons.mp hw with rfl | hw
    · exact hsec.trans hloc.symm
    · exact h.honest w hw
  · intro _ _ _ _ _ _ _
    rw [he.mem_eq]
    exact Nat.succ_pos _

omit [PageWords β] in
/-- **A node more**: a table changes no block, a page that knows its address
gives the cache its block. -/
theorem Holds.add (h : Holds v s role) (hb : Base K s.mem role) {id l q k : ℕ}
    (ha : Adds role s.mem t.mem id g l q k) (hdisk : t.disk = s.disk) (v' : ℕ → β)
    (hpage : l = 0 → (t.mem.pages id).uva = 4096 * (512 * q + k) ∧ (t.mem.pages id).sector = 8 * (512 * q + k))
    (hv : ∀ n, v' n = if l = 0 ∧ n = 512 * q + k then t.mem.data id else v n) :
    Holds v' t (upd role id (l, 512 * q + k)) := by
  have ht := hb.tree
  have hmem := ha.mem_iff
  have hidm : id ∈ t.mem.group := (hmem id).mpr (.inl rfl)
  refine ⟨?_, ?_, ?_, ?_, ?_⟩
  · intro f hf n hr
    rcases (hmem f).mp hf with rfl | hf
    · rw [upd_self] at hr
      obtain ⟨h0, rfl⟩ := Prod.mk.inj hr
      exact hpage h0
    · rw [ha.role_eq ht hf] at hr
      rw [ha.pages f (ha.ne ht hf)]
      exact h.page f hf n hr
  · intro f hf n hr
    rcases (hmem f).mp hf with rfl | hf
    · rw [upd_self] at hr
      obtain ⟨h0, rfl⟩ := Prod.mk.inj hr
      rw [hv, if_pos ⟨h0, rfl⟩]
    · rw [ha.role_eq ht hf] at hr
      have hfg : f ≠ g := by
        rintro rfl
        rw [ha.table_role] at hr
        cases hr
      rw [ha.data f hf hfg, h.resident f hf n hr, hv, if_neg]
      rintro ⟨rfl, rfl⟩
      exact ha.role_ne ht hf hr
  · intro n hn hno
    rw [hdisk, hv, if_neg]
    · refine h.stored n hn fun f hf hr => hno f ((hmem f).mpr (.inr hf)) ?_
      rw [ha.role_eq ht hf, hr]
    · rintro ⟨rfl, rfl⟩
      exact hno id hidm upd_self
  · intro w hw
    exact h.honest w (ha.writes ▸ hw)
  · intro f hf q' hr j hj hso
    rw [ha.out]
    rcases (hmem f).mp hf with rfl | hf
    · rw [upd_self] at hr
      have hl : l ≠ 0 := by
        have := (Prod.mk.inj hr).1
        omega
      rw [ha.clear hl j] at hso
      cases hso.2
    · rw [ha.role_eq ht hf] at hr
      by_cases hc : (f, j) = (g, k)
      · obtain ⟨rfl, rfl⟩ := Prod.mk.inj hc
        have := hso.1
        rw [ha.maps.1] at this
        cases this
      · rw [ha.entries f hf j hc] at hso
        exact h.swapped f hf q' hr j hj hso

theorem kept_holds : Kept K (Holds v) where
  evict hb he h := h.evict hb he
  table hb ha hl h := h.add (t := ⟨_, _⟩) hb ha rfl v (fun h0 => absurd h0 hl)
    fun n => by rw [if_neg fun hc => hl hc.1]

/-- Filling a page's frame gives the cache that block. -/
theorem Holds.setData (h : Holds v s role) (hb : Base K s.mem role)
    (hf : f ∈ s.mem.group) (hr : role f = (0, n)) (b : β) (m' : Mem β) (hm' : m' = { s.mem with
      data := upd s.mem.data f b
      table := upd s.mem.table f (PageWords.words b) }) : Base K m' role ∧ Holds (upd v n b) ⟨m', s.disk⟩ role := by
  have htab : ∀ g ∈ s.mem.group, (role g).1 ≠ 0 →
      ∀ k, upd s.mem.table f (PageWords.words b) g k = s.mem.table g k := by
    intro g _ hl k
    rw [upd_of_ne]
    rintro rfl
    rw [hr] at hl
    exact hl rfl
  have ht := hb.tree
  subst hm'
  refine ⟨⟨⟨ht.nodup, ht.used, ht.started, ht.top_mem, ht.top_role, ht.top_pte, ht.inj, ht.range,
    ?_, ?_⟩, hb.aligned, hb.busy, hb.room, hb.cur⟩, h.page, ?_, ?_, h.honest, ?_⟩
  · intro x hx hl
    obtain ⟨g, hg, hrg, hpte, hmaps⟩ := ht.up x hx hl
    have hgk := htab g hg (by rw [hrg]; simp) ((role x).2 % 512)
    exact ⟨g, hg, hrg, hpte, Eq.subst (motive := Maps _ _) hgk.symm hmaps⟩
  · intro g hg l q hrg k hk
    have hgk := htab g hg (by rw [hrg]; simp) k
    change upd s.mem.table f _ g k = _ ∨ (∃ x ∈ _, _ ∧ Maps _ _ (upd s.mem.table f _ g k)) ∨ _ ∧
      SwappedOut (upd s.mem.table f _ g k)
    rw [hgk]
    exact ht.down g hg l q hrg k hk
  · intro x hx k hrx
    change upd s.mem.data f b x = upd v n b k
    by_cases hxf : x = f
    · subst hxf
      rw [hr] at hrx
      rw [← (Prod.mk.inj hrx).2, upd_self, upd_self]
    · rw [upd_of_ne hxf, upd_of_ne, h.resident x hx k hrx]
      rintro rfl
      exact hxf (ht.inj x hx f hf (hrx.trans hr.symm))
  · intro k hk hno
    change s.disk (8 * k) = upd v n b k
    rw [upd_of_ne, h.stored k hk hno]
    rintro rfl
    exact hno f hf hr
  · intro g hg q hrg k hk hso
    have hgk := htab g hg (by rw [hrg]; simp) k
    exact h.swapped g hg q hrg k hk (Eq.subst (motive := SwappedOut) hgk hso)

/-! ## Reads and writes -/

variable {E : Halt → Prop} (hb : Base K s.mem role) (h : Holds v s role)
include hb h

/-- **A block that was never evicted is brought in as it is**: with its data
when they were there or are loaded. -/
theorem wp_cacheSwapin_holds (hE : s.mem.capacity ≤ 258 → E .reclaimFailed) (hn : FsPage n)
    (load : Bool) (hso : ¬ SwappedOut (lookupPte s.mem (4096 * n))) :
    wp E (cacheSwapin (8 * n) load) (fun va t => va = 4096 * n ∧ ∃ role' v' f, Base K t.mem role' ∧
      Holds v' t role' ∧ Static s.mem t.mem ∧ f ∈ t.mem.group ∧ role' f = (0, n) ∧
      (∀ k ≠ n, v' k = v k) ∧ (load = true → v' n = v n)) s := by
  refine wp_mono (wp_cacheSwapin kept_holds hb h hE hn (fun hso' => absurd hso' hso) load) ?_
  rintro va t ⟨rfl, role1, u, hu, hhu, hst, hcase⟩
  refine ⟨rfl, ?_⟩
  rcases hcase with ⟨f, hf, hr, rfl⟩ | ⟨-, id, low, hload, huva, hdata⟩ | ⟨hso', -⟩
  · exact ⟨role1, v, f, hu, hhu, hst, hf, hr, fun _ _ => rfl, fun _ => rfl⟩
  · have ha := hload.toAdds
    have hbt := ha.base hu fun _ => by rw [huva]; omega
    let v' : ℕ → β := fun k => if k = n then t.mem.data id else v k
    have hht := hhu.add hu ha hload.disk v' (fun _ => by rw [Nat.div_add_mod]; exact ⟨huva, hload.sector⟩)
      fun k => by simp [v', Nat.div_add_mod]
    rw [Nat.div_add_mod] at hbt hht
    refine ⟨_, v', id, hbt, hht, hst.trans ha.static, (ha.mem_iff id).mpr (.inl rfl),
      upd_self, fun k hk => if_neg hk, fun hl => ?_⟩
    have hstored := hhu.stored n hn fun f hf hr => ha.role_ne hu.tree hf (by rw [hr, Nat.div_add_mod])
    simp only [v', if_true]
    rw [hdata hl, hstored]
  · exact absurd hso' hso

/-- **A read returns what the cache holds.** -/
theorem wp_cachedBlockRead (hp : s.mem.policy = .writeBack)
    (hE : s.mem.capacity ≤ 258 → E .reclaimFailed) (hn : FsPage n)
    (hso : ¬ SwappedOut (lookupPte s.mem (4096 * n))) :
    wp E (cachedBlockRead (8 * n)) (fun b t => b = v n ∧ ∃ role', Base K t.mem role' ∧
      Holds v t role' ∧ Static s.mem t.mem) s := by
  unfold cachedBlockRead
  simp only [wp_bind, wp_getMem, hp]
  refine wp_mono (wp_cacheSwapin_holds hb h hE hn true hso) ?_
  rintro va t ⟨rfl, role', v', f, hbt, ht, hst, hf, hr, hv', hvn⟩
  obtain rfl : v' = v := by
    funext k
    by_cases hk : k = n
    · rw [hk]; exact hvn rfl
    · exact hv' k hk
  simp only [memcpyUva2kva, wp_bind]
  refine wp_uva2kva (hbt.tree.maps_lookupPte hf hr) ?_
  exact ⟨ht.resident f hf n hr, role', hbt, ht, hst⟩

/-- **A write changes one block of what the cache holds.** -/
theorem wp_cachedBlockWrite (hp : s.mem.policy = .writeBack)
    (hE : s.mem.capacity ≤ 258 → E .reclaimFailed) (hn : FsPage n)
    (hso : ¬ SwappedOut (lookupPte s.mem (4096 * n))) (b : β) :
    wp E (cachedBlockWrite b (8 * n)) (fun _ t => ∃ role', Base K t.mem role' ∧
      Holds (upd v n b) t role' ∧ Static s.mem t.mem) s := by
  unfold cachedBlockWrite
  simp only [wp_bind, wp_getMem, hp]
  refine wp_mono (wp_cacheSwapin_holds hb h hE hn false hso) ?_
  rintro va t ⟨rfl, role', v', f, hbt, ht, hst, hf, hr, hv', -⟩
  simp only [memcpyKva2uva, wp_bind]
  refine wp_uva2kva (hbt.tree.maps_lookupPte hf hr) ?_
  have hvv : upd v n b = upd v' n b := by
    funext k
    by_cases hk : k = n
    · rw [hk, upd_self, upd_self]
    · rw [upd_of_ne hk, upd_of_ne hk, hv' k hk]
  rw [hvv]
  obtain ⟨hb', ht'⟩ := ht.setData hbt hf hr b _ rfl
  exact ⟨role', hb', ht', hst.trans ⟨rfl, rfl, rfl, rfl, rfl⟩⟩

end OsLab.PageCache
