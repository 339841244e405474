import OsLab.PageCache.Thrash
/-!
# The cache is an array of blocks

With the policy fixed to write-back, the cache is the array until a block
that was evicted is touched again or met by a flush. The place that such a
block leaves is freed in the table of the swap area, far outside of it. And
the frame it is swapped in to keeps the address of whatever it held before,
so that the next eviction writes there.
Across changes of the policy, the cache is the array until a
write-through call meets a cached page that disagrees with it.

One more state is left out of both: a flush that puts the new directory
in a frame whose back pointer is still set, which makes the directory
itself a candidate for eviction.
-/

namespace OsLab.PageCache

open Prog Bytes

variable {β : Type} [PageWords β] {K n : ℕ}

/-! ## A first state -/

/-- The first state of a machine whose frames were all free, with a card
full of zeros. Stores outside `swap_using` trap, or they do not. -/
def coldStartWith (traps : Bool) : Store (Mem Block) Block :=
  { mem :=
      { pages := fun _ => ⟨none, 0, 0⟩
        start := fun f => decide (f = 0)
        table := fun _ _ => Pte.empty
        data := fun _ => fill 0
        cur_kernel_mem := 1
        group := [0]
        used := 1
        capacity := FS_CACHE_SIZE
        evict := .fifo
        cache_pgdir := 0
        policy := .writeBack
        env := ⟨0, traps, ⟨[], 0, MAX_PAGE_NUM - FS_CACHE_SIZE, true⟩⟩
        swap_using := fun _ => false
        swap_used := 0
        swap_counter_in := 0
        swap_counter_out := 0
        writes := [] }
    disk := fun _ => fill 0 }

def coldStart : Store (Mem Block) Block := coldStartWith false

theorem boot_coldStartWith (traps : Bool) : Boot (coldStartWith traps) fun _ => fill 0 := by
  have hbusy : busy (coldStartWith traps).mem = {0} := by
    ext f
    simp only [busy, coldStartWith, Finset.mem_filter, Finset.mem_range, Finset.mem_singleton,
      decide_eq_true_eq]
    exact ⟨And.right, fun h => ⟨by rw [h]; decide, h⟩⟩
  refine ⟨rfl, rfl, rfl, show 0 < MAX_PAGE_NUM by decide, rfl, fun _ => rfl,
    show 1 ≤ MAX_PAGE_NUM by decide, rfl, ?_,
    rfl, rfl, rfl, fun _ _ => rfl, show 0 + 1 + FS_CACHE_SIZE ≤ MAX_PAGE_NUM - FS_CACHE_SIZE by decide, rfl⟩
  rw [hbusy]
  decide

theorem boot_coldStart : Boot coldStart fun _ => fill 0 := boot_coldStartWith false

theorem fresh_coldStart (traps : Bool) : Fresh n 0 (coldStartWith traps) fun _ => (3, 0) := by
  refine ⟨⟨fun f _ n hr => absurd hr (by simp), fun g _ q hr => absurd hr (by simp)⟩, ⟨?_, ?_, ?_⟩,
    rfl⟩
  · intro f hf
    have : f ≠ 0 := by
      rintro rfl
      cases hf
    exact ⟨decide_eq_false this, rfl⟩
  · exact Nat.le_refl 1
  · decide

/-! ## Write-back -/

theorem keeps_writeBack : Keeps (β := β) K (fun s => s.mem.policy = .writeBack)
    fun s o => (o.Loaded s ∧ o.AllIn s ∧ o.NewDir s) ∧ ∀ p, o ≠ .policy p where
  safe _ hs hC := ⟨fun _ => hC.1.1, fun hw => absurd (hs.symm.trans hw) (by decide), hC.1.2.1,
    hC.1.2.2⟩
  next {s v o r t} _ hs hC _ hpol := by
    rw [hpol, hs]
    cases o with
    | policy p => exact absurd rfl (hC.2 p)
    | _ => rfl

/-- **The write-back cache is an array of blocks**, in every run that touches
no evicted block and flushes none: reads return the last data written, every page goes to
its own sector, and after a flush the card has everything. -/
theorem writeBack_refines {s : Store (Mem β) β} {c : ℕ → β} (hboot : Boot s c) (os : List (Op β))
    (hfs : ∀ o ∈ os, o.InFs) (hpol : ∀ o ∈ os, ∀ p, o ≠ .policy p)
    (hC : AllSteps (fun s o => o.Loaded s ∧ o.AllIn s ∧ o.NewDir s) s os) :
    ∃ t, (runOps os).exec s = .ok (results c os, t) ∧ (∀ w ∈ t.mem.writes, w.1 = w.2) ∧
      (os.getLast? = some .flush → ∀ n, FsPage n → t.disk (8 * n) = last c os n) := by
  have hC' : AllSteps (fun s o => (o.Loaded s ∧ o.AllIn s ∧ o.NewDir s) ∧
    ∀ p, o ≠ .policy p) s os :=
    hC.imp fun s o ho h => ⟨h, hpol o ho⟩
  obtain ⟨t, hrun, ht, -, hflush⟩ := hboot.good.run keeps_writeBack os hboot.policy hfs hC'
  obtain ⟨role, -, hh⟩ := ht.holds
  exact ⟨t, hrun, hh.honest, hflush⟩

/-- Two blocks are written and flushed; one of them is read back, written
again and flushed. -/
theorem writeBack_refines_six :
    ∃ t, (runOps [.write 131072 (fill 7), .write 131073 (fill 8), .flush, .read 131072,
          .write 131072 (fill 9), .flush]).exec coldStart =
        .ok ([none, none, none, some (fill 7), none, none], t) ∧ (∀ w ∈ t.mem.writes, w.1 = w.2) ∧
      t.disk (8 * 131072) = fill 9 ∧ t.disk (8 * 131073) = fill 8 := by
  have hn : FsPage 131072 ∧ FsPage 131073 := by
    unfold FsPage FS_START_SECTOR FS_END_SECTOR
    omega
  obtain ⟨t, hrun, hw, hd⟩ := writeBack_refines boot_coldStart
    [.write 131072 (fill 7), .write 131073 (fill 8), .flush, .read 131072,
      .write 131072 (fill 9), .flush] (by simp [Op.InFs, hn]) (by simp) (by decide +kernel)
  exact ⟨t, hrun, hw, hd rfl 131072 hn.1, hd rfl 131073 hn.2⟩

/-- A block is read, pushed out by others, read again and pushed out
again: its data go to sector `0`. Where the store to `swap_using` traps, the
kernel stops when the block is read again. -/
theorem writeBack_wrong_sector :
    (∀ traps, Boot (coldStartWith traps) fun _ => fill 0) ∧
      (∀ o ∈ thrash (β := Block) 131072 FS_CACHE_SIZE, o.InFs ∧ ∀ p, o ≠ .policy p) ∧
      (∃ r t, (runOps (thrash 131072 FS_CACHE_SIZE)).exec (coldStartWith false) = .ok (r, t) ∧
        (8 * 131072, 0) ∈ t.mem.writes) ∧
      (runOps (.read 131072 :: reads (131072 + 1) FS_CACHE_SIZE ++ [.read 131072])).exec (coldStartWith true) =
        .error .outOfBounds := by
  have hn : ∀ i < 2 * FS_CACHE_SIZE + 1, FsPage (131072 + i) := by
    intro i hi
    unfold FsPage FS_START_SECTOR FS_END_SECTOR
    unfold FS_CACHE_SIZE at hi
    omega
  have hout : ∀ traps, inSwap (coldStartWith traps).mem.env (8 * 131072) = !traps := by
    unfold inSwap swapId
    decide
  refine ⟨boot_coldStartWith, ?_, ?_, ?_⟩
  · intro o ho
    simp only [thrash, reads, List.mem_cons, List.mem_append, List.mem_map, List.mem_range'_1] at ho
    rcases ho with rfl | ⟨n, hn', rfl⟩ | rfl | ⟨n, hn', rfl⟩
    · exact ⟨hn 0 (by decide), by simp⟩
    · obtain ⟨i, rfl⟩ := Nat.exists_eq_add_of_le (show 131072 ≤ n by omega)
      exact ⟨hn i (by omega), by simp⟩
    · exact ⟨hn 0 (by decide), by simp⟩
    · obtain ⟨i, rfl⟩ := Nat.exists_eq_add_of_le (show 131072 ≤ n by omega)
      exact ⟨hn i (by omega), by simp⟩
  · exact exists_thrash (boot_coldStartWith false).base (fresh_coldStart false) rfl rfl (by decide) hn
      (by decide) (hout false)
  · exact readAgain_traps (boot_coldStartWith true).base (fresh_coldStart true) rfl rfl (by decide)
      (fun i hi => hn i (by omega)) (by decide) (hout true)

/-! ## Changing the policy -/

/-- The call evicts nothing. -/
def Op.Quiet (s : Store (Mem β) β) (o : Op β) : Prop :=
  ∀ r ∈ (o.prog.exec s).toOption, r.2.mem.swap_counter_out = s.mem.swap_counter_out

variable {s : Store (Mem β) β}

omit [PageWords β] in
/-- While nothing was evicted, no block is swapped out. -/
theorem Good.loaded {v : ℕ → β} (h : Good K v s) (hout : s.mem.swap_counter_out = 0)
    (hn : FsPage n) :
    ¬ SwappedOut (lookupPte s.mem (4096 * n)) := by
  intro hso
  obtain ⟨role, hb, hh⟩ := h.holds
  rcases hb.tree.lookupPte_cases hn with he | ⟨low, hlow, hr, he⟩
  · rw [he] at hso
    cases hso.2
  · rw [he] at hso
    have := hh.swapped low hlow _ hr _ (Nat.mod_lt _ (by omega)) hso
    omega

omit [PageWords β] in
theorem Good.allIn {v : ℕ → β} (h : Good K v s) (hout : s.mem.swap_counter_out = 0) :
    AllIn s.mem := by
  intro f hf hleaf k hk hso
  obtain ⟨role, hb, hh⟩ := h.holds
  obtain ⟨l, q, hr⟩ : ∃ l q, role f = (l + 1, q) := by
    have hl : (role f).1 ≠ 0 := fun h0 => Bool.false_ne_true (hleaf.symm.trans ((hb.tree.isLeaf_iff hf).mpr h0))
    exact ⟨(role f).1 - 1, (role f).2, Prod.ext (by simp only; omega) rfl⟩
  rcases hb.tree.down f hf l q hr k hk with he | ⟨g, -, -, hmaps⟩ | ⟨rfl, -⟩
  · rw [he] at hso
    cases hso.2
  · exact Bool.false_ne_true (hso.1.symm.trans hmaps.1)
  · have := hh.swapped f hf q hr k hk hso
    omega

theorem keeps_quiet : Keeps (β := β) K (fun s => s.mem.swap_counter_out = 0)
    fun s o => (o.Quiet s ∧ (s.mem.policy = .writeThrough → o.Agrees s) ∧ o.NewDir s) ∧ o.InFs where
  safe {s v o} hg hs hC := by
    refine ⟨fun _ => ?_, hC.1.2.1, ?_, hC.1.2.2⟩
    · cases o with
      | read n => exact hg.loaded hs hC.2
      | write n b => exact hg.loaded hs hC.2
      | flush => trivial
      | policy p => trivial
    · cases o with
      | flush => exact hg.allIn hs
      | _ => trivial
  next {s v o r t} _ hs hC hx _ := by
    have hq := hC.1.1 (r, t) (by rw [hx]; rfl)
    exact hq.trans hs

/-- **The policy can be changed at any time**, as long as write-through calls
meet no cached page that disagrees: reads return the last data written
under either policy, and a flush leaves nothing older on the card. -/
theorem policy_refines {s : Store (Mem β) β} {c : ℕ → β} (hboot : Boot s c) (os : List (Op β))
    (hfs : ∀ o ∈ os, o.InFs) (hquiet : AllSteps (fun s o => o.Quiet s) s os)
    (hC : AllSteps (fun s o => (s.mem.policy = .writeThrough → o.Agrees s) ∧ o.NewDir s) s os) :
    ∃ t, (runOps os).exec s = .ok (results c os, t) ∧
      (os.getLast? = some .flush → ∀ n, FsPage n → t.disk (8 * n) = last c os n) := by
  have hC' := (hquiet.and hC).imp fun s o ho h => And.intro h (hfs o ho)
  obtain ⟨t, hrun, -, -, hflush⟩ := hboot.good.run keeps_quiet os hboot.out hfs hC'
  exact ⟨t, hrun, hflush⟩

instance (s : Store (Mem β) β) (o : Op β) : Decidable (o.Quiet s) :=
  inferInstanceAs (Decidable (∀ r ∈ (o.prog.exec s).toOption, _))

/-- A call on a block without a page, if it is made past the pages. -/
def Op.Uncached (s : Store (Mem β) β) : Op β → Prop
  | .read n => (lookupPte s.mem (4096 * n)).present = false
  | .write n _ => (lookupPte s.mem (4096 * n)).present = false
  | .flush => True
  | .policy _ => True

instance (s : Store (Mem β) β) : ∀ o : Op β, Decidable (o.Uncached s)
  | .read _ => inferInstanceAs (Decidable (_ = false))
  | .write _ _ => inferInstanceAs (Decidable (_ = false))
  | .flush => isTrue trivial
  | .policy _ => isTrue trivial

omit [PageWords β] in
theorem Op.Uncached.agrees {o : Op β} (h : o.Uncached s) : o.Agrees s := by
  cases o with
  | read n => exact fun hp => absurd (hp.symm.trans h) (by decide)
  | write n b => exact fun hp => absurd (hp.symm.trans h) (by decide)
  | flush => trivial
  | policy p => trivial

/-- The policy changes to write-through and back between writes of two
blocks. -/
theorem policy_refines_seven :
    ∃ t, (runOps [.write 131072 (fill 1), .policy .writeThrough, .write 131073 (fill 2),
        .read 131073, .policy .writeBack, .read 131072, .flush]).exec coldStart =
        .ok ([none, none, none, some (fill 2), none, some (fill 1), none], t) ∧
      t.disk (8 * 131072) = fill 1 ∧ t.disk (8 * 131073) = fill 2 := by
  have hn : FsPage 131072 ∧ FsPage 131073 := by
    unfold FsPage FS_START_SECTOR FS_END_SECTOR
    omega
  have hC : AllSteps (fun s o => (s.mem.policy = .writeThrough → o.Uncached s) ∧ o.NewDir s)
      coldStart [.write 131072 (fill 1), .policy .writeThrough, .write 131073 (fill 2),
        .read 131073, .policy .writeBack, .read 131072, .flush] := by
    decide +kernel
  obtain ⟨t, hrun, hd⟩ := policy_refines boot_coldStart
    [.write 131072 (fill 1), .policy .writeThrough, .write 131073 (fill 2),
      .read 131073, .policy .writeBack, .read 131072, .flush] (by simp [Op.InFs, hn])
    (by decide +kernel) (hC.imp fun _ _ _ h => ⟨fun hp => (h.1 hp).agrees, h.2⟩)
  exact ⟨t, hrun, hd rfl 131072 hn.1, hd rfl 131073 hn.2⟩

/-- The read returned zeros, and the block on the card has the first data. -/
def readsOld : List (Option Block) → Store (Mem Block) Block → Bool
  | [none, none, some b, none, none], t => decide (b 0 = 0 ∧ t.disk (8 * 131072) 0 = 1)
  | _, _ => false

/-- A block is written, the policy changes to write-through, and the block
is read and written again: the read returns what the card had before, and
the flush puts the first data over the second. -/
theorem policy_stale : Boot coldStart (fun _ => fill 0) ∧
      AllSteps (fun s o => o.Quiet s) coldStart [.write 131072 (fill 1),
        .policy .writeThrough, .read 131072, .write 131072 (fill 2), .flush] ∧
      ∃ b t, (runOps [.write 131072 (fill 1), .policy .writeThrough, .read 131072,
          .write 131072 (fill 2), .flush]).exec coldStart =
          .ok ([none, none, some b, none, none], t) ∧
        b ≠ fill 1 ∧ t.disk (8 * 131072) ≠ fill 2 := by
  have hrun : returns ((runOps [.write 131072 (fill 1), .policy .writeThrough, .read 131072,
      .write 131072 (fill 2), .flush]).exec coldStart) readsOld = true := by
    decide +kernel
  refine ⟨boot_coldStart, by decide +kernel, ?_⟩
  obtain ⟨r, t, hx, htest⟩ := exists_of_returns hrun
  unfold readsOld at htest
  split at htest
  · next b =>
    obtain ⟨hb, hd⟩ := of_decide_eq_true htest
    refine ⟨b, t, hx, ?_, ?_⟩
    · rintro rfl
      exact absurd hb (by decide)
    · intro he
      rw [he] at hd
      exact absurd hd (by decide)
  · cases htest

end OsLab.PageCache
