import OsLab.Kmalloc.Model
import OsLab.Common.Buddy
import Mathlib.Data.Finset.Card
/-!
# The pool as a buddy tree

`Rep` ties the allocator's memory to a buddy tree: the list of each order,
followed through memory, holds the free blocks of that order, and every
block in use has its header. Taking a block off a list, halving it, merging
it with its buddy and putting it back are each one replacement in the tree.
-/

namespace OsLab.Kmalloc

open Buddy List

/-! ## Lists in memory -/

/-- The list `l` is found in memory from the pointer `a`. -/
def Chain (mem : ℕ → ℕ) : ℕ → List ℕ → Prop
  | a, [] => a = 0
  | a, x :: xs => a = x ∧ x ≠ 0 ∧ Chain mem (mem x) xs

variable {mem : ℕ → ℕ} {a fuel size order v x k' k m : ℕ} {l : List ℕ}

theorem Chain.congr {mem' : ℕ → ℕ} (h : Chain mem a l) (hsame : ∀ x ∈ l, mem' x = mem x) :
    Chain mem' a l := by
  induction l generalizing a with
  | nil => exact h
  | cons x xs ih =>
    obtain ⟨rfl, hx, hxs⟩ := h
    refine ⟨rfl, hx, ?_⟩
    rw [hsame a mem_cons_self]
    exact ih hxs fun y hy => hsame y (mem_cons_of_mem _ hy)

theorem Chain.upd_of_notMem (h : Chain mem a l) (hx : x ∉ l) : Chain (upd mem x v) a l := by
  refine h.congr fun y hy => upd_of_ne ?_
  rintro rfl
  exact hx hy

/-- A link leads to a member or is null. -/
theorem Chain.links (h : Chain mem a l) : (a = 0 ∨ a ∈ l) ∧ ∀ x ∈ l, mem x = 0 ∨ mem x ∈ l := by
  induction l generalizing a with
  | nil => exact ⟨.inl h, nofun⟩
  | cons b l ih =>
    obtain ⟨rfl, -, hrest⟩ := h
    obtain ⟨hnext, hlinks⟩ := ih hrest
    refine ⟨.inr mem_cons_self, fun x hx => ?_⟩
    rcases mem_cons.mp hx with rfl | hx
    · exact hnext.imp_right (mem_cons_of_mem _)
    · exact (hlinks x hx).imp_right (mem_cons_of_mem _)

/-- A link that is no block of the list. -/
def Link.Outside (l : List ℕ) : Link → Prop
  | .head _ => True
  | .next a => a ∉ l

/-- **The search of `merge_block`** finds the block if the list has it, and
taking it out leaves the rest of the list. -/
theorem findBuddy_spec {h : Heap} {buddy : ℕ} {prev : Link}
    (hc : Chain h.mem (prev.get h) l) (hn : l.Nodup) (hfuel : l.length < fuel)
    (hout : prev.Outside l) :
    buddy ∉ l ∧ findBuddy h buddy fuel prev = none ∨
    buddy ∈ l ∧ ∃ p, findBuddy h buddy fuel prev = some p ∧ (p = prev ∨ ∃ y ∈ l, p = .next y) ∧
      Chain (p.set h (h.mem buddy)).mem (prev.get (p.set h (h.mem buddy))) (l.erase buddy) := by
  induction l generalizing prev fuel with
  | nil =>
    refine .inl ⟨not_mem_nil, ?_⟩
    cases fuel with
    | zero => rfl
    | succ fuel =>
      have hzero : prev.get h = 0 := hc
      unfold findBuddy
      rw [if_pos hzero]
  | cons x xs ih =>
    obtain ⟨hx, hx0, hxs⟩ := hc
    obtain ⟨hxn, hn⟩ := nodup_cons.mp hn
    obtain ⟨fuel, rfl⟩ : ∃ f, fuel = f + 1 := ⟨fuel - 1, by simp only [length_cons] at hfuel; omega⟩
    simp only [length_cons, Nat.add_lt_add_iff_right] at hfuel
    unfold findBuddy
    simp only [hx, if_neg hx0]
    by_cases hb : x = buddy
    · subst hb
      rw [if_pos rfl]
      refine .inr ⟨mem_cons_self, prev, rfl, .inl rfl, ?_⟩
      rw [erase_cons_head]
      cases prev with
      | head idx => simpa only [Link.get, Link.set, upd_self] using hxs
      | next a =>
        have ha : a ∉ xs := fun hmem => hout (mem_cons_of_mem _ hmem)
        simpa only [Link.get, Link.set, upd_self] using hxs.upd_of_notMem ha
    · rw [if_neg hb]
      have hlink : Chain h.mem ((Link.next x).get h) xs := hxs
      rcases ih hlink hn hfuel hxn with ⟨hnot, hnone⟩ | ⟨hmem, p, hp, hpos, hch⟩
      · refine .inl ⟨?_, hnone⟩
        rintro (_ | ⟨_, hmem⟩)
        · exact hb rfl
        · exact hnot hmem
      · obtain ⟨y, hy, rfl⟩ : ∃ y ∈ x :: xs, p = .next y := by
          rcases hpos with rfl | ⟨y, hy, rfl⟩
          · exact ⟨x, mem_cons_self, rfl⟩
          · exact ⟨y, mem_cons_of_mem _ hy, rfl⟩
        refine .inr ⟨mem_cons_of_mem _ hmem, .next y, hp, .inr ⟨y, hy, rfl⟩, ?_⟩
        rw [erase_cons_tail (by simpa using hb)]
        refine ⟨?_, hx0, hch⟩
        cases prev with
        | head idx => exact hx
        | next a =>
          have hay : a ≠ y := by
            rintro rfl
            exact hout hy
          simp only [Link.get, Link.set] at hx ⊢
          rw [upd_of_ne hay, hx]

/-! ## The buddy of a block -/

theorem two_pow_mul_xor (k q : ℕ) : (2 ^ k * q) ^^^ 2 ^ k = 2 ^ k * (q ^^^ 1) := by
  have h : 2 ^ k * (q ^^^ 1) = (q ^^^ 1) <<< k := by rw [Nat.shiftLeft_eq, Nat.mul_comm]
  rw [h, Nat.shiftLeft_xor_distrib, Nat.shiftLeft_eq, Nat.shiftLeft_eq, one_mul, mul_comm]

/-- **The exclusive or finds the buddy.** -/
theorem buddies_xor {o : ℕ} (h : 2 ^ k ∣ o) : Buddies k o (o ^^^ 2 ^ k) := by
  obtain ⟨q, rfl⟩ := h
  rw [two_pow_mul_xor]
  rcases Nat.even_or_odd' q with ⟨r, rfl | rfl⟩
  · refine .inl ⟨?_, r, by ring⟩
    rw [Nat.xor_one_of_even (even_two_mul r)]
    ring
  · refine .inr ⟨?_, r, ?_⟩
    · rw [Nat.xor_one_of_odd (odd_two_mul_add_one r), Nat.add_sub_cancel]
      ring
    · rw [Nat.xor_one_of_odd (odd_two_mul_add_one r), Nat.add_sub_cancel]
      ring

/-! ## Sizes and headers -/

/-- The bytes `kmalloc` needs for a request: the header's too, and no less
than the smallest block. -/
def request (size : ℕ) : ℕ := max MIN_BLOCK_SIZE (size + HEADER_SIZE)

/-- The same, as the 64-bit sum gives it. -/
def needed (size : ℕ) : ℕ := max MIN_BLOCK_SIZE ((size + HEADER_SIZE) % 2 ^ 64)

theorem needed_eq (h : size + HEADER_SIZE < 2 ^ 64) : needed size = request size := by
  rw [needed, Nat.mod_eq_of_lt h, request]

theorem fitOrder_spec {total : ℕ} (hfuel : 23 ≤ fuel + order) :
    order ≤ fitOrder total fuel order ∧ (∀ j, order ≤ j → j < fitOrder total fuel order → 2 ^ j < total) ∧
    (fitOrder total fuel order ≤ 22 → total ≤ 2 ^ fitOrder total fuel order) := by
  induction fuel generalizing order with
  | zero =>
    unfold fitOrder
    exact ⟨le_rfl, fun j h1 h2 => by omega, fun hle => by omega⟩
  | succ fuel ih =>
    unfold fitOrder
    by_cases hc : order ≤ MAX_ORDER ∧ orderSize order < total
    · rw [if_pos hc]
      obtain ⟨h1, h2, h3⟩ := ih (show 23 ≤ fuel + (order + 1) by omega)
      refine ⟨by omega, fun j hj hlt => ?_, h3⟩
      by_cases he : j = order
      · rw [he]
        exact hc.2
      · exact h2 j (by omega) hlt
    · rw [if_neg hc]
      refine ⟨le_rfl, fun j h1 h2 => by omega, fun hle => ?_⟩
      by_contra hlt
      exact hc ⟨hle, by unfold orderSize; omega⟩

theorem headerOrder_header (hk : k ≤ 22) : headerOrder (header k m) = k := by
  unfold headerOrder header
  omega

/-- A word that is not taken for a header. -/
def Headless (word : ℕ) : Prop := headerMagic word ≠ HEADER_MAGIC

/-- No address of the pool is taken for a header. -/
def Plain (base : ℕ) : Prop := ∀ a, base ≤ a → a < base + POOL_BYTES → Headless a

theorem headerMagic_header (hk : k ≤ 22) : headerMagic (header k m) = m := by
  unfold headerMagic header
  omega

/-! ## The tree of the pool -/

/-- **The allocator's state is the tree `t`.** `F k` is the list of order
`k`; the blocks of `P` are being worked on and need no header. -/
structure Rep (h : Heap) (t : Buddy 18) (F : ℕ → List ℕ) (P : ℕ → Prop) : Prop where
  ready : h.kmalloc_ready = true
  base_pos : 0 < h.pool_base
  pool_end : h.pool_end = h.pool_base + POOL_BYTES
  chain : ∀ k, 4 ≤ k → k ≤ 22 → Chain h.mem (h.free_lists (orderIndex k)) (F k)
  nodup : ∀ k, (F k).Nodup
  mem_iff : ∀ k a, a ∈ F k ↔ ∃ o, a = h.pool_base + o ∧ Has 4 t 0 true o k
  used : ∀ o k, Has 4 t 0 false o k → ¬ P o → h.mem (h.pool_base + o) = header k HEADER_MAGIC
  merged : t.Merged

theorem orderIndex_ne (hk : 4 ≤ k) (hk' : 4 ≤ k') (hne : k' ≠ k) :
    orderIndex k' ≠ orderIndex k := by
  unfold orderIndex MIN_ORDER
  omega

namespace Rep

variable {h : Heap} {t t' : Buddy 18} {F : ℕ → List ℕ} {P : ℕ → Prop} {o k cur : ℕ}

theorem mem_of_has (hr : Rep h t F P) (hh : Has 4 t 0 true o k) : h.pool_base + o ∈ F k :=
  (hr.mem_iff k _).mpr ⟨o, rfl, hh⟩

/-- Neither the heads of the lists nor their links are taken for headers. -/
theorem headless (hr : Rep h t F P) (hplain : Plain h.pool_base) (h4 : 4 ≤ k) (hk : k ≤ 22) :
    Headless (h.free_lists (orderIndex k)) ∧ ∀ a ∈ F k, Headless (h.mem a) := by
  have hlink : ∀ a, a = 0 ∨ a ∈ F k → Headless a := by
    rintro a (rfl | ha)
    · exact (by decide : headerMagic 0 ≠ HEADER_MAGIC)
    · obtain ⟨o, rfl, hh⟩ := (hr.mem_iff k a).mp ha
      have hb := hh.bounds
      have hpos := Nat.two_pow_pos k
      have hpool : POOL_BYTES = 2 ^ (4 + 18) := rfl
      exact hplain _ (by omega) (by omega)
  obtain ⟨hhead, hlinks⟩ := (hr.chain k h4 hk).links
  exact ⟨hlink _ hhead, fun a ha => hlink _ (hlinks a ha)⟩

/-- A list is shorter than the search's bound. -/
theorem length_lt (hr : Rep h t F P) : (F k).length < POOL_BYTES / MIN_BLOCK_SIZE + 1 := by
  have hcard : (F k).toFinset.card ≤ (Finset.range 262144).card := by
    refine Finset.card_le_card_of_injOn (fun a => (a - h.pool_base) / 16) ?_ ?_
    · intro a ha
      obtain ⟨o, rfl, hh⟩ := (hr.mem_iff k a).mp (mem_toFinset.mp ha)
      obtain ⟨-, -, -, hle, -⟩ := hh.bounds
      have hpos := Nat.two_pow_pos k
      simp only [Finset.coe_range, Set.mem_Iio, Nat.add_sub_cancel_left]
      omega
    · intro a ha a' ha' he
      obtain ⟨o, rfl, hh⟩ := (hr.mem_iff k a).mp (mem_toFinset.mp ha)
      obtain ⟨o', rfl, hh'⟩ := (hr.mem_iff k a').mp (mem_toFinset.mp ha')
      have h16 : 16 ∣ o := (pow_dvd_pow 2 hh.bounds.1).trans (hh.dvd (dvd_zero _))
      have h16' : 16 ∣ o' := (pow_dvd_pow 2 hh'.bounds.1).trans (hh'.dvd (dvd_zero _))
      simp only [Nat.add_sub_cancel_left] at he
      omega
  rw [toFinset_card_of_nodup (hr.nodup k), Finset.card_range] at hcard
  have hbound : POOL_BYTES / MIN_BLOCK_SIZE = 262144 := rfl
  omega

/-- **A block is put on its list.** The tree has one more free block, and
no other block in use. -/
theorem push (hr : Rep h t F P) (P' : ℕ → Prop) (hm : t'.Merged) (hnew : Has 4 t' 0 true o k)
    (hnot : ∀ k', ¬ Has 4 t 0 true o k')
    (hfree : ∀ o' k', Has 4 t' 0 true o' k' ↔ Has 4 t 0 true o' k' ∨ o' = o ∧ k' = k)
    (hused : ∀ o' k', Has 4 t' 0 false o' k' → ¬ P' o' → Has 4 t 0 false o' k' ∧ ¬ P o') :
    Rep (pushBlock k (h.pool_base + o) h) t' (upd F k ((h.pool_base + o) :: F k)) P' := by
  have hk := hnew.bounds
  have hout : ∀ k', h.pool_base + o ∉ F k' := by
    intro k' hmem
    obtain ⟨o', he, hh⟩ := (hr.mem_iff k' _).mp hmem
    obtain rfl : o = o' := by omega
    exact hnot k' hh
  refine ⟨hr.ready, hr.base_pos, hr.pool_end, ?_, ?_, ?_, ?_, hm⟩
  · intro k' hk1 hk2
    by_cases hkk : k' = k
    · subst hkk
      simp only [pushBlock, upd_self]
      refine ⟨rfl, by have := hr.base_pos; omega, ?_⟩
      rw [upd_self]
      exact (hr.chain k' hk1 hk2).upd_of_notMem (hout k')
    · simp only [pushBlock, upd_of_ne hkk, upd_of_ne (orderIndex_ne hk.1 hk1 hkk)]
      exact (hr.chain k' hk1 hk2).upd_of_notMem (hout k')
  · intro k'
    by_cases hkk : k' = k
    · subst hkk
      rw [upd_self]
      exact nodup_cons.mpr ⟨hout k', hr.nodup k'⟩
    · rw [upd_of_ne hkk]
      exact hr.nodup k'
  · intro k' a
    by_cases hkk : k' = k
    · subst hkk
      rw [upd_self, mem_cons, hr.mem_iff]
      constructor
      · rintro (rfl | ⟨o', rfl, hh⟩)
        · exact ⟨o, rfl, hnew⟩
        · exact ⟨o', rfl, (hfree o' k').mpr (.inl hh)⟩
      · rintro ⟨o', rfl, hh⟩
        rcases (hfree o' k').mp hh with hh | ⟨rfl, -⟩
        · exact .inr ⟨o', rfl, hh⟩
        · exact .inl rfl
    · rw [upd_of_ne hkk, hr.mem_iff]
      refine exists_congr fun o' => and_congr_right fun _ => ?_
      rw [hfree]
      constructor
      · exact .inl
      · rintro (hh | ⟨-, he⟩)
        · exact hh
        · exact absurd he hkk
  · intro o' k' hh hP
    obtain ⟨hh', hP'⟩ := hused o' k' hh hP
    have hne : o' ≠ o := by
      rintro rfl
      exact hh.not_free hnew
    simp only [pushBlock]
    rw [upd_of_ne (by omega)]
    exact hr.used o' k' hh' hP'

/-- **A block is taken off its list.** The heap has the list without it,
and the tree has it in use. -/
theorem take (hr : Rep h t F P) (h' : Heap) (P' : ℕ → Prop) (hm : t'.Merged)
    (hk : Has 4 t 0 true o k) (hbase : h'.pool_base = h.pool_base)
    (hready : h'.kmalloc_ready = h.kmalloc_ready) (hend : h'.pool_end = h.pool_end)
    (hchain : Chain h'.mem (h'.free_lists (orderIndex k)) ((F k).erase (h.pool_base + o)))
    (hlists : ∀ i ≠ orderIndex k, h'.free_lists i = h.free_lists i)
    (hmem : ∀ a ∉ F k, h'.mem a = h.mem a)
    (hfree : ∀ o' k', Has 4 t' 0 true o' k' ↔ Has 4 t 0 true o' k' ∧ ¬ (o' = o ∧ k' = k))
    (hused : ∀ o' k', Has 4 t' 0 false o' k' → ¬ P' o' → Has 4 t 0 false o' k' ∧ ¬ P o') :
    Rep h' t' (upd F k ((F k).erase (h.pool_base + o))) P' := by
  have hout : ∀ {o' k' s}, Has 4 t 0 s o' k' → (s = true → k' ≠ k) → h.pool_base + o' ∉ F k := by
    intro o' k' s hh hne hin
    obtain ⟨o'', he, hh''⟩ := (hr.mem_iff k _).mp hin
    obtain rfl : o' = o'' := by omega
    obtain ⟨rfl, rfl⟩ := hh.unique_start hh''
    exact hne rfl rfl
  refine ⟨hready.trans hr.ready, by rw [hbase]; exact hr.base_pos, by rw [hend, hbase, hr.pool_end],
    ?_, ?_, ?_, ?_, hm⟩
  · intro k' hk1 hk2
    by_cases hkk : k' = k
    · subst hkk
      rw [upd_self]
      exact hchain
    · rw [upd_of_ne hkk, hlists _ (orderIndex_ne hk.bounds.1 hk1 hkk)]
      refine (hr.chain k' hk1 hk2).congr fun x hx => ?_
      obtain ⟨o', rfl, hh⟩ := (hr.mem_iff k' x).mp hx
      exact hmem _ (hout hh fun _ => hkk)
  · intro k'
    by_cases hkk : k' = k
    · subst hkk
      rw [upd_self]
      exact (hr.nodup k').erase _
    · rw [upd_of_ne hkk]
      exact hr.nodup k'
  · intro k' a
    by_cases hkk : k' = k
    · subst hkk
      rw [upd_self, (hr.nodup k').mem_erase_iff, hr.mem_iff, hbase]
      constructor
      · rintro ⟨hne, o', rfl, hh⟩
        exact ⟨o', rfl, (hfree o' k').mpr ⟨hh, fun he => hne (by rw [he.1])⟩⟩
      · rintro ⟨o', rfl, hh⟩
        obtain ⟨hh, hne⟩ := (hfree o' k').mp hh
        exact ⟨fun he => hne ⟨by omega, rfl⟩, o', rfl, hh⟩
    · rw [upd_of_ne hkk, hr.mem_iff, hbase]
      refine exists_congr fun o' => and_congr_right fun _ => ?_
      rw [hfree]
      exact ⟨fun hh => ⟨hh, fun he => hkk he.2⟩, And.left⟩
  · intro o' k' hh hP
    obtain ⟨hh', hP'⟩ := hused o' k' hh hP
    rw [hbase, hmem _ (hout hh' (by simp))]
    exact hr.used o' k' hh' hP'

/-! ## Acquiring a block -/

/-- **`pop_block`** answers with a free block, now being worked on, unless
its list is empty. -/
theorem pop (hr : Rep h t F fun _ => False) (hk1 : 4 ≤ k) (hk2 : k ≤ 22) :
    popBlock k h = (0, h) ∧ (∀ o, ¬ Has 4 t 0 true o k) ∨
    ∃ o t' F' h', popBlock k h = (h.pool_base + o, h') ∧ h'.pool_base = h.pool_base ∧
      Rep h' t' F' (· = o) ∧ Has 4 t 0 true o k ∧
      ∀ o' k', Has 4 t' 0 false o' k' ↔ Has 4 t 0 false o' k' ∨ o' = o ∧ k' = k := by
  have hc := hr.chain k hk1 hk2
  cases hF : F k with
  | nil =>
    rw [hF] at hc
    have hzero : h.free_lists (orderIndex k) = 0 := hc
    refine .inl ⟨?_, fun o hh => ?_⟩
    · unfold popBlock
      simp only [hzero, if_true]
    · have hmem := hr.mem_of_has hh
      rw [hF] at hmem
      exact not_mem_nil hmem
  | cons a rest =>
    rw [hF] at hc
    obtain ⟨hhead, ha, hrest⟩ := hc
    obtain ⟨o, rfl, hh⟩ := (hr.mem_iff k a).mp (by rw [hF]; exact mem_cons_self)
    obtain ⟨j, rfl⟩ : ∃ j, k = 4 + j := ⟨k - 4, by omega⟩
    obtain ⟨t', hm, hfree, hused⟩ := hh.exists_grab (dvd_zero _) hr.merged
    refine .inr ⟨o, t', _, _, ?_, ?_, hr.take { h with
      free_lists := upd h.free_lists (orderIndex (4 + j)) (h.mem (h.pool_base + o)) } (· = o) hm hh
      rfl rfl rfl ?_ ?_ (fun _ _ => rfl) hfree ?_, hh, hused⟩
    · unfold popBlock
      simp only [hhead, if_neg ha]
    · rfl
    · simp only [upd_self, hF, erase_cons_head]
      exact hrest
    · intro i hi
      exact upd_of_ne hi
    · intro o' k' hh' hne
      exact ⟨((hused o' k').mp hh').resolve_right fun he => hne he.1, not_false⟩

/-- **The inner loop of `acquire_block`** halves the block down to the
order asked for, and the upper halves go to their lists. -/
theorem split (hr : Rep h t F (· = o)) (hh : Has 4 t 0 false o cur)
    (hord : 4 ≤ order) (hle : order ≤ cur) :
    ∃ t' F', Rep (splitBlock order (h.pool_base + o) cur h) t' F' (· = o) ∧
      (splitBlock order (h.pool_base + o) cur h).pool_base = h.pool_base ∧
      ∀ o' k', Has 4 t' 0 false o' k' ↔ Has 4 t 0 false o' k' ∧ o' ≠ o ∨ o' = o ∧ k' = order := by
  induction cur generalizing h t F with
  | zero => omega
  | succ cur ih =>
    unfold splitBlock
    by_cases hlt : order < cur + 1
    · rw [if_pos hlt]
      obtain ⟨j, rfl⟩ : ∃ j, cur = 4 + j := ⟨cur - 4, by omega⟩
      obtain ⟨t1, hm, hfree, hused⟩ := hh.exists_halve (j := j) (dvd_zero _) hr.merged
      have hpos := Nat.two_pow_pos (4 + j)
      have hdouble : 2 ^ (4 + j + 1) = 2 ^ (4 + j) + 2 ^ (4 + j) := two_pow_double 4 j
      have hr1 := hr.push (o := o + 2 ^ (4 + j)) (k := 4 + j) (· = o) hm
        ((hfree _ _).mpr (.inr ⟨rfl, rfl⟩))
        (fun k' hk' => by
          have := (hh.eq_of_mem hk' (by omega) (by omega)).1
          simp at this)
        hfree
        fun o' k' hh' hne => ((hused o' k').mp hh').resolve_right fun he => hne he.1
      obtain ⟨t', F', hr', hbase, hused'⟩ := ih hr1 ((hused _ _).mpr (.inr ⟨rfl, rfl⟩)) (by omega)
      have haddr : h.pool_base + (o + 2 ^ (4 + j)) = h.pool_base + o + orderSize (4 + j) := by
        unfold orderSize
        omega
      rw [haddr] at hr' hbase
      refine ⟨t', F', hr', hbase, fun o' k' => ?_⟩
      rw [hused', hused]
      tauto
    · rw [if_neg hlt]
      obtain rfl : order = cur + 1 := by omega
      refine ⟨t, F, hr, rfl, fun o' k' => ⟨fun hh' => ?_, ?_⟩⟩
      · by_cases ho : o' = o
        · subst ho
          exact .inr ⟨rfl, (hh'.unique_start hh).2⟩
        · exact .inl ⟨hh', ho⟩
      · rintro (⟨hh', -⟩ | ⟨rfl, rfl⟩)
        · exact hh'
        · exact hh

/-- **The outer loop of `acquire_block`** fails only if no free block is
large enough. -/
theorem acquire (hr : Rep h t F fun _ => False) (hord : 4 ≤ order)
    (hle : order ≤ cur) (hfuel : 23 ≤ fuel + cur)
    (hlow : ∀ o k, Has 4 t 0 true o k → order ≤ k → cur ≤ k) :
    acquireFrom order fuel cur h = (0, h) ∧ (∀ o k, order ≤ k → ¬ Has 4 t 0 true o k) ∨
    ∃ o t' F' h', acquireFrom order fuel cur h = (h.pool_base + o, h') ∧
      h'.pool_base = h.pool_base ∧ Rep h' t' F' (· = o) ∧ (∀ k, ¬ Has 4 t 0 false o k) ∧
      ∀ o' k', Has 4 t' 0 false o' k' ↔ Has 4 t 0 false o' k' ∨ o' = o ∧ k' = order := by
  have hnone : 22 < cur → ∀ o k, order ≤ k → ¬ Has 4 t 0 true o k := by
    intro hcur o k hk hh
    have h1 := hlow o k hh hk
    have h2 := hh.bounds
    omega
  induction fuel generalizing cur with
  | zero => exact .inl ⟨rfl, hnone (by omega)⟩
  | succ fuel ih =>
    unfold acquireFrom
    by_cases hcur : cur ≤ MAX_ORDER
    · rw [if_pos hcur]
      rcases hr.pop (by omega) hcur with ⟨hpop, hempty⟩ | ⟨o, t1, F1, h₁, hpop, hbase, hr1, hh, hused⟩
      · rw [hpop]
        simp only [if_true]
        have hlow' : ∀ o k, Has 4 t 0 true o k → order ≤ k → cur + 1 ≤ k := by
          intro o k hh hk
          have hcase := hlow o k hh hk
          have hne : k ≠ cur := by
            rintro rfl
            exact hempty o hh
          omega
        exact ih (by omega) (by omega) hlow' fun hlt o k hk hh => by
          have h1 := hlow' o k hh hk
          have h2 := hh.bounds
          omega
      · have hpos := hr.base_pos
        have hfree : ∀ k, ¬ Has 4 t 0 false o k := fun k hh' => hh'.not_free hh
        rw [hpop]
        simp only [if_neg (show h.pool_base + o ≠ 0 by omega)]
        obtain ⟨t', F', hr', hbase', hused'⟩ := hr1.split ((hused _ _).mpr (.inr ⟨rfl, rfl⟩)) hord hle
        rw [hbase] at hr' hbase'
        refine .inr ⟨o, t', F', _, rfl, hbase', hr', hfree, fun o' k' => ?_⟩
        rw [hused', hused]
        constructor
        · rintro (⟨hh' | ⟨rfl, -⟩, hne⟩ | he)
          · exact .inl hh'
          · exact absurd rfl hne
          · exact .inr he
        · rintro (hh' | he)
          · refine .inl ⟨.inl hh', ?_⟩
            rintro rfl
            exact hfree k' hh'
          · exact .inr he
    · rw [if_neg hcur]
      exact .inl ⟨rfl, hnone (by unfold MAX_ORDER at hcur; omega)⟩

/-! ## Giving a block back -/

@[simp]
theorem set_pool_base (p : Link) (h : Heap) (v : ℕ) : (p.set h v).pool_base = h.pool_base := by
  cases p <;> rfl

@[simp]
theorem set_ready (p : Link) (h : Heap) (v : ℕ) : (p.set h v).kmalloc_ready = h.kmalloc_ready := by
  cases p <;> rfl

@[simp]
theorem set_pool_end (p : Link) (h : Heap) (v : ℕ) : (p.set h v).pool_end = h.pool_end := by
  cases p <;> rfl

theorem set_mem {p : Link} (h : Heap) : (p.set h v).mem x = h.mem x ∨ (p.set h v).mem x = v := by
  cases p with
  | head idx => exact .inl rfl
  | next addr =>
    by_cases hx : x = addr
    · exact .inr ((congrArg (upd h.mem addr v) hx).trans upd_self)
    · exact .inl (upd_of_ne hx)

section

variable (hr : Rep h t F (· = o)) (hh : Has 4 t 0 false o k)
include hr hh

/-- One round of `merge_block`: the buddy is not free, or it comes off its
list and the two are one block. -/
theorem merge_step (hk : k < 22) : let buddy := o ^^^ 2 ^ k
    let found := findBuddy h (h.pool_base + buddy) (POOL_BYTES / MIN_BLOCK_SIZE + 1)
      (.head (orderIndex k))
    found = none ∧ ¬ Has 4 t 0 true buddy k ∨
    ∃ p t' F', found = some p ∧ Has 4 t 0 true buddy k ∧
      Rep (p.set h (h.mem (h.pool_base + buddy))) t' F' (· = min o buddy) ∧
      ∀ x j, Has 4 t' 0 false x j ↔
        Has 4 t 0 false x j ∧ x ≠ o ∨ x = min o buddy ∧ j = k + 1 := by
  intro buddy found
  have hb := hh.bounds
  have hbud : Buddies k o buddy := buddies_xor (hh.dvd (dvd_zero _))
  have hc : Chain h.mem ((Link.head (orderIndex k)).get h) (F k) := hr.chain k hb.1 hk.le
  rcases findBuddy_spec hc (hr.nodup k) hr.length_lt trivial
    with ⟨hnot, hnone⟩ | ⟨hmem, p, hp, hpos, hch⟩
  · exact .inl ⟨hnone, fun hfree => hnot (hr.mem_of_has hfree)⟩
  · obtain ⟨o', he, hh'⟩ := (hr.mem_iff k _).mp hmem
    obtain rfl : buddy = o' := by omega
    obtain ⟨j, rfl⟩ : ∃ j, k = 4 + j := ⟨k - 4, by omega⟩
    obtain ⟨t', hm, hfree, hused⟩ := hh.exists_collapse hh' hbud (dvd_zero _) hr.merged
    refine .inr ⟨p, t', _, hp, hh', hr.take _ (· = min o buddy) hm hh' (set_pool_base ..)
      (set_ready ..) (set_pool_end ..) hch ?_ ?_ hfree ?_, hused⟩
    · intro i hi
      rcases hpos with rfl | ⟨y, -, rfl⟩
      · exact upd_of_ne hi
      · rfl
    · intro a ha
      rcases hpos with rfl | ⟨y, hy, rfl⟩
      · rfl
      · refine upd_of_ne ?_
        rintro rfl
        exact ha hy
    · intro x i hx hne
      exact ((hused x i).mp hx).resolve_right fun he => hne he.1

/-- **The loop of `merge_block`** ends with a block in use whose buddy is
not free, and the other blocks in use are as before. -/
theorem merge (hfuel : 23 ≤ fuel + k) :
    ∃ o' k' t' F' h', mergeFrom fuel (h.pool_base + o) k h = (h.pool_base + o', k', h') ∧
      h'.pool_base = h.pool_base ∧ Rep h' t' F' (· = o') ∧ Has 4 t' 0 false o' k' ∧
      (∀ x, Buddies k' o' x → ¬ Has 4 t' 0 true x k') ∧
      (∀ x j, Has 4 t' 0 false x j ∧ x ≠ o' ↔ Has 4 t 0 false x j ∧ x ≠ o) ∧
      ∀ x, Plain h.pool_base → Headless (h.mem x) → Headless (h'.mem x) := by
  induction fuel generalizing h t F o k with
  | zero =>
    have := hh.bounds
    omega
  | succ fuel ih =>
    unfold mergeFrom
    by_cases hk : k < MAX_ORDER
    · rw [if_pos hk]
      simp only [Nat.add_sub_cancel_left, orderSize]
      rcases hr.merge_step hh hk with ⟨hnone, hbud⟩ | ⟨p, t1, F1, hp, hfree, hr1, hused⟩
      · rw [hnone]
        refine ⟨o, k, t, F, h, rfl, rfl, hr, hh, fun x hx hfree => ?_, fun x j => Iff.rfl, fun _ _ => id⟩
        have hxor : Buddies k o (o ^^^ 2 ^ k) := buddies_xor (hh.dvd (dvd_zero _))
        exact hbud (hx.unique hxor ▸ hfree)
      · rw [hp]
        obtain ⟨o', k', t', F', h', he, hbase, hr', hh', hlast, hothers, hkeep⟩ :=
          ih hr1 ((hused _ _).mpr (.inr ⟨rfl, rfl⟩)) (by omega)
        rw [set_pool_base] at he hbase hkeep
        have haddr : (if h.pool_base + (o ^^^ 2 ^ k) < h.pool_base + o
            then h.pool_base + (o ^^^ 2 ^ k) else h.pool_base + o) =
            h.pool_base + min o (o ^^^ 2 ^ k) := by
          split <;> omega
        refine ⟨o', k', t', F', h', ?_, hbase, hr', hh', hlast, fun x j => ?_, fun x hplain hx => hkeep x hplain ?_⟩
        · simp only [haddr]
          exact he
        · rw [hothers, hused]
          constructor
          · rintro ⟨hx | ⟨hx, -⟩, hmin⟩
            · exact hx
            · exact absurd hx hmin
          · rintro ⟨hx, ho⟩
            refine ⟨.inl ⟨hx, ho⟩, fun hmin => ?_⟩
            rcases Nat.le_total o (o ^^^ 2 ^ k) with hle | hle
            · exact ho (hmin.trans (Nat.min_eq_left hle))
            · exact (hmin.trans (Nat.min_eq_right hle) ▸ hx).not_free hfree
        · have hb := hh.bounds
          rcases set_mem h with he | he
          · rwa [he]
          · rw [he]
            exact (hr.headless hplain hb.1 hk.le).2 _ (hr.mem_of_has hfree)
    · rw [if_neg hk]
      refine ⟨o, k, t, F, h, rfl, rfl, hr, hh, fun x hx hfree => ?_, fun x j => Iff.rfl, fun _ _ => id⟩
      -- a block of the largest order is the whole pool
      have h1 := hh.bounds
      have h2 := hfree.bounds
      obtain rfl : k = 22 := by
        unfold MAX_ORDER at hk
        omega
      rcases hx with ⟨he, -⟩ | ⟨he, -⟩ <;> omega

/-- **`merge_block`** puts the block back, and no other block in use has
changed. -/
theorem give : ∃ t' F', Rep (mergeBlock (h.pool_base + o) k h) t' F' (fun _ => False) ∧
      (mergeBlock (h.pool_base + o) k h).pool_base = h.pool_base ∧
      (∀ x j, Has 4 t' 0 false x j ↔ Has 4 t 0 false x j ∧ x ≠ o) ∧
      ∀ x, Plain h.pool_base → Headless (h.mem x) → Headless ((mergeBlock (h.pool_base + o) k h).mem x) := by
  obtain ⟨o', k', t1, F1, h1, he, hbase, hr1, hh1, hlast, hothers, hkeep⟩ :=
    hr.merge hh (show 23 ≤ MAX_ORDER + 1 + k by unfold MAX_ORDER; omega)
  obtain ⟨j, rfl⟩ : ∃ j, k' = 4 + j := ⟨k' - 4, by have := hh1.bounds; omega⟩
  obtain ⟨t', hm, hfree, hused⟩ := hh1.exists_drop (dvd_zero _) hr1.merged hlast
  have hr' := hr1.push (fun _ => False) hm ((hfree _ _).mpr (.inr ⟨rfl, rfl⟩))
    (fun _ => hh1.not_free) hfree (fun x i hx _ => (hused x i).mp hx)
  rw [hbase] at hr'
  have hmerge : mergeBlock (h.pool_base + o) k h = pushBlock (4 + j) (h.pool_base + o') h1 := by
    unfold mergeBlock
    rw [he]
  rw [hmerge]
  refine ⟨t', _, hr', hbase, fun x i => ?_, fun x hplain hx => ?_⟩
  · rw [hused, hothers]
  · have hb := hh1.bounds
    show Headless (upd h1.mem _ _ x)
    by_cases hxo : x = h.pool_base + o'
    · rw [hxo, upd_self]
      exact (hr1.headless (hbase ▸ hplain) hb.1 hb.2.1).1
    · rw [upd_of_ne hxo]
      exact hkeep x hplain hx

/-! ## The interface -/

end

/-- A store that misses the free lists and leaves a header right. -/
theorem store (hr : Rep h t F P) (P' : ℕ → Prop) (hfree : ∀ k, a ∉ F k)
    (hused : ∀ o k, Has 4 t 0 false o k → ¬ P' o →
      a ≠ h.pool_base + o ∧ ¬ P o ∨ a = h.pool_base + o ∧ v = header k HEADER_MAGIC) : Rep (h.store a v) t F P' := by
  refine ⟨hr.ready, hr.base_pos, hr.pool_end, ?_, hr.nodup, hr.mem_iff, ?_, hr.merged⟩
  · intro k hk1 hk2
    exact (hr.chain k hk1 hk2).upd_of_notMem (hfree k)
  · intro o k hh hP
    show upd h.mem a v (h.pool_base + o) = _
    rcases hused o k hh hP with ⟨hne, hP'⟩ | ⟨rfl, rfl⟩
    · rw [upd_of_ne hne.symm]
      exact hr.used o k hh hP'
    · exact upd_self

/-- An address inside a block in use is on no list. -/
theorem notMem_of_used (hr : Rep h t F P) (hh : Has 4 t 0 false o k) (h1 : o ≤ x)
    (h2 : x < o + 2 ^ k) : h.pool_base + x ∉ F k' := by
  intro hmem
  obtain ⟨o', he, hh'⟩ := (hr.mem_iff k' _).mp hmem
  obtain rfl : x = o' := by omega
  have := (hh.eq_of_mem hh' h1 h2).1
  simp at this

/-- **`kmalloc`** answers with a block that was not in use and is large
enough, or there is no such free block. -/
theorem kmalloc_spec (hr : Rep h t F fun _ => False) (hpos : size ≠ 0) :
    kmalloc size h = (0, h) ∧ (∀ o k, needed size ≤ 2 ^ k → ¬ Has 4 t 0 true o k) ∨
    ∃ o order t' F' h', kmalloc size h = (h.pool_base + o + HEADER_SIZE, h') ∧
      h'.pool_base = h.pool_base ∧ Rep h' t' F' (fun _ => False) ∧ needed size ≤ 2 ^ order ∧
      (∀ k, ¬ Has 4 t 0 false o k) ∧
      ∀ o' k', Has 4 t' 0 false o' k' ↔ Has 4 t 0 false o' k' ∨ o' = o ∧ k' = order := by
  have htotal : (if (size + HEADER_SIZE) % 2 ^ 64 < MIN_BLOCK_SIZE then MIN_BLOCK_SIZE
      else (size + HEADER_SIZE) % 2 ^ 64) = needed size := by
    unfold needed
    split <;> omega
  unfold kmalloc
  simp only [hr.ready, if_true, if_neg hpos, htotal]
  obtain ⟨h4, hlow, hfit⟩ := fitOrder_spec
    (show 23 ≤ MAX_ORDER + 1 + MIN_ORDER by unfold MAX_ORDER; omega)
  generalize hord : fitOrder (needed size) (MAX_ORDER + 1) MIN_ORDER = order at h4 hlow hfit ⊢
  -- a block that is large enough has at least this order
  have hlarge : ∀ o k, Has 4 t 0 true o k → needed size ≤ 2 ^ k → order ≤ k := by
    intro o k hh hk
    by_contra hlt
    have := hlow k hh.bounds.1 (by omega)
    omega
  by_cases hmax : MAX_ORDER < order
  · rw [if_pos hmax]
    refine .inl ⟨rfl, fun o k hk hh => ?_⟩
    have h1 := hlarge o k hh hk
    have h2 := hh.bounds
    unfold MAX_ORDER at hmax
    omega
  · rw [if_neg hmax]
    have hle : order ≤ 22 := by
      unfold MAX_ORDER at hmax
      omega
    have hfuel : 23 ≤ (MAX_ORDER + 1 - order) + order := by
      unfold MAX_ORDER
      omega
    unfold acquireBlock
    rcases hr.acquire h4 le_rfl hfuel (fun o k _ hk => hk) with
      ⟨hnone, hempty⟩ | ⟨o, t', F', h', hacq, hbase, hr', hnot, hused⟩
    · rw [hnone]
      exact .inl ⟨rfl, fun o k hk hh => hempty o k (hlarge o k hh hk) hh⟩
    · rw [hacq]
      have hpos := hr.base_pos
      simp only [if_neg (show h.pool_base + o ≠ 0 by omega)]
      have hnew : Has 4 t' 0 false o order := (hused _ _).mpr (.inr ⟨rfl, rfl⟩)
      refine .inr ⟨o, order, t', F', _, rfl, hbase, ?_, hfit hle, hnot, hused⟩
      rw [← hbase]
      refine hr'.store (fun _ => False) (fun k => hr'.notMem_of_used hnew le_rfl ?_) ?_
      · have := Nat.two_pow_pos order
        omega
      · intro o' k' hh' _
        by_cases ho : o' = o
        · subst ho
          exact .inr ⟨rfl, by rw [(hh'.unique_start hnew).2]⟩
        · exact .inl ⟨by omega, ho⟩

/-- **`kfree` of a block in use** gives it back, and only it. -/
theorem kfree_spec (hr : Rep h t F fun _ => False) (hh : Has 4 t 0 false o k) :
    ∃ t' F', Rep (kfree (h.pool_base + o + HEADER_SIZE) h) t' F' (fun _ => False) ∧
      (kfree (h.pool_base + o + HEADER_SIZE) h).pool_base = h.pool_base ∧
      (∀ x j, Has 4 t' 0 false x j ↔ Has 4 t 0 false x j ∧ x ≠ o) ∧
      (Plain h.pool_base → Headless ((kfree (h.pool_base + o + HEADER_SIZE) h).mem (h.pool_base + o))) := by
  have hb := hh.bounds
  have hpos := Nat.two_pow_pos k
  have hk : k ≤ 22 := by omega
  have hword := hr.used o k hh not_false
  have hin : ¬ (h.pool_base + o < h.pool_base ∨ h.pool_end ≤ h.pool_base + o) := by
    have hpool : POOL_BYTES = 2 ^ 22 := rfl
    rw [hr.pool_end, hpool]
    omega
  unfold kfree
  simp only [hr.ready, if_true, Nat.add_sub_cancel, if_neg hin, hword, headerOrder_header hk,
    headerMagic_header hk]
  rw [if_neg (by unfold HEADER_SIZE; omega), if_neg (by unfold MAX_ORDER MIN_ORDER; omega)]
  have hr' : Rep (h.store (h.pool_base + o) (header k 0)) t F (· = o) := by
    refine hr.store (· = o) (fun k' => hr.notMem_of_used hh le_rfl (by omega)) ?_
    intro o' k' _ hne
    exact .inl ⟨by omega, not_false⟩
  obtain ⟨t', F', hr', hbase, hused, hkeep⟩ := hr'.give hh
  refine ⟨t', F', hr', hbase, hused, fun hplain => hkeep _ hplain ?_⟩
  show Headless (upd h.mem _ _ _)
  rw [upd_self]
  unfold Headless
  rw [headerMagic_header hk]
  decide

end Rep

/-- **`init_kmalloc`** leaves one free block, the pool. -/
theorem rep_initKmalloc (h : Heap) :
    Rep (initKmalloc h) .free (upd (fun _ => []) 22 [h.frame]) fun _ => False := by
  refine ⟨rfl, h.frame_pos, rfl, ?_, ?_, ?_, ?_, trivial⟩
  · intro k hk1 hk2
    by_cases hk : k = 22
    · subst hk
      exact ⟨rfl, h.frame_pos.ne', upd_self⟩
    · rw [upd_of_ne hk]
      exact upd_of_ne (orderIndex_ne (by decide) hk1 hk)
  · intro k
    by_cases hk : k = 22
    · rw [hk, upd_self]
      exact nodup_singleton _
    · rw [upd_of_ne hk]
      exact nodup_nil
  · intro k a
    by_cases hk : k = 22
    · rw [hk, upd_self, mem_singleton]
      refine ⟨fun he => ⟨0, he, rfl, rfl, rfl⟩, ?_⟩
      rintro ⟨o, rfl, -, rfl, -⟩
      rfl
    · rw [upd_of_ne hk]
      refine ⟨fun hmem => absurd hmem not_mem_nil, ?_⟩
      rintro ⟨o, -, -, -, he⟩
      exact absurd he hk
  · intro o k hh
    exact absurd hh.1 (by simp)

end OsLab.Kmalloc
