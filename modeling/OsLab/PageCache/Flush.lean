import OsLab.PageCache.Holds
/-!
# Flushing the cache

`flush_fs_cache` walks the page table, writes every page back to the
sector of its address, frees every frame and starts over with an empty
directory. While it walks nothing changes but the card and which frames
are free (`Freeing`), so the walk reads the tree it started with.
-/

namespace OsLab.PageCache

open Prog

variable {β : Type} {role : ℕ → ℕ × ℕ}

/-! ## The frames under an entry -/

/-- Frame `f` is at or below the node of level `l` and number `q`. -/
def Under (role : ℕ → ℕ × ℕ) (l q f : ℕ) : Prop :=
  ∃ d, (role f).1 + d = l ∧ (role f).2 / 512 ^ d = q

/-- Below a table is the table, and what is below each of its entries. -/
theorem under_succ {l q f : ℕ} :
    Under role (l + 1) q f ↔ role f = (l + 1, q) ∨ ∃ j < 512, Under role l (512 * q + j) f := by
  constructor
  · rintro ⟨d, hd, hq⟩
    cases d with
    | zero =>
      rw [pow_zero, Nat.div_one] at hq
      exact .inl (Prod.ext (by simpa using hd) hq)
    | succ d =>
      rw [pow_succ, ← Nat.div_div_eq_div_mul] at hq
      refine .inr ⟨(role f).2 / 512 ^ d % 512, Nat.mod_lt _ (by omega), d, by omega, ?_⟩
      omega
  · rintro (hr | ⟨j, hj, d, hd, hq⟩)
    · exact ⟨0, by simp [hr], by simp [hr]⟩
    · refine ⟨d + 1, by omega, ?_⟩
      rw [pow_succ, ← Nat.div_div_eq_div_mul, hq]
      omega

theorem under_zero {q f : ℕ} : Under role 0 q f ↔ role f = (0, q) := by
  constructor
  · rintro ⟨d, hd, hq⟩
    obtain rfl : d = 0 := by omega
    rw [pow_zero, Nat.div_one] at hq
    exact Prod.ext (by simpa using hd) hq
  · intro hr
    exact ⟨0, by simp [hr], by simp [hr]⟩

namespace Tree

variable {m : Mem β} {role : ℕ → ℕ × ℕ} {f : ℕ}

/-- A frame below a node has that node above it. -/
theorem exists_of_under (h : Tree m role) {l q : ℕ} (hf : f ∈ m.group) (hl : l ≤ 3)
    (hu : Under role l q f) : ∃ g ∈ m.group, role g = (l, q) := by
  obtain ⟨d, hd, hq⟩ := hu
  induction d generalizing f with
  | zero =>
    rw [pow_zero, Nat.div_one] at hq
    exact ⟨f, hf, Prod.ext (by simpa using hd) hq⟩
  | succ d ih =>
    obtain ⟨g, hg, hrg, -⟩ := h.up f hf (by omega)
    refine ih hg (by rw [hrg]; simp only; omega) ?_
    rw [hrg, Nat.div_div_eq_div_mul]
    rw [pow_succ, Nat.mul_comm] at hq
    exact hq

/-- Every frame of the group is under the directory. -/
theorem under_top (h : Tree m role) (hf : f ∈ m.group) : Under role 3 0 f := by
  rcases h.range f hf with hr | ⟨hl, n, ⟨-, hn⟩, hq⟩
  · exact ⟨0, by rw [hr], by rw [hr]; rfl⟩
  · refine ⟨3 - (role f).1, by omega, ?_⟩
    rw [hq, Nat.div_div_eq_div_mul, ← pow_add, Nat.add_sub_cancel' hl.le]
    unfold FS_END_SECTOR at hn
    exact Nat.div_eq_of_lt (by norm_num; omega)

/-- Nothing is under an entry that maps no frame. -/
theorem not_under (h : Tree m role) {g k l q : ℕ} (hg : g ∈ m.group) (hrg : role g = (l + 1, q))
    (hk : k < 512) (hl : l < 3) (hent : (m.table g k).present = false) (hf : f ∈ m.group) :
    ¬ Under role l (512 * q + k) f := by
  intro hu
  obtain ⟨x, hx, hrx⟩ := h.exists_of_under hf (by omega) hu
  exact h.no_child hg hrg hk hent hl hx hrx

end Tree

/-! ## Freeing -/

/-- The walk is on its way from `s₀`, and has freed the frames of `P`. -/
structure Freeing (K : ℕ) (s₀ : Store (Mem β) β) (role : ℕ → ℕ × ℕ) (P : ℕ → Prop)
    (s : Store (Mem β) β) : Prop where
  inside : ∀ f, P f → f ∈ s₀.mem.group
  table : s.mem.table = s₀.mem.table
  data : s.mem.data = s₀.mem.data
  pages : s.mem.pages = s₀.mem.pages
  static : Static s₀.mem s.mem
  cur : s.mem.cur_kernel_mem = s₀.mem.cur_kernel_mem
  start : ∀ f, s.mem.start f = true ↔ s₀.mem.start f = true ∧ ¬ P f
  group : ∀ f, f ∈ s.mem.group ↔ f ∈ s₀.mem.group ∧ ¬ P f
  nodup : s.mem.group.Nodup
  used : s.mem.used = s.mem.group.length
  busy : (busy s.mem).card = K + s.mem.group.length
  honest : ∀ w ∈ s.mem.writes, w.1 = w.2
  written : ∀ f ∈ s₀.mem.group, ∀ n, role f = (0, n) → P f → s.disk (8 * n) = s₀.mem.data f
  rest : ∀ n, FsPage n → (∀ f ∈ s₀.mem.group, role f ≠ (0, n)) → s.disk (8 * n) = s₀.disk (8 * n)

variable {K : ℕ} {s₀ s : Store (Mem β) β} {role : ℕ → ℕ × ℕ} {P : ℕ → Prop} {v : ℕ → β}
  {E : Halt → Prop}

theorem Holds.freeing (h : Holds v s role) (hb : Base K s.mem role) :
    Freeing K s role (fun _ => False) s where
  inside _ hP := hP.elim
  table := rfl
  data := rfl
  pages := rfl
  static := .refl _
  cur := rfl
  start _ := by simp
  group _ := by simp
  nodup := hb.tree.nodup
  used := hb.tree.used
  busy := hb.busy
  honest := h.honest
  written _ _ _ _ hP := hP.elim
  rest _ _ _ := rfl

theorem Freeing.congr {P' : ℕ → Prop} (h : Freeing K s₀ role P s)
    (hin : ∀ f, P' f → f ∈ s₀.mem.group) (hP : ∀ f ∈ s₀.mem.group, (P f ↔ P' f)) :
    Freeing K s₀ role P' s := by
  have : P = P' := by
    funext f
    by_cases hf : f ∈ s₀.mem.group
    · exact propext (hP f hf)
    · exact propext (iff_of_false (fun hp => hf (h.inside f hp)) fun hp => hf (hin f hp))
  exact this ▸ h

/-- Freeing one frame of the tree, a page after its block is on the card. -/
theorem wp_freePageframe (ht : Tree s₀.mem role) (h : Freeing K s₀ role P s) {f : ℕ}
    (hf : f ∈ s₀.mem.group) (hnP : ¬ P f)
    (hw : ∀ n, role f = (0, n) → s.disk (8 * n) = s₀.mem.data f) :
    wp E (freePageframe f) (fun _ t => Freeing K s₀ role (fun x => P x ∨ x = f) t) s := by
  have hst : s.mem.start f = true := (h.start f).mpr ⟨(ht.started f hf).1, hnP⟩
  have hfs : f ∈ s.mem.group := (h.group f).mpr ⟨hf, hnP⟩
  have hlen := List.length_erase_of_mem hfs
  have hpos := List.length_pos_of_mem hfs
  simp only [freePageframe, wp_bind, wp_getMem, hst, wp_asserts, if_true, wp_modifyMem]
  refine
    { h with
      inside := fun x hx => hx.elim (h.inside x) fun he => he ▸ hf
      static := h.static.trans ⟨rfl, rfl, rfl, rfl, rfl⟩, start := ?_, group := ?_
      nodup := h.nodup.erase f, used := ?_, busy := ?_, written := ?_ }
  · intro x
    change upd s.mem.start f false x = true ↔ _
    by_cases hx : x = f
    · simp [hx]
    · rw [upd_of_ne hx, h.start x]
      simp [hx]
  · intro x
    change x ∈ s.mem.group.erase f ↔ _
    rw [h.nodup.mem_erase_iff, h.group x]
    constructor
    · rintro ⟨hx, hm, hp⟩
      exact ⟨hm, by simp [hx, hp]⟩
    · rintro ⟨hm, hp⟩
      exact ⟨fun he => hp (.inr he), hm, fun hp' => hp (.inl hp')⟩
  · change s.mem.used - 1 = (s.mem.group.erase f).length
    rw [hlen, h.used]
  · apply Nat.add_right_cancel (m := 1)
    refine (busy_start_false hst (ht.started f hf).2 rfl).trans ?_
    have := h.busy
    dsimp only
    omega
  · rintro x hx n hr (hp | rfl)
    · exact h.written x hx n hr hp
    · exact hw n hr

variable [PageWords β]

/-- What an entry of level `l` under number `q` frees. -/
def Sub (s₀ : Store (Mem β) β) (role : ℕ → ℕ × ℕ) (P : ℕ → Prop) (l q : ℕ) (f : ℕ) : Prop :=
  P f ∨ f ∈ s₀.mem.group ∧ Under role l q f

/-- **A page's entry**: its block goes to its sector, and its frame is
free. -/
theorem wp_freePage (hb : Base K s₀.mem role) (hh : Holds v s₀ role) (h : Freeing K s₀ role P s)
    {f n : ℕ} (hf : f ∈ s₀.mem.group) (hr : role f = (0, n)) (hnP : ¬ P f) :
    wp E (do fsCacheSwapFree (4096 * n); freePageframe f)
      (fun _ t => Freeing K s₀ role (fun x => P x ∨ x = f) t) s := by
  have ht := hb.tree
  obtain ⟨hn, -⟩ := ht.fsPage hf hr
  have hsec : 4096 * n / SECTOR_SIZE = 8 * n := by unfold SECTOR_SIZE; omega
  have hlook : Maps 0 f (lookupPte s.mem (4096 * n)) := by
    have hmaps := ht.maps_lookupPte hf hr
    unfold lookupPte at hmaps ⊢
    rw [h.table, h.static.pgdir]
    exact hmaps
  obtain ⟨-, hsector⟩ := hh.page f hf n hr
  simp only [fsCacheSwapFree, hsec, wp_bind, Nat.not_lt.mpr hn, if_false, wp_getMem]
  refine wp_uva2kva hlook ?_
  simp only [wp_sdWritePage]
  refine wp_freePageframe ht ?_ hf hnP ?_
  · refine
      { h with
        static := h.static.trans ⟨rfl, rfl, rfl, rfl, rfl⟩, honest := ?_, written := ?_, rest := ?_ }
    · intro w hw
      rcases List.mem_cons.mp hw with rfl | hw
      · change (s.mem.pages f).sector = 8 * n
        rw [h.pages, hsector]
      · exact h.honest w hw
    · intro x hx k hrx hP
      change upd s.disk (8 * n) _ (8 * k) = _
      rw [upd_of_ne]
      · exact h.written x hx k hrx hP
      · intro he
        obtain rfl : k = n := by omega
        exact hnP (ht.inj x hx f hf (hrx.trans hr.symm) ▸ hP)
    · intro k hk hno
      change upd s.disk (8 * n) _ (8 * k) = _
      rw [upd_of_ne]
      · exact h.rest k hk hno
      · intro he
        obtain rfl : k = n := by omega
        exact hno f hf hr
  · intro k hrk
    rw [hr] at hrk
    obtain rfl := (Prod.mk.inj hrk).2
    change upd s.disk (8 * n) (s.mem.data f) (8 * n) = _
    rw [upd_self, h.data]

variable {sub : ℕ → ℕ → CM β Unit}

/-- No page table of the cache has an entry that is swapped out. -/
def AllIn (m : Mem β) : Prop :=
  ∀ f ∈ m.group, isLeaf m f = false → ∀ k < 512, ¬ SwappedOut (m.table f k)

/-- **One entry of a table**: what is under it is freed. -/
theorem wp_freePte (hb : Base K s₀.mem role) (hh : Holds v s₀ role) (hall : AllIn s₀.mem)
    (h : Freeing K s₀ role P s) {g l q i va : ℕ} (hg : g ∈ s₀.mem.group) (hrg : role g = (l + 1, q))
    (hl : l < 3) (hi : i < 512) (hva : l = 0 → va = 4096 * (512 * q + i))
    (hnP : ∀ f ∈ s₀.mem.group, Under role l (512 * q + i) f → ¬ P f)
    (hsub : l ≠ 0 → ∀ f ∈ s₀.mem.group, role f = (l, 512 * q + i) →
      wp E (sub f va) (fun _ t => Freeing K s₀ role (Sub s₀ role P l (512 * q + i)) t) s) :
    wp E (freePte sub g va i)
      (fun _ t => Freeing K s₀ role (Sub s₀ role P l (512 * q + i)) t) s := by
  have ht := hb.tree
  have hin : ∀ f, Sub s₀ role P l (512 * q + i) f → f ∈ s₀.mem.group := fun f hs =>
    hs.elim (h.inside f) And.left
  -- an entry that maps no frame frees none
  have hnone : ∀ t, Freeing K s₀ role P t → (s₀.mem.table g i).present = false →
      Freeing K s₀ role (Sub s₀ role P l (512 * q + i)) t := by
    intro t htf hpres
    refine htf.congr hin fun f hf => ⟨.inl, fun hs => hs.elim id fun hu => ?_⟩
    exact absurd hu.2 (ht.not_under hg hrg hi hl hpres hf)
  unfold freePte
  simp only [wp_bind, wp_getPte, h.table]
  rcases ht.down g hg l q hrg i hi with he | ⟨f, hf, hr, he⟩ | ⟨rfl, he⟩
  · rw [he]
    exact hnone s h (by rw [he]; rfl)
  · obtain ⟨hp, hpfn, hleaf, huser⟩ := he
    by_cases hl0 : l = 0
    · subst hl0
      obtain rfl := hva rfl
      rw [decide_eq_true rfl] at hleaf
      simp only [hp, hleaf, huser rfl, hpfn, if_true]
      refine wp_mono (wp_freePage hb hh h hf hr (hnP f hf (under_zero.mpr hr))) ?_
      intro _ t htf
      refine htf.congr hin fun x hx => or_congr_right ?_
      rw [under_zero, and_iff_right hx]
      exact ⟨fun he => he ▸ hr, fun hrx => ht.inj x hx f hf (hrx.trans hr.symm)⟩
    · rw [decide_eq_false hl0] at hleaf
      simp only [hp, hleaf, hpfn, if_true, Bool.false_eq_true, if_false]
      exact hsub hl0 f hf hr
  · have hleaf : isLeaf s₀.mem g = false := by
      rw [Bool.eq_false_iff, Ne, ht.isLeaf_iff hg, hrg]
      simp
    exact absurd he (hall g hg hleaf i hi)

omit [PageWords β] in
theorem wp_freeLoop {entry : ℕ → CM β Unit} {I : ℕ → Store (Mem β) β → Prop} (n i : ℕ) (h0 : I i s)
    (hstep : ∀ j < i + n, ∀ t, I j t → wp E (entry j) (fun _ u => I (j + 1) u) t) :
    wp E (freeLoop entry n i) (fun _ t => I (i + n) t) s := by
  induction n generalizing i s with
  | zero =>
    rw [freeLoop_zero]
    exact h0
  | succ n ih =>
    rw [freeLoop_succ, wp_bind]
    refine wp_mono (hstep i (by omega) s h0) ?_
    intro _ t ht
    rw [← Nat.add_assoc, Nat.add_right_comm]
    exact ih (i + 1) ht fun j hj => hstep j (by omega)

/-- **A table**: everything under its entries is freed, and then the
table. -/
theorem wp_freeTable (hb : Base K s₀.mem role) (hh : Holds v s₀ role) (hall : AllIn s₀.mem)
    {va : ℕ → ℕ} {g l q : ℕ} (hl : l < 3) (hg : g ∈ s₀.mem.group) (hrg : role g = (l + 1, q))
    (h : Freeing K s₀ role P s) (hnP : ∀ f ∈ s₀.mem.group, Under role (l + 1) q f → ¬ P f)
    (hva : ∀ i < 512, va i = 4096 * 512 ^ l * (512 * q + i))
    (hsub : l ≠ 0 → ∀ i < 512, ∀ f ∈ s₀.mem.group, role f = (l, 512 * q + i) →
      ∀ (P' : ℕ → Prop) (t : Store (Mem β) β), Freeing K s₀ role P' t →
        (∀ x ∈ s₀.mem.group, Under role l (512 * q + i) x → ¬ P' x) →
        wp E (sub f (va i)) (fun _ u => Freeing K s₀ role (Sub s₀ role P' l (512 * q + i)) u) t) :
    wp E (do freeLoop (fun i => freePte sub g (va i) i) PTE_ENTRY_NUM 0; freePageframe g)
      (fun _ t => Freeing K s₀ role (Sub s₀ role P (l + 1) q) t) s := by
  have ht := hb.tree
  -- before entry `i`, what is under the entries below it is free
  let P' : ℕ → ℕ → Prop := fun i f => P f ∨ f ∈ s₀.mem.group ∧ ∃ j < i, Under role l (512 * q + j) f
  have hin : ∀ i f, P' i f → f ∈ s₀.mem.group := fun i f hp => hp.elim (h.inside f) And.left
  -- and a frame is under one entry only
  have hone : ∀ f i j, Under role l (512 * q + i) f → Under role l (512 * q + j) f → i = j := by
    rintro f i j ⟨d, hd, hq⟩ ⟨d', hd', hq'⟩
    obtain rfl : d = d' := by omega
    omega
  refine wp_then (wp_freeLoop (I := fun i t => Freeing K s₀ role (P' i) t) PTE_ENTRY_NUM 0 ?_ ?_)
    ?_
  · exact h.congr (hin 0) fun f _ => ⟨.inl, fun hp => hp.elim id fun ⟨_, j, hj, _⟩ => by omega⟩
  · intro i hi t htf
    have hi : i < 512 := by
      unfold PTE_ENTRY_NUM at hi
      omega
    have hnP' : ∀ f ∈ s₀.mem.group, Under role l (512 * q + i) f → ¬ P' i f := by
      rintro f hf hu (hp | ⟨-, j, hj, hu'⟩)
      · exact hnP f hf (under_succ.mpr (.inr ⟨i, hi, hu⟩)) hp
      · have := hone f i j hu hu'
        omega
    have hva0 : l = 0 → va i = 4096 * (512 * q + i) := by
      rintro rfl
      rw [hva i hi, pow_zero, Nat.mul_one]
    refine wp_mono (wp_freePte hb hh hall htf hg hrg hl hi hva0 hnP'
      fun hl0 f hf hr => hsub hl0 i hi f hf hr (P' i) t htf hnP') ?_
    intro _ u hu
    refine hu.congr (hin (i + 1)) fun f hf => ?_
    simp only [Sub, P', hf, true_and, Nat.exists_lt_succ_right, or_assoc]
  · intro _ t htf
    have hnPg : ¬ P' PTE_ENTRY_NUM g := by
      rintro (hp | ⟨-, j, -, d, hd, -⟩)
      · exact hnP g hg (under_succ.mpr (.inl hrg)) hp
      · rw [hrg] at hd
        simp only at hd
        omega
    refine wp_mono (wp_freePageframe ht htf hg hnPg fun n hr => ?_) ?_
    · rw [hrg] at hr
      cases hr
    · intro _ u hu
      refine hu.congr (fun f hs => hs.elim (h.inside f) And.left) fun f hf => ?_
      have hself : f = g ↔ role f = (l + 1, q) :=
        ⟨fun he => he ▸ hrg, fun hr => ht.inj f hf g hg (hr.trans hrg.symm)⟩
      rw [Sub, under_succ, hself, or_comm (a := role f = _)]
      simp only [P', hf, true_and, or_assoc, PTE_ENTRY_NUM]

/-- **`free_pgdir`** frees the tree under a table. -/
theorem wp_freePgdir (hb : Base K s₀.mem role) (hh : Holds v s₀ role) (hall : AllIn s₀.mem)
    {level : ℕ} (hlevel : level < 3) {g q va : ℕ} (hva : va = 4096 * 512 ^ (level + 1) * q)
    (hg : g ∈ s₀.mem.group) (hrg : role g = (level + 1, q)) (h : Freeing K s₀ role P s)
    (hnP : ∀ f ∈ s₀.mem.group, Under role (level + 1) q f → ¬ P f) :
    wp E (freePgdir level g va)
      (fun _ t => Freeing K s₀ role (Sub s₀ role P (level + 1) q) t) s := by
  induction level generalizing g q va P s with
  | zero =>
    refine wp_freeTable hb hh hall hlevel hg hrg h hnP (fun i _ => ?_) fun h0 => absurd rfl h0
    rw [hva]
    ring
  | succ level ih =>
    have hva' : ∀ i, va + i * 2 ^ (12 + (level + 1) * 9) = 4096 * 512 ^ (level + 1) * (512 * q + i) := by
      intro i
      rw [hva, pow_add 2, Nat.mul_comm _ 9, pow_mul]
      norm_num
      ring
    exact wp_freeTable hb hh hall hlevel hg hrg h hnP (fun i _ => hva' i) fun _ i hi f hf hr P' t htf hnP' =>
      ih (by omega) (hva' i) hf hr htf hnP'

/-! ## Starting over -/

/-- The frame the new directory of a flush is put in. -/
def flushFrame (m : Mem β) : Option ℕ :=
  nextFit (fun f => m.start f && !decide (f ∈ m.group)) MAX_PAGE_NUM m.cur_kernel_mem

omit [PageWords β] in
/-- A directory alone, with no entry. -/
theorem Tree.of_top {m : Mem β} {id : ℕ} (hgroup : m.group = [id]) (hused : m.used = 1)
    (hstart : m.start id = true) (hlt : id < MAX_PAGE_NUM) (htop : m.cache_pgdir = id)
    (hpte : (m.pages id).pte = none) (htable : ∀ k, m.table id k = Pte.empty) :
    Tree m fun _ => (3, 0) := by
  have hmem : ∀ f ∈ m.group, f = id := by
    intro f hf
    rw [hgroup] at hf
    exact List.mem_singleton.mp hf
  refine ⟨by simp [hgroup], by simp [hused, hgroup], ?_, by simp [hgroup, htop], rfl,
    by rw [htop]; exact hpte, ?_, fun _ _ => .inl rfl, ?_, ?_⟩
  · intro f hf
    rw [hmem f hf]
    exact ⟨hstart, hlt⟩
  · intro f hf g hg _
    rw [hmem f hf, hmem g hg]
  · intro f _ hl
    exact absurd hl (by simp)
  · intro g hg l q _ k _
    rw [hmem g hg]
    exact .inl (htable k)

/-- **A flush puts every block on the card** and starts over with the same
blocks, when no block is swapped out, the frame it takes for the new
directory has no back pointer left from an earlier use, and a group can be
forked for it. -/
theorem wp_flushFsCache (hb : Base K s.mem role) (h : Holds v s role)
    (hK : K + FS_CACHE_SIZE + 1 ≤ MAX_PAGE_NUM) (hin : AllIn s.mem)
    (hpte : ∀ id, flushFrame s.mem = some id → (s.mem.pages id).pte = none)
    (hforks : s.mem.env.caller.forks = true) : wp E flushFsCache (fun _ t =>
      (∃ role', Base K t.mem role' ∧ Holds v t role') ∧
      (∀ n, FsPage n → t.disk (8 * n) = v n) ∧ t.mem.capacity = FS_CACHE_SIZE ∧
      t.mem.policy = s.mem.policy ∧ t.mem.env = s.mem.env) s := by
  have ht := hb.tree
  unfold flushFsCache freeTopPgdir
  simp only [wp_bind, wp_getMem]
  refine wp_mono (wp_freePgdir hb h hin (by omega) (q := 0) (by omega) ht.top_mem ht.top_role
    (h.freeing hb) fun _ _ _ => id) ?_
  intro _ t htf
  have hall : ∀ f ∈ s.mem.group, Sub s role (fun _ => False) 3 0 f :=
    fun f hf => .inr ⟨hf, ht.under_top hf⟩
  have hgroup : t.mem.group = [] := by
    refine List.eq_nil_iff_forall_not_mem.mpr fun f hf => ?_
    obtain ⟨hm, hp⟩ := (htf.group f).mp hf
    exact hp (hall f hm)
  have hused : t.mem.used = 0 := by rw [htf.used, hgroup]; rfl
  -- the card now has every block
  have hdisk : ∀ n, FsPage n → t.disk (8 * n) = v n := by
    intro n hn
    by_cases hex : ∃ f ∈ s.mem.group, role f = (0, n)
    · obtain ⟨f, hf, hr⟩ := hex
      rw [htf.written f hf n hr (hall f hf), h.resident f hf n hr]
    · have hno : ∀ f ∈ s.mem.group, role f ≠ (0, n) := fun f hf hr => hex ⟨f, hf, hr⟩
      rw [htf.rest n hn hno, h.stored n hn hno]
  have hbusy : (busy t.mem).card = K := by rw [htf.busy, hgroup]; rfl
  have hcur : t.mem.cur_kernel_mem ≤ MAX_PAGE_NUM := by rw [htf.cur]; exact hb.cur
  have hroom : (busy t.mem).card + 2 ≤ MAX_PAGE_NUM := by
    unfold FS_CACHE_SIZE at hK
    omega
  obtain ⟨id, hid⟩ := exists_nextFit hcur hroom
  obtain ⟨hidlt, hfree⟩ := nextFit_free hid
  have hstart : t.mem.start = fun f => s.mem.start f && !decide (f ∈ s.mem.group) := by
    funext f
    rw [Bool.eq_iff_iff, htf.start f, Bool.and_eq_true_iff]
    refine and_congr_right fun _ => ?_
    constructor
    · intro hp
      simpa using fun hf => hp (hall f hf)
    · intro hn hp
      have hf := hp.elim False.elim And.left
      simp [hf] at hn
  have hpte' : (t.mem.pages id).pte = none := by
    rw [htf.pages]
    refine hpte id ?_
    unfold flushFrame
    rw [← hstart, ← htf.cur]
    exact hid
  have hforks' : t.mem.env.caller.forks = true := by rw [htf.static.env]; exact hforks
  simp only [hused, decide_true, wp_asserts, if_true, createFsPgdir, wp_bind, wp_getMem, hid,
    wp_modifyMem, clearPgdir, wp_pure, hforks']
  have hbusy' : (busy t.mem).card + 1 = K + 1 := by rw [hbusy]
  refine ⟨⟨fun _ => (3, 0), ⟨?_, fun f _ h0 => absurd h0 (by simp), ?_, hK, hidlt⟩, ?_⟩, hdisk,
    trivial, htf.static.policy, htf.static.env⟩
  · exact .of_top rfl rfl upd_self hidlt rfl hpte' fun k => by simp
  · exact (busy_start_true hfree hidlt rfl).trans hbusy'
  · exact ⟨fun f _ n hr => absurd hr (by simp), fun f _ n hr => absurd hr (by simp),
      fun n hn _ => hdisk n hn, htf.honest, fun g _ q hr => absurd hr (by simp)⟩

end OsLab.PageCache
