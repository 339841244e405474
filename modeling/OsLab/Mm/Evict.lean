import OsLab.Common.Update
import Mathlib.Data.List.Nodup
import Mathlib.Order.Nat
/-!
# Choosing a page to swap out

`kernel/mm/pf_evict.cpp`. Pages are attached to the front of their group's list and the search for
a victim begins at its tail. The list is kept from the tail on, so that a node moved to the front
goes to the end of it. A frame has an entry of a page table if it is bound to one (`pf->pte`),
which no other frame is.
-/

namespace OsLab.Mm

open List

/-- `_PAGE_EXEC | _PAGE_READ | _PAGE_WRITE`. -/
def PAGE_LEAF : UInt64 := 14
def PAGE_ACCESSED : UInt64 := 64

/-- `pageframe_group_t`, and `last_accessed`. -/
structure PageGroup where
  pages : List ℕ
  pte : ℕ → Option UInt64
  last_accessed : ℕ → ℕ

/-- The entry of a frame is that of a page, not of a page table. -/
def leaf (pte : Option UInt64) : Bool := pte.any (· &&& PAGE_LEAF != 0)

def accessed (pte : Option UInt64) : Bool := pte.any (· &&& PAGE_ACCESSED != 0)

/-- A leaf that has not been accessed since its bit was cleared. -/
def idle (pte : Option UInt64) : Bool := leaf pte && !accessed pte

def clearAccessed (pte : Option UInt64) : Option UInt64 := pte.map (· &&& ~~~PAGE_ACCESSED)

/-! ## The three policies -/

/-- `fifo::attach`, once `shrink_pagegroup` has made room. -/
def PageGroup.attach (g : PageGroup) (id : ℕ) : PageGroup := { g with pages := g.pages ++ [id] }

def PageGroup.detach (g : PageGroup) (id : ℕ) : PageGroup := { g with pages := g.pages.erase id }

/-- The second loop of `fifo::evict`, over the nodes from the tail on. -/
def moveTrailing (node : ℕ) : (nodes pages : List ℕ) → List ℕ
  | [], pages => pages
  | iter :: nodes, pages => if iter = node then pages else moveTrailing node nodes (pages.erase iter ++ [iter])

/-- `fifo::evict`, which is also that of `lru`. -/
def PageGroup.evict (g : PageGroup) : Option ℕ × PageGroup :=
  match g.pages.find? (leaf <| g.pte ·) with
  | none => (none, g)
  | some node => (some node, { g with pages := moveTrailing node g.pages g.pages })

/-- The loop of `second_chance::evict`; `none` after as many rounds as there is fuel. -/
def chanceLoop : (fuel : ℕ) → PageGroup → Option (ℕ × PageGroup)
  | 0, _ => none
  | fuel + 1, g =>
    match g.pages with
    | [] => none
    | iter :: rest =>
      if leaf (g.pte iter) then
        if accessed (g.pte iter) then
          chanceLoop fuel { g with pages := rest ++ [iter], pte := upd g.pte iter (clearAccessed (g.pte iter)) }
        else some (iter, g)
      else chanceLoop fuel { g with pages := rest ++ [iter] }

/-- `second_chance::evict`. -/
def PageGroup.secondChance (fuel : ℕ) (g : PageGroup) : Option (Option ℕ × PageGroup) :=
  match g.evict with
  | (none, g) => some (none, g)
  | (some _, g) => (chanceLoop fuel g).map fun r => (some r.1, r.2)

/-- The body of `lru::on_timer`. -/
def PageGroup.onTimerAt (current_tick : ℕ) (g : PageGroup) (iter : ℕ) : PageGroup :=
  if idle (g.pte iter) then g
  else
    { pages := g.pages.erase iter ++ [iter], last_accessed := upd g.last_accessed iter current_tick,
      pte := upd g.pte iter (if leaf (g.pte iter) then clearAccessed (g.pte iter) else g.pte iter) }

/-- `lru::on_timer`, which goes through the list from its front. -/
def PageGroup.onTimer (g : PageGroup) (current_tick : ℕ) : PageGroup :=
  g.pages.reverse.foldl (PageGroup.onTimerAt current_tick) g

/-! ## Second chance -/

variable {g : PageGroup} {pte : ℕ → Option UInt64} {p q : List ℕ} {x : ℕ}

theorem leaf_clearAccessed (e : Option UInt64) : leaf (clearAccessed e) = leaf e := by
  cases e with
  | none => rfl
  | some e => simp [leaf, clearAccessed, UInt64.and_assoc, (by decide : ~~~PAGE_ACCESSED &&& PAGE_LEAF = PAGE_LEAF)]

theorem leaf_ite (e : Option UInt64) : leaf (if leaf e then clearAccessed e else e) = leaf e := by
  split
  · exact leaf_clearAccessed e
  · rfl

theorem accessed_clearAccessed (e : Option UInt64) : accessed (clearAccessed e) = false := by
  cases e with
  | none => rfl
  | some e => simp [accessed, clearAccessed, UInt64.and_assoc, (by decide : ~~~PAGE_ACCESSED &&& PAGE_ACCESSED = 0)]

/-- The accessed leaves of `p` have their bit cleared. -/
def clearAll (p : List ℕ) (pte : ℕ → Option UInt64) : ℕ → Option UInt64 := fun x =>
  if x ∈ p ∧ leaf (pte x) ∧ accessed (pte x) then clearAccessed (pte x) else pte x

theorem clearAll_nil : clearAll [] pte = pte := by
  funext x
  simp [clearAll]

theorem clearAll_cons (h : x ∉ p) (hx : leaf (pte x)) (ha : accessed (pte x)) :
    clearAll p (upd pte x (clearAccessed (pte x))) = clearAll (x :: p) pte := by
  funext y
  by_cases hy : y = x
  · subst hy
    simp [clearAll, h, hx, ha]
  · simp [clearAll, upd_of_ne hy, hy]

theorem clearAll_congr (h : ∀ x, leaf (pte x) → (x ∈ p ↔ x ∈ q)) :
    clearAll p pte = clearAll q pte := by
  funext x
  by_cases hx : leaf (pte x)
  · simp [clearAll, hx, h x hx]
  · simp [clearAll, hx]

/-- **The loop goes through pages that are not idle**, and takes them to the front. -/
theorem chanceLoop_pass (fuel : ℕ) (hp : p.Nodup) (hbusy : ∀ x ∈ p, idle (pte x) = false)
    (last : ℕ → ℕ) :
    chanceLoop (fuel + p.length) ⟨p ++ q, pte, last⟩ = chanceLoop fuel ⟨q ++ p, clearAll p pte, last⟩ := by
  induction p generalizing q pte with
  | nil => simp [clearAll_nil]
  | cons x p ih =>
    obtain ⟨hxp, hp⟩ := nodup_cons.mp hp
    have hx := hbusy x mem_cons_self
    have hbusy := fun y hy => hbusy y (mem_cons_of_mem x hy)
    rw [length_cons, ← Nat.add_assoc]
    by_cases hl : leaf (pte x)
    · have ha : accessed (pte x) := by simpa [idle, hl] using hx
      have hrest : ∀ y ∈ p, idle (upd pte x (clearAccessed (pte x)) y) = false := fun y hy => by
        rw [upd_of_ne (ne_of_mem_of_not_mem hy hxp)]
        exact hbusy y hy
      simpa [chanceLoop, hl, ha, clearAll_cons hxp hl ha] using ih (q := q ++ [x]) hp hrest
    · have hclear : clearAll (x :: p) pte = clearAll p pte := clearAll_congr (by grind)
      simpa [chanceLoop, hl, hclear] using ih (q := q ++ [x]) hp hbusy

theorem moveTrailing_append (ht : (p ++ x :: q).Nodup) (r : List ℕ) :
    moveTrailing x (p ++ x :: q) (p ++ x :: q ++ r) = x :: q ++ r ++ p := by
  induction p generalizing r with
  | nil => simp [moveTrailing]
  | cons y p ih =>
    obtain ⟨hy, ht⟩ := nodup_cons.mp ht
    have hyx : y ≠ x := by
      rintro rfl
      exact hy (by simp)
    rw [cons_append, moveTrailing, if_neg hyx, cons_append, erase_cons_head, append_assoc _ r,
      ih ht (r ++ [y])]
    simp

/-- **`fifo::evict` takes the page tables behind the last leaf to the front**, if there is a leaf.
-/
theorem evict_cases (hg : g.pages.Nodup) :
    (g.evict = (none, g) ∧ ∀ x ∈ g.pages, leaf (g.pte x) = false) ∨
    ∃ p v q, g.pages = p ++ v :: q ∧ (∀ x ∈ p, leaf (g.pte x) = false) ∧ leaf (g.pte v) ∧
      g.evict = (some v, { g with pages := v :: q ++ p }) := by
  unfold PageGroup.evict
  cases hfind : g.pages.find? (leaf <| g.pte ·) with
  | none => exact .inl ⟨rfl, by simpa using hfind⟩
  | some v =>
    obtain ⟨hv, p, q, hpages, hp⟩ := List.find?_eq_some_iff_append.mp hfind
    rw [hpages] at hg ⊢
    exact .inr ⟨p, v, q, rfl, by simpa using hp, hv, by simpa using moveTrailing_append hg []⟩

theorem chanceLoop_idle (h : idle (pte x)) (k : ℕ) (last : ℕ → ℕ) :
    chanceLoop (k + 1) ⟨x :: p, pte, last⟩ = some (x, ⟨x :: p, pte, last⟩) := by
  have hx : leaf (pte x) ∧ accessed (pte x) = false := by simpa [idle] using h
  simp [chanceLoop, hx]

/-- **What `second_chance::evict` returns and leaves.** -/
inductive Chosen (g : PageGroup) : Option ℕ → PageGroup → Prop
  /-- no page is a leaf -/
  | null : (∀ x ∈ g.pages, leaf (g.pte x) = false) → Chosen g none g
  /-- the idle leaf nearest the tail -/
  | idle {a b : List ℕ} {w : ℕ} {g' : PageGroup} : g.pages = a ++ w :: b → (∀ x ∈ a, idle (g.pte x) = false) →
      idle (g.pte w) → g'.pages.Perm g.pages → g'.pages.head? = some w → g'.pte = clearAll a g.pte →
      Chosen g (some w) g'
  /-- all leaves are accessed; the leaf nearest the tail -/
  | leaf {a b : List ℕ} {w : ℕ} {g' : PageGroup} : (∀ x ∈ g.pages, idle (g.pte x) = false) →
      g.pages = a ++ w :: b → (∀ x ∈ a, leaf (g.pte x) = false) → leaf (g.pte w) → g'.pages.Perm g.pages →
      g'.pages.head? = some w → g'.pte = clearAll g.pages g.pte → Chosen g (some w) g'

/-- **`second_chance::evict` terminates and picks the right page.** -/
theorem secondChance_chosen (g : PageGroup) (hg : g.pages.Nodup) :
    ∃ n victim g', (∀ fuel, n ≤ fuel → g.secondChance fuel = some (victim, g')) ∧ Chosen g victim g' := by
  obtain ⟨hev, hno⟩ | ⟨p, v, q, hpages, hp, hv, hev⟩ := evict_cases hg
  · exact ⟨0, none, g, fun fuel _ => by simp [PageGroup.secondChance, hev], .null hno⟩
  have hperm : (v :: q ++ p).Perm g.pages := hpages ▸ perm_append_comm
  have hnodup := hperm.nodup_iff.mpr hg
  have hidle : ∀ x ∈ p, idle (g.pte x) = false := fun x hx => by simp [idle, hp x hx]
  -- the loop has to pass the pages before the first idle one, or all of them
  cases hfind : (v :: q).find? (idle <| g.pte ·) with
  | some w =>
    obtain ⟨hw, a, b, hab, ha⟩ := List.find?_eq_some_iff_append.mp hfind
    have hbusy : ∀ x ∈ a, idle (g.pte x) = false := by simpa using ha
    rw [hab] at hpages hperm hev hnodup
    have hloop := fun k => chanceLoop_pass (q := w :: b ++ p) (k + 1) (by grind) hbusy g.last_accessed
    have hkeep : clearAll a g.pte w = g.pte w := if_neg (by grind)
    refine ⟨1 + a.length, some w, ⟨w :: b ++ p ++ a, clearAll a g.pte, g.last_accessed⟩, fun fuel hfuel => ?_,
      .idle (a := p ++ a) (b := b) (by simp [hpages]) (fun x hx => (mem_append.mp hx).elim (hidle x) (hbusy x)) hw
        (.trans ?_ hperm) rfl (clearAll_congr ?_)⟩
    · obtain ⟨k, rfl⟩ := Nat.exists_eq_add_of_le' hfuel
      simp only [PageGroup.secondChance, hev]
      rw [← Nat.add_assoc, append_assoc, hloop k]
      exact congrArg _ (chanceLoop_idle (by rwa [hkeep]) k _)
    · simpa using (perm_append_comm : Perm (w :: b ++ p ++ a) _)
    · grind
  | none =>
    have hbusy : ∀ x ∈ v :: q ++ p, idle (g.pte x) = false := fun x hx =>
      (mem_append.mp hx).elim (by simpa using List.find?_eq_none.mp hfind x) (hidle x)
    have hloop := fun k => chanceLoop_pass (q := []) (k + 1) hnodup hbusy g.last_accessed
    have ha : accessed (g.pte v) := by simpa [idle, hv] using hbusy v (by simp)
    have hclear : idle (clearAll (v :: q ++ p) g.pte v) := by
      rw [clearAll, if_pos ⟨by simp, hv, ha⟩, idle, leaf_clearAccessed, accessed_clearAccessed, hv]
      rfl
    rw [append_nil] at hloop
    refine ⟨1 + (v :: q ++ p).length, some v, ⟨v :: q ++ p, clearAll (v :: q ++ p) g.pte, g.last_accessed⟩,
      fun fuel hfuel => ?_, .leaf (fun x hx => hbusy x (hperm.mem_iff.mpr hx)) hpages hp hv hperm rfl
        (clearAll_congr fun x _ => hperm.mem_iff)⟩
    obtain ⟨k, rfl⟩ := Nat.exists_eq_add_of_le' hfuel
    simp only [PageGroup.secondChance, hev]
    rw [← Nat.add_assoc, hloop k]
    exact congrArg _ (chanceLoop_idle hclear k _)

theorem secondChance_chosen_two : ∃ n victim g', (∀ fuel, n ≤ fuel →
    PageGroup.secondChance fuel ⟨[3, 5], fun _ => some 70, fun _ => 0⟩ = some (victim, g')) ∧
      Chosen ⟨[3, 5], fun _ => some 70, fun _ => 0⟩ victim g' :=
  secondChance_chosen _ (by decide)

/-! ## Order of eviction -/

variable {R : ℕ → ℕ → Prop} {time : ℕ → ℕ} {now now' v : ℕ} {g' : PageGroup}

/-- **The leaves stand in the order of their times**, from the tail on. -/
structure Ordered (R : ℕ → ℕ → Prop) (time : ℕ → ℕ) (now : ℕ) (g : PageGroup) : Prop where
  nodup : g.pages.Nodup
  sorted : g.pages.Pairwise fun x y => leaf (g.pte x) → leaf (g.pte y) → R (time x) (time y)
  past : ∀ x ∈ g.pages, time x ≤ now

namespace Ordered

theorem attach (h : Ordered R time now g) (hx : x ∉ g.pages) (hv : ∀ a ≤ now, R a v)
    (hle : v ≤ now') (hnow : now ≤ now') : Ordered R (upd time x v) now' (g.attach x) := by
  have hne : ∀ y ∈ g.pages, upd time x v y = time y :=
    fun y hy => upd_of_ne (ne_of_mem_of_not_mem hy hx)
  refine ⟨?_, pairwise_append.mpr ⟨?_, pairwise_singleton .., ?_⟩, ?_⟩
  · simpa [PageGroup.attach, nodup_append, h.nodup] using fun y hy => ne_of_mem_of_not_mem hy hx
  · refine h.sorted.imp_of_mem fun {y z} hy hz hR => ?_
    rwa [hne y hy, hne z hz]
  · intro y hy z hz _ _
    rw [mem_singleton.mp hz, hne y hy, upd_self]
    exact hv _ (h.past y hy)
  · intro y hy
    obtain hy | hy := mem_append.mp hy
    · exact hne y hy ▸ (h.past y hy).trans hnow
    · rwa [mem_singleton.mp hy, upd_self]

theorem detach (h : Ordered R time now g) (x : ℕ) : Ordered R time now (g.detach x) where
  nodup := h.nodup.erase x
  sorted := h.sorted.sublist erase_sublist
  past y hy := h.past y (mem_of_mem_erase hy)

theorem congr (h : Ordered R time now g) (hpages : g'.pages = g.pages)
    (hleaf : ∀ x ∈ g.pages, leaf (g'.pte x) = leaf (g.pte x)) : Ordered R time now g' := by
  refine ⟨hpages ▸ h.nodup, hpages ▸ h.sorted.imp_of_mem fun {y z} hy hz hR => ?_, hpages ▸ h.past⟩
  rwa [hleaf y hy, hleaf z hz]

theorem evict (h : Ordered R time now g) :
    Ordered R time now g.evict.2 ∧ g.evict.2.pages.Perm g.pages := by
  obtain ⟨hev, -⟩ | ⟨p, v, q, hpages, hp, -, hev⟩ := evict_cases h.nodup
  · rw [hev]
    exact ⟨h, .rfl⟩
  · have hperm : (v :: q ++ p).Perm g.pages := hpages ▸ perm_append_comm
    have hsorted := pairwise_append.mp (hpages ▸ h.sorted)
    rw [hev]
    refine ⟨⟨hperm.nodup_iff.mpr h.nodup, ?_, fun x hx => h.past x (hperm.mem_iff.mp hx)⟩, hperm⟩
    exact pairwise_append.mpr ⟨hsorted.2.1, hsorted.1, fun y _ z hz _ hlz => by simp [hp z hz] at hlz⟩

/-- **`lru::on_timer` keeps the order**: a page that it finds accessed is the latest one. -/
theorem foldl_onTimerAt {t : ℕ} (hp : p.Nodup) (hsub : ∀ x ∈ p, x ∈ g.pages)
    (h : Ordered (· ≤ ·) time now g) :
    Ordered (· ≤ ·) (fun x => if x ∈ p ∧ idle (g.pte x) = false then now else time x) now
      (p.foldl (PageGroup.onTimerAt t) g) ∧ (p.foldl (PageGroup.onTimerAt t) g).pages.Perm g.pages := by
  induction p generalizing g time with
  | nil => exact ⟨by simpa using h, .rfl⟩
  | cons x p ih =>
    obtain ⟨hx, hp⟩ := nodup_cons.mp hp
    rw [foldl_cons]
    cases hidle : idle (g.pte x) with
    | true =>
      have hsame : g.onTimerAt t x = g := if_pos hidle
      rw [hsame]
      convert ih hp (fun y hy => hsub y (mem_cons_of_mem x hy)) h using 3
      grind
    | false =>
      have hmove : g.onTimerAt t x = _ := if_neg (by simp [hidle])
      have hperm : (g.pages.erase x ++ [x]).Perm g.pages :=
        perm_append_comm.trans (perm_cons_erase (hsub x mem_cons_self)).symm
      have hlast : Ordered (· ≤ ·) (upd time x now) now (g.onTimerAt t x) := by
        rw [hmove]
        refine ((h.detach x).attach (List.Nodup.not_mem_erase h.nodup) (fun _ ha => ha) le_rfl le_rfl).congr rfl
          fun y _ => ?_
        simp only [PageGroup.attach, PageGroup.detach, upd_apply]
        split
        case isTrue hyx => rw [hyx, leaf_ite]
        case isFalse => rfl
      obtain ⟨ho, hp'⟩ := ih hp (fun y hy =>
        hmove ▸ hperm.mem_iff.mpr (hsub y (mem_cons_of_mem x hy))) hlast
      refine ⟨?_, hp'.trans (hmove ▸ hperm)⟩
      convert ho using 2 with y
      rw [hmove]
      by_cases hyx : y = x
      · subst hyx
        simp [hx, hidle]
      · simp [upd_of_ne hyx, hyx]

end Ordered

/-- A group with the time of each page's latest event. -/
structure Timed extends PageGroup where
  time : ℕ → ℕ
  now : ℕ

/-- **The runs of a group.** -/
inductive Runs (lru : Bool) : Timed → Prop
  | start (s : Timed) : s.pages = [] → Runs lru s
  | attach {s : Timed} (x : ℕ) : Runs lru s → x ∉ s.pages →
      Runs lru ⟨s.attach x, upd s.time x (s.now + 1), s.now + 1⟩
  | detach {s : Timed} (x : ℕ) : Runs lru s → Runs lru ⟨s.detach x, s.time, s.now⟩
  | evict {s : Timed} : Runs lru s → Runs lru ⟨s.evict.2, s.time, s.now⟩
  /-- a tick finds the leaves that were accessed, and the page tables -/
  | timer {s : Timed} (t : ℕ) : lru = true → Runs lru s → Runs lru ⟨s.onTimer t,
      fun x => if x ∈ s.pages ∧ idle (s.pte x) = false then s.now + 1 else s.time x, s.now + 1⟩
  /-- pages are accessed, and frames that are not attached are bound -/
  | entries {s : Timed} (pte : ℕ → Option UInt64) : Runs lru s → (∀ x ∈ s.pages, leaf (pte x) = leaf (s.pte x)) →
      Runs lru { s with pte := pte }

/-- Several pages can have the time of one tick, but a page is attached alone. -/
def before (lru : Bool) (a b : ℕ) : Prop := if lru then a ≤ b else a < b

theorem Ordered.onTimer (h : Ordered (· ≤ ·) time now g) (t : ℕ) :
    Ordered (· ≤ ·) (fun x => if x ∈ g.pages ∧ idle (g.pte x) = false then now + 1 else time x) (now + 1)
      (g.onTimer t) ∧ (g.onTimer t).pages.Perm g.pages := by
  have hnow : Ordered (· ≤ ·) time (now + 1) g :=
    ⟨h.nodup, h.sorted, fun x hx => (h.past x hx).trans (Nat.le_succ _)⟩
  simpa only [mem_reverse, PageGroup.onTimer] using
    hnow.foldl_onTimerAt (nodup_reverse.mpr h.nodup) fun x => mem_reverse.mp

theorem Runs.ordered {lru : Bool} {s : Timed} (h : Runs lru s) :
    Ordered (before lru) s.time s.now s.toPageGroup := by
  induction h with
  | start s hg => exact ⟨by simp [hg], by simp [hg], by simp [hg]⟩
  | attach x _ hx ih =>
    exact ih.attach hx (fun a ha => by cases lru <;> simp [before] <;> omega) le_rfl (Nat.le_succ _)
  | detach x _ ih => exact ih.detach x
  | evict _ ih => exact ih.evict.1
  | timer t hlru _ ih =>
    subst hlru
    exact (Ordered.onTimer ih t).1
  | entries pte _ hleaf ih => exact ih.congr rfl hleaf

/-- **FIFO and LRU evict in order**, and no list node is lost or duplicated. -/
theorem evict_first {lru : Bool} {s : Timed} (h : Runs lru s) :
    s.pages.Nodup ∧ s.evict.2.pages.Perm s.pages ∧
    (lru = true → ∀ t, (s.onTimer t).pages.Perm s.pages) ∧
    (s.evict.1 = none → ∀ x ∈ s.pages, leaf (s.pte x) = false) ∧
    ∀ v, s.evict.1 = some v → v ∈ s.pages ∧ leaf (s.pte v) ∧
      ∀ x ∈ s.pages, leaf (s.pte x) → x ≠ v → before lru (s.time v) (s.time x) := by
  have ho := h.ordered
  refine ⟨ho.nodup, ho.evict.2, ?_, ?_⟩
  · rintro rfl t
    exact (Ordered.onTimer ho t).2
  obtain ⟨hev, hno⟩ | ⟨p, w, q, hpages, hp, hw, hev⟩ := evict_cases ho.nodup
  · rw [hev]
    exact ⟨fun _ => hno, nofun⟩
  · rw [hev]
    refine ⟨nofun, fun v hv => ?_⟩
    obtain rfl : w = v := Option.some.inj hv
    have hsorted := ho.sorted
    rw [hpages, pairwise_append, pairwise_cons] at hsorted
    rw [hpages]
    exact ⟨by simp, hw, fun x hx hl hne => hsorted.2.1.1 x (by grind) hw hl⟩

/-- A page table and three pages. Under fifo the oldest page has gone, and the next one is chosen;
under lru it was accessed before a tick, so that the next one is chosen too. -/
theorem evict_first_both :
    (∃ s, Runs false s ∧ s.pages = [1, 5, 7] ∧ leaf (s.pte 1) = false ∧ s.evict.1 = some 5 ∧ s.time 5 < s.time 7) ∧
    ∃ s, Runs true s ∧ s.pages = [5, 7, 3, 1] ∧ leaf (s.pte 1) = false ∧ s.evict.1 = some 5 ∧
      s.time 5 ≤ s.time 7 ∧ s.time 5 ≤ s.time 3 := by
  have hpages : ∀ lru, Runs lru _ := fun lru => .attach 7 (.attach 5 (.attach 3 (.attach 1
    (.start ⟨⟨[], fun x => if x = 1 then some 1 else some 14, fun _ => 0⟩, fun _ => 0, 0⟩ rfl)
    (by decide)) (by decide)) (by decide)) (by decide)
  have hfifo : Runs false _ := .detach 3 (hpages false)
  have hlru : Runs true _ := .timer 9 rfl
    (.entries (fun x => if x = 1 then some 1 else if x = 3 then some 78 else some 14)
    (hpages true) (by decide))
  obtain ⟨-, -, -, -, hfirst⟩ := evict_first hfifo
  obtain ⟨-, -, -, -, hfirst'⟩ := evict_first hlru
  refine ⟨⟨_, hfifo, by decide, by decide, by decide, ?_⟩, _, hlru, by decide, by decide,
    by decide, ?_, ?_⟩
  · exact (hfirst 5 (by decide)).2.2 7 (by decide) (by decide) (by decide)
  · exact (hfirst' 5 (by decide)).2.2 7 (by decide) (by decide) (by decide)
  · exact (hfirst' 5 (by decide)).2.2 3 (by decide) (by decide) (by decide)

end OsLab.Mm
