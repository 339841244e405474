import Mathlib.Tactic.Ring
/-!
# Buddy trees

A range of size `2 ^ (m + n)` that is halved again and again, down to size
`2 ^ m` at most: a leaf of the tree is a block, free or in use, and the two
children of a node are buddies. That the blocks are aligned, do not overlap
and leave no gap is what being a tree says. `Merged` is the one thing it
does not say: no two buddies are both free.

A tree changes by `exists_replace`: a subtree gives way to another of its
size.
-/

namespace OsLab

/-- A range of order `n`. -/
inductive Buddy : ℕ → Type
  | free {n : ℕ} : Buddy n
  | used {n : ℕ} : Buddy n
  | node {n : ℕ} (l r : Buddy n) : Buddy (n + 1)

namespace Buddy

variable {m n j : ℕ}

/-- The tree at `b` has a block at `o` of order `k`; `s` tells whether it is
free. -/
def Has (m : ℕ) : {n : ℕ} → Buddy n → (b : ℕ) → (s : Bool) → (o k : ℕ) → Prop
  | n, free, b, s, o, k => s = true ∧ o = b ∧ k = m + n
  | n, used, b, s, o, k => s = false ∧ o = b ∧ k = m + n
  | n + 1, node l r, b, s, o, k => Has m l b s o k ∨ Has m r (b + 2 ^ (m + n)) s o k

/-- `u` is the subtree of `t` at `o`. -/
inductive Sub (m : ℕ) : {n : ℕ} → Buddy n → ℕ → {j : ℕ} → Buddy j → ℕ → Prop
  | top {n : ℕ} {t : Buddy n} {b : ℕ} : Sub m t b t b
  | left {n j : ℕ} {l r : Buddy n} {u : Buddy j} {b o : ℕ} (h : Sub m l b u o) :
      Sub m (node l r) b u o
  | right {n j : ℕ} {l r : Buddy n} {u : Buddy j} {b o : ℕ} (h : Sub m r (b + 2 ^ (m + n)) u o) :
      Sub m (node l r) b u o

/-- No two buddies are both free. -/
def Merged : {n : ℕ} → Buddy n → Prop
  | _, free => True
  | _, used => True
  | _, node l r => Merged l ∧ Merged r ∧ ¬ (l = free ∧ r = free)

theorem two_pow_double (m n : ℕ) : 2 ^ (m + (n + 1)) = 2 ^ (m + n) + 2 ^ (m + n) := by
  rw [← Nat.add_assoc, Nat.pow_succ]
  omega

/-! ## Where blocks are -/

variable {t : Buddy n} {b o k o' : ℕ} {s : Bool} {u : Buddy j}

/-- The leaf of a free or used block. -/
def leaf (s : Bool) : Buddy n := if s then free else used

theorem has_leaf {s' : Bool} : Has m (leaf s' : Buddy n) b s o k ↔ s = s' ∧ o = b ∧ k = m + n := by
  cases s' <;> exact Iff.rfl

/-- A tree is a block or has two halves. -/
@[elab_as_elim]
theorem leaf_or_node {P : ∀ {n}, Buddy n → Prop} (hleaf : ∀ n s, P (leaf s : Buddy n))
    (hnode : ∀ {n} (l r : Buddy n), P l → P r → P (node l r)) (t : Buddy n) : P t := by
  induction t with
  | free => exact hleaf _ true
  | used => exact hleaf _ false
  | node l r ihl ihr => exact hnode l r ihl ihr

/-- **A block lies in the range, at a multiple of its size.** -/
theorem Has.bounds (h : Has m t b s o k) :
    m ≤ k ∧ k ≤ m + n ∧ b ≤ o ∧ o + 2 ^ k ≤ b + 2 ^ (m + n) ∧ 2 ^ k ∣ o - b := by
  induction t using leaf_or_node generalizing b with
  | hleaf n s' =>
    obtain ⟨-, rfl, rfl⟩ := has_leaf.mp h
    exact ⟨by omega, le_rfl, le_rfl, le_rfl, by simp⟩
  | @hnode n l r ihl ihr =>
    have hsize := two_pow_double m n
    rcases h with h | h
    · obtain ⟨h1, h2, h3, h4, h5⟩ := ihl h
      exact ⟨h1, by omega, h3, by omega, h5⟩
    · obtain ⟨h1, h2, h3, h4, h5⟩ := ihr h
      refine ⟨h1, by omega, by omega, by omega, ?_⟩
      have hsub : o - b = (o - (b + 2 ^ (m + n))) + 2 ^ (m + n) := by omega
      rw [hsub]
      exact Nat.dvd_add h5 (pow_dvd_pow 2 h2)

theorem Sub.bounds (h : Sub m t b u o) : j ≤ n ∧ b ≤ o ∧ o + 2 ^ (m + j) ≤ b + 2 ^ (m + n) := by
  induction h with
  | top => exact ⟨le_rfl, le_rfl, le_rfl⟩
  | @left n j l r u b o h ih =>
    have hsize := two_pow_double m n
    have hpos := Nat.two_pow_pos (m + n)
    exact ⟨by omega, ih.2.1, by omega⟩
  | @right n j l r u b o h ih =>
    have hsize := two_pow_double m n
    have hpos := Nat.two_pow_pos (m + n)
    exact ⟨by omega, by omega, by omega⟩

theorem Has.sub (h : Has m t b s o k) : ∃ j, k = m + j ∧ Sub m t b (leaf s : Buddy j) o := by
  induction t using leaf_or_node generalizing b with
  | hleaf n s' =>
    obtain ⟨rfl, rfl, rfl⟩ := has_leaf.mp h
    exact ⟨n, rfl, .top⟩
  | hnode l r ihl ihr =>
    rcases h with h | h
    · obtain ⟨j, hj, hs⟩ := ihl h
      exact ⟨j, hj, .left hs⟩
    · obtain ⟨j, hj, hs⟩ := ihr h
      exact ⟨j, hj, .right hs⟩

variable {x : ℕ}

/-- **Every place of the range is in a block.** -/
theorem exists_has (t : Buddy n) (h1 : b ≤ x) (h2 : x < b + 2 ^ (m + n)) :
    ∃ s o k, Has m t b s o k ∧ o ≤ x ∧ x < o + 2 ^ k := by
  induction t using leaf_or_node generalizing b with
  | hleaf n s => exact ⟨s, b, _, has_leaf.mpr ⟨rfl, rfl, rfl⟩, h1, h2⟩
  | @hnode n l r ihl ihr =>
    have hsize := two_pow_double m n
    by_cases hx : x < b + 2 ^ (m + n)
    · obtain ⟨s, o, k, hh, ho⟩ := ihl h1 hx
      exact ⟨s, o, k, .inl hh, ho⟩
    · obtain ⟨s, o, k, hh, ho⟩ := ihr (b := b + 2 ^ (m + n)) (by omega) (by omega)
      exact ⟨s, o, k, .inr hh, ho⟩

variable {k' c : ℕ} {s' : Bool}

/-- **And in one block only.** -/
theorem Has.unique (h : Has m t b s o k) (h' : Has m t b s' o' k') (h1 : o ≤ x) (h2 : x < o + 2 ^ k)
    (h1' : o' ≤ x) (h2' : x < o' + 2 ^ k') : s = s' ∧ o = o' ∧ k = k' := by
  induction t using leaf_or_node generalizing b with
  | hleaf n s'' =>
    obtain ⟨rfl, rfl, rfl⟩ := has_leaf.mp h
    obtain ⟨rfl, rfl, rfl⟩ := has_leaf.mp h'
    exact ⟨rfl, rfl, rfl⟩
  | hnode l r ihl ihr =>
    rcases h with h | h <;> rcases h' with h' | h'
    · exact ihl h h'
    · have hb := h.bounds
      have hb' := h'.bounds
      omega
    · have hb := h.bounds
      have hb' := h'.bounds
      omega
    · exact ihr h h'

/-- Two blocks at one place are one. -/
theorem Has.unique_start (h : Has m t b s o k) (h' : Has m t b s' o k') : s = s' ∧ k = k' := by
  obtain ⟨hs, -, hk⟩ := h.unique h' le_rfl (by have := Nat.two_pow_pos k; omega) le_rfl
    (by have := Nat.two_pow_pos k'; omega)
  exact ⟨hs, hk⟩

theorem Has.not_free (h : Has m t b false o k) : ¬ Has m t b true o k' :=
  fun h' => nomatch (h.unique_start h').1

/-- A block of the whole range is the whole tree. -/
theorem Has.eq_leaf (h : Has m t b s o (m + n)) : t = leaf s ∧ o = b := by
  cases t using leaf_or_node with
  | hleaf n s' =>
    obtain ⟨rfl, rfl, -⟩ := has_leaf.mp h
    exact ⟨rfl, rfl⟩
  | hnode l r =>
    rcases h with h | h
    all_goals
      have := h.bounds
      omega

/-! ## Replacing a subtree -/

/-- The two halves of one block of order `k + 1`. -/
def Buddies (k o o' : ℕ) : Prop :=
  o' = o + 2 ^ k ∧ 2 ^ (k + 1) ∣ o ∨ o = o' + 2 ^ k ∧ 2 ^ (k + 1) ∣ o'

theorem Buddies.unique {y : ℕ} (h : Buddies k o x) (h' : Buddies k o y) : x = y := by
  have hpos := Nat.two_pow_pos k
  have hdouble := Nat.pow_succ (n := 2) (m := k)
  -- a block is the lower half or the upper half, not both
  have hexcl : ∀ {o' : ℕ}, 2 ^ (k + 1) ∣ o → o = o' + 2 ^ k → ¬ 2 ^ (k + 1) ∣ o' := by
    intro o' ho he ho'
    have hdvd : 2 ^ (k + 1) ∣ 2 ^ k := by
      rw [he] at ho
      exact (Nat.dvd_add_right ho').mp ho
    have := Nat.le_of_dvd hpos hdvd
    omega
  rcases h with ⟨h1, h2⟩ | ⟨h1, h2⟩ <;> rcases h' with ⟨h3, h4⟩ | ⟨h3, h4⟩
  · omega
  · exact absurd h4 (hexcl h2 h3)
  · exact absurd h2 (hexcl h4 h1)
  · omega

theorem Buddies.symm (h : Buddies k o o') : Buddies k o' o := Or.symm h

/-- **A subtree gives way to another of its size**, and the blocks outside
it stay. Buddies stay merged unless a free block takes its place beside a
free one. -/
theorem exists_replace (h : Sub m t b u o) (u' : Buddy j) :
    ∃ t' : Buddy n, (t' = free → j = n ∧ o = b ∧ u' = free) ∧
      (∀ s o' k, Has m t' b s o' k ↔
        Has m u' o s o' k ∨ Has m t b s o' k ∧ ¬ (o ≤ o' ∧ o' < o + 2 ^ (m + j))) ∧
      (2 ^ (m + n) ∣ b → Merged t → Merged u' →
        (u' = free → ∀ o', Buddies (m + j) o o' → ¬ Has m t b true o' (m + j)) → Merged t') := by
  induction h with
  | @top n t b =>
    refine ⟨u', fun hf => ⟨rfl, rfl, hf⟩, fun s o' k => ⟨.inl, ?_⟩, fun _ _ hm _ => hm⟩
    rintro (hh | ⟨hh, hout⟩)
    · exact hh
    · have hb := hh.bounds
      have := Nat.two_pow_pos k
      exact absurd ⟨by omega, by omega⟩ hout
  | @left n j l r u b o hsub ih =>
    obtain ⟨l', hfree, hhas, hmerged⟩ := ih u'
    have hsb := hsub.bounds
    have hsize := two_pow_double m n
    refine ⟨node l' r, nofun, fun s o' k => ?_, fun hb hm hu hcond => ?_⟩
    · have hout : Has m r (b + 2 ^ (m + n)) s o' k → ¬ (o ≤ o' ∧ o' < o + 2 ^ (m + j)) := by
        intro hh
        have := hh.bounds
        omega
      change Has m l' b s o' k ∨ _ ↔ _
      rw [hhas]
      constructor
      · rintro ((hh | ⟨hh, ho⟩) | hh)
        · exact .inl hh
        · exact .inr ⟨.inl hh, ho⟩
        · exact .inr ⟨.inr hh, hout hh⟩
      · rintro (hh | ⟨hh | hh, ho⟩)
        · exact .inl (.inl hh)
        · exact .inl (.inr ⟨hh, ho⟩)
        · exact .inr hh
    · obtain ⟨hl, hr, -⟩ := hm
      have hbl : 2 ^ (m + n) ∣ b := (pow_dvd_pow 2 (by omega)).trans hb
      refine ⟨hmerged hbl hl hu fun hf o' ho' hh => hcond hf o' ho' (.inl hh), hr, ?_⟩
      rintro ⟨hl', hr'⟩
      -- the subtree is the left child itself
      obtain ⟨rfl, rfl, hf⟩ := hfree hl'
      refine hcond hf (o + 2 ^ (m + j)) (.inl ⟨rfl, hb⟩) (.inr ?_)
      rw [hr']
      exact ⟨rfl, rfl, rfl⟩
  | @right n j l r u b o hsub ih =>
    obtain ⟨r', hfree, hhas, hmerged⟩ := ih u'
    have hsb := hsub.bounds
    have hsize := two_pow_double m n
    refine ⟨node l r', nofun, fun s o' k => ?_, fun hb hm hu hcond => ?_⟩
    · have hout : Has m l b s o' k → ¬ (o ≤ o' ∧ o' < o + 2 ^ (m + j)) := by
        intro hh
        have := hh.bounds
        have := Nat.two_pow_pos k
        omega
      change _ ∨ Has m r' _ s o' k ↔ _
      rw [hhas]
      constructor
      · rintro (hh | hh | ⟨hh, ho⟩)
        · exact .inr ⟨.inl hh, hout hh⟩
        · exact .inl hh
        · exact .inr ⟨.inr hh, ho⟩
      · rintro (hh | ⟨hh | hh, ho⟩)
        · exact .inr (.inl hh)
        · exact .inl hh
        · exact .inr (.inr ⟨hh, ho⟩)
    · obtain ⟨hl, hr, -⟩ := hm
      have hbl : 2 ^ (m + n) ∣ b := (pow_dvd_pow 2 (by omega)).trans hb
      have hbr : 2 ^ (m + n) ∣ b + 2 ^ (m + n) := Nat.dvd_add hbl (dvd_refl _)
      refine ⟨hl, hmerged hbr hr hu fun hf o' ho' hh => hcond hf o' ho' (.inr hh), ?_⟩
      rintro ⟨hl', hr'⟩
      obtain ⟨rfl, rfl, hf⟩ := hfree hr'
      refine hcond hf b (.inr ⟨rfl, hb⟩) (.inl ?_)
      rw [hl']
      exact ⟨rfl, rfl, rfl⟩

/-! ## Buddies in a tree -/

theorem dvd_add_le {a : ℕ} (ha : 2 ^ k ∣ a) (hc : 2 ^ k ∣ c) (hlt : a < c) : a + 2 ^ k ≤ c := by
  obtain ⟨x, rfl⟩ := ha
  obtain ⟨y, rfl⟩ := hc
  have hxy : x + 1 ≤ y := Nat.lt_of_mul_lt_mul_left hlt
  calc 2 ^ k * x + 2 ^ k = 2 ^ k * (x + 1) := by ring
    _ ≤ 2 ^ k * y := Nat.mul_le_mul_left _ hxy

/-- A block of a well-placed range is at a multiple of its size. -/
theorem Has.dvd (h : Has m t b s o k) (hb : 2 ^ (m + n) ∣ b) : 2 ^ k ∣ o := by
  obtain ⟨-, hk, hle, -, hd⟩ := h.bounds
  have ho : o = (o - b) + b := by omega
  rw [ho]
  exact Nat.dvd_add hd ((pow_dvd_pow 2 hk).trans hb)

/-- Buddies of order `k` are on either side of no multiple of `2 ^ (k + 1)`. -/
theorem Buddies.not_across (h : Buddies k o o') (hc : 2 ^ (k + 1) ∣ c) (h1 : o < c)
    (h2 : c ≤ o') : False := by
  have hpos := Nat.two_pow_pos k
  have hpow : 2 ^ (k + 1) = 2 ^ k + 2 ^ k := by rw [Nat.pow_succ]; omega
  rcases h with ⟨rfl, hd⟩ | ⟨rfl, -⟩
  · have := dvd_add_le hd hc h1
    omega
  · omega

/-- **Two blocks that are buddies are the children of one node.** -/
theorem Has.sub_buddies (h : Has m t b s o (m + j))
    (h' : Has m t b s' o' (m + j)) (hbud : Buddies (m + j) o o') (hb : 2 ^ (m + n) ∣ b) :
    Sub m t b (node (leaf s) (leaf s') : Buddy (j + 1)) o ∧ o' = o + 2 ^ (m + j) ∨
      Sub m t b (node (leaf s') (leaf s) : Buddy (j + 1)) o' ∧ o = o' + 2 ^ (m + j) := by
  have hne : o ≠ o' := by
    have := Nat.two_pow_pos (m + j)
    rcases hbud with ⟨he, -⟩ | ⟨he, -⟩ <;> omega
  induction t using leaf_or_node generalizing b with
  | hleaf n s'' => exact absurd ((has_leaf.mp h).2.1.trans (has_leaf.mp h').2.1.symm) hne
  | @hnode n l r ihl ihr =>
    have hbl : 2 ^ (m + n) ∣ b := (pow_dvd_pow 2 (by omega)).trans hb
    have hbr : 2 ^ (m + n) ∣ b + 2 ^ (m + n) := Nat.dvd_add hbl (dvd_refl _)
    rcases h with h | h <;> rcases h' with h' | h'
    · exact (ihl h h' hbl).imp (And.imp_left .left) (And.imp_left .left)
    · -- on either side of the middle, so of the order of a child
      have hj : j = n := by
        by_contra hjn
        have h1 := h.bounds
        have h2 := h'.bounds
        have hpos := Nat.two_pow_pos (m + j)
        exact hbud.not_across ((pow_dvd_pow 2 (by omega)).trans hbr) (by omega) h2.2.2.1
      subst hj
      obtain ⟨rfl, rfl⟩ := h.eq_leaf
      obtain ⟨rfl, rfl⟩ := h'.eq_leaf
      exact .inl ⟨.top, rfl⟩
    · have hj : j = n := by
        by_contra hjn
        have h1 := h.bounds
        have h2 := h'.bounds
        have hpos := Nat.two_pow_pos (m + j)
        exact hbud.symm.not_across ((pow_dvd_pow 2 (by omega)).trans hbr) (by omega) h1.2.2.1
      subst hj
      obtain ⟨rfl, rfl⟩ := h.eq_leaf
      obtain ⟨rfl, rfl⟩ := h'.eq_leaf
      exact .inr ⟨.top, rfl⟩
    · exact (ihr h h' hbr).imp (And.imp_left .right) (And.imp_left .right)

theorem Sub.merged (h : Sub m t b u o) (hm : Merged t) : Merged u := by
  induction h with
  | top => exact hm
  | left _ ih => exact ih hm.1
  | right _ ih => exact ih hm.2.1

/-- Merged buddies are not both free. -/
theorem Merged.not_both_free (hm : Merged t) (hb : 2 ^ (m + n) ∣ b)
    (h : Has m t b true o (m + j)) (hbud : Buddies (m + j) o o') : ¬ Has m t b true o' (m + j) := by
  intro h'
  rcases h.sub_buddies h' hbud hb with ⟨hs, -⟩ | ⟨hs, -⟩
  · exact (hs.merged hm).2.2 ⟨rfl, rfl⟩
  · exact (hs.merged hm).2.2 ⟨rfl, rfl⟩

/-- **A merged range with no block in use is one free block.** -/
theorem Merged.eq_free (hm : Merged t) (h : ∀ o k, ¬ Has m t b false o k) : t = free := by
  induction t generalizing b with
  | free => rfl
  | used => exact absurd ⟨rfl, rfl, rfl⟩ (h _ _)
  | @node n l r ihl ihr =>
    obtain ⟨hl, hr, hnot⟩ := hm
    refine absurd ⟨ihl (b := b) hl fun o k hh => h o k (.inl hh), ?_⟩ hnot
    exact ihr (b := b + 2 ^ (m + n)) hr fun o k hh => h o k (.inr hh)

/-- **A free run of a block's size and alignment is in one free block.** -/
theorem Merged.exists_free (hm : Merged t) (hb : 2 ^ (m + n) ∣ b)
    (hd : 2 ^ k ∣ o) (h1 : b ≤ o) (h2 : o + 2 ^ k ≤ b + 2 ^ (m + n))
    (hfree : ∀ o' k', Has m t b false o' k' → o + 2 ^ k ≤ o' ∨ o' + 2 ^ k' ≤ o) :
    ∃ o' k', Has m t b true o' k' ∧ k ≤ k' := by
  induction t generalizing b with
  | @free n =>
    refine ⟨b, m + n, ⟨rfl, rfl, rfl⟩, ?_⟩
    exact (Nat.pow_le_pow_iff_right (by omega : 1 < 2)).mp (by omega)
  | @used n =>
    have hpos := Nat.two_pow_pos k
    have := hfree b (m + n) ⟨rfl, rfl, rfl⟩
    omega
  | @node n l r ihl ihr =>
    have hsize := two_pow_double m n
    have hbl : 2 ^ (m + n) ∣ b := (pow_dvd_pow 2 (by omega)).trans hb
    have hbr : 2 ^ (m + n) ∣ b + 2 ^ (m + n) := Nat.dvd_add hbl (dvd_refl _)
    by_cases hk : k ≤ m + n
    · have hkb : 2 ^ k ∣ b + 2 ^ (m + n) := (pow_dvd_pow 2 hk).trans hbr
      by_cases hlt : o < b + 2 ^ (m + n)
      · obtain ⟨o', k', hh, hle⟩ := ihl hm.1 hbl h1 (dvd_add_le hd hkb hlt)
          fun o' k' hh => hfree o' k' (.inl hh)
        exact ⟨o', k', .inl hh, hle⟩
      · obtain ⟨o', k', hh, hle⟩ := ihr hm.2.1 hbr (by omega) (by omega)
          fun o' k' hh => hfree o' k' (.inr hh)
        exact ⟨o', k', .inr hh, hle⟩
    · -- the run is the whole range
      have hpow : 2 ^ (m + n + 1) ≤ 2 ^ k := Nat.pow_le_pow_right (by omega) (by omega)
      have hroot : (node l r : Buddy (n + 1)) = free := by
        refine Merged.eq_free (m := m) (b := b) hm fun o' k' hh => ?_
        have hin := hh.bounds
        have hpos := Nat.two_pow_pos k'
        have := hfree o' k' hh
        have hdouble : 2 ^ (m + n + 1) = 2 ^ (m + (n + 1)) := rfl
        omega
      cases hroot

/-! ## The four changes -/

/-- A block is its own only block. -/
theorem Has.eq_of_mem (h : Has m t b s o k)
    (h' : Has m t b s' o' k') (h1 : o ≤ o') (h2 : o' < o + 2 ^ k) : s' = s ∧ o' = o ∧ k' = k := by
  have hpos := Nat.two_pow_pos k'
  exact h'.unique h le_rfl (by omega) h1 h2

/-- A block gives way to a tree of its size. Blocks of the other kind are elsewhere. -/
theorem Has.exists_replace (h : Has m t b s o (m + j)) (u : Buddy j) :
    ∃ t' : Buddy n, (∀ o' k, Has m t' b s o' k ↔ Has m u o s o' k ∨ Has m t b s o' k ∧ o' ≠ o) ∧
      (∀ o' k, Has m t' b (!s) o' k ↔ Has m u o (!s) o' k ∨ Has m t b (!s) o' k) ∧
      (2 ^ (m + n) ∣ b → Merged t → Merged u →
        (u = free → ∀ o', Buddies (m + j) o o' → ¬ Has m t b true o' (m + j)) → Merged t') := by
  obtain ⟨i, hi, hsub⟩ := h.sub
  obtain rfl : i = j := by omega
  obtain ⟨t', -, hhas, hmerged⟩ := Buddy.exists_replace hsub u
  have hout : ∀ {s' o' k}, Has m t b s' o' k → (¬ (o ≤ o' ∧ o' < o + 2 ^ (m + i)) ↔ o' ≠ o) := by
    refine fun hh => not_congr ⟨fun hin => (h.eq_of_mem hh hin.1 hin.2).2.1, ?_⟩
    rintro rfl
    have := Nat.two_pow_pos (m + i)
    omega
  refine ⟨t', fun o' k => (hhas ..).trans (or_congr_right (and_congr_right hout)), fun o' k => ?_,
    hmerged⟩
  refine (hhas ..).trans (or_congr_right (and_iff_left_of_imp fun hh => (hout hh).mpr ?_))
  rintro rfl
  exact absurd (hh.unique_start h).1 (by cases s <;> nofun)

/-- **A free block is put to use.** -/
theorem Has.exists_grab (h : Has m t b true o (m + j)) (hb : 2 ^ (m + n) ∣ b) (hm : Merged t) :
    ∃ t' : Buddy n, Merged t' ∧
      (∀ o' k, Has m t' b true o' k ↔ Has m t b true o' k ∧ ¬ (o' = o ∧ k = m + j)) ∧
      ∀ o' k, Has m t' b false o' k ↔ Has m t b false o' k ∨ o' = o ∧ k = m + j := by
  obtain ⟨t', hsame, hother, hmerged⟩ := h.exists_replace (used : Buddy j)
  refine ⟨t', hmerged hb hm trivial nofun, fun o' k => ?_, fun o' k => ?_⟩
  · rw [hsame, or_iff_right fun hf => nomatch hf.1]
    refine and_congr_right fun hh => not_congr ⟨fun he => ⟨he, ?_⟩, And.left⟩
    exact (hh.unique_start (he ▸ h)).2
  · rw [or_comm]
    exact (hother o' k).trans (or_congr_left (and_iff_right rfl))

/-- **A block in use is halved**, and its upper half is free. -/
theorem Has.exists_halve (h : Has m t b false o (m + (j + 1))) (hb : 2 ^ (m + n) ∣ b)
    (hm : Merged t) :
    ∃ t' : Buddy n, Merged t' ∧
      (∀ o' k, Has m t' b true o' k ↔
        Has m t b true o' k ∨ o' = o + 2 ^ (m + j) ∧ k = m + j) ∧
      ∀ o' k, Has m t' b false o' k ↔
        Has m t b false o' k ∧ o' ≠ o ∨ o' = o ∧ k = m + j := by
  obtain ⟨t', hsame, hother, hmerged⟩ := h.exists_replace (node used free : Buddy (j + 1))
  refine ⟨t', hmerged hb hm ⟨trivial, trivial, nofun⟩ nofun, fun o' k => ?_, fun o' k => ?_⟩
  · rw [or_comm]
    exact (hother o' k).trans (or_congr_left ((or_iff_right fun hf => nomatch hf.1).trans (and_iff_right rfl)))
  · rw [or_comm]
    exact (hsame o' k).trans (or_congr_left ((or_iff_left fun hf => nomatch hf.1).trans (and_iff_right rfl)))

/-- **A block in use is set free**, beside a buddy that is not. -/
theorem Has.exists_drop (h : Has m t b false o (m + j)) (hb : 2 ^ (m + n) ∣ b) (hm : Merged t)
    (hbud : ∀ o', Buddies (m + j) o o' → ¬ Has m t b true o' (m + j)) : ∃ t' : Buddy n, Merged t' ∧
      (∀ o' k, Has m t' b true o' k ↔ Has m t b true o' k ∨ o' = o ∧ k = m + j) ∧
      ∀ o' k, Has m t' b false o' k ↔ Has m t b false o' k ∧ o' ≠ o := by
  obtain ⟨t', hsame, hother, hmerged⟩ := h.exists_replace (free : Buddy j)
  refine ⟨t', hmerged hb hm trivial fun _ => hbud, fun o' k => ?_, fun o' k => ?_⟩
  · rw [or_comm]
    exact (hother o' k).trans (or_congr_left (and_iff_right rfl))
  · exact (hsame o' k).trans (or_iff_right fun hf => nomatch hf.1)

/-- **A block in use is merged with its free buddy.** -/
theorem Has.exists_collapse (h : Has m t b false o (m + j))
    (h' : Has m t b true o' (m + j)) (hbud : Buddies (m + j) o o') (hb : 2 ^ (m + n) ∣ b)
    (hm : Merged t) :
    ∃ t' : Buddy n, Merged t' ∧
      (∀ x k, Has m t' b true x k ↔ Has m t b true x k ∧ ¬ (x = o' ∧ k = m + j)) ∧
      ∀ x k, Has m t' b false x k ↔
        Has m t b false x k ∧ x ≠ o ∨ x = min o o' ∧ k = m + (j + 1) := by
  have hpow := two_pow_double m j
  have hpos := Nat.two_pow_pos (m + j)
  -- the blocks of the node are the two buddies
  have hin : ∀ {s x k}, Has m t b s x k → min o o' ≤ x → x < min o o' + 2 ^ (m + (j + 1)) →
      s = false ∧ x = o ∨ s = true ∧ x = o' ∧ k = m + j := by
    intro s x k hh h1 h2
    have hcase : o ≤ x ∧ x < o + 2 ^ (m + j) ∨ o' ≤ x ∧ x < o' + 2 ^ (m + j) := by
      rcases hbud with ⟨he, -⟩ | ⟨he, -⟩ <;> omega
    rcases hcase with ⟨h3, h4⟩ | ⟨h3, h4⟩
    · obtain ⟨hs, hx, -⟩ := h.eq_of_mem hh h3 h4
      exact .inl ⟨hs, hx⟩
    · obtain ⟨hs, hx, hk⟩ := h'.eq_of_mem hh h3 h4
      exact .inr ⟨hs, hx, hk⟩
  have hrange : (min o o' ≤ o ∧ o < min o o' + 2 ^ (m + (j + 1))) ∧
      (min o o' ≤ o' ∧ o' < min o o' + 2 ^ (m + (j + 1))) := by
    rcases hbud with ⟨he, -⟩ | ⟨he, -⟩ <;> omega
  have hsub : ∃ u : Buddy (j + 1), Sub m t b u (min o o') := by
    rcases h.sub_buddies h' hbud hb with ⟨hs, he⟩ | ⟨hs, he⟩
    · rw [Nat.min_eq_left (by omega)]
      exact ⟨_, hs⟩
    · rw [Nat.min_eq_right (by omega)]
      exact ⟨_, hs⟩
  obtain ⟨u, hsub⟩ := hsub
  obtain ⟨t', -, hhas, hmerged⟩ := Buddy.exists_replace hsub used
  refine ⟨t', hmerged hb hm trivial nofun, fun x k => ?_, fun x k => ?_⟩
  · rw [hhas]
    constructor
    · rintro (⟨hf, -⟩ | ⟨hh, hne⟩)
      · cases hf
      · refine ⟨hh, ?_⟩
        rintro ⟨rfl, -⟩
        exact hne hrange.2
    · rintro ⟨hh, hne⟩
      refine .inr ⟨hh, fun hx => ?_⟩
      rcases hin hh hx.1 hx.2 with ⟨hs, -⟩ | ⟨-, ho⟩
      · cases hs
      · exact hne ho
  · rw [hhas]
    constructor
    · rintro (⟨-, hx, hk⟩ | ⟨hh, hne⟩)
      · exact .inr ⟨hx, hk⟩
      · refine .inl ⟨hh, ?_⟩
        rintro rfl
        exact hne hrange.1
    · rintro (⟨hh, hne⟩ | ⟨hx, hk⟩)
      · refine .inr ⟨hh, fun hx => ?_⟩
        rcases hin hh hx.1 hx.2 with ⟨-, ho⟩ | ⟨hs, -⟩
        · exact hne ho
        · cases hs
      · exact .inl ⟨rfl, hx, hk⟩

end Buddy

end OsLab
