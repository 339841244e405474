import OsLab.Mailbox.Table
import Mathlib.Algebra.Order.BigOperators.Group.Finset
import Mathlib.Data.Int.ModEq
/-!
# How long a mailbox lives

A mailbox is counted twice: `nref` counts its opens, and `mbox_ref` has the
processes that have opened it. A process that exits takes itself out of
`mbox_ref`, and its opens stay in `nref`; one that closes leaves
`nref`, and stays in `mbox_ref`. Either count alone ends the mailbox. So a
mailbox is never destroyed too early by them, but it can be too late.

In a run in which the last to let go finds the other count clean
(`Tidy`), a mailbox is destroyed exactly when nobody has it open any more.
-/

namespace OsLab

open Finset List

namespace Bytes

variable {b : Bytes} {k : ℕ} {z : ℤ}

theorem int_congr {b' : Bytes} (h : ∀ i, 4 * k ≤ i → i < 4 * k + 4 → b i = b' i) :
    b.int k = b'.int k := by
  unfold int
  rw [word_congr h]

theorem int_setInt_self (b : Bytes) (k : ℕ) (hz : -2 ^ 31 ≤ z) (hz' : z < 2 ^ 31) :
    (b.setInt k z).int k = z := by
  unfold int setInt
  rw [word_setWord_self, UInt32.toNat_ofNat']
  have hmod : 0 ≤ z % 2 ^ 32 := Int.emod_nonneg _ (by decide)
  rw [Nat.mod_eq_of_lt (by omega), Int.toNat_of_nonneg hmod, Int.bmod_def]
  split <;> omega

theorem int_setInt_of_ne {k' : ℕ} (z : ℤ) (h : k' ≠ k) : (b.setInt k z).int k' = b.int k' := by
  unfold int setInt
  rw [word_setWord_of_ne h]

theorem setInt_of_not_mem {i : ℕ} (h : i < 4 * k ∨ 4 * k + 4 ≤ i) : b.setInt k z i = b i :=
  if_neg (by omega)

theorem int_fill : (fill 0).int k = 0 := by
  have h : ((fill 0).word k).toNat = 0 := by
    simp only [word, fill_apply]
    decide
  unfold int
  exact Int.zero_bmod

theorem int_zero {m : Bytes} (h : ∀ i, 4 * k ≤ i → i < 4 * k + 4 → m i = 0) : m.int k = 0 :=
  (int_congr h : m.int k = (fill 0).int k).trans int_fill

end Bytes

namespace Mailbox

open Bytes

namespace Table

variable {s s' t : Table} {p : Pcb} {i j : ℕ}

/-! ## The claims of a process -/

/-- Somebody has the mailbox open. -/
def Held (s : Table) (i : ℕ) : Prop := ∃ q, 0 < s.opens q i

/-- How many opens are unmatched. -/
def total (s : Table) (i : ℕ) : ℕ := ∑ q, s.opens q i

/-- The mailbox is destroyed. -/
def Destroyed (s s' : Table) (i : ℕ) : Prop := s.mbox_ref i ≠ ∅ ∧ s'.mbox_ref i = ∅

/-- A step of process `p` destroys mailbox `i` exactly if nobody has it open
any more; it is then empty, and nobody who has it open is in it. -/
structure Lifetime (s : Table) (p : Pcb) (s' : Table) (i : ℕ) : Prop where
  exactly : Destroyed s s' i ↔ Held s i ∧ ¬ Held s' i
  reset : Destroyed s s' i → ∀ k < MBOX_SIZE, s'.mailboxes (MBOX_SIZE * i + k) = 0
  apart : Destroyed s s' i → ∀ q ≠ p, 0 < s.opens q i → s.inside q ≠ some i

/-- A process closes what it has opened. -/
def Legal (s : Table) : Event → Prop
  | .close p mbox_idx => ∀ i < MBOX_NUM, mbox_idx = i → 0 < s.opens p i
  | _ => True

/-- Only `p` has the mailbox open. -/
def Last (s : Table) (p : Pcb) (i : ℕ) : Prop := 0 < s.opens p i ∧ ∀ q ≠ p, s.opens q i = 0

/-- When the last process that has a mailbox open closes it, none has exited with it
open; when that process exits, no other has opened and closed it. The name of a new
mailbox does not reach `nref`, and `nref` does not overflow. -/
def Tidy (s : Table) : Event → Prop
  | .opens _ name => (∀ i ∈ s.existing (name.takeWhile (· ≠ 0)), s.nref i < 2 ^ 31 - 1) ∧
      (s.existing (name.takeWhile (· ≠ 0)) = none →
        (name.takeWhile (· ≠ 0)).length ≤ MAX_MBOX_NAME + MAX_MBOX_LENGTH)
  | .close p mbox_idx => ∀ i < MBOX_NUM, mbox_idx = i → s.Last p i → s.opens p i = 1 → s.left i = 0
  | .exit p => ∀ i < MBOX_NUM, s.Last p i → s.mbox_ref i ⊆ {p}
  | _ => True

instance : Decidable (s.Held i) := inferInstanceAs (Decidable (∃ _, _))

instance : Decidable (Destroyed s s' i) := inferInstanceAs (Decidable (_ ∧ _))

instance : Decidable (s.Last p i) := inferInstanceAs (Decidable (_ ∧ _))

instance (e : Event) : Decidable (s.Legal e) :=
  match e with
  | .close p mbox_idx => inferInstanceAs (Decidable (∀ i < MBOX_NUM, mbox_idx = i → 0 < s.opens p i))
  | .opens .. | .exit _ | .enter .. | .put .. | .get _ | .leave _ => instDecidableTrue

instance (e : Event) : Decidable (s.Tidy e) :=
  match e with
  | .opens _ name => inferInstanceAs (Decidable ((∀ i ∈ s.existing (name.takeWhile (· ≠ 0)), s.nref i < 2 ^ 31 - 1) ∧
      (s.existing (name.takeWhile (· ≠ 0)) = none →
        (name.takeWhile (· ≠ 0)).length ≤ MAX_MBOX_NAME + MAX_MBOX_LENGTH)))
  | .close p mbox_idx =>
    inferInstanceAs (Decidable (∀ i < MBOX_NUM, mbox_idx = i → s.Last p i → s.opens p i = 1 → s.left i = 0))
  | .exit p => inferInstanceAs (Decidable (∀ i < MBOX_NUM, s.Last p i → s.mbox_ref i ⊆ {p}))
  | .enter .. | .put .. | .get _ | .leave _ => instDecidableTrue

/-! ## One mailbox -/

theorem not_held_iff : ¬ s.Held i ↔ s.total i = 0 := by simp [Held, total]

theorem total_eq_add (p : Pcb) : s.total i = s.opens p i + ∑ q ∈ Finset.univ.erase p, s.opens q i :=
  (add_sum_erase _ _ (mem_univ p)).symm

section

variable {v : ℕ}

theorem upd_opens_of_ne {f : Pcb → ℕ → ℕ} (q : Pcb) (h : j ≠ i) :
    upd f p (upd (f p) i v) q j = f q j := by
  by_cases hq : q = p
  · rw [hq, upd_self, upd_of_ne h]
  · rw [upd_of_ne hq]

variable {t : Table} (h : t.opens = upd s.opens p (upd (s.opens p) i v))
include h

theorem opens_self : t.opens p i = v := by rw [h, upd_self, upd_self]

theorem opens_of_ne {q : Pcb} (hq : q ≠ p) : t.opens q i = s.opens q i := by rw [h, upd_of_ne hq]

/-- Only the opens of `p` change. -/
theorem total_upd : t.total i + s.opens p i = s.total i + v := by
  have : ∑ q ∈ Finset.univ.erase p, t.opens q i = ∑ q ∈ Finset.univ.erase p, s.opens q i :=
    sum_congr rfl fun q hq => opens_of_ne h (ne_of_mem_erase hq)
  rw [total_eq_add p, total_eq_add p, this, opens_self h]
  omega

end

theorem last_iff : s.Last p i ↔ 0 < s.opens p i ∧ s.total i = s.opens p i := by
  rw [total_eq_add p, Nat.add_eq_left, Finset.sum_eq_zero_iff]
  simp [Last]

/-- The counts of mailbox `i` agree. -/
structure Good (s : Table) (i : ℕ) : Prop where
  held : s.mbox_ref i ≠ ∅ → s.Held i
  bit : ∀ q, 0 < s.opens q i → q ∈ s.mbox_ref i
  nref : s.nref i = s.total i + s.left i
  small : s.nref i < 2 ^ 31
  left : s.mbox_ref i = ∅ → s.left i = 0
  tail : 0 ≤ s.tail i ∧ s.tail i < MAX_MBOX_LENGTH

/-- Nothing of mailbox `i` changes. -/
structure Same (s s' : Table) (i : ℕ) : Prop where
  bytes : ∀ k < MBOX_SIZE, s'.mailboxes (MBOX_SIZE * i + k) = s.mailboxes (MBOX_SIZE * i + k)
  ref : s'.mbox_ref i = s.mbox_ref i
  opens : ∀ q, s'.opens q i = s.opens q i
  left : s'.left i = s.left i

theorem good_init (i : ℕ) : init.Good i where
  held h := absurd rfl h
  bit _ h := absurd h (Nat.lt_irrefl _)
  nref := int_fill.trans (by simp [init, total])
  small := int_fill.trans_lt (by decide)
  left _ := rfl
  tail := by
    have : init.tail i = 0 := int_fill
    simp [this, MAX_MBOX_LENGTH]

namespace Same

theorem refl (s : Table) (i : ℕ) : Same s s i := ⟨fun _ _ => rfl, rfl, fun _ => rfl, rfl⟩

variable (h : Same s s' i)
include h

theorem trans (h' : Same s' t i) : Same s t i where
  bytes k hk := (h'.bytes k hk).trans (h.bytes k hk)
  ref := h'.ref.trans h.ref
  opens q := (h'.opens q).trans (h.opens q)
  left := h'.left.trans h.left

theorem int (hj : 110 * i ≤ j) (hj' : j < 110 * i + 110) :
    s'.mailboxes.int j = s.mailboxes.int j := by
  refine int_congr fun k hk hk' => ?_
  have := h.bytes (k - MBOX_SIZE * i) (by simp only [MBOX_SIZE]; omega)
  rwa [Nat.add_sub_cancel' (by simp only [MBOX_SIZE]; omega)] at this

theorem held : s'.Held i ↔ s.Held i := by simp only [Held, h.opens]

theorem total : s'.total i = s.total i := by simp only [Table.total, h.opens]

theorem good (hs : s.Good i) : s'.Good i where
  held hne := h.held.mpr (hs.held (h.ref ▸ hne))
  bit q hq := by
    rw [h.opens] at hq
    exact h.ref ▸ hs.bit q hq
  nref := by
    rw [h.total, h.left]
    exact (h.int (by simp only [nrefAt]; omega) (by simp only [nrefAt]; omega)).trans hs.nref
  small := by
    have := h.int (j := nrefAt i) (by simp only [nrefAt]; omega) (by simp only [nrefAt]; omega)
    exact this.trans_lt hs.small
  left he := h.left.trans (hs.left (h.ref ▸ he))
  tail := by
    have : s'.tail i = s.tail i := h.int (by simp only [tailAt]; omega) (by simp only [tailAt]; omega)
    rw [this]
    exact hs.tail

theorem lifetime : Lifetime s p s' i where
  exactly := by
    simp only [Destroyed, h.ref, h.held]
    exact ⟨fun h => absurd h.2 h.1, fun h => absurd h.1 h.2⟩
  reset hd := absurd (h.ref ▸ hd.2) hd.1
  apart hd := absurd (h.ref ▸ hd.2) hd.1

end Same

/-! ## Opening -/

variable {j k : ℕ} {q : Pcb} {name : List UInt8} {m : Bytes} {l : List ℕ} {f : Pcb → Option ℕ}
  {c : UInt8}

theorem same_reference (hj : j ≠ i) : Same s (s.reference p i) j where
  bytes k hk := setInt_of_not_mem (by simp only [nrefAt, MBOX_SIZE] at *; omega)
  ref := upd_of_ne hj
  opens q := upd_opens_of_ne q hj
  left := rfl

theorem opens_reference_self : (s.reference p i).opens p i = s.opens p i + 1 := opens_self rfl

theorem ref_reference : (s.reference p i).mbox_ref i = insert p (s.mbox_ref i) := upd_self

/-- What is left to show of a mailbox that gets a reference. -/
theorem good_reference (hnref : s.nref i = s.total i + s.left i) (hlt : s.nref i < 2 ^ 31 - 1)
    (hbit : ∀ q, 0 < s.opens q i → q ∈ s.mbox_ref i)
    (htail : 0 ≤ s.tail i ∧ s.tail i < MAX_MBOX_LENGTH) :
    (s.reference p i).Good i := by
  have hmore : (s.reference p i).nref i = s.nref i + 1 := int_setInt_self _ _ (by omega) (by omega)
  have htail' : (s.reference p i).tail i = s.tail i :=
    int_setInt_of_ne _ (by simp only [nrefAt, tailAt]; omega)
  refine ⟨fun _ => ⟨p, ?_⟩, fun q hq => ?_, ?_, ?_, fun he => ?_, ?_⟩
  · rw [opens_reference_self]
    omega
  · rw [ref_reference, mem_insert]
    by_cases hqp : q = p
    · exact .inl hqp
    · exact .inr (hbit q (opens_of_ne (t := s.reference p i) rfl hqp ▸ hq))
  · have := total_upd (s := s) (t := s.reference p i) rfl
    show _ = _ + (s.left i : ℤ)
    omega
  · rw [hmore]
    omega
  · rw [ref_reference] at he
    exact absurd he (insert_ne_empty _ _)
  · rw [htail']
    exact htail

/-- A mailbox that somebody has open after a step lives on. -/
theorem Lifetime.stays (hne : s'.mbox_ref i ≠ ∅) (h : s'.Held i) : Lifetime s p s' i :=
  ⟨iff_of_false (fun hd => hne hd.2) fun hh => hh.2 h, fun hd => absurd hd.2 hne,
    fun hd => absurd hd.2 hne⟩

/-- A mailbox that is found or made lives on. -/
theorem lifetime_reference : Lifetime s p (s.reference p i) i :=
  .stays (by rw [ref_reference]; exact insert_ne_empty _ _) ⟨p, by rw [opens_reference_self]; omega⟩

theorem same_init (hname : name.length ≤ MAX_MBOX_NAME + MAX_MBOX_LENGTH) (hj : j ≠ i) :
    Same s { s with mailboxes := strcpy (mailboxInit s.mailboxes i) (MBOX_SIZE * i) name } j where
  bytes k hk := by
    simp only [MAX_MBOX_NAME, MAX_MBOX_LENGTH, MBOX_SIZE] at *
    refine (blit_of_not_mem (by omega)).trans (blit_of_not_mem ?_)
    simp only [LOCK_OFFSET, MBOX_SIZE]
    omega
  ref := rfl
  opens _ := rfl
  left := rfl

/-- The name ends before the numbers, which are 0. -/
theorem int_init (hname : name.length ≤ MAX_MBOX_NAME + MAX_MBOX_LENGTH) (hk : nrefAt i ≤ k)
    (hk' : k ≤ tailAt i) :
    (strcpy (mailboxInit m i) (MBOX_SIZE * i) name).int k = 0 := by
  simp only [MAX_MBOX_NAME, MAX_MBOX_LENGTH, nrefAt, tailAt] at *
  refine int_zero fun a ha ha' => ?_
  have hinit : mailboxInit m i a = 0 :=
    blit_of_mem (by simp only [MBOX_SIZE]; omega) (by simp only [MBOX_SIZE, LOCK_OFFSET]; omega)
  rcases Nat.lt_or_ge a (MBOX_SIZE * i + name.length) with hlt | hge
  · simp only [MBOX_SIZE] at hlt
    omega
  · unfold strcpy blit
    split
    · exact getD_eq_default _ _ (by omega)
    · exact hinit

theorem Good.opens_eq_zero (h : s.Good i) (he : s.mbox_ref i = ∅) (q : Pcb) : s.opens q i = 0 := by
  by_contra hne
  have := h.bit q (Nat.pos_of_ne_zero hne)
  rw [he] at this
  exact notMem_empty q this

theorem unused_spec (h : s.unused = some i) : i < MBOX_NUM ∧ s.mbox_ref i = ∅ :=
  ⟨List.mem_range.mp (mem_of_find?_eq_some h), by simpa using List.find?_some h⟩

theorem doMboxOpen_spec (hs : ∀ i < MBOX_NUM, s.Good i) {string : List UInt8}
    (htidy : s.Tidy (.opens p string)) (h : s.doMboxOpen p (string.takeWhile (· ≠ 0)) = some s') :
    ∀ i < MBOX_NUM, s'.Good i ∧ Lifetime s p s' i := by
  intro i hi
  obtain ⟨hcount, hlen⟩ := htidy
  generalize string.takeWhile (· ≠ 0) = name at hcount hlen h
  have hgood := hs i hi
  unfold doMboxOpen at h
  split at h
  case h_1 j hj =>
    obtain rfl := Option.some.inj h
    by_cases hij : i = j
    · subst hij
      exact ⟨good_reference hgood.nref (hcount i hj) hgood.bit hgood.tail, lifetime_reference⟩
    · exact ⟨(same_reference hij).good hgood, (same_reference hij).lifetime⟩
  case h_2 hnone =>
    have hlen := hlen hnone
    obtain ⟨j, hj, rfl⟩ := Option.map_eq_some_iff.mp h
    by_cases hij : i = j
    · subst hij
      obtain ⟨-, hempty⟩ := unused_spec hj
      have hzero := hgood.opens_eq_zero hempty
      have htotal : s.total i = 0 := by simp [total, hzero]
      have hnref : ∀ k, nrefAt i ≤ k → k ≤ tailAt i →
          (strcpy (mailboxInit s.mailboxes i) (MBOX_SIZE * i) name).int k = 0 := fun k => int_init hlen
      have hn := hnref (nrefAt i) le_rfl (by simp only [nrefAt, tailAt]; omega)
      have ht := hnref (tailAt i) (by simp only [nrefAt, tailAt]; omega) le_rfl
      refine ⟨good_reference ?_ (hn.trans_lt (by decide)) hgood.bit ?_, ?_⟩
      · refine hn.trans ?_
        show 0 = ((s.total i : ℕ) : ℤ) + (s.left i : ℤ)
        rw [htotal, hgood.left hempty]
        rfl
      · exact ⟨ht.ge, ht.trans_lt (by decide)⟩
      · have hne : ∀ t, ¬ Destroyed s t i := fun t ht => ht.1 hempty
        refine ⟨iff_of_false (hne _) fun hh => ?_, fun hh => absurd hh (hne _), fun hh => absurd hh (hne _)⟩
        obtain ⟨q, hq⟩ := hh.1
        exact absurd (hzero q) hq.ne'
    · have hsame := (same_init (s := s) hlen hij).trans (same_reference (p := p) hij)
      exact ⟨hsame.good hgood, hsame.lifetime⟩

/-! ## Destruction -/

theorem same_destroy (hj : j ≠ i) : Same s (s.destroy i) j where
  bytes k hk := blit_of_not_mem (by simp only [MBOX_SIZE] at *; omega)
  ref := upd_of_ne hj
  opens _ := rfl
  left := upd_of_ne hj

theorem destroy_bytes (hk : k < MBOX_SIZE) : (s.destroy i).mailboxes (MBOX_SIZE * i + k) = 0 :=
  blit_of_mem (Nat.le_add_right _ _) (Nat.add_lt_add_left hk _)

theorem destroy_ref : (s.destroy i).mbox_ref i = ∅ := upd_self

theorem destroy_int (hk : 110 * i ≤ k) (hk' : k < 110 * i + 110) :
    (s.destroy i).mailboxes.int k = 0 := by
  refine int_zero fun a ha ha' => ?_
  have := destroy_bytes (s := s) (i := i) (k := a - MBOX_SIZE * i) (by simp only [MBOX_SIZE]; omega)
  rwa [Nat.add_sub_cancel' (by simp only [MBOX_SIZE]; omega)] at this

theorem good_destroy (h : s.total i = 0) : (s.destroy i).Good i := by
  have hnref : (s.destroy i).nref i = 0 :=
    destroy_int (by simp only [nrefAt]; omega) (by simp only [nrefAt]; omega)
  have htail : (s.destroy i).tail i = 0 :=
    destroy_int (by simp only [tailAt]; omega) (by simp only [tailAt]; omega)
  have hleft : (s.destroy i).left i = 0 := upd_self
  refine ⟨fun hne => absurd destroy_ref hne, fun q hq => ?_, ?_, hnref.trans_lt (by decide),
    fun _ => hleft, ?_⟩
  · exact absurd h fun h0 => not_held_iff.mpr h0 ⟨q, hq⟩
  · rw [hnref, hleft]
    show 0 = ((s.total i : ℕ) : ℤ) + _
    rw [h]
    rfl
  · rw [htail]
    exact ⟨le_rfl, by decide⟩

/-- **The last open is gone**, and the mailbox with it. Others keep their opens, so none of them has
it open. -/
theorem destroy_spec (hs : s.Good i) (hne : s.mbox_ref i ≠ ∅) (h0 : t.total i = 0)
    (hothers : ∀ q ≠ p, t.opens q i = s.opens q i) :
    (t.destroy i).Good i ∧ Lifetime s p (t.destroy i) i := by
  have hnot : ¬ t.Held i := not_held_iff.mpr h0
  refine ⟨good_destroy h0, iff_of_true ⟨hne, destroy_ref⟩ ⟨hs.held hne, hnot⟩,
    fun _ k hk => destroy_bytes hk,
    fun _ q hq hpos => absurd ?_ hnot⟩
  exact ⟨q, hothers q hq ▸ hpos⟩

/-! ## Closing -/

theorem same_dereference (hj : j ≠ i) : Same s (s.dereference p i) j where
  bytes k hk := setInt_of_not_mem (by simp only [nrefAt, MBOX_SIZE] at *; omega)
  ref := rfl
  opens q := upd_opens_of_ne q hj
  left := rfl

theorem opens_dereference_of_ne (hq : q ≠ p) : (s.dereference p i).opens q i = s.opens q i :=
  opens_of_ne rfl hq

theorem same_retire (hj : j ≠ i) : Same s (s.retire i) j := by
  unfold retire
  split
  · exact .refl s j
  · exact same_destroy hj

/-- The close of mailbox `i`, which is in use. -/
theorem dereference_spec (hs : s.Good i) (hopen : 0 < s.opens p i)
    (htidy : s.Last p i → s.opens p i = 1 → s.left i = 0) :
    ((s.dereference p i).retire i).Good i ∧ Lifetime s p ((s.dereference p i).retire i) i := by
  have hne : s.mbox_ref i ≠ ∅ := ne_empty_of_mem (hs.bit p hopen)
  have htotal := total_upd (s := s) (t := s.dereference p i) rfl
  have hbelow : s.opens p i ≤ s.total i := by
    rw [total_eq_add p]
    omega
  have hn := hs.nref
  have hsmall := hs.small
  have hnref : (s.dereference p i).nref i = s.nref i - 1 :=
    int_setInt_self _ _ (by omega) (by omega)
  unfold retire
  split
  case isTrue hpos =>
    -- somebody has it open still, or it would have been the last close
    have hstill : (s.dereference p i).total i ≠ 0 := by
      intro h0
      have := htidy (last_iff.mpr ⟨hopen, by omega⟩) (by omega)
      omega
    have hheld' : (s.dereference p i).Held i := by
      by_contra hnot
      exact hstill (not_held_iff.mp hnot)
    refine ⟨⟨fun _ => hheld', fun q hq => hs.bit q ?_, ?_, by omega, hs.left, ?_⟩, .stays hne hheld'⟩
    · by_cases hqp : q = p
      · exact hqp ▸ hopen
      · rwa [opens_dereference_of_ne hqp] at hq
    · show (s.dereference p i).nref i = (s.dereference p i).total i + s.left i
      omega
    · have : (s.dereference p i).tail i = s.tail i :=
        int_setInt_of_ne _ (by simp only [nrefAt, tailAt]; omega)
      rw [this]
      exact hs.tail
  case isFalse hle => exact destroy_spec hs hne (by omega) fun q hq => opens_dereference_of_ne hq

theorem doMboxClose_spec (hs : ∀ i < MBOX_NUM, s.Good i) {mbox_idx : ℤ}
    (hlegal : s.Legal (.close p mbox_idx)) (htidy : s.Tidy (.close p mbox_idx)) :
    ∀ i < MBOX_NUM, (s.doMboxClose p mbox_idx).Good i ∧ Lifetime s p (s.doMboxClose p mbox_idx) i := by
  intro i hi
  have hsame : Same s s i := .refl s i
  unfold doMboxClose
  split
  case isTrue => exact ⟨hs i hi, hsame.lifetime⟩
  case isFalse hrange =>
    split
    case isTrue => exact ⟨hs i hi, hsame.lifetime⟩
    case isFalse =>
      by_cases hij : mbox_idx.toNat = i
      · subst hij
        have hidx : mbox_idx = mbox_idx.toNat := by omega
        exact dereference_spec (hs _ hi) (hlegal _ hi hidx) (htidy _ hi hidx)
      · have hd : Same s (s.dereference p mbox_idx.toNat) i := same_dereference (Ne.symm hij)
        have hdd := hd.trans (same_retire (Ne.symm hij))
        exact ⟨hdd.good (hs i hi), hdd.lifetime⟩

/-! ## Exiting -/

theorem same_leaveBehind (hj : j ≠ i) : Same s (s.leaveBehind p i) j where
  bytes _ _ := rfl
  ref := upd_of_ne hj
  opens q := upd_opens_of_ne q hj
  left := upd_of_ne hj

theorem opens_leaveBehind_of_ne (hq : q ≠ p) : (s.leaveBehind p i).opens q i = s.opens q i :=
  opens_of_ne rfl hq

/-- Whoever has it open then is another process, which had it open before. -/
theorem bit_leaveBehind (hs : s.Good i) (hq : 0 < (s.leaveBehind p i).opens q i) :
    q ∈ (s.mbox_ref i).erase p := by
  have hqp : q ≠ p := by
    rintro rfl
    exact absurd (opens_self (s := s) rfl) hq.ne'
  exact mem_erase.mpr ⟨hqp, hs.bit q (opens_leaveBehind_of_ne hqp ▸ hq)⟩

theorem ref_leaveBehind : (s.leaveBehind p i).mbox_ref i = (s.mbox_ref i).erase p := upd_self

theorem same_cleanupMailbox (hj : j ≠ i) : Same s (cleanupMailbox p s i) j := by
  unfold cleanupMailbox
  split
  case isFalse => exact .refl s j
  case isTrue =>
    dsimp only
    split
    · exact (same_leaveBehind hj).trans (same_destroy hj)
    · exact same_leaveBehind hj

/-- A process lets go of mailbox `i` as it exits. -/
theorem cleanupMailbox_spec (hs : s.Good i) (htidy : s.Last p i → s.mbox_ref i ⊆ {p}) :
    (cleanupMailbox p s i).Good i ∧ Lifetime s p (cleanupMailbox p s i) i := by
  unfold cleanupMailbox
  split
  case isFalse => exact ⟨hs, (Same.refl s i).lifetime⟩
  case isTrue hmem =>
    have hne : s.mbox_ref i ≠ ∅ := ne_empty_of_mem hmem
    have htotal := total_upd (s := s) (t := s.leaveBehind p i) rfl
    dsimp only
    split
    case isTrue hempty =>
      -- nobody else is in `mbox_ref`, so nobody else has it open
      have h0 : (s.leaveBehind p i).total i = 0 := by
        refine not_held_iff.mp fun ⟨q, hq⟩ => ?_
        have := bit_leaveBehind hs hq
        rw [← ref_leaveBehind, hempty] at this
        exact notMem_empty q this
      exact destroy_spec hs hne h0 fun q hq => opens_leaveBehind_of_ne hq
    case isFalse hstays =>
      have hheld' : (s.leaveBehind p i).Held i := by
        by_contra hnot
        have h0 := not_held_iff.mp hnot
        have hlast : s.Last p i := by
          obtain ⟨q, hq⟩ := hs.held hne
          have : s.total i ≠ 0 := fun h => not_held_iff.mpr h ⟨q, hq⟩
          exact last_iff.mpr ⟨by omega, by omega⟩
        refine hstays ?_
        rw [ref_leaveBehind, erase_eq_empty_iff]
        exact .inr (Finset.Subset.antisymm (htidy hlast) (singleton_subset_iff.mpr hmem))
      have hn := hs.nref
      have hnref : (s.leaveBehind p i).nref i = s.nref i := rfl
      have htail : (s.leaveBehind p i).tail i = s.tail i := rfl
      refine ⟨⟨fun _ => hheld', fun q hq => ?_, ?_, hnref.trans_lt hs.small, fun he => absurd he hstays,
        by rw [htail]; exact hs.tail⟩, .stays hstays hheld'⟩
      · rw [ref_leaveBehind]
        exact bit_leaveBehind hs hq
      · have hleft : (s.leaveBehind p i).left i = s.left i + s.opens p i := upd_self
        omega

theorem inside_cleanupMailbox : (cleanupMailbox p s i).inside = s.inside := by
  unfold cleanupMailbox
  split
  · dsimp only
    split <;> rfl
  · rfl

theorem same_foldl_cleanupMailbox (h : i ∉ l) : Same s (l.foldl (cleanupMailbox p) s) i := by
  induction l generalizing s with
  | nil => exact .refl s i
  | cons j l ih =>
    rw [List.mem_cons, not_or] at h
    exact (same_cleanupMailbox h.1).trans (ih h.2)

/-- The loop comes to mailbox `i` once, and finds it as it was. -/
theorem foldl_cleanupMailbox (hl : l.Nodup) (h : i ∈ l) :
    ∃ t, Same s t i ∧ t.inside = s.inside ∧ Same (cleanupMailbox p t i) (l.foldl (cleanupMailbox p) s) i := by
  induction l generalizing s with
  | nil => exact absurd h not_mem_nil
  | cons j l ih =>
    obtain ⟨hj, hl⟩ := nodup_cons.mp hl
    by_cases hij : i = j
    · subst hij
      exact ⟨s, .refl s i, rfl, same_foldl_cleanupMailbox hj⟩
    · obtain ⟨t, ht, hin, hend⟩ := ih (s := cleanupMailbox p s j) hl ((List.mem_cons.mp h).resolve_left hij)
      exact ⟨t, (same_cleanupMailbox hij).trans ht, hin.trans inside_cleanupMailbox, hend⟩

theorem same_inside : Same s { s with inside := f } i :=
  ⟨fun _ _ => rfl, rfl, fun _ => rfl, rfl⟩

theorem cleanupMailboxes_spec (hs : ∀ i < MBOX_NUM, s.Good i) (htidy : s.Tidy (.exit p)) :
    ∀ i < MBOX_NUM, (s.cleanupMailboxes p).Good i ∧ Lifetime s p (s.cleanupMailboxes p) i := by
  intro i hi
  obtain ⟨t, ht, hin, hend⟩ :=
    foldl_cleanupMailbox (s := s) (p := p) nodup_range (List.mem_range.mpr hi)
  have hend' : Same (cleanupMailbox p t i) (s.cleanupMailboxes p) i := by
    exact hend.trans same_inside
  have hlast : t.Last p i → t.mbox_ref i ⊆ {p} := by
    simp only [Last, ht.opens, ht.ref]
    exact htidy i hi
  obtain ⟨hgood, hlife⟩ := cleanupMailbox_spec (ht.good (hs i hi)) hlast
  have hdest : Destroyed s (s.cleanupMailboxes p) i ↔ Destroyed t (cleanupMailbox p t i) i := by
    simp only [Destroyed, ht.ref, hend'.ref]
  refine ⟨hend'.good hgood, ⟨?_, fun hd k hk => ?_, fun hd q hq hpos => ?_⟩⟩
  · rw [hdest, hlife.exactly, ht.held, hend'.held]
  · rw [hend'.bytes k hk]
    exact hlife.reset (hdest.mp hd) k hk
  · rw [← hin]
    exact hlife.apart (hdest.mp hd) q hq (ht.opens q ▸ hpos)

/-! ## Moving bytes -/

theorem tail_next {t : ℤ} (h : 0 ≤ t ∧ t < MAX_MBOX_LENGTH) :
    0 ≤ Int.tmod (t + 1) MAX_MBOX_LENGTH ∧ Int.tmod (t + 1) MAX_MBOX_LENGTH < MAX_MBOX_LENGTH := by
  rw [Int.tmod_eq_emod_of_nonneg (by omega)]
  exact ⟨Int.emod_nonneg _ (by decide), Int.emod_lt_of_pos _ (by decide)⟩

/-- Bytes of a mailbox change that are no part of the counts. -/
theorem good_of_bytes (hs : s.Good i) (hnref : m.int (nrefAt i) = s.nref i)
    (htail : 0 ≤ m.int (tailAt i) ∧ m.int (tailAt i) < MAX_MBOX_LENGTH) :
    ({ s with mailboxes := m } : Table).Good i :=
  ⟨hs.held, hs.bit, hnref.trans hs.nref, hnref.trans_lt hs.small, hs.left, htail⟩

theorem lifetime_of_bytes : Lifetime s p { s with mailboxes := m } i where
  exactly := iff_of_false (fun h => h.1 h.2) fun h => h.2 h.1
  reset h := absurd h.2 h.1
  apart h := absurd h.2 h.1

theorem good_put (hs : ∀ j < MBOX_NUM, s.Good j) (hi : i < MBOX_NUM) (hj : j < MBOX_NUM) :
    (s.put i c).Good j := by
  unfold put
  split
  case isFalse => exact hs j hj
  case isTrue =>
    obtain ⟨h0, hlt⟩ := (hs i hi).tail
    have hbuf : MBOX_SIZE * i + 32 ≤ bufferAt i (s.tail i) ∧ bufferAt i (s.tail i) < MBOX_SIZE * i + 288 := by
      simp only [bufferAt, MAX_MBOX_NAME, MAX_MBOX_LENGTH] at *
      omega
    -- the byte goes to the buffer, which holds none of the numbers
    have hint : ∀ k, nrefAt j ≤ k → k ≤ tailAt j →
        int (upd s.mailboxes (bufferAt i (s.tail i)) c) k = s.mailboxes.int k := by
      intro k hk hk'
      refine int_congr fun a ha ha' => upd_of_ne ?_
      simp only [nrefAt, tailAt, MBOX_SIZE] at *
      omega
    have hj' := hs j hj
    refine good_of_bytes hj' ?_ ?_
    · rw [int_setInt_of_ne _ (by simp only [nrefAt, usedAt]; omega),
        int_setInt_of_ne _ (by simp only [nrefAt, tailAt]; omega)]
      exact hint _ le_rfl (by simp only [nrefAt, tailAt]; omega)
    · rw [int_setInt_of_ne _ (by simp only [tailAt, usedAt]; omega)]
      by_cases hij : j = i
      · have hnext := tail_next ⟨h0, hlt⟩
        rw [hij, int_setInt_self _ _ (by simp only [MAX_MBOX_LENGTH] at *; omega)
          (by simp only [MAX_MBOX_LENGTH] at *; omega)]
        exact hnext
      · rw [int_setInt_of_ne _ (by simp only [tailAt]; omega),
          hint _ (by simp only [nrefAt, tailAt]; omega) le_rfl]
        exact hj'.tail

theorem good_get (hs : s.Good i) : (s.get j).Good i := by
  unfold get
  split
  case isFalse => exact hs
  case isTrue =>
    refine good_of_bytes hs ?_ ?_
    · rw [int_setInt_of_ne _ (by simp only [nrefAt, usedAt]; omega),
        int_setInt_of_ne _ (by simp only [nrefAt, headAt]; omega)]
      rfl
    · rw [int_setInt_of_ne _ (by simp only [tailAt, usedAt]; omega),
        int_setInt_of_ne _ (by simp only [tailAt, headAt]; omega)]
      exact hs.tail

theorem lifetime_put : Lifetime s p (s.put j c) i := by
  unfold put
  split
  · exact lifetime_of_bytes
  · exact (Same.refl s i).lifetime

theorem lifetime_get : Lifetime s p (s.get j) i := by
  unfold get
  split
  · exact lifetime_of_bytes
  · exact (Same.refl s i).lifetime

/-! ## Every run -/

/-- The counts agree, and whoever is in a mailbox is in one of the table. -/
structure Ok (s : Table) : Prop where
  good : ∀ i < MBOX_NUM, s.Good i
  inside : ∀ p i, s.inside p = some i → i < MBOX_NUM

theorem ok_init : init.Ok := ⟨fun i _ => good_init i, nofun⟩

theorem inside_doMboxOpen (h : s.doMboxOpen p name = some s') : s'.inside = s.inside := by
  unfold doMboxOpen at h
  split at h
  · obtain rfl := Option.some.inj h
    rfl
  · obtain ⟨j, -, rfl⟩ := Option.map_eq_some_iff.mp h
    rfl

theorem inside_retire : (s.retire i).inside = s.inside := by
  unfold retire
  split <;> rfl

theorem inside_doMboxClose (mbox_idx : ℤ) : (s.doMboxClose p mbox_idx).inside = s.inside := by
  unfold doMboxClose
  split_ifs
  · rfl
  · rfl
  · exact inside_retire

theorem inside_put (c : UInt8) : (s.put i c).inside = s.inside := by
  unfold put
  split <;> rfl

theorem inside_get : (s.get i).inside = s.inside := by
  unfold get
  split <;> rfl

/-- Whoever is in a mailbox has been there, or has just been let in. -/
theorem inside_upd {o : Option ℕ} (h : ∀ q i, f q = some i → i < MBOX_NUM)
    (ho : ∀ i, o = some i → i < MBOX_NUM) : ∀ q i, upd f p o q = some i → i < MBOX_NUM := by
  intro q i hq
  rw [upd_apply] at hq
  split at hq
  · exact ho i hq
  · exact h q i hq

/-- **Each step of a tidy run** keeps the counts in agreement, and destroys a mailbox when it
should. -/
theorem Ok.step (hs : s.Ok) {e : Event} (hlegal : s.Legal e) (htidy : s.Tidy e)
    (h : s.step e = some s') :
    s'.Ok ∧ ∀ i < MBOX_NUM, Lifetime s e.pcb s' i := by
  have split_spec : (∀ i < MBOX_NUM, s'.Good i ∧ Lifetime s e.pcb s' i) →
      (∀ q i, s'.inside q = some i → i < MBOX_NUM) → s'.Ok ∧ ∀ i < MBOX_NUM, Lifetime s e.pcb s' i :=
    fun hall hin => ⟨⟨fun i hi => (hall i hi).1, hin⟩, fun i hi => (hall i hi).2⟩
  have hsame : ∀ f : Pcb → Option ℕ, ∀ i < MBOX_NUM,
      ({ s with inside := f } : Table).Good i ∧ Lifetime s e.pcb { s with inside := f } i :=
    fun f i hi => ⟨same_inside.good (hs.good i hi), same_inside.lifetime⟩
  cases e with
  | opens p name =>
    obtain ⟨-, h⟩ := Option.ite_none_right_eq_some.mp h
    exact split_spec (doMboxOpen_spec hs.good htidy h) (by rw [inside_doMboxOpen h]; exact hs.inside)
  | close p mbox_idx =>
    obtain ⟨-, h⟩ := Option.ite_none_right_eq_some.mp h
    obtain rfl := Option.some.inj h
    exact split_spec (doMboxClose_spec hs.good hlegal htidy) (by rw [inside_doMboxClose]; exact hs.inside)
  | exit p =>
    obtain rfl := Option.some.inj h
    exact split_spec (cleanupMailboxes_spec hs.good htidy) (inside_upd hs.inside nofun)
  | enter p mbox_idx =>
    obtain ⟨-, h⟩ := Option.ite_none_right_eq_some.mp h
    obtain rfl := Option.some.inj h
    unfold Table.enter at *
    split_ifs at * with hrange hempty
    · exact split_spec (hsame s.inside) hs.inside
    · exact split_spec (hsame s.inside) hs.inside
    · refine split_spec (hsame _) (inside_upd hs.inside fun i hi => ?_)
      obtain rfl := Option.some.inj hi
      omega
  | put p c =>
    obtain ⟨j, hj, rfl⟩ := Option.map_eq_some_iff.mp h
    refine split_spec (fun i hi => ⟨good_put hs.good (hs.inside p j hj) hi, lifetime_put⟩) ?_
    rw [inside_put]
    exact hs.inside
  | get p =>
    obtain ⟨j, -, rfl⟩ := Option.map_eq_some_iff.mp h
    refine split_spec (fun i hi => ⟨good_get (hs.good i hi), lifetime_get⟩) ?_
    rw [inside_get]
    exact hs.inside
  | leave p =>
    obtain ⟨_, -, rfl⟩ := Option.map_eq_some_iff.mp h
    exact split_spec (hsame _) (inside_upd hs.inside nofun)

theorem ok_of_reach (h : Reach (fun s e => s.Legal e ∧ s.Tidy e) s) : s.Ok := by
  induction h with
  | init => exact ok_init
  | step e _ hp he ih => exact (ih.step hp.1 hp.2 he).1

/-- **A mailbox lives as long as somebody has it open**, in every tidy run. -/
theorem lifetime_of_reach (h : Reach (fun s e => s.Legal e ∧ s.Tidy e) s) {e : Event}
    (hlegal : s.Legal e) (htidy : s.Tidy e) (he : s.step e = some s') :
    ∀ i < MBOX_NUM, Lifetime s e.pcb s' i :=
  ((ok_of_reach h).step hlegal htidy he).2

/-- One more event. -/
theorem Reach.next {P : Table → Event → Prop} (h : Reach P s) (e : Event) (hp : P s e)
    (hsome : (s.step e).isSome) : Reach P ((s.step e).get hsome) :=
  .step e h hp (Option.some_get hsome).symm

/-- Two processes open a mailbox, and close it. The second close destroys it. -/
theorem lifetime_two_closes : ∃ s s', s.step (.close 1 0) = some s' ∧ Destroyed s s' 0 ∧
    ∀ i < MBOX_NUM, Lifetime s 1 s' i := by
  have h1 := Reach.init.next (P := fun s e => s.Legal e ∧ s.Tidy e) (.opens 0 [109])
    (by decide +kernel)
    (by decide +kernel)
  have h2 := h1.next (.opens 1 [109]) (by decide +kernel) (by decide +kernel)
  have h3 := h2.next (.close 0 0) (by decide +kernel) (by decide +kernel)
  refine ⟨_, _, rfl, ?_, lifetime_of_reach h3 (e := .close 1 0) ?_ ?_ rfl⟩
  all_goals decide +kernel

/-- A name whose last four bytes are stored in `nref`. -/
def longName (c : UInt8) : List UInt8 := List.replicate 288 109 ++ [c, 109, 109, 200]

/-- **Too late.** Two processes open a mailbox; one exits, the other closes, and the
mailbox stays. **Too early.** The name of a mailbox makes `nref` negative; two processes
have it open, and the first close destroys it. -/
theorem not_lifetime :
    (∃ s s', Reach Legal s ∧ s.Legal (.close 1 0) ∧ s.step (.close 1 0) = some s' ∧ ¬ Lifetime s 1 s' 0 ∧
      s.Held 0 ∧ ¬ s'.Held 0) ∧
    ∃ s s', Reach Legal s ∧ s.Legal (.close 1 0) ∧ s.step (.close 1 0) = some s' ∧ ¬ Lifetime s 1 s' 0 ∧
      Destroyed s s' 0 := by
  constructor
  · have h1 := Reach.init.next (P := Legal) (.opens 0 [109]) trivial (by decide +kernel)
    have h2 := h1.next (.opens 1 [109]) trivial (by decide +kernel)
    have h3 := h2.next (.exit 0) trivial (by decide +kernel)
    refine ⟨_, _, h3, by decide +kernel, (Option.some_get (by decide +kernel)).symm,
      fun h => absurd h.exactly (by decide +kernel), ?_⟩
    decide +kernel
  · have h1 := Reach.init.next (P := Legal) (.opens 0 (longName 5)) trivial (by decide +kernel)
    have h2 := h1.next (.opens 1 (longName 6)) trivial (by decide +kernel)
    refine ⟨_, _, h2, by decide +kernel, (Option.some_get (by decide +kernel)).symm,
      fun h => absurd h.exactly (by decide +kernel), ?_⟩
    decide +kernel

end Table

end Mailbox

end OsLab
