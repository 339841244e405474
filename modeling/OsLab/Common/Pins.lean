import OsLab.Common.Memory
import Mathlib.Data.Finset.Card
/-!
# The blocks a program has pinned

`Pins` follows a program through everything that the blocks may
hold, and knows which blocks are pinned: never more than `cap` different
ones, and only a pinned block is unpinned, read or written. `Holds n` is the rule
for a part of a program with some pins before and after and
`n` on the way that moves the memory along a preorder; `Uses n` leaves the pins as they were.

A device that can pin `cap` blocks (`Serves`) then runs the program
without a halt of its own, and has no block pinned in the end that was not
pinned before.
-/

namespace OsLab

open List

namespace Prog

variable {μ ε β δ α γ : Type}

/-- How many different blocks are pinned. -/
def distinct (o : List ℕ) : ℕ := o.toFinset.card

theorem distinct_append_le (bs o : List ℕ) : distinct (bs ++ o) ≤ distinct o + bs.length := by
  unfold distinct
  rw [toFinset_append]
  exact (Finset.card_union_le _ _).trans (by have := bs.toFinset_card_le; omega)

/-- **A program that keeps to its pins.** `m` is the memory and `o` are the blocks that are pinned,
`Q` is to hold of the result, the memory and the pins at the end, and `E` of a halt. -/
def Pins (E : ε → Prop) (cap : ℕ) : Prog μ ε β α → μ → List ℕ → (α → μ → List ℕ → Prop) → Prop
  | ret a, m, o, Q => Q a m o
  | halt e, _, _, _ => E e
  | get k, m, o, Q => (k m).Pins E cap m o Q
  | set m k, _, o, Q => k.Pins E cap m o Q
  | pin n k, m, o, Q => distinct (n :: o) ≤ cap ∧ k.Pins E cap m (n :: o) Q
  | unpin n k, m, o, Q => n ∈ o ∧ k.Pins E cap m (o.erase n) Q
  | peek n k, m, o, Q => n ∈ o ∧ ∀ b, (k b).Pins E cap m o Q
  | poke n _ k, m, o, Q => n ∈ o ∧ k.Pins E cap m o Q

variable {E : ε → Prop} {cap : ℕ} {m : μ} {o : List ℕ} {Q : α → μ → List ℕ → Prop}
  {p : Prog μ ε β α}

theorem Pins.mono {Q' : α → μ → List ℕ → Prop} (h : p.Pins E cap m o Q)
    (hQ : ∀ a m o, Q a m o → Q' a m o) : p.Pins E cap m o Q' := by
  induction p generalizing m o with
  | ret a => exact hQ a m o h
  | halt e => exact h
  | get k ih => exact ih m h
  | set m' k ih => exact ih h
  | pin n k ih => exact ⟨h.1, ih h.2⟩
  | unpin n k ih => exact ⟨h.1, ih h.2⟩
  | peek n k ih => exact ⟨h.1, fun b => ih b (h.2 b)⟩
  | poke n b k ih => exact ⟨h.1, ih h.2⟩

/-- **Sequencing.** -/
@[simp] theorem pins_bind {p : Prog μ ε β γ} {f : γ → Prog μ ε β α} :
    (p >>= f).Pins E cap m o Q ↔ p.Pins E cap m o fun a m o => (f a).Pins E cap m o Q := by
  change (p.bind f).Pins E cap m o Q ↔ _
  induction p generalizing m o with
  | ret a => exact Iff.rfl
  | halt e => exact Iff.rfl
  | get k ih => exact ih m
  | set m' k ih => exact ih
  | pin n k ih => exact and_congr_right fun _ => ih
  | unpin n k ih => exact and_congr_right fun _ => ih
  | peek n k ih => exact and_congr_right fun _ => forall_congr' fun b => ih b
  | poke n b k ih => exact and_congr_right fun _ => ih

/-- The pins forgotten. -/
theorem Pins.mwp (h : p.Pins E cap m o Q) : p.mwp E (fun a m' => ∃ o', Q a m' o') m := by
  induction p generalizing m o with
  | ret a => exact ⟨o, h⟩
  | halt e => exact h
  | get k ih => exact ih m h
  | set m' k ih => exact ih h
  | pin n k ih => exact ih h.2
  | unpin n k ih => exact ih h.2
  | peek n k ih => exact fun b => ih b (h.2 b)
  | poke n b k ih => exact ih h.2

/-- The program begins with the pins `bs` over those of its caller and ends with `bs'`, has `n` at
most on the way, and moves the memory along `R`. -/
def Holds (E : ε → Prop) (R : μ → μ → Prop) (cap n : ℕ) (bs bs' : List ℕ)
    (p : Prog μ ε β α) : Prop :=
  ∀ m o, distinct o + n ≤ cap → p.Pins E cap m (bs ++ o) fun _ m' o' => R m m' ∧ o' = bs' ++ o

/-- The program needs `n` pins, gives them back, and moves the memory along `R`. -/
abbrev Uses (E : ε → Prop) (R : μ → μ → Prop) (cap n : ℕ) (p : Prog μ ε β α) : Prop :=
  Holds E R cap n [] [] p

namespace Holds

variable {R : μ → μ → Prop} {n n' : ℕ} {f : α → Prog μ ε β γ} {bs bs' bs'' : List ℕ}

theorem bind [IsTrans μ R] (h : Holds E R cap n bs bs' p)
    (hf : ∀ a, Holds E R cap n bs' bs'' (f a)) :
    Holds E R cap n bs bs'' (p >>= f) := by
  intro m o ho
  rw [pins_bind]
  refine (h m o ho).mono ?_
  rintro a m1 _ ⟨h1, rfl⟩
  exact (hf a m1 o ho).mono fun _ _ _ h2 => ⟨Trans.trans h1 h2.1, h2.2⟩

theorem pure [Std.Refl R] (a : α) :
    Holds E R cap n bs bs (Pure.pure a : Prog μ ε β α) := fun m _ _ =>
  ⟨Std.Refl.refl m, rfl⟩

theorem halt {e : ε} (h : E e) : Holds E R cap n bs bs' (.halt e : Prog μ ε β α) := fun _ _ _ => h

theorem ite {c : Prop} [Decidable c] {q : Prog μ ε β α} (hp : Holds E R cap n bs bs' p)
    (hq : Holds E R cap n bs bs' q) :
    Holds E R cap n bs bs' (if c then p else q) := by
  split
  · exact hp
  · exact hq

/-- A part of a program that gives its pins back. -/
theorem held (h : Uses E R cap n p) (hn : bs.length + n ≤ n') :
    Holds E R cap n' bs bs p := fun m o ho =>
  h m (bs ++ o) (by have := distinct_append_le bs o; omega)

theorem mono (h : Uses E R cap n p) (hn : n ≤ n') : Uses E R cap n' p :=
  fun m o ho => h m o (by omega)

theorem confines (h : Uses E R cap cap p) : Confines E R p := fun m =>
  mwp_post (h m [] (by simp [distinct])).mwp fun _ _ ⟨_, hm, _⟩ => hm

end Holds

/-! ## On a device -/

/-- The states of the device that a run goes through, from the first to the last. -/
def visited (D : Device δ ε β) : Prog μ ε β α → μ × δ → List δ
  | ret _, s => [s.2]
  | halt _, s => [s.2]
  | get k, s => (k s.1).visited D s
  | set m k, s => k.visited D (m, s.2)
  | pin n k, s => s.2 :: match D.pin n s.2 with
    | .ok d => k.visited D (s.1, d)
    | .error _ => []
  | unpin n k, s => s.2 :: match D.unpin n s.2 with
    | .ok d => k.visited D (s.1, d)
    | .error _ => []
  | peek n k, s => match D.peek n s.2 with
    | .ok b => (k b).visited D s
    | .error _ => [s.2]
  | poke n b k, s => s.2 :: match D.poke n b s.2 with
    | .ok d => k.visited D (s.1, d)
    | .error _ => []

/-- A device that can pin `cap` blocks. `Rep d o` says that `o` are the blocks pinned in `d`. -/
structure Serves (D : Device δ ε β) (cap : ℕ) (Rep : δ → List ℕ → Prop) : Prop where
  pin : ∀ {d o} (n : ℕ), Rep d o → distinct (n :: o) ≤ cap → ∃ d', D.pin n d = .ok d' ∧
    Rep d' (n :: o)
  unpin : ∀ {d o} {n : ℕ}, Rep d o → n ∈ o → ∃ d', D.unpin n d = .ok d' ∧ Rep d' (o.erase n)
  peek : ∀ {d o} {n : ℕ}, Rep d o → n ∈ o → ∃ b, D.peek n d = .ok b
  poke : ∀ {d o} {n : ℕ} (b : β), Rep d o → n ∈ o → ∃ d', D.poke n b d = .ok d' ∧ Rep d' o

variable {D : Device δ ε β} {Rep : δ → List ℕ → Prop} {d : δ} (hD : Serves D cap Rep)
  (h : p.Pins E cap m o Q) (hd : Rep d o)
include hD h hd

/-- **A run on such a device** halts only as the program does, and ends with the pins that the
program ends with. -/
theorem Pins.run :
    match p.run D (m, d) with
    | .ok (a, m', d') => ∃ o', Rep d' o' ∧ Q a m' o'
    | .error e => E e := by
  induction p generalizing o m d with
  | ret a => exact ⟨o, hd, h⟩
  | halt e => exact h
  | get k ih => exact ih m h hd
  | set m' k ih => exact ih h hd
  | pin n k ih =>
    obtain ⟨d', hpin, hd'⟩ := hD.pin n hd h.1
    rw [Prog.run, hpin]
    exact ih h.2 hd'
  | unpin n k ih =>
    obtain ⟨d', hunpin, hd'⟩ := hD.unpin hd h.1
    rw [Prog.run, hunpin]
    exact ih h.2 hd'
  | peek n k ih =>
    obtain ⟨b, hpeek⟩ := hD.peek hd h.1
    rw [Prog.run, hpeek]
    exact ih b (h.2 b) hd
  | poke n b k ih =>
    obtain ⟨d', hpoke, hd'⟩ := hD.poke b hd h.1
    rw [Prog.run, hpoke]
    exact ih h.2 hd'

/-- On the way at most `cap` blocks are pinned. -/
theorem Pins.visited (ho : distinct o ≤ cap) :
    ∀ d' ∈ p.visited D (m, d), ∃ o', Rep d' o' ∧ distinct o' ≤ cap := by
  have erase_le : ∀ n (o : List ℕ), distinct o ≤ cap → distinct (o.erase n) ≤ cap := by
    intro n o ho
    refine le_trans (Finset.card_le_card fun a ha => ?_) ho
    rw [mem_toFinset] at ha ⊢
    exact mem_of_mem_erase ha
  induction p generalizing o m d with
  | ret a => exact forall_mem_singleton.mpr ⟨o, hd, ho⟩
  | halt e => exact forall_mem_singleton.mpr ⟨o, hd, ho⟩
  | get k ih => exact ih m h hd ho
  | set m' k ih => exact ih h hd ho
  | pin n k ih =>
    obtain ⟨d', hpin, hd'⟩ := hD.pin n hd h.1
    rw [Prog.visited, hpin]
    exact forall_mem_cons.mpr ⟨⟨o, hd, ho⟩, ih h.2 hd' h.1⟩
  | unpin n k ih =>
    obtain ⟨d', hunpin, hd'⟩ := hD.unpin hd h.1
    rw [Prog.visited, hunpin]
    exact forall_mem_cons.mpr ⟨⟨o, hd, ho⟩, ih h.2 hd' (erase_le n o ho)⟩
  | peek n k ih =>
    obtain ⟨b, hpeek⟩ := hD.peek hd h.1
    rw [Prog.visited, hpeek]
    exact ih b (h.2 b) hd ho
  | poke n b k ih =>
    obtain ⟨d', hpoke, hd'⟩ := hD.poke b hd h.1
    rw [Prog.visited, hpoke]
    exact forall_mem_cons.mpr ⟨⟨o, hd, ho⟩, ih h.2 hd' ho⟩

end Prog

end OsLab
