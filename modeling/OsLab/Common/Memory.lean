import OsLab.Common.Prog
/-!
# What a program does to its memory

`mwp` is the weakest precondition over the memory alone: it holds whatever
the blocks are that the program reads. `Confines R` says that a program moves
the memory along `R`.
-/

namespace OsLab

namespace Prog

variable {μ ε β α γ : Type}

/-- Whatever the blocks hold, the program returns with a memory satisfying `Q` or halts as `E`
allows. -/
def mwp (E : ε → Prop) : Prog μ ε β α → (α → μ → Prop) → μ → Prop
  | ret a, Q, m => Q a m
  | halt e, _, _ => E e
  | get k, Q, m => (k m).mwp E Q m
  | set m' k, Q, _ => k.mwp E Q m'
  | pin _ k, Q, m => k.mwp E Q m
  | unpin _ k, Q, m => k.mwp E Q m
  | peek _ k, Q, m => ∀ b, (k b).mwp E Q m
  | poke _ _ k, Q, m => k.mwp E Q m

variable {E : ε → Prop} {Q : α → μ → Prop} {m : μ}

@[simp] theorem mwp_pure {a : α} : (pure a : Prog μ ε β α).mwp E Q m ↔ Q a m := Iff.rfl

variable {f : γ → Prog μ ε β α} {p : Prog μ ε β α}

/-- **Sequencing.** -/
@[simp] theorem mwp_bind {p : Prog μ ε β γ} :
    (p >>= f).mwp E Q m ↔ p.mwp E (fun a m => (f a).mwp E Q m) m := by
  change (p.bind f).mwp E Q m ↔ _
  induction p generalizing m with
  | ret a => exact Iff.rfl
  | halt e => exact Iff.rfl
  | get k ih => exact ih m
  | set m' k ih => exact ih
  | pin n k ih => exact ih
  | unpin n k ih => exact ih
  | peek n k ih => exact forall_congr' fun b => ih b
  | poke n b k ih => exact ih

variable {Q' : α → μ → Prop}

/-- Consequence. -/
theorem mwp_mono {E' : ε → Prop} (h : p.mwp E Q m)
    (hQ : ∀ a m, Q a m → Q' a m) (hE : ∀ e, E e → E' e) : p.mwp E' Q' m := by
  induction p generalizing m with
  | ret a => exact hQ a m h
  | halt e => exact hE e h
  | get k ih => exact ih m h
  | set m' k ih => exact ih h
  | pin n k ih => exact ih h
  | unpin n k ih => exact ih h
  | peek n k ih => exact fun b => ih b (h b)
  | poke n b k ih => exact ih h

theorem mwp_post (h : p.mwp E Q m) (hQ : ∀ a m, Q a m → Q' a m) : p.mwp E Q' m :=
  mwp_mono h hQ fun _ he => he

/-- What holds whatever the blocks hold, holds on any array of blocks. -/
theorem wp_of_mwp {s : Store μ β} (h : p.mwp E Q s.mem) : wp E p (fun a t => Q a t.mem) s := by
  induction p generalizing s with
  | ret a => exact h
  | halt e => exact h
  | get k ih => exact ih s.mem h
  | set m' k ih => exact ih (s := { s with mem := m' }) h
  | pin n k ih => exact ih h
  | unpin n k ih => exact ih h
  | peek n k ih => exact ih _ (h _)
  | poke n b k ih => exact ih (s := { s with disk := upd s.disk n b }) h

/-! ## Relations on the memory -/

/-- The program moves the memory along `R`. -/
def Confines (E : ε → Prop) (R : μ → μ → Prop) (p : Prog μ ε β α) : Prop :=
  ∀ m, p.mwp E (fun _ m' => R m m') m

namespace Confines

variable {R : μ → μ → Prop} {p : Prog μ ε β α}

/-- A part of a program that is known by its relation. -/
theorem mwp (h : Confines E R p) (hQ : ∀ a m', R m m' → Q a m') : p.mwp E Q m :=
  mwp_post (h m) fun a m' hm => hQ a m' hm

end Confines

end Prog

end OsLab
