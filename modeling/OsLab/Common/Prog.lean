import OsLab.Common.Update
/-!
# Programs over a block device

A program computes on a private memory and reaches storage through four
operations only: it pins a block, unpins it, reads the pinned block and
overwrites it. Keeping these operations as syntax lets one program be
run on any device. `exec` runs it on the plain array of blocks, where
pinning does nothing; `run` runs it on a device given by its own four
operations.

`wp` is the weakest precondition of the run on the plain array, with a
separate condition on the halts the program may end in.
-/

namespace OsLab

/-- A program with memory `μ`, halts `ε`, blocks `β` and result `α`. -/
inductive Prog (μ ε β α : Type) : Type
  /-- Return a result. -/
  | ret (a : α)
  /-- Stop the machine. -/
  | halt (e : ε)
  /-- Read the memory. -/
  | get (k : μ → Prog μ ε β α)
  /-- Replace the memory. -/
  | set (m : μ) (k : Prog μ ε β α)
  /-- Pin a block. -/
  | pin (n : ℕ) (k : Prog μ ε β α)
  /-- Unpin a block. -/
  | unpin (n : ℕ) (k : Prog μ ε β α)
  /-- Read a pinned block. -/
  | peek (n : ℕ) (k : β → Prog μ ε β α)
  /-- Overwrite a pinned block. -/
  | poke (n : ℕ) (b : β) (k : Prog μ ε β α)

/-- Memory and the plain array of blocks. -/
@[ext] structure Store (μ β : Type) where
  mem : μ
  disk : ℕ → β

/-- A device: what each of the four operations does to its state. -/
structure Device (δ ε β : Type) where
  pin : ℕ → δ → Except ε δ
  unpin : ℕ → δ → Except ε δ
  peek : ℕ → δ → Except ε β
  poke : ℕ → β → δ → Except ε δ

namespace Prog

variable {μ ε β δ α γ : Type} {e : ε}

/-- Sequencing. -/
def bind : Prog μ ε β α → (α → Prog μ ε β γ) → Prog μ ε β γ
  | ret a, f => f a
  | halt e, _ => halt e
  | get k, f => get fun m => (k m).bind f
  | set m k, f => set m (k.bind f)
  | pin n k, f => pin n (k.bind f)
  | unpin n k, f => unpin n (k.bind f)
  | peek n k, f => peek n fun b => (k b).bind f
  | poke n b k, f => poke n b (k.bind f)

instance : Monad (Prog μ ε β) where
  pure := ret
  bind := bind

theorem bind_ret (p : Prog μ ε β α) : p.bind ret = p := by
  induction p with
  | ret a => rfl
  | halt e => rfl
  | get k ih => exact congrArg get (funext ih)
  | set m k ih => exact congrArg (set m) ih
  | pin n k ih => exact congrArg (pin n) ih
  | unpin n k ih => exact congrArg (unpin n) ih
  | peek n k ih => exact congrArg (peek n) (funext ih)
  | poke n b k ih => exact congrArg (poke n b) ih

theorem bind_bind {η : Type} (p : Prog μ ε β α) (f : α → Prog μ ε β γ) (g : γ → Prog μ ε β η) :
    (p.bind f).bind g = p.bind fun a => (f a).bind g := by
  induction p with
  | ret a => rfl
  | halt e => rfl
  | get k ih => exact congrArg get (funext ih)
  | set m k ih => exact congrArg (set m) ih
  | pin n k ih => exact congrArg (pin n) ih
  | unpin n k ih => exact congrArg (unpin n) ih
  | peek n k ih => exact congrArg (peek n) (funext ih)
  | poke n b k ih => exact congrArg (poke n b) ih

instance : LawfulMonad (Prog μ ε β) := LawfulMonad.mk' _ bind_ret (fun _ _ => rfl) bind_bind

/-- Run a program on the plain array of blocks. -/
def exec : Prog μ ε β α → Store μ β → Except ε (α × Store μ β)
  | ret a, s => .ok (a, s)
  | halt e, _ => .error e
  | get k, s => (k s.mem).exec s
  | set m k, s => k.exec { s with mem := m }
  | pin _ k, s => k.exec s
  | unpin _ k, s => k.exec s
  | peek n k, s => (k (s.disk n)).exec s
  | poke n b k, s => k.exec { s with disk := upd s.disk n b }

/-- Run a program on a device. -/
def run (D : Device δ ε β) : Prog μ ε β α → μ × δ → Except ε (α × μ × δ)
  | ret a, s => .ok (a, s)
  | halt e, _ => .error e
  | get k, s => (k s.1).run D s
  | set m k, s => k.run D (m, s.2)
  | pin n k, s => D.pin n s.2 >>= fun d => k.run D (s.1, d)
  | unpin n k, s => D.unpin n s.2 >>= fun d => k.run D (s.1, d)
  | peek n k, s => D.peek n s.2 >>= fun b => (k b).run D s
  | poke n b k, s => D.poke n b s.2 >>= fun d => k.run D (s.1, d)

/-- A run that returns, with a test of what it returns. -/
def returns (r : Except ε (α × γ)) (test : α → γ → Bool) : Bool :=
  match r with
  | .ok (a, t) => test a t
  | .error _ => false

theorem exists_of_returns {r : Except ε (α × γ)} {test : α → γ → Bool} (h : returns r test = true) :
    ∃ a t, r = .ok (a, t) ∧ test a t = true := by
  cases r with
  | error e => cases h
  | ok x => exact ⟨x.1, x.2, rfl, h⟩

/-- A run that halts, with the halt it ends in. -/
def haltsWith [DecidableEq ε] (r : Except ε α) (e : ε) : Bool :=
  match r with
  | .ok _ => false
  | .error e' => decide (e' = e)

theorem eq_of_haltsWith [DecidableEq ε] {r : Except ε α} (h : haltsWith r e = true) :
    r = .error e := by
  cases r with
  | ok a => cases h
  | error e' => exact congrArg Except.error (of_decide_eq_true h)

/-! ## Weakest preconditions -/

/-- The program returns in a state satisfying `Q`, or halts as `E`
allows. -/
def wp (E : ε → Prop) (p : Prog μ ε β α) (Q : α → Store μ β → Prop) (s : Store μ β) : Prop :=
  match p.exec s with
  | .ok (a, t) => Q a t
  | .error e => E e

variable {E : ε → Prop} {Q : α → Store μ β → Prop} {s : Store μ β} {a : α} {p : Prog μ ε β α}
  {f : α → Prog μ ε β γ} {t : Store μ β} {Q' : α → Store μ β → Prop} {E' : ε → Prop}
  {R : γ → Store μ β → Prop}

@[simp] theorem wp_pure : wp E (pure a : Prog μ ε β α) Q s ↔ Q a s := Iff.rfl

@[simp] theorem wp_ret : wp E (ret a : Prog μ ε β α) Q s ↔ Q a s := Iff.rfl

@[simp] theorem wp_get {k : μ → Prog μ ε β α} : wp E (get k) Q s ↔ wp E (k s.mem) Q s := Iff.rfl

/-- **Sequencing, on the plain array.** -/
theorem exec_bind (p : Prog μ ε β α) (f : α → Prog μ ε β γ) (s : Store μ β) :
    (p >>= f).exec s = p.exec s >>= fun r => (f r.1).exec r.2 := by
  change (p.bind f).exec s = _
  induction p generalizing s with
  | ret a => rfl
  | halt e => rfl
  | get k ih => exact ih s.mem s
  | set m k ih => exact ih _
  | pin n k ih => exact ih s
  | unpin n k ih => exact ih s
  | peek n k ih => exact ih (s.disk n) s
  | poke n b k ih => exact ih _

/-- A program goes on from where its first part returned. -/
theorem exec_bind_of_ok (h : p.exec s = .ok (a, t)) : (p >>= f).exec s = (f a).exec t := by
  rw [exec_bind, h]
  rfl

/-- A program that returned did so from where its first part returned. -/
theorem exists_of_exec_bind {b : γ} {u : Store μ β}
    (h : (p >>= f).exec s = .ok (b, u)) :
    ∃ a t, p.exec s = .ok (a, t) ∧ (f a).exec t = .ok (b, u) := by
  rw [exec_bind] at h
  cases hx : p.exec s with
  | error e => rw [hx] at h; cases h
  | ok r => rw [hx] at h; exact ⟨r.1, r.2, rfl, h⟩

/-- **Sequencing**: the second program's precondition is the first's
postcondition. -/
@[simp] theorem wp_bind {p : Prog μ ε β γ} {f : γ → Prog μ ε β α} :
    wp E (p >>= f) Q s ↔ wp E p (fun a t => wp E (f a) Q t) s := by
  unfold wp
  rw [exec_bind]
  cases p.exec s <;> rfl

/-- Consequence. -/
theorem wp_mono (h : wp E p Q s) (hQ : ∀ a t, Q a t → Q' a t) : wp E p Q' s := by
  unfold wp at h ⊢
  cases hx : p.exec s with
  | error e => rw [hx] at h; exact h
  | ok r => rw [hx] at h; exact hQ _ _ h

/-- Sequencing. -/
theorem wp_then {p : Prog μ ε β γ} {f : γ → Prog μ ε β α}
    (h : wp E p R s) (hf : ∀ a t, R a t → wp E (f a) Q t) : wp E (p >>= f) Q s :=
  wp_bind.mpr (wp_mono h hf)

/-- One branch has a step that the other lacks. -/
theorem wp_ite_then {c : Prop} [Decidable c] {p : Prog μ ε β γ} {g : γ} {f : γ → Prog μ ε β α}
    (h : wp E (if c then p else pure g) R s) (hf : ∀ a t, R a t → wp E (f a) Q t) :
    wp E (if c then p >>= f else f g) Q s := by
  by_cases hc : c
  · rw [if_pos hc] at h ⊢
    exact wp_then h hf
  · rw [if_neg hc] at h ⊢
    exact hf g s h

/-- Two things known of one run. -/
theorem wp_and (h : wp E p Q s) (h' : wp E' p Q' s) : wp E p (fun a t => Q a t ∧ Q' a t) s := by
  unfold wp at h h' ⊢
  cases hx : p.exec s with
  | error e => rw [hx] at h; exact h
  | ok r => rw [hx] at h h'; exact ⟨h, h'⟩

/-- More halts allowed. -/
theorem wp_weaken (h : wp E p Q s) (hE : ∀ e, E e → E' e) : wp E' p Q s := by
  unfold wp at h ⊢
  cases hx : p.exec s with
  | error e => rw [hx] at h; exact hE e h
  | ok r => rw [hx] at h; exact h

/-- What a run that returned is known to satisfy. -/
theorem wp_ok (h : wp E p Q s) (hx : p.exec s = .ok (a, t)) : Q a t := by
  unfold wp at h; rw [hx] at h; exact h

/-- What a run that halted is known to satisfy. -/
theorem wp_error (h : wp E p Q s) (hx : p.exec s = .error e) : E e := by
  unfold wp at h; rw [hx] at h; exact h

/-- A program with no halt allowed returns. -/
theorem exists_of_wp (h : wp (fun _ => False) p Q s) : ∃ a t, p.exec s = .ok (a, t) ∧ Q a t := by
  unfold wp at h
  split at h
  · next a t hx => exact ⟨a, t, hx, h⟩
  · exact h.elim

end Prog

end OsLab
