import Mathlib.Data.Nat.Notation
import Mathlib.Logic.Function.Basic
/-!
# Updating a function at a point

`Function.update` for functions whose values have one type. It computes
by a comparison alone, with no cast, so that a closed run of a program
that keeps its tables as functions can be evaluated in the kernel.
-/

namespace OsLab

variable {α β : Type} [DecidableEq α]

/-- `f` with the value `b` at `a`. -/
def upd (f : α → β) (a : α) (b : β) : α → β := fun x => if x = a then b else f x

theorem upd_eq_update (f : α → β) (a : α) (b : β) : upd f a b = Function.update f a b := by
  funext x
  rw [Function.update_apply, upd]

variable {f : α → β} {b c : β} {a x : α}

@[simp] theorem upd_self : upd f a b a = b := if_pos rfl

theorem upd_of_ne (h : x ≠ a) : upd f a b x = f x := if_neg h

/-- Where a value of an updated function comes from. -/
theorem upd_eq_cases (h : upd f a b x = c) : x = a ∧ b = c ∨ x ≠ a ∧ f x = c := by
  by_cases hx : x = a
  · exact .inl ⟨hx, (if_pos hx).symm.trans h⟩
  · exact .inr ⟨hx, (if_neg hx).symm.trans h⟩

theorem upd_apply : upd f a b x = if x = a then b else f x := rfl

@[simp] theorem upd_idem : upd (upd f a b) a c = upd f a c := by
  simp only [upd_eq_update, Function.update_idem]

@[simp] theorem upd_eq_self : upd f a (f a) = f := by
  rw [upd_eq_update, Function.update_eq_self]

theorem upd_comm {a' : α} (h : a ≠ a') {b' : β} :
    upd (upd f a b) a' b' = upd (upd f a' b') a b := by
  simp only [upd_eq_update, Function.update_comm h]

/-- An update, read along an injective numbering. -/
theorem upd_comp {γ : Type} [DecidableEq γ] {k : γ → α} (hk : Function.Injective k) {i : γ} :
    (fun j => upd f (k i) b (k j)) = upd (fun j => f (k j)) i b :=
  funext fun _ => if_congr hk.eq_iff rfl rfl

end OsLab
