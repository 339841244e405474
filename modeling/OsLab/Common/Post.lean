import Mathlib.Logic.Basic
/-!
# Partial correctness of fallible computations

`Post E Q r` says of a computation that may fail that its result satisfies
`Q`, and its failure `E`. The rules follow the computation: one for each
way it is put together, and the invariant rule for a loop over a list.
-/

namespace OsLab

variable {ε α β : Type}

/-- A result satisfies `Q`, and a failure `E`. -/
def Post (E : ε → Prop) (Q : α → Prop) : Except ε α → Prop
  | .ok a => Q a
  | .error e => E e

/-- The result satisfies `Q`, if there is one. -/
abbrev Yields (Q : α → Prop) (r : Except ε α) : Prop := Post (fun _ => True) Q r

variable {E : ε → Prop} {Q R : α → Prop} {r : Except ε α} {f : α → Except ε β} {b : β} {a : α}

@[simp] theorem post_ok : Post E Q (.ok a) ↔ Q a := Iff.rfl

@[simp] theorem post_bind {Q : β → Prop} :
    Post E Q (r >>= f) ↔ Post E (fun a => Post E Q (f a)) r := by
  cases r with
  | ok a => exact Iff.rfl
  | error e => exact Iff.rfl

theorem exists_of_bind (h : r >>= f = .ok b) : ∃ a, r = .ok a ∧ f a = .ok b := by
  cases r with
  | ok a => exact ⟨a, rfl, h⟩
  | error e => exact nomatch h

theorem Post.mono (h : Post E Q r) (hqr : ∀ a, Q a → R a) : Post E R r := by
  cases r with
  | ok a => exact hqr a h
  | error e => exact h

theorem Post.bind {R : β → Prop} (h : Post E Q r) (hf : ∀ a, Q a → Post E R (f a)) :
    Post E R (r >>= f) := post_bind.mpr (h.mono hf)

variable {E' : ε → Prop} {I : β → Prop} {f : β → α → Except ε β} {l : List α}

theorem Post.weaken (h : Post E Q r) (he : ∀ e, E e → E' e) : Post E' Q r := by
  cases r with
  | ok a => exact h
  | error e => exact he e h

theorem Post.of_ok (h : Post E Q r) (hr : r = .ok a) : Q a := by
  rw [hr] at h
  exact h

theorem Post.of_error (h : Post E Q r) {e : ε} (hr : r = .error e) : E e := by
  rw [hr] at h
  exact h

theorem Post.and (h : Post E Q r) (h' : Post E' R r) : Post E (fun a => Q a ∧ R a) r := by
  cases r with
  | ok a => exact ⟨h, h'⟩
  | error e => exact h

theorem Post.ite {c : Prop} [Decidable c] {r' : Except ε α} (ht : c → Post E Q r)
    (hf : ¬ c → Post E Q r') : Post E Q (if c then r else r') := by
  by_cases h : c
  · rw [if_pos h]
    exact ht h
  · rw [if_neg h]
    exact hf h

/-- **The invariant rule** for a loop over a list. -/
theorem Post.foldlM (hf : ∀ b, ∀ a ∈ l, I b → Post E I (f b a)) (hb : I b) :
    Post E I (l.foldlM f b) := by
  induction l generalizing b with
  | nil => exact hb
  | cons a l ih =>
    rw [List.foldlM_cons, post_bind]
    refine (hf b a (List.mem_cons_self ..) hb).mono fun b' hb' => ?_
    exact ih (fun b x hx => hf b x (List.mem_cons_of_mem _ hx)) hb'

/-- A loop in which each round does its part, and undoes none. -/
theorem Post.foldlM_all {Q : α → β → Prop}
    (hf : ∀ b, ∀ a ∈ l, I b → Post E (fun b' => I b' ∧ Q a b' ∧ ∀ a', Q a' b → Q a' b') (f b a))
    (hb : I b) : Post E (fun b' => I b' ∧ ∀ a ∈ l, Q a b') (l.foldlM f b) := by
  induction l generalizing b with
  | nil => exact ⟨hb, nofun⟩
  | cons a l ih =>
    rw [List.foldlM_cons, post_bind]
    have hl : ∀ b, ∀ x ∈ l, I b → Post E (fun b' => I b' ∧ Q x b' ∧ ∀ a', Q a' b → Q a' b') (f b x) :=
      fun b x hx => hf b x (List.mem_cons_of_mem _ hx)
    refine (hf b a (List.mem_cons_self ..) hb).mono fun b1 ⟨hI, hQ, _⟩ => ?_
    -- the others do their parts, and leave the first alone
    have hkeep : Post E (fun b' => I b' ∧ Q a b') (l.foldlM f b1) :=
      .foldlM (fun b x hx hb => (hl b x hx hb.1).mono fun b' h => ⟨h.1, h.2.2 a hb.2⟩) ⟨hI, hQ⟩
    refine ((ih hl hI).and hkeep).mono fun b' ⟨⟨hI', hQ'⟩, _, ha⟩ => ⟨hI', fun x hx => ?_⟩
    rcases List.mem_cons.mp hx with rfl | hx
    · exact ha
    · exact hQ' x hx

end OsLab
