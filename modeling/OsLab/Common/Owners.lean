import OsLab.Common.Update
/-!
# Who owns what is taken

An allocator hands out numbers, and pointers hold them. `Owners` says that
the numbers taken are exactly those that one pointer holds and those that
are loose: taken, and held by none. Taking makes a number loose, attaching
moves it to a pointer, dropping pointers makes theirs loose, and freeing
gives a loose number back.
-/

namespace OsLab

variable {κ : Type}

/-- **Every number taken is held by one pointer or is loose.** -/
structure Owners (taken : ℕ → Prop) (p : κ → Option ℕ) (loose : ℕ → Prop) : Prop where
  inj : ∀ {a a' b}, p a = some b → p a' = some b → a = a'
  taken_iff : ∀ b, taken b ↔ (∃ a, p a = some b) ∨ loose b
  loose_ne : ∀ {a b}, loose b → p a ≠ some b

namespace Owners

variable {taken taken' loose loose' : ℕ → Prop} {p p' : κ → Option ℕ} {b : ℕ}
  (h : Owners taken p loose) {a : κ}
include h

theorem taken_of_some (hp : p a = some b) : taken b := (h.taken_iff b).mpr (.inl ⟨a, hp⟩)

theorem congr (ht : ∀ b, taken' b ↔ taken b) (hp : ∀ a, p' a = p a)
    (hl : ∀ b, loose' b ↔ loose b) : Owners taken' p' loose' := by
  obtain rfl : taken' = taken := funext fun b => propext (ht b)
  obtain rfl : p' = p := funext hp
  obtain rfl : loose' = loose := funext fun b => propext (hl b)
  exact h

/-- A number that was free is taken, and is loose. -/
theorem take (hb : ¬ taken b) : Owners (fun x => x = b ∨ taken x) p (fun x => x = b ∨ loose x) := by
  refine ⟨h.inj, fun x => ?_, ?_⟩
  · rw [h.taken_iff x]
    exact or_left_comm
  · rintro a x (rfl | hx) hp
    · exact hb (h.taken_of_some hp)
    · exact h.loose_ne hx hp

/-- A loose number is attached to a pointer that held none. -/
theorem attach [DecidableEq κ] (ha : p a = none)
    (hb : loose b) : Owners taken (upd p a (some b)) (fun x => x ≠ b ∧ loose x) := by
  have hother : ∀ {a' x}, upd p a (some b) a' = some x → a' = a ∧ x = b ∨ a' ≠ a ∧ p a' = some x := by
    intro a' x hx
    by_cases haa : a' = a
    · subst haa
      rw [upd_self] at hx
      exact .inl ⟨rfl, (Option.some.inj hx).symm⟩
    · rw [upd_of_ne haa] at hx
      exact .inr ⟨haa, hx⟩
  refine ⟨?_, fun x => ?_, ?_⟩
  · intro a1 a2 x h1 h2
    rcases hother h1 with ⟨rfl, rfl⟩ | ⟨-, h1⟩ <;> rcases hother h2 with ⟨h₂a, h₂b⟩ | ⟨-, h2⟩
    · exact h₂a.symm
    · exact absurd h2 (h.loose_ne hb)
    · exact absurd (h₂b ▸ h1) (h.loose_ne hb)
    · exact h.inj h1 h2
  · rw [h.taken_iff x]
    constructor
    · rintro (⟨a', hp⟩ | hx)
      · refine .inl ⟨a', ?_⟩
        rw [upd_of_ne, hp]
        rintro rfl
        rw [ha] at hp
        cases hp
      · by_cases hxb : x = b
        · exact .inl ⟨a, by rw [upd_self, hxb]⟩
        · exact .inr ⟨hxb, hx⟩
    · rintro (⟨a', hp⟩ | ⟨-, hx⟩)
      · rcases hother hp with ⟨-, rfl⟩ | ⟨-, hp⟩
        · exact .inr hb
        · exact .inl ⟨a', hp⟩
      · exact .inr hx
  · rintro a' x ⟨hxb, hx⟩ hp
    rcases hother hp with ⟨-, rfl⟩ | ⟨-, hp⟩
    · exact hxb rfl
    · exact h.loose_ne hx hp

/-- Some pointers are dropped, and what they held is loose. -/
theorem drop (S : κ → Prop) (hin : ∀ a, S a → p' a = none) (hout : ∀ a, ¬ S a → p' a = p a) :
    Owners taken p' (fun b => loose b ∨ ∃ a, S a ∧ p a = some b) := by
  have hback : ∀ {a b}, p' a = some b → ¬ S a ∧ p a = some b := by
    intro a b hp
    by_cases hS : S a
    · rw [hin a hS] at hp
      cases hp
    · exact ⟨hS, by rw [← hout a hS]; exact hp⟩
  refine ⟨fun h1 h2 => h.inj (hback h1).2 (hback h2).2, fun b => ?_, ?_⟩
  · rw [h.taken_iff b]
    constructor
    · rintro (⟨a, hp⟩ | hb)
      · by_cases hS : S a
        · exact .inr (.inr ⟨a, hS, hp⟩)
        · exact .inl ⟨a, by rw [hout a hS]; exact hp⟩
      · exact .inr (.inl hb)
    · rintro (⟨a, hp⟩ | hb | ⟨a, -, hp⟩)
      · exact .inl ⟨a, (hback hp).2⟩
      · exact .inr hb
      · exact .inl ⟨a, hp⟩
  · rintro a b (hb | ⟨a', hS, hp'⟩) hp
    · exact h.loose_ne hb (hback hp).2
    · obtain ⟨hnS, hp⟩ := hback hp
      exact hnS (h.inj hp' hp ▸ hS)

/-- A loose number is given back. -/
theorem free (hb : loose b) : Owners (fun x => x ≠ b ∧ taken x) p (fun x => x ≠ b ∧ loose x) := by
  refine ⟨h.inj, fun x => ?_, fun hx => h.loose_ne hx.2⟩
  rw [h.taken_iff x]
  constructor
  · rintro ⟨hxb, hp | hx⟩
    · exact .inl hp
    · exact .inr ⟨hxb, hx⟩
  · rintro (⟨a, hp⟩ | ⟨hxb, hx⟩)
    · refine ⟨?_, .inl ⟨a, hp⟩⟩
      rintro rfl
      exact h.loose_ne hb hp
    · exact ⟨hxb, .inr hx⟩

end Owners

end OsLab
