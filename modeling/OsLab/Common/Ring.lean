import OsLab.Common.Update
import Mathlib.Data.List.Range
import Mathlib.Data.Nat.ModEq
import Mathlib.Tactic.Ring
/-!
# Ring buffers

A queue in an array used cyclically: `used` entries from `head`.
-/

namespace OsLab

open List

variable {α : Type} {n head used : ℕ} {buf : ℕ → α}

/-- The entries of the queue, oldest first. -/
def ring (n : ℕ) (buf : ℕ → α) (head used : ℕ) : List α :=
  (List.range used).map fun i => buf ((head + i) % n)

/-- Two entries of a queue that is not overfull have different places. -/
theorem ring_index_ne {i j : ℕ} (hij : i < j) (hj : j < n) : (head + i) % n ≠ (head + j) % n := by
  intro he
  have hmod : i % n = j % n := Nat.ModEq.add_left_cancel' head he
  rw [Nat.mod_eq_of_lt (hij.trans hj), Nat.mod_eq_of_lt hj] at hmod
  omega

/-- A queue is read from its own places only. -/
theorem ring_congr {buf' : ℕ → α} (h : ∀ i < used, buf' ((head + i) % n) = buf ((head + i) % n)) :
    ring n buf' head used = ring n buf head used :=
  map_congr_left fun i hi => h i (mem_range.mp hi)

theorem ring_succ : ring n buf head (used + 1) = ring n buf head used ++
    [buf ((head + used) % n)] := by
  unfold ring
  rw [range_succ, map_append, map_singleton]

/-- **An entry is put at the end.** -/
theorem ring_push (h : used < n) (a : α) :
    ring n (upd buf ((head + used) % n) a) head (used + 1) = ring n buf head used ++ [a] := by
  rw [ring_succ, upd_self]
  refine congrArg (· ++ [a]) (ring_congr fun i hi => ?_)
  exact upd_of_ne (ring_index_ne hi h)

/-- **The oldest entry is taken.** -/
theorem ring_pop : ring n buf head (used + 1) = buf (head % n) :: ring n buf
    ((head + 1) % n) used := by
  unfold ring
  rw [range_succ_eq_map, map_cons, map_map, Nat.add_zero]
  refine congrArg (buf (head % n) :: ·) (map_congr_left fun i _ => ?_)
  show buf ((head + (i + 1)) % n) = buf (((head + 1) % n + i) % n)
  rw [Nat.mod_add_mod, show head + (i + 1) = head + 1 + i by ring]

end OsLab
