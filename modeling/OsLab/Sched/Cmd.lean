import OsLab.Common.Update
import Mathlib.Algebra.BigOperators.Group.List.Basic
import Mathlib.Algebra.GroupWithZero.Nat
/-!
# The recorded command line

The loop of `construct_pcb` (`kernel/sched/task.c`) that joins the arguments in `pcb->cmd`. It
compares each argument's own length with the field's: `sum` is never added to.
-/

namespace OsLab.Sched

open List

/-- The bytes from `pcb->cmd` on, and the indices written, the last one first. -/
structure Cmd where
  mem : ℕ → UInt8
  written : List ℕ

/-- A C string: what stands before its terminator. -/
abbrev CString := { text : List UInt8 // 0 ∉ text }

namespace Cmd

/-- `sizeof(pcb->cmd)`. -/
def SIZE : ℕ := 16

def put (s : Cmd) (i : ℕ) (b : UInt8) : Cmd := ⟨upd s.mem i b, i :: s.written⟩

/-- `strcpy`, and the second loop of `strcat`. -/
def strcpy (s : Cmd) (dest : ℕ) : List UInt8 → Cmd
  | [] => s.put dest 0
  | b :: src => strcpy (s.put dest b) (dest + 1) src

/-- The first loop of `strcat`: the terminator's place. -/
def terminator (s : Cmd) : ℕ → ℕ → Option ℕ
  | 0, _ => none
  | fuel + 1, dest => if s.mem dest = 0 then some dest else s.terminator fuel (dest + 1)

def strcat (fuel : ℕ) (s : Cmd) (dest : ℕ) (src : List UInt8) : Option Cmd :=
  (s.terminator fuel dest).map (s.strcpy · src)

/-- The loop over the arguments from `argv[i]` on. -/
def join (fuel sum : ℕ) : List CString → ℕ → Cmd → Option Cmd
  | [], _, s => some s
  | a :: rest, cmd, s =>
    let len := a.1.length + 1
    if sum + len > SIZE - 1 then some s
    -- `if (i == argc - 1) break;`
    else if rest = [] then some (s.strcpy cmd a.1)
    else (strcat fuel (s.strcpy cmd a.1) cmd [32]).bind (join fuel sum rest (cmd + len))

/-- `construct_pcb`, what it does to `cmd`. -/
def construct (fuel : ℕ) (argc : ℤ) (argv : ℕ → CString) : Cmd → Option Cmd :=
  join fuel 0 ((range argc.toNat).map argv) 0

variable {s t : Cmd} {d fuel : ℕ} {args : List CString} {src : List UInt8} {a : CString}

theorem mem_put (i j : ℕ) (b : UInt8) : (s.put i b).mem j = if j = i then b else s.mem j := rfl

theorem mem_strcpy (src : List UInt8) (j : ℕ) :
    (s.strcpy d src).mem j = if d ≤ j ∧ j ≤ d + src.length then src.getD (j - d) 0 else s.mem j := by
  induction src generalizing s d with
  | nil => grind [strcpy, mem_put]
  | cons b src ih => grind [strcpy, mem_put]

theorem written_strcpy {j : ℕ} :
    j ∈ (s.strcpy d src).written ↔ j ∈ s.written ∨ d ≤ j ∧ j ≤ d + src.length := by
  induction src generalizing s d with
  | nil => grind [strcpy, put]
  | cons b src ih => grind [strcpy, put]

/-- The terminator of a copied string is found. -/
theorem terminator_eq {n : ℕ} (hn : n < fuel) (h0 : s.mem (d + n) = 0) (h : ∀ k < n, s.mem (d + k) ≠ 0) :
    s.terminator fuel d = some (d + n) := by
  obtain ⟨fuel, rfl⟩ := Nat.exists_eq_add_of_lt hn
  induction n generalizing d with
  | zero => exact if_pos h0
  | succ n ih =>
    rw [Nat.succ_add]
    refine (if_neg (h 0 n.succ_pos)).trans ?_
    grind

/-- How far the arguments reach: those that are short enough by themselves, each with its
terminator or blank, and the terminator behind the last blank. -/
def extent (args : List CString) : ℕ :=
  let taken := args.takeWhile (·.1.length + 1 ≤ SIZE - 1)
  (taken.map (·.1.length + 1)).sum + if taken = args then 0 else 1

theorem extent_nil : extent [] = 0 := rfl

theorem extent_cons {rest : List CString} :
    extent (a :: rest) = if a.1.length + 1 ≤ SIZE - 1 then a.1.length + 1 + extent rest else 1 := by
  unfold extent
  by_cases h : a.1.length + 1 ≤ SIZE - 1
  · rw [takeWhile_cons_of_pos (by simpa using h), if_pos h]
    simp only [map_cons, sum_cons, cons.injEq, true_and, add_assoc]
  · rw [takeWhile_cons_of_neg (by simpa using h), if_neg h]
    rfl

theorem extent_pos (h : args ≠ []) : 0 < extent args := by
  cases args with
  | nil => exact absurd rfl h
  | cons a rest => grind [extent_cons]

/-- What a part of the loop leaves: the log grows, and a byte that is not in it is as before. -/
def Extends (s t : Cmd) : Prop := s.written ⊆ t.written ∧ ∀ j ∉ t.written, t.mem j = s.mem j

theorem extends_strcpy : Extends s (s.strcpy d src) :=
  ⟨fun _ h => written_strcpy.mpr (.inl h), fun j hj => by grind [written_strcpy, mem_strcpy]⟩

theorem Extends.trans {u : Cmd} (h : Extends s t) (h' : Extends t u) : Extends s u :=
  ⟨List.Subset.trans h.1 h'.1, fun j hj => (h'.2 j hj).trans (h.2 j (hj ∘ @h'.1 j))⟩

/-- An argument and the blank behind it. -/
theorem strcat_strcpy (hf : a.1.length < fuel) :
    strcat fuel (s.strcpy d a.1) d [32] = some ((s.strcpy d a.1).strcpy (d + a.1.length) [32]) := by
  rw [strcat, terminator_eq hf, Option.map_some]
  · simp [mem_strcpy]
  · intro k hk
    have := a.2
    grind [mem_strcpy]

/-- **The loop writes up to its extent, and ends.** Some byte there is the terminator. -/
theorem join_spec (hf : SIZE ≤ fuel) (h0 : s.mem d = 0) :
    ∃ t, join fuel 0 args d s = some t ∧ Extends s t ∧ (∀ j ∈ t.written, j ∈ s.written ∨ j < d + extent args) ∧
      (1 < extent args → d + extent args - 1 ∈ t.written) ∧ ∃ j < d + max (extent args) 1, t.mem j = 0 := by
  induction args generalizing s d with
  | nil => exact ⟨s, rfl, ⟨fun _ h => h, fun _ _ => rfl⟩, fun _ h => .inl h, by simp [extent_nil],
      d, by simp [extent_nil], h0⟩
  | cons a rest ih =>
    rw [join, extent_cons]
    by_cases hlen : a.1.length + 1 ≤ SIZE - 1
    · rw [if_neg (by omega), if_pos hlen]
      by_cases hr : rest = []
      · rw [hr, extent_nil]
        refine ⟨_, if_pos rfl, extends_strcpy, ?_, ?_, d + a.1.length, ?_, ?_⟩ <;>
          grind [written_strcpy, mem_strcpy]
      · rw [if_neg hr, strcat_strcpy (by omega), Option.bind_some]
        have hpos := extent_pos hr
        obtain ⟨t, ht, hext, hlow, hhigh, hnul⟩ := @ih ((s.strcpy d a.1).strcpy (d + a.1.length) [32])
          (d + (a.1.length + 1)) (by simp [mem_strcpy, ← add_assoc])
        refine ⟨t, ht, (extends_strcpy.trans extends_strcpy).trans hext, ?_, fun _ => ?_, ?_⟩
        · grind [written_strcpy]
        · obtain h1 | h1 := Nat.eq_or_lt_of_le hpos
          -- the next argument is too long: the blank's terminator is the last byte written
          · exact hext.1 (by grind [written_strcpy])
          · grind
        · grind
    · rw [if_pos (by omega), if_neg hlen]
      exact ⟨s, rfl, ⟨fun _ h => h, fun _ _ => rfl⟩, fun _ h => .inl h, by simp, d, by simp, h0⟩

/-- The loop has written only in the field, which ends in a terminator, and what stands behind
the field is as before. -/
structure InField (s t : Cmd) : Prop where
  written : ∀ j ∈ t.written, j < SIZE
  terminated : ∃ j < SIZE, t.mem j = 0
  behind : ∀ j, SIZE ≤ j → t.mem j = s.mem j

/-- **The command line stays in its field exactly if the arguments recorded fit in it together.**
Each of them is compared with the field by itself. -/
theorem construct_inField_iff (hf : SIZE ≤ fuel) (argc : ℤ) (argv : ℕ → CString) (hs : s.written = [])
    (h0 : ∀ j < SIZE, s.mem j = 0) : ∃ t, construct fuel argc argv s = some t ∧
      (InField s t ↔ extent ((range argc.toNat).map argv) ≤ SIZE) := by
  obtain ⟨t, ht, hext, hlow, hhigh, hnul⟩ := join_spec hf (h0 0 (by decide))
  refine ⟨t, ht, fun h => ?_, fun h => ⟨fun j hj => ?_, ?_, fun j hj => hext.2 j fun hw => ?_⟩⟩
  · by_contra hlt
    have := h.written _ (hhigh (by grind [SIZE]))
    omega
  · grind
  · grind [SIZE]
  · grind

/-- The field of a new process, and arguments of nine letters and of fewer. -/
def fresh : Cmd := ⟨fun _ => 0, []⟩
def letters : CString := ⟨replicate 9 97, by decide⟩
def words (j : ℕ) : CString := ⟨replicate (j % 3 + 2) 98, by simp⟩

/-- Three short arguments fit in the field, and two long ones do not. -/
theorem construct_inField_three : (∃ t, construct SIZE 3 words fresh = some t ∧ InField fresh t) ∧
    ∃ t, construct SIZE 2 (fun _ => letters) fresh = some t ∧ ¬ InField fresh t := by
  obtain ⟨t, ht, hiff⟩ := construct_inField_iff (Nat.le_refl SIZE) 3 words (s := fresh) rfl fun _ _ => rfl
  obtain ⟨t', ht', hiff'⟩ := construct_inField_iff (Nat.le_refl SIZE) 2
    (fun _ => letters) (s := fresh) rfl fun _ _ => rfl
  exact ⟨⟨t, ht, hiff.mpr (by decide)⟩, t', ht', fun hin => absurd (hiff'.mp hin) (by decide)⟩

/-- Two such arguments: the second one ends in `task_id`. -/
theorem construct_overruns :
    (construct SIZE 2 (fun _ => letters) fresh).map (fun t => (t.written.head?, t.mem 16)) = some (some 19, 97) := by
  decide +kernel

end Cmd
end OsLab.Sched
