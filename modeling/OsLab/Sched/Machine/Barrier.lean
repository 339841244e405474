import OsLab.Sched.Step
/-!
# The barriers, without the scheduler

What the barriers are of the kernel: the objects, who refers to them and
who waits on each (`BarrierView`), and what one step of the kernel can do
to them (`BarrierStep`). A process can be taken off a wait list when it is
ended, and stays counted.

`BarrierInv` says that a barrier counts those who wait, and they are fewer
than its goal. It is kept unless a process ends that waits on a barrier
that stays.
-/

namespace OsLab.Sched

/-- What a step of the kernel can change of the barriers. -/
structure BarrierView where
  barrier : Idx → Barrier
  ref : Idx → Finset Slot
  wait : Idx → List Slot

/-- Processes end. They drop their references, and leave the wait lists. -/
structure BarrierReap (ended : Slot → Prop) (A B : BarrierView) : Prop where
  barrier : B.barrier = A.barrier
  ref : ∀ i, B.ref i ⊆ A.ref i
  wait : ∀ i, B.ref i ≠ ∅ → (∀ p ∈ A.wait i, ¬ ended p) → B.wait i = A.wait i
  left : ∀ i, B.ref i ≠ ∅ → ∀ p ∈ A.wait i, ¬ ended p → p ∈ B.wait i
  sub : ∀ i, ∀ p ∈ B.wait i, p ∈ A.wait i

theorem BarrierReap.refl (ended : Slot → Prop) (A : BarrierView) : BarrierReap ended A A :=
  ⟨rfl, fun _ => Finset.Subset.refl _, fun _ _ _ => rfl, fun _ _ _ hp _ => hp, fun _ _ => id⟩

/-- One process ends, and leaves its list. -/
theorem BarrierReap.leave {A B : BarrierView} {p : Slot} (hbarrier : B.barrier = A.barrier)
    (href : B.ref = A.ref) (hwait : ∀ i, B.wait i = (A.wait i).erase p) :
    BarrierReap (· = p) A B where
  barrier := hbarrier
  ref i := by rw [href]
  wait i _ hnot := (hwait i).trans (List.erase_of_not_mem fun hin => hnot p hin rfl)
  left i _ p' hp' hne := hwait i ▸ (List.mem_erase_of_ne hne).mpr hp'
  sub i p' hp' := List.mem_of_mem_erase (hwait i ▸ hp')

theorem BarrierReap.trans {D E : Slot → Prop} {A B C : BarrierView} (h : BarrierReap D A B)
    (h' : BarrierReap E B C) : BarrierReap (fun p => D p ∨ E p) A C where
  barrier := h'.barrier.trans h.barrier
  ref i := (h'.ref i).trans (h.ref i)
  wait i hi hnot := by
    have hB : B.ref i ≠ ∅ := fun he => hi (Finset.subset_empty.mp (he ▸ h'.ref i))
    have hw := h.wait i hB fun p hp hd => hnot p hp (.inl hd)
    rw [h'.wait i hi fun p hp he => hnot p (hw ▸ hp) (.inr he), hw]
  left i hi p hp hnot := by
    have hB : B.ref i ≠ ∅ := fun he => hi (Finset.subset_empty.mp (he ▸ h'.ref i))
    exact h'.left i hi p (h.left i hB p hp fun hd => hnot (.inl hd)) fun he => hnot (.inr he)
  sub i p hp := h.sub i p (h'.sub i p hp)

theorem BarrierReap.mono {D E : Slot → Prop} {A B : BarrierView} (h : BarrierReap D A B)
    (hDE : ∀ i, ∀ p ∈ A.wait i, D p → E p) : BarrierReap E A B :=
  { h with
    wait := fun i hi hnot => h.wait i hi fun p hp hd => hnot p hp (hDE i p hp hd)
    left := fun i hi p hp hnot => h.left i hi p hp fun hd => hnot (hDE i p hp hd) }

/-- **A step of the kernel, for the barriers.** The calls that are made in
it are `called`, and the processes that end in it `ended`. -/
inductive BarrierStep (called : Slot → Call → Prop) (ended : Slot → Prop) (A B : BarrierView) : Prop
  | same (h : B = A)
  /-- `do_barrier_init` of a new one -/
  | init (i : Idx) (r : Finset Slot) (p : Slot) (key goal : ℤ)
      (hcall : called p (.barrierInit key goal)) (hnil : A.wait i = [])
      (hbarrier : B.barrier = upd A.barrier i { A.barrier i with goal := goal, current := 0 })
      (href : B.ref = upd A.ref i r) (hwait : B.wait = A.wait)
  /-- `do_barrier_init` of one that there is -/
  | join (i : Idx) (r : Finset Slot) (hlive : A.ref i ≠ ∅) (hbarrier : B.barrier = A.barrier)
      (href : B.ref = upd A.ref i r) (hwait : B.wait = A.wait)
  /-- `do_barrier_wait` that waits -/
  | arrive (i : Idx) (p : Slot) (hlive : A.ref i ≠ ∅)
      (hcount : (A.barrier i).current + 1 < (A.barrier i).goal)
      (hbarrier : B.barrier = upd A.barrier i
        { A.barrier i with current := (A.barrier i).current + 1 })
      (href : B.ref = A.ref) (hwait : B.wait = upd A.wait i (A.wait i ++ [p]))
  /-- `do_barrier_wait` that releases the others -/
  | release (i : Idx) (j : ℤ) (p : Slot) (hcall : called p (.barrierWait j))
      (hj : index j = some i) (hfree : p ∉ A.wait i) (hlive : A.ref i ≠ ∅)
      (hlast : (A.barrier i).current + 1 = (A.barrier i).goal)
      (hbarrier : B.barrier = upd A.barrier i { A.barrier i with current := 0 })
      (href : B.ref = A.ref) (hwait : B.wait = upd A.wait i [])
  /-- `do_barrier_destroy` -/
  | destroy (i : Idx) (hbarrier : B.barrier = A.barrier) (href : B.ref = upd A.ref i ∅)
      (hwait : B.wait = upd A.wait i [])
  /-- processes end -/
  | reap (h : BarrierReap ended A B)

/-- **A barrier counts those who wait.** -/
def BarrierInv (A : BarrierView) : Prop :=
  ∀ i, A.ref i ≠ ∅ → (A.barrier i).current = (A.wait i).length ∧
    (A.barrier i).current < (A.barrier i).goal

/-- What the kernel has to avoid for the count. -/
structure BarrierGood (called : Slot → Call → Prop) (ended : Slot → Prop) (A B : BarrierView) :
    Prop where
  goal : ∀ p key goal, called p (.barrierInit key goal) → 1 ≤ goal
  waiting : ∀ i, B.ref i ≠ ∅ → ∀ p ∈ A.wait i, ¬ ended p

variable {A B : BarrierView} {called : Slot → Call → Prop} {ended : Slot → Prop} (h : BarrierInv A)
  (hs : BarrierStep called ended A B)
include h hs

/-- **The count is kept.** -/
theorem BarrierInv.step (hg : BarrierGood called ended A B) : BarrierInv B := by
  intro i hi
  cases hs with
  | same hs =>
    rw [hs] at hi ⊢
    exact h i hi
  | init j r p key goal hcall hnil hbarrier href hwait =>
    by_cases hij : i = j
    · subst hij
      have hgoal := hg.goal p key goal hcall
      rw [hbarrier, upd_self, hwait, hnil]
      exact ⟨rfl, hgoal⟩
    · rw [href, upd_of_ne hij] at hi
      rw [hbarrier, upd_of_ne hij, hwait]
      exact h i hi
  | join j r hlive hbarrier href hwait =>
    rw [hbarrier, hwait]
    by_cases hij : i = j
    · exact h i (hij ▸ hlive)
    · rw [href, upd_of_ne hij] at hi
      exact h i hi
  | arrive j p hlive hcount hbarrier href hwait =>
    rw [href] at hi
    obtain ⟨hlen, hlt⟩ := h i hi
    by_cases hij : i = j
    · subst hij
      rw [hbarrier, upd_self, hwait, upd_self, List.length_append, List.length_singleton]
      refine ⟨?_, hcount⟩
      show (A.barrier i).current + 1 = ((A.wait i).length + 1 : ℕ)
      omega
    · rw [hbarrier, upd_of_ne hij, hwait, upd_of_ne hij]
      exact ⟨hlen, hlt⟩
  | release j idx p hcall hidx hfree hlive hlast hbarrier href hwait =>
    rw [href] at hi
    obtain ⟨hlen, hlt⟩ := h i hi
    by_cases hij : i = j
    · subst hij
      rw [hbarrier, upd_self, hwait, upd_self]
      refine ⟨rfl, ?_⟩
      show 0 < (A.barrier i).goal
      omega
    · rw [hbarrier, upd_of_ne hij, hwait, upd_of_ne hij]
      exact ⟨hlen, hlt⟩
  | destroy j hbarrier href hwait =>
    by_cases hij : i = j
    · rw [href, hij, upd_self] at hi
      exact absurd rfl hi
    · rw [href, upd_of_ne hij] at hi
      rw [hbarrier, hwait, upd_of_ne hij]
      exact h i hi
  | reap hr =>
    have hi' : A.ref i ≠ ∅ := fun he => hi (Finset.subset_empty.mp (he ▸ hr.ref i))
    rw [hr.barrier, hr.wait i hi (hg.waiting i hi)]
    exact h i hi'

/-- **A process leaves a barrier that stays only when the last of the round
arrives**, unless it is ended. -/
theorem BarrierInv.rendezvous {i : Idx}
    {p : Slot} (hA : A.ref i ≠ ∅) (hB : B.ref i ≠ ∅) (hp : p ∈ A.wait i) (hp' : p ∉ B.wait i)
    (hend : ¬ ended p) :
    ∃ j q, called q (.barrierWait j) ∧ index j = some i ∧ q ∉ A.wait i ∧
      (((A.wait i).length + 1 : ℕ) : ℤ) = (A.barrier i).goal := by
  obtain ⟨hlen, -⟩ := h i hA
  cases hs with
  | same hs => exact absurd (hs ▸ hp) hp'
  | init j r q key goal hcall hnil hbarrier href hwait => exact absurd (hwait ▸ hp) hp'
  | join j r hlive hbarrier href hwait => exact absurd (hwait ▸ hp) hp'
  | arrive j q hlive hcount hbarrier href hwait =>
    refine absurd ?_ hp'
    rw [hwait]
    by_cases hij : i = j
    · subst hij
      rw [upd_self]
      exact List.mem_append_left _ hp
    · rw [upd_of_ne hij]
      exact hp
  | release j idx q hcall hidx hfree hlive hlast hbarrier href hwait =>
    by_cases hij : i = j
    · subst hij
      exact ⟨idx, q, hcall, hidx, hfree, by omega⟩
    · rw [hwait, upd_of_ne hij] at hp'
      exact absurd hp hp'
  | destroy j hbarrier href hwait =>
    by_cases hij : i = j
    · rw [href, hij, upd_self] at hB
      exact absurd rfl hB
    · rw [hwait, upd_of_ne hij] at hp'
      exact absurd hp hp'
  | reap hr => exact absurd (hr.left i hB p hp hend) hp'

end OsLab.Sched
