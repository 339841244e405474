import OsLab.Sched.Teardown
/-!
# Semaphores of the kernel

A live semaphore with a negative count has as many processes on its wait
list, and one with another count has none (`Balance`). A kill that takes a
waiting process off the list leaves the count as it is, and then they do
not agree: `list_node_destruct` in `cleanup_proc` knows nothing of
semaphores. The other ways are a negative initial value, and an up at the
largest `int`.
-/

namespace OsLab.Sched

open DList (Rep)
open Kernel

/-- Count and wait list of every live semaphore agree, and no more downs
have returned than there were units. -/
def Balance (s : Kernel) (L : Lists) : Prop :=
  ∀ i, s.sema_ref i ≠ ∅ →
    ((s.semaphores i).count < 0 → ((L (.sema i)).length : ℤ) = -(s.semaphores i).count) ∧
    (0 ≤ (s.semaphores i).count → L (.sema i) = []) ∧
    ((s.semaphores i).done : ℤ) ≤ (s.semaphores i).init + (s.semaphores i).ups

/-- **The steps that keep the balance.** -/
structure SemaSafe (s : Kernel) (e : Event) : Prop extends Careful s e where
  /-- no semaphore is made with a negative value -/
  init : ∀ p key init, Performs s e p (.semaInit key init) →
    (∀ i, s.sema_ref i ≠ ∅ → (s.semaphores i).key ≠ key) → 0 ≤ wrap init
  /-- no live semaphore is raised from the largest value -/
  up : ∀ p j i, Performs s e p (.semaUp j) → index j = some i → s.sema_ref i ≠ ∅ →
    (s.semaphores i).count ≠ INT_END - 1
  /-- nobody falls who waits on a semaphore that somebody refers to who does not -/
  waiting : ∀ i p, (∃ x ∈ s.sema_ref i, ¬ Fallen s e x) →
    (s.links (.node p)).container = some (.sema i) → ¬ Fallen s e p

variable {s s' : Kernel} {L L' : Lists} {R : Slot → List Slot} {e : Event}

theorem SemaSafe.good (h : SemaSafe s e) (hs : Settled s L R) (ha : Advance s L e s' L') :
    SemaGood (Performs s e) (Ended s s') (semaView s L) (semaView s' L') where
  init := h.init
  up := h.up
  waiting i hi p hp hend := h.waiting i p (ha.stays (o := .sema i) hs hi (ha.fallen hend))
    (hs.core.rep.container _ p hp) (ha.fallen hend)

theorem semaInv_boot : SemaInv (semaView boot fun _ => []) where
  gen p i g hp := by
    cases p with
    | kernel c => exact nomatch hp
    | user i => exact nomatch hp
  live i hi := absurd rfl hi

theorem Reach.semaInv (h : Reach SemaSafe s) : ∃ L R, Settled s L R ∧ SemaInv (semaView s L) :=
  h.induct (P := fun s L => SemaInv (semaView s L)) (fun _ _ hg => hg.toCareful) semaInv_boot
    fun _ _ _ _ _ _ hg _ hs hi ha => hi.step ha.sema (hg.good hs ha)

/-- With the balance, `do_semaphore_up` finds whom to wake. -/
theorem SemaInv.up_finds (h : SemaInv (semaView s L)) (hs : Settled s L R) (hg : SemaSafe s e) :
    s.step e ≠ .error .semaphoreEmpty := by
  intro he
  obtain ⟨p, j, i, hp, hj, hlive, hcount, hnil⟩ :=
    (hs.post_step hg.toCareful).of_error he
  have hb : Balanced (semaView s L) i := h.live i hlive
  have hsucc : wrap ((s.semaphores i).count + 1) = (s.semaphores i).count + 1 :=
    hb.wrap_succ (hg.up p j i hp hj hlive)
  have hneg : (s.semaphores i).count < 0 := by omega
  have hlen : ((L (.sema i)).length : ℤ) = -(s.semaphores i).count := hb.neg hneg
  rw [hnil, List.length_nil] at hlen
  omega

/-- **Count and wait list agree** in every state of a run without the three
steps above, and the assertion of `do_semaphore_up` holds in the next. -/
theorem semaphores_balance {s : Kernel} (h : Reach SemaSafe s) :
    (∃ L, Rep s.links L ∧ Balance s L) ∧ ∀ e, SemaSafe s e → s.step e ≠ .error .semaphoreEmpty := by
  obtain ⟨L, R, hs, hi⟩ := h.semaInv
  refine ⟨⟨L, hs.core.rep, fun i hlive => ?_⟩, fun e hg => hi.up_finds hs hg⟩
  have hb : Balanced (semaView s L) i := hi.live i hlive
  exact ⟨hb.neg, hb.nonneg, hb.done_le⟩

/-! ## Runs -/

/-- Enough of `SemaSafe`. -/
def semaSafeIf (s : Kernel) (e : Event) : Bool :=
  carefulIf s e &&
  (match e with
    | .enter _ (.semaInit _ init) _ _ => decide (0 ≤ wrap init)
    | .enter _ (.semaUp _) _ _ => decide (∀ i, (s.semaphores i).count ≠ INT_END - 1)
    | _ => true) &&
  decide (∀ i p, (s.links (.node p)).container = some (.sema i) → s.sparesIf e 4 p)

theorem semaSafe_of_semaSafeIf (hok : semaSafeIf s e) : SemaSafe s e := by
  unfold semaSafeIf at hok
  rw [Bool.and_eq_true, Bool.and_eq_true, decide_eq_true_eq] at hok
  obtain ⟨⟨hcareful, hcall⟩, hwait⟩ := hok
  refine ⟨careful_of_carefulIf hcareful, fun p key init hp _ => ?_, fun p j i hp _ _ => ?_,
    fun i p _ hp => not_fallen_of_sparesIf (hwait i p hp)⟩
  · obtain ⟨c, next, drops, rfl, -⟩ := hp
    exact of_decide_eq_true hcall
  · obtain ⟨c, next, drops, rfl, -⟩ := hp
    exact of_decide_eq_true hcall i

/-- One process waits on a semaphore. Another starts a third one and kills it, and then raises
the semaphore. -/
def handOver : List Event :=
  pair ++ [.call 1 (.semaInit 5 0) (.user 1), .call 1 (.semaDown 0) (.kernel 1),
    .call 0 .exec (.user 0), .call 0 (.kill 4) (.user 0), .call 0 (.semaUp 0) (.user 0), .back 1,
    .call 1 .yield (.user 1), .back 1]

theorem semaphores_balance_handOver : ∃ s, boot.run handOver = .ok s ∧
    (∃ L, Rep s.links L ∧ Balance s L) ∧ ∀ e, SemaSafe s e → s.step e ≠ .error .semaphoreEmpty := by
  obtain ⟨s, hs, hr⟩ := Reach.of_admits (fun _ _ => semaSafe_of_semaSafeIf) .boot
    (show boot.admits semaSafeIf handOver by decide +kernel)
  exact ⟨s, hs, semaphores_balance hr⟩

/-- With nobody on its wait list, a live semaphore is not negative. -/
theorem Balance.nonneg (h : Balance s L) (hr : Rep s.links L) {i : Idx} (hlive : s.sema_ref i ≠ ∅)
    (hnone : ∀ p, (s.links (.node p)).container ≠ some (.sema i)) : 0 ≤ (s.semaphores i).count := by
  have hnil : L (.sema i) = [] := List.eq_nil_iff_forall_not_mem.mpr fun p hp => hnone p (hr.container _ p hp)
  by_contra hneg
  have hlen := (h i hlive).1 (not_le.mp hneg)
  rw [hnil, List.length_nil] at hlen
  omega

/-- A process that waits on a semaphore is killed. -/
def killWaiter : List Event :=
  pair ++ [.call 1 (.semaInit 5 0) (.user 1), .call 1 (.semaDown 0) (.kernel 1),
    .call 0 (.kill 3) (.user 0)]

/-- **The kill of a process that waits** leaves the count at `-1` with an
empty list, and the next up fails its assertion. -/
theorem semaphores_not_balance : ∃ s, boot.run killWaiter = .ok s ∧ ¬ (∃ L, Rep s.links L ∧ Balance s L) ∧
    s.step (.call 0 (.semaUp 0) (.user 0)) = .error .semaphoreEmpty := by
  have hrun : boot.leadsTo (fun s => decide (s.sema_ref 0 ≠ ∅ ∧ (s.semaphores 0).count = -1 ∧
      (∀ p, (s.links (.node p)).container ≠ some (.sema 0)) ∧
      (match s.step (.call 0 (.semaUp 0) (.user 0)) with
        | .error e => some e
        | .ok _ => none) = some .semaphoreEmpty)) killWaiter := by decide +kernel
  obtain ⟨s, hs, hlive, hcount, hnone, hup⟩ := exists_of_leadsTo hrun
  refine ⟨s, hs, fun ⟨L, hr, hb⟩ => ?_, ?_⟩
  · have := hb.nonneg hr hlive hnone
    omega
  · cases he : s.step (.call 0 (.semaUp 0) (.user 0)) with
    | error e =>
      rw [he] at hup
      exact congrArg _ (Option.some.inj hup)
    | ok s' =>
      rw [he] at hup
      exact nomatch hup

end OsLab.Sched
