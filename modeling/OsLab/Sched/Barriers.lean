import OsLab.Sched.Teardown
/-!
# Barriers of the kernel

A live barrier counts the processes on its list, and they are fewer than
its goal (`Counts`). So whoever leaves it does so when the last of the
round arrives (`Complete`). A kill that takes a waiting process off the
list leaves it counted, and then a round is over with one process too few.
-/

namespace OsLab.Sched

open DList (Rep)
open Kernel

/-- A live barrier counts those who wait. -/
def Counts (s : Kernel) (L : Lists) : Prop :=
  ∀ i, s.barrier_ref i ≠ ∅ →
    (s.barriers i).current = (L (.barrier i)).length ∧
    0 ≤ (s.barriers i).current ∧ (s.barriers i).current < (s.barriers i).goal

/-- The process returns from `do_barrier_wait` without waiting, or is let
go. -/
def Leaves (s : Kernel) (L : Lists) (e : Event) (s' : Kernel) (L' : Lists) (i : Idx)
    (p : Slot) : Prop :=
  p ∈ L (.barrier i) ∧ p ∉ L' (.barrier i) ∨
    (∃ j, Performs s e p (.barrierWait j) ∧ index j = some i) ∧ (s'.pcb p).cont = .user

/-- As many processes as the goal have come, the last one in this step. -/
def Complete (s : Kernel) (L : Lists) (e : Event) (i : Idx) : Prop :=
  (∀ w ∈ L (.barrier i), s.status w ≠ .exited) ∧
  ∃ j p, Performs s e p (.barrierWait j) ∧ index j = some i ∧ p ∉ L (.barrier i) ∧
    (((L (.barrier i)).length + 1 : ℕ) : ℤ) = (s.barriers i).goal

/-- **The steps that keep the count.** -/
structure BarrierSafe (s : Kernel) (e : Event) : Prop extends Careful s e where
  /-- goals are positive -/
  goal : ∀ p key goal, Performs s e p (.barrierInit key goal) → 1 ≤ goal
  /-- nobody falls who waits on a barrier that somebody refers to who does not -/
  waiting : ∀ i p, (∃ x ∈ s.barrier_ref i, ¬ Fallen s e x) →
    (s.links (.node p)).container = some (.barrier i) → ¬ Fallen s e p

variable {s s' : Kernel} {L L' : Lists} {R : Slot → List Slot} {e : Event} {i : Idx} {p : Slot}

/-- Nobody has ended who waited on a barrier that is still in use. -/
theorem BarrierSafe.not_ended (h : BarrierSafe s e) (hs : Settled s L R) (ha : Advance s L e s' L')
    (hi : s'.barrier_ref i ≠ ∅) (hp : p ∈ L (.barrier i)) : ¬ Ended s s' p := fun hend =>
  h.waiting i p (ha.stays (o := .barrier i) hs hi (ha.fallen hend)) (hs.core.rep.container _ p hp)
    (ha.fallen hend)

theorem BarrierSafe.good (h : BarrierSafe s e) (hs : Settled s L R) (ha : Advance s L e s' L') :
    BarrierGood (Performs s e) (Ended s s') (barrierView s L) (barrierView s' L') where
  goal := h.goal
  waiting _ hi _ hp := h.not_ended hs ha hi hp

theorem Reach.barrierInv (h : Reach BarrierSafe s) :
    ∃ L R, Settled s L R ∧ BarrierInv (barrierView s L) :=
  h.induct (P := fun s L => BarrierInv (barrierView s L)) (fun _ _ hg => hg.toCareful)
    (fun _ hi => absurd rfl hi)
    fun _ _ _ _ _ _ hg _ hs hi ha => hi.step ha.barrier (hg.good hs ha)

/-- While some are missing, `do_barrier_wait` does not return at once. -/
theorem post_doBarrierWait_waits {c : Cpu} {next : Slot} {j : ℤ} (h : Core s L)
    (hrun : s.status (s.current c) = .running) (hj : index j = some i) (hlive : s.barrier_ref i ≠ ∅)
    (hmore : (s.barriers i).current + 1 < (s.barriers i).goal) :
    Post Minor (fun s' => (s'.pcb (s.current c)).cont = .barrier i) (s.doBarrierWait c j next) := by
  unfold doBarrierWait
  rw [hj]
  have hlt : ¬ ¬ (s.barriers i).current < (s.barriers i).goal := by omega
  refine .ite (fun hnone => absurd hnone hlive) fun _ => .ite (fun hbroken => absurd hbroken hlt)
    fun _ => .ite (fun _ => ?_) fun hlast => absurd hmore hlast
  rw [post_bind]
  refine post_doBlock h.rep (fun he => nomatch hrun.symm.trans he) (h.active c).2 fun m hm => ?_
  let b : Barrier := { s.barriers i with current := (s.barriers i).current + 1 }
  have hblocked : ((s.setBarrier i b).setStatus (s.current c) .blocked).status (s.current c) =
      .blocked := status_setStatus_self _
  refine post_doScheduler hm (fun he => nomatch hblocked.symm.trans he) fun s' L' hs => ?_
  rw [hs.pcb, if_pos]
  rfl

/-- **Who leaves a barrier that stays leaves with the last one.** -/
theorem BarrierInv.complete (h : BarrierInv (barrierView s L)) (hs : Settled s L R)
    (hg : BarrierSafe s e) (he : s.step e = .ok s') (ha : Advance s L e s' L')
    (hlive : s.barrier_ref i ≠ ∅) (hlive' : s'.barrier_ref i ≠ ∅)
    (hp : Leaves s L e s' L' i p) : Complete s L e i := by
  have hc := hs.core
  refine ⟨fun w hw => (hc.busy 0).ne_exited_of_mem hw, ?_⟩
  rcases hp with ⟨hin, hout⟩ | ⟨⟨j, hcall, hj⟩, huser⟩
  · exact h.rendezvous ha.barrier hlive hlive' hin hout (hg.not_ended hs ha hlive' hin)
  · refine ⟨j, p, hcall, hj, ?_⟩
    obtain ⟨hcur, hlt⟩ : (s.barriers i).current = (L (.barrier i)).length ∧
      (s.barriers i).current < (s.barriers i).goal := h i hlive
    obtain ⟨c, next, drops, rfl, rfl, hkill⟩ := hcall
    refine ⟨(hc.active c).2 _, ?_⟩
    -- otherwise it would wait
    have hlast : ¬ (s.barriers i).current + 1 < (s.barriers i).goal := by
      intro hmore
      have hwait : s.doBarrierWait c j next = .ok s' := perform_of_step hkill he
      have hcont := (post_doBarrierWait_waits hc (hc.running hkill) hj hlive hmore).of_ok hwait
      exact nomatch hcont.symm.trans huser
    omega

/-- **Barriers count, and nobody leaves one before all have come**, in runs
in which nobody ends who waits on one, and the assertion of
`do_barrier_wait` holds in them. -/
theorem barriers_rendezvous {s : Kernel} (h : Reach BarrierSafe s) :
    ∃ L, Rep s.links L ∧ Counts s L ∧ ∀ e, BarrierSafe s e →
      s.step e ≠ .error .barrierBroken ∧
      ∀ s', s.step e = .ok s' → ∃ L', Rep s'.links L' ∧
        ∀ i p, s.barrier_ref i ≠ ∅ → s'.barrier_ref i ≠ ∅ → Leaves s L e s' L' i p →
          Complete s L e i := by
  obtain ⟨L, R, hs, hi⟩ := h.barrierInv
  refine ⟨L, hs.core.rep, fun i hlive => ?_, fun e hg => ⟨fun he => ?_, fun s' he => ?_⟩⟩
  · obtain ⟨hcur, hlt⟩ : (s.barriers i).current = (L (.barrier i)).length ∧
      (s.barriers i).current < (s.barriers i).goal := hi i hlive
    exact ⟨hcur, by omega, hlt⟩
  · obtain ⟨i, hlive, hbroken⟩ := (hs.post_step hg.toCareful).of_error he
    exact hbroken (hi i hlive).2
  · obtain ⟨L', R', ha, hs'⟩ := (hs.post_step hg.toCareful).of_ok he
    exact ⟨L', hs'.core.rep, fun i p hlive hlive' hp => hi.complete hs hg he ha hlive hlive' hp⟩

/-! ## Runs -/

/-- Enough of `BarrierSafe`. -/
def barrierSafeIf (s : Kernel) (e : Event) : Bool :=
  carefulIf s e &&
  (match e with
    | .enter _ (.barrierInit _ goal) _ _ => decide (1 ≤ goal)
    | _ => true) &&
  decide (∀ i p, (s.links (.node p)).container = some (.barrier i) → s.sparesIf e 4 p)

theorem barrierSafe_of_barrierSafeIf (hok : barrierSafeIf s e) : BarrierSafe s e := by
  unfold barrierSafeIf at hok
  rw [Bool.and_eq_true, Bool.and_eq_true, decide_eq_true_eq] at hok
  obtain ⟨⟨hcareful, hcall⟩, hwait⟩ := hok
  refine ⟨careful_of_carefulIf hcareful, fun p key goal hp => ?_,
    fun i p _ hp => not_fallen_of_sparesIf (hwait i p hp)⟩
  obtain ⟨c, next, drops, rfl, -⟩ := hp
  exact of_decide_eq_true hcall

/-- Two processes meet. While one waits, the other starts a third one and kills it. -/
def meet : List Event :=
  pair ++ [.call 0 (.barrierInit 4 2) (.user 0), .call 1 (.barrierWait 0) (.kernel 1),
    .call 0 .exec (.user 0), .call 0 (.kill 4) (.user 0), .call 0 (.barrierWait 0) (.user 0)]

theorem barriers_rendezvous_meet : ∃ s, boot.run meet = .ok s ∧
    ∃ L, Rep s.links L ∧ Counts s L ∧ ∀ e, BarrierSafe s e →
      s.step e ≠ .error .barrierBroken ∧
      ∀ s', s.step e = .ok s' → ∃ L', Rep s'.links L' ∧
        ∀ i p, s.barrier_ref i ≠ ∅ → s'.barrier_ref i ≠ ∅ → Leaves s L e s' L' i p →
          Complete s L e i := by
  obtain ⟨s, hs, hr⟩ := Reach.of_admits (fun _ _ => barrierSafe_of_barrierSafeIf) .boot
    (show boot.admits barrierSafeIf meet by decide +kernel)
  exact ⟨s, hs, barriers_rendezvous hr⟩

/-- A barrier for three, on which one process waits when it is killed. -/
def killAtBarrier : List Event :=
  pair ++ [.call 0 (.barrierInit 4 3) (.user 0), .call 1 (.barrierWait 0) (.kernel 1),
    .call 0 (.kill 3) (.user 0)]

/-- Two others come to it. -/
def passWithTwo : List Event :=
  killAtBarrier ++ [.call 0 .exec (.user 0), .back 1, .call 1 .yield (.user 1),
    .call 1 (.barrierWait 0) (.kernel 1), .call 0 (.barrierWait 0) (.user 0)]

/-- **The kill of a process that waits** leaves it counted. The next round
of a barrier for three is over with two. -/
theorem barriers_not_count : (∃ s, boot.run killAtBarrier = .ok s ∧
      ¬ ∃ L, Rep s.links L ∧ Counts s L) ∧ ∃ s, boot.run passWithTwo = .ok s ∧ (s.barriers 0).goal = 3 ∧
      s.status (.user 1) = .ready ∧ ∀ i, s.status (.user i) ≠ .exited → i = 0 ∨ i = 1 := by
  refine ⟨?_, ?_⟩
  · have hrun : boot.leadsTo (fun s => decide (s.barrier_ref 0 ≠ ∅ ∧ (s.barriers 0).current = 1 ∧
        ∀ p, (s.links (.node p)).container ≠ some (.barrier 0))) killAtBarrier := by decide +kernel
    obtain ⟨s, hs, hlive, hcur, hnone⟩ := exists_of_leadsTo hrun
    refine ⟨s, hs, fun ⟨L, hr, hcount⟩ => ?_⟩
    have hnil : L (.barrier 0) = [] :=
      List.eq_nil_iff_forall_not_mem.mpr fun p hp => hnone p (hr.container _ p hp)
    have hlen := (hcount 0 hlive).1
    rw [hnil, hcur] at hlen
    exact nomatch hlen
  · exact exists_of_leadsTo (show boot.leadsTo _ passWithTwo by decide +kernel)

end OsLab.Sched
