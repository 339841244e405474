import OsLab.Sched.Core
import OsLab.Sched.Machine.Semaphore
import OsLab.Sched.Machine.Barrier
/-!
# What a call does

Each call of the kernel, from the invariant between two steps to itself,
with what it is for the semaphores and for the barriers (`Outcome`). Inside
a call the parts are put together with `Plain`: the kernel's invariant is
kept, and semaphores and barriers are left alone. The calls that end
processes are in `OsLab.Sched.Ending`.
-/

namespace OsLab.Sched

open DList (Rep)

namespace Kernel

variable {s s' s'' : Kernel} {L L' L'' L1 : Lists} {c : Cpu} {q : Queue} {p : Slot}
  {X : Slot → Prop} {T : Prop} {l : List Slot} {i : Idx}

/-! ## Views -/

def semaView (s : Kernel) (L : Lists) : SemaView :=
  ⟨s.semaphores, s.sema_ref, fun i => L (.sema i), fun p => (s.pcb p).cont⟩

def barrierView (s : Kernel) (L : Lists) : BarrierView :=
  ⟨s.barriers, s.barrier_ref, fun i => L (.barrier i)⟩

/-- The process ends in a step. -/
def Ended (s s' : Kernel) (p : Slot) : Prop := s.status p ≠ .exited ∧ s'.status p = .exited

/-- The queues of semaphores and barriers. -/
def Counted : Queue → Prop
  | .sema _ | .barrier _ => True
  | _ => False

theorem semaView_eq (hsema : s'.semaphores = s.semaphores) (href : s'.sema_ref = s.sema_ref)
    (hl : ∀ i, L' (.sema i) = L (.sema i)) (hc : ∀ p, (s'.pcb p).cont = (s.pcb p).cont) :
    semaView s' L' = semaView s L := by
  unfold semaView
  rw [hsema, href, funext hl, funext hc]

theorem barrierView_eq (hbar : s'.barriers = s.barriers) (href : s'.barrier_ref = s.barrier_ref)
    (hl : ∀ i, L' (.barrier i) = L (.barrier i)) : barrierView s' L' = barrierView s L := by
  unfold barrierView
  rw [hbar, href, funext hl]

theorem views_eq (ho : s'.toObjects = s.toObjects) (hl : ∀ q, Counted q → L' q = L q)
    (hc : ∀ p, (s'.pcb p).cont = (s.pcb p).cont) :
    semaView s' L' = semaView s L ∧ barrierView s' L' = barrierView s L :=
  ⟨semaView_eq (by rw [ho]) (by rw [ho]) (fun _ => hl _ trivial) hc,
    barrierView_eq (by rw [ho]) (by rw [ho]) fun _ => hl _ trivial⟩

/-- Whoever is woken, the views change with the lists. -/
theorem Wakes.views (hw : Wakes s L s' L') :
    semaView s' L1 = semaView s L1 ∧ barrierView s' L1 = barrierView s L1 :=
  views_eq hw.same.objects (fun _ _ => rfl) fun p => by rw [hw.pcb]

theorem moveAll_counted {q' : Queue} (hn : ¬ Counted q) (hq' : Counted q') :
    moveAll L q q' = L q' :=
  moveAll_of_ne (by rintro rfl; exact hq') (by rintro rfl; exact hn hq')

theorem waits_sema (h : ∀ j, L' (.sema j) = upd L (.sema i) l (.sema j)) :
    (semaView s' L').wait = upd (semaView s L).wait i l :=
  (funext h).trans (upd_comp (fun _ _ => Queue.sema.inj))

theorem waits_barrier (h : ∀ j, L' (.barrier j) = upd L (.barrier i) l (.barrier j)) :
    (barrierView s' L').wait = upd (barrierView s L).wait i l :=
  (funext h).trans (upd_comp (fun _ _ => Queue.barrier.inj))

/-! ## Results -/

/-- **The invariant after a step.** With `T`, what is on the ready queue has the status for
it if that was so before. -/
structure Result (T : Prop) (s : Kernel) (L : Lists) (s' : Kernel) (L' : Lists) : Prop where
  core : Core s' L'
  queued : Queued s L → T → Queued s' L'

/-- **What a call has done.** -/
def Outcome (called : Slot → Call → Prop) (T : Prop) (s : Kernel) (L : Lists) (s' : Kernel) :
    Prop :=
  ∃ L', Result T s L s' L' ∧
    SemaStep called (Ended s s') (semaView s L) (semaView s' L') ∧
    BarrierStep called (Ended s s') (barrierView s L) (barrierView s' L')

/-- Nobody. -/
def Nobody : Slot → Prop := fun _ => False

/-- The switch is to the only process whose time has come, those of `X` included. -/
def Picked (X : Slot → Prop) (next : Slot) (s : Kernel) (L : Lists) : Prop :=
  ∀ p, Roused s L p ∨ X p → p = next

/-- A part of a call, for the processes. Those of `X` have gone to sleep in it, and their time
has come already. -/
structure Within (c : Cpu) (X : Slot → Prop) (s : Kernel) (L : Lists) (s' : Kernel) (L' : Lists) :
    Prop where
  busy : Busy s' L' c
  current : s'.current = s.current
  queued : Queued s L → Queued s' L'
  asleep : ∀ p, Roused s' L' p → Roused s L p ∨ X p

/-- A part of a call that leaves semaphores and barriers alone. -/
structure Plain (c : Cpu) (X : Slot → Prop) (s : Kernel) (L : Lists) (s' : Kernel) (L' : Lists) :
    Prop extends Within c X s L s' L' where
  sema : SemaSame (semaView s L) (semaView s' L')
  barrier : barrierView s' L' = barrierView s L

theorem Within.refl (h : Busy s L c) : Within c X s L s L := ⟨h, rfl, id, fun _ => .inl⟩

theorem Within.trans (h : Within c X s L s' L')
    (h' : Within c X s' L' s'' L'') : Within c X s L s'' L'' where
  busy := h'.busy
  current := h'.current.trans h.current
  queued hq := h'.queued (h.queued hq)
  asleep p hp := (h'.asleep p hp).elim (h.asleep p) .inr

variable {s1 : Kernel} {k : Cont} {pid : ℤ}

theorem Within.wakes_of (h : Busy s L c) (h1 : Rewired s s1 L') (hw : Wakes s1 L s' L') :
    Within c X s L s' L' where
  busy := h.wakes_of h1 hw
  current := hw.current.trans h1.current
  queued hq := by
    refine Queued.wakes (s := s1) (fun p hp => ?_) hw
    rw [h1.status_eq]
    exact hq p hp
  asleep _ hp := .inl (h1.roused hw hp)

theorem Within.wakes (h : Busy s L c) (hw : Wakes s L s' L') : Within c X s L s' L' :=
  .wakes_of h .refl hw

/-- The processes stay where they are. -/
theorem Within.congr (h : Busy s L c) (hst : ∀ p, s'.status p = s.status p) (hr : Rep s'.links L)
    (hcur : s'.current = s.current) (ht : Tidy s' L) (htime : s'.time = s.time)
    (hwake : ∀ p ∈ L .sleep, (s'.pcb p).wakeup_time = (s.pcb p).wakeup_time) :
    Within c X s L s' L where
  busy := h.congr hst hr hcur ht
  current := hcur
  queued hq p hp := (hst p).trans (hq p hp)
  asleep p hp := by
    refine .inl ⟨hp.1, ?_⟩
    have hd := hp.2
    unfold due at hd ⊢
    rwa [htime, hwake p hp.1] at hd

/-- Objects change, and none goes out of use. -/
theorem Within.objects (h : Busy s L c) (hpcb : s'.pcb = s.pcb) (hr : Rep s'.links L)
    (hcur : s'.current = s.current) (hid : s'.process_id = s.process_id) (htime : s'.time = s.time)
    (hcond : ∀ i, s'.cond_ref i = ∅ → s.cond_ref i = ∅)
    (hsema : ∀ i, s'.sema_ref i = ∅ → s.sema_ref i = ∅)
    (hbar : ∀ i, s'.barrier_ref i = ∅ → s.barrier_ref i = ∅) : Within c X s L s' L := by
  have hst : ∀ p, s'.status p = s.status p := fun p => by
    unfold status
    rw [hpcb]
  exact .congr h hst hr hcur (h.tidy.congr hst (fun p => by rw [hpcb]) hid hcond hsema hbar) htime
    fun p _ => by rw [hpcb]

theorem Within.block (h : Busy s L c) {m : DList.Mem Queue Slot} (hq : q ≠ .ready)
    (hX : q = .sleep → s.due (s.current c) = true → X (s.current c))
    (hm : Rep m (upd L q (L q ++ [s.current c])))
    (ht : Tidy s (upd L q (L q ++ [s.current c]))) (hrun : s.status (s.current c) = .running) :
    Within c X s L ((s.setStatus (s.current c) .blocked).setLinks m)
      (upd L q (L q ++ [s.current c])) where
  busy := h.block hm ht (by simp [hrun])
  current := rfl
  queued hqd p hp := by
    rw [upd_of_ne hq.symm] at hp
    have hne : p ≠ s.current c := fun he => h.free_of_running hrun _ (he ▸ hp)
    exact (status_setStatus_ne (s := s) _ hne).trans (hqd p hp)
  asleep p hp := by
    obtain ⟨hin, hdue⟩ := hp
    have hd : s.due p = true := (due_setStatus (s.current c) p .blocked).symm.trans hdue
    by_cases hs : q = .sleep
    · rw [hs, upd_self, List.mem_append, List.mem_singleton] at hin
      refine hin.imp (fun hin => ⟨hin, hd⟩) fun he => ?_
      rw [he] at hd ⊢
      exact hX hs hd
    · rw [upd_of_ne (Ne.symm hs)] at hin
      exact .inl ⟨hin, hd⟩

theorem Within.result (h : Within c Nobody s L s' L') (ha : Active s' L' (s'.current c)) :
    Result T s L s' L' where
  core := h.busy.core ha
  queued hq _ := h.queued hq

theorem Within.switched {next : Slot} (h : Within c X s L s1 L1)
    (hkill : s1.status (s1.current c) ≠ .killed) (hs : Switched s1 L1 c k next s' L')
    (hT : T → Picked X next s L) : Result T s L s' L' where
  core := h.busy.switched hkill hs
  queued hq ht := (h.queued hq).switched hs fun p hp => hT ht p (h.asleep p hp)

variable {called : Slot → Call → Prop} {next : Slot} {Q : Kernel → Prop} {L1 : Lists}
  {m : DList.Mem Queue Slot}

/-- `do_scheduler` inside a call. -/
theorem Busy.post_doScheduler (h : Busy s L c)
    (hk : ∀ s' L', Switched s L c k next s' L' → Q s') : Post Minor Q (s.doScheduler c k next) :=
  Kernel.post_doScheduler h.rep (fun hrun => h.free_of_running hrun) hk

/-- `do_scheduler` of a process that has been put on a queue. -/
theorem Within.post_blocked (h : Within c X s L s1 L1) (hrun : s1.status (s1.current c) = .running)
    (hq : q ≠ .ready) (hX : q = .sleep → s1.due (s1.current c) = true → X (s1.current c))
    (hT : T → Picked X next s L) (hm : Rep m (upd L1 q (L1 q ++ [s1.current c])))
    (ht : Tidy s1 (upd L1 q (L1 q ++ [s1.current c])))
    (hQ : ∀ s' L', Switched ((s1.setStatus (s1.current c) .blocked).setLinks m)
      (upd L1 q (L1 q ++ [s1.current c])) c k next s' L' → Result T s L s' L' → Q s') :
    Post Minor Q (((s1.setStatus (s1.current c) .blocked).setLinks m).doScheduler c k next) := by
  have hb := h.trans (.block h.busy hq hX hm ht hrun)
  refine hb.busy.post_doScheduler fun s' L' hs => hQ s' L' hs (hb.switched (fun hkill => ?_) hs hT)
  exact nomatch (status_setStatus_self (s := s1) .blocked).symm.trans hkill

theorem Switched.barrierView_eq (hs : Switched s L c k next s' L') :
    barrierView s' L' = barrierView s L :=
  Kernel.barrierView_eq (by rw [hs.same.objects]) (by rw [hs.same.objects]) fun _ =>
    hs.lists _ (by simp) (by simp)

/-- The switch leaves semaphores alone, as the process that leaves is not
inside one. -/
theorem Switched.semaSame (hs : Switched s L c k next s' L')
    (hk : ∀ i g, k ≠ .down i g) (hfree : ∀ i, s.current c ∉ L (.sema i)) :
    SemaSame (semaView s L) (semaView s' L') := by
  have ho := hs.same.objects
  refine ⟨congrArg Objects.semaphores ho, congrArg Objects.sema_ref ho,
    funext fun i => hs.lists _ (by simp) (by simp), fun i p hp => ?_, fun p i g hp => ?_⟩
  · have hne : p ≠ s.current c := fun he => hfree i (he ▸ hp)
    show (s'.pcb p).cont = (s.pcb p).cont
    rw [hs.pcb, if_neg hne]
  · have hp' : (s'.pcb p).cont = .down i g := hp
    rw [hs.pcb] at hp'
    show (s.pcb p).cont = _
    by_cases he : p = s.current c
    · rw [if_pos he] at hp'
      exact absurd hp' (hk i g)
    · rw [if_neg he] at hp'
      exact hp'

namespace Plain

theorem refl (h : Busy s L c) : Plain c X s L s L := ⟨.refl h, .refl _, rfl⟩

theorem trans (h : Plain c X s L s' L')
    (h' : Plain c X s' L' s'' L'') : Plain c X s L s'' L'' :=
  ⟨h.toWithin.trans h'.toWithin, h.sema.trans h'.sema, h'.barrier.trans h.barrier⟩

theorem wakes (h : Busy s L c) (hw : Wakes s L s' L') (hl : ∀ q, Counted q → L' q = L q) :
    Plain c X s L s' L' := by
  obtain ⟨hs, hb⟩ := views_eq hw.same.objects hl fun p => by rw [hw.pcb]
  exact ⟨.wakes h hw, hs ▸ .refl _, hb⟩

theorem block (h : Busy s L c) (hq : q ≠ .ready) (hn : ¬ Counted q)
    (hX : q = .sleep → s.due (s.current c) = true → X (s.current c))
    (hm : Rep m (upd L q (L q ++ [s.current c])))
    (ht : Tidy s (upd L q (L q ++ [s.current c]))) (hrun : s.status (s.current c) = .running) :
    Plain c X s L ((s.setStatus (s.current c) .blocked).setLinks m)
      (upd L q (L q ++ [s.current c])) := by
  have hl : ∀ q', Counted q' → upd L q (L q ++ [s.current c]) q' = L q' :=
    fun q' hq' => upd_of_ne fun he => hn (he ▸ hq')
  have hc : ∀ p, (((s.setStatus (s.current c) .blocked).setLinks m).pcb p).cont = (s.pcb p).cont := by
    intro p
    show ((s.setStatus (s.current c) .blocked).pcb p).cont = _
    rw [pcb_setStatus]
  have ho : ((s.setStatus (s.current c) .blocked).setLinks m).toObjects = s.toObjects := rfl
  obtain ⟨hs, hb⟩ := views_eq ho hl hc
  exact ⟨.block h hq hX hm ht hrun, hs ▸ .refl _, hb⟩

theorem outcome (h : Plain c Nobody s L s' L')
    (ha : Active s' L' (s'.current c)) : Outcome called T s L s' :=
  ⟨L', h.result ha, .same h.sema, .same h.barrier⟩

theorem switched (h : Plain c X s L s1 L1) (hkill : s1.status (s1.current c) ≠ .killed)
    (hs : Switched s1 L1 c k next s' L') (hT : T → Picked X next s L) (hk : ∀ i g, k ≠ .down i g)
    (hfree : ∀ i, s1.current c ∉ L1 (.sema i)) : Outcome called T s L s' :=
  ⟨L', h.toWithin.switched hkill hs hT, .same (h.sema.trans (hs.semaSame hk hfree)),
    .same (hs.barrierView_eq.trans h.barrier)⟩

section Objects

variable (hr : Rep s'.links L) (hcur : s'.current = s.current) (hid : s'.process_id = s.process_id)
  (htime : s'.time = s.time)
  (hcond : ∀ i, s'.cond_ref i = ∅ → s.cond_ref i = ∅)
  (hsema : s'.semaphores = s.semaphores ∧ s'.sema_ref = s.sema_ref)
  (hbar : s'.barriers = s.barriers ∧ s'.barrier_ref = s.barrier_ref)
include hr hcur hid htime hcond hsema hbar

/-- A change of other objects. -/
theorem congr (h : Busy s L c) (hst : ∀ p, s'.status p = s.status p)
    (hpid : ∀ p, (s'.pcb p).pid = (s.pcb p).pid)
    (hwake : ∀ p ∈ L .sleep, (s'.pcb p).wakeup_time = (s.pcb p).wakeup_time)
    (hcont : ∀ i, ∀ p ∈ L (.sema i), (s'.pcb p).cont = (s.pcb p).cont) (hdown : ∀ p i g,
      (s'.pcb p).cont = .down i g → (s.pcb p).cont = .down i g) : Plain c X s L s' L := by
  have ht := h.tidy.congr hst hpid hid hcond (fun _ hi => hsema.2 ▸ hi) fun _ hi => hbar.2 ▸ hi
  exact ⟨.congr h hst hr hcur ht htime hwake, ⟨hsema.1, hsema.2, rfl, hcont, hdown⟩,
    barrierView_eq hbar.1 hbar.2 fun _ => rfl⟩

/-- The objects of a kind that is not counted change, and nothing else. -/
theorem objects (h : Busy s L c) (hpcb : s'.pcb = s.pcb) : Plain c X s L s' L := by
  refine congr hr hcur hid htime hcond hsema hbar h (fun p => ?_) (fun p => by rw [hpcb])
    (fun p _ => by rw [hpcb]) (fun i p _ => by rw [hpcb]) fun p i g hp => by rw [← hpcb]; exact hp
  unfold status
  rw [hpcb]

/-- The process of the processor returns from the kernel. -/
theorem leave (h : Core s L) (hpcb : s'.pcb = (s.setCont (s.current c) .user).pcb) :
    Plain c X s L s' L := by
  have hkept : ∀ p ≠ s.current c, s'.pcb p = s.pcb p := fun p hp => by
    rw [hpcb]
    exact upd_of_ne hp
  have hown : s'.pcb (s.current c) = { s.pcb (s.current c) with cont := .user } := by
    rw [hpcb]
    exact upd_self
  refine congr hr hcur hid htime hcond hsema hbar (h.busy c) (fun p => ?_) (fun p => ?_)
    (fun p hp => ?_)
    (fun i p hp => ?_) fun p i g hp => ?_
  · unfold status
    by_cases he : p = s.current c
    · rw [he, hown]
    · rw [hkept p he]
  · by_cases he : p = s.current c
    · rw [he, hown]
    · rw [hkept p he]
  · rw [hkept p fun he => (h.active c).2 _ (he ▸ hp)]
  · rw [hkept p fun he => (h.active c).2 _ (he ▸ hp)]
  · by_cases he : p = s.current c
    · rw [he, hown] at hp
      exact nomatch hp
    · rw [hkept p he] at hp
      exact hp

end Objects

section

variable (h : Plain c X s L s1 L1) (hrun : s1.status (s1.current c) = .running) (hq : q ≠ .ready)
  (hn : ¬ Counted q) (hX : q = .sleep → s1.due (s1.current c) = true → X (s1.current c)) (hT : T →
  Picked X next s L) (ht : Tidy s1 (upd L1 q (L1 q ++ [s1.current c]))) (hk : ∀ i g, k ≠ .down i g)
include h hrun hq hn hX hT ht hk

theorem post_blocked (hm : Rep m (upd L1 q (L1 q ++ [s1.current c]))) :
    Post Minor (Outcome called T s L) (((s1.setStatus (s1.current c) .blocked).setLinks m).doScheduler c k next) := by
  have hb := h.trans (.block h.busy hq hn hX hm ht hrun)
  refine h.toWithin.post_blocked hrun hq hX hT hm ht fun s' L' hs hres =>
    ⟨L', hres, .same (hb.sema.trans (hs.semaSame hk fun i => ?_)), .same (hs.barrierView_eq.trans hb.barrier)⟩
  have hne : Queue.sema i ≠ q := fun he => hn (he ▸ trivial)
  rw [upd_of_ne hne]
  exact h.busy.free_of_running hrun _

/-- `do_block` and `do_scheduler`, on a queue that is not counted. -/
theorem post_waitOn : Post Minor (Outcome called T s L)
    (do let s ← s1.doBlock (s1.current c) q; s.doScheduler c k next) := by
  rw [post_bind]
  exact post_doBlock h.busy.rep (by simp [hrun]) (h.busy.free_of_running hrun) fun _ =>
    h.post_blocked hrun hq hn hX hT ht hk

end

end Plain

/-! ## Scheduling calls -/

/-- A call that does nothing. -/
theorem Core.unchanged (h : Core s L) : Outcome called T s L s :=
  (Plain.refl (h.busy 0)).outcome (h.active 0)

theorem Core.running (h : Core s L) (hkill : s.status (s.current c) ≠ .killed) :
    s.status (s.current c) = .running := (h.active c).1.resolve_right hkill

theorem post_yield (h : Core s L) (hrun : s.status (s.current c) = .running)
    (hT : T → Picked X next s L) : Post Minor (Outcome called T s L) (s.doScheduler c .ret next) :=
  (h.busy c).post_doScheduler fun _ _ hs =>
    (Plain.refl (h.busy c)).switched (by simp [hrun]) hs hT (by simp) fun _ => (h.active c).2 _

theorem post_doSleep (h : Core s L) (hrun : s.status (s.current c) = .running) {t : ℕ}
    (hX : t = 0 → X (s.current c)) (hT : T → Picked X next s L) :
    Post Minor (Outcome called T s L) (s.doSleep c t next) := by
  have hst : ∀ p, (s.setPcb (s.current c) { s.pcb (s.current c) with
      wakeup_time := s.time + t }).status p = s.status p := by
    intro p
    by_cases hp : p = s.current c
    · rw [hp, status_setPcb_self]
      rfl
    · rw [status_setPcb_ne hp]
  have hpcb : ∀ p, (upd s.pcb (s.current c) { s.pcb (s.current c) with
      wakeup_time := s.time + t } p).pid = (s.pcb p).pid ∧
      (upd s.pcb (s.current c) { s.pcb (s.current c) with
        wakeup_time := s.time + t } p).cont = (s.pcb p).cont := by
    intro p
    by_cases hp : p = s.current c
    · rw [hp, upd_self]
      exact ⟨rfl, rfl⟩
    · rw [upd_of_ne hp]
      exact ⟨rfl, rfl⟩
  have h1 : Plain c X s L (s.setPcb (s.current c) { s.pcb (s.current c) with
      wakeup_time := s.time + t }) L :=
    .congr h.rep rfl rfl rfl (fun _ => id) ⟨rfl, rfl⟩ ⟨rfl, rfl⟩ (h.busy c) hst (fun p => (hpcb p).1)
      (fun p hp => congrArg Pcb.wakeup_time (upd_of_ne fun he => (h.active c).2 _ (he ▸ hp)))
      (fun _ p _ => (hpcb p).2) fun p _ _ hp => (hpcb p).2 ▸ hp
  refine h1.post_waitOn ((hst _).trans hrun) (by simp) id (fun _ hdue => hX ?_) hT
    (h1.busy.tidy.append (fun _ => ⟨nofun, nofun, nofun⟩) nofun) (by simp)
  -- it is woken at once if it does not sleep at all
  have hle : (upd s.pcb (s.current c) { s.pcb (s.current c) with wakeup_time := s.time + t }
      (s.current c)).wakeup_time ≤ s.time := of_decide_eq_true hdue
  rw [upd_self] at hle
  exact Nat.le_zero.mp (Nat.le_of_add_le_add_left (hle : s.time + t ≤ s.time + 0))

/-- What `find_pcb` finds has not exited. -/
theorem findPcb_spec (hf : s.findPcb pid = some p) : (∃ c : Cpu, p = .kernel c ∧ pid = c) ∨
      ∃ i, p = .user i ∧ (s.pcb p).pid = pid ∧ s.status p ≠ .exited := by
  unfold findPcb at hf
  split_ifs at hf with hneg hlt
  · refine .inl ⟨⟨pid.toNat, hlt⟩, (Option.some.inj hf).symm, ?_⟩
    show pid = (pid.toNat : ℤ)
    omega
  · obtain ⟨i, hi, rfl⟩ := Option.map_eq_some_iff.mp hf
    have := List.find?_some hi
    rw [decide_eq_true_eq] at this
    exact .inr ⟨i, rfl, this.1, this.2⟩

theorem Tidy.findPcb_alive (h : Tidy s L) (hf : s.findPcb pid = some p) : s.status p ≠ .exited := by
  rcases findPcb_spec hf with ⟨c, rfl, -⟩ | ⟨i, rfl, -, hst⟩
  · exact (h.kernel c).2
  · exact hst

theorem post_doWaitpid (h : Core s L) (hrun : s.status (s.current c) = .running)
    (hT : T → Picked X next s L) : Post Minor (Outcome called T s L) (s.doWaitpid c pid next) := by
  unfold doWaitpid
  cases hf : s.findPcb pid with
  | none => exact h.unchanged
  | some p =>
    rw [post_bind]
    refine post_listAppend h.rep (h.active c).2 fun m hm => ?_
    -- the status is set after the append, to the same effect
    have ht : Tidy s (upd L (.wait p) (L (.wait p) ++ [s.current c])) := by
      refine h.tidy.append (fun _ => ⟨nofun, nofun, nofun⟩) fun p' hp' => ?_
      rw [← Queue.wait.inj hp']
      exact h.tidy.findPcb_alive hf
    exact (Plain.refl (h.busy c)).post_blocked hrun (by simp) id (by simp) hT ht (by simp) hm

/-! ## Creating -/

theorem allocPcb_spec (hf : s.allocPcb = some p) : (∃ i, p = .user i) ∧ s.status p = .exited := by
  unfold allocPcb at hf
  obtain ⟨i, hi, rfl⟩ := Option.map_eq_some_iff.mp hf
  exact ⟨⟨i, rfl⟩, by simpa using List.find?_some hi⟩

/-- The lists stay as they are when a free control block is zeroed. -/
theorem rep_constructPcb (hr : Rep s.links L) (hfree : ∀ q, p ∉ L q) (hnil : L (.wait p) = []) :
    Rep (s.constructPcb p).links L := by
  show Rep (DList.init (upd (upd s.links (.node p) .null) (.head (.wait p)) .null) (.wait p)) L
  rw [hr.upd_null hfree]
  unfold DList.init
  rw [upd_self, upd_idem]
  exact hr.set_head hnil rfl rfl

/-- **A new process comes to the ready queue**, in a control block that was
free. -/
theorem Plain.create (h : Busy s L c) (hexit : s.status p = .exited) (huser : ∃ i, p = .user i)
    (hpcb : ∀ p' ≠ p, s'.pcb p' = s.pcb p') (hst : s'.status p = .ready)
    (hcont : (s'.pcb p).cont = .user) (hpid : (NR_CPUS : ℤ) ≤ (s'.pcb p).pid)
    (hr : Rep s'.links (upd L .ready (L .ready ++ [p]))) (hcur : s'.current = s.current)
    (hfresh : (NR_CPUS : ℤ) ≤ s'.process_id) (htime : s'.time = s.time)
    (hcond : s'.cond_ref = s.cond_ref)
    (hsema : s'.semaphores = s.semaphores ∧ s'.sema_ref = s.sema_ref)
    (hbar : s'.barriers = s.barriers ∧ s'.barrier_ref = s.barrier_ref) :
    Plain c X s L s' (upd L .ready (L .ready ++ [p])) ∧
      ∀ p', Active s L p' → Active s' (upd L .ready (L .ready ++ [p])) p' := by
  have hfree := h.free_of_exited hexit
  have hkept : ∀ p' ≠ p, s'.status p' = s.status p' := fun p' hp' => by
    unfold status
    rw [hpcb p' hp']
  have hmem : ∀ p' ≠ p, ∀ q, p' ∈ upd L .ready (L .ready ++ [p]) q ↔ p' ∈ L q := by
    intro p' hp' q
    by_cases hq : q = .ready
    · rw [hq, upd_self]
      simp [hp']
    · rw [upd_of_ne hq]
  have hin : p ∈ upd L .ready (L .ready ++ [p]) .ready := by
    rw [upd_self]
    simp
  have hlist : ∀ q ≠ .ready, upd L .ready (L .ready ++ [p]) q = L q := fun q hq => upd_of_ne hq
  have hactive : ∀ p', Active s L p' → Active s' (upd L .ready (L .ready ++ [p])) p' := by
    intro p' ha
    have hne : p' ≠ p := fun he => by rcases ha.1 with hs | hs <;> simp [he, hexit] at hs
    exact ⟨by rw [hkept p' hne]; exact ha.1, fun q hq => ha.2 q ((hmem p' hne q).mp hq)⟩
  refine ⟨⟨⟨h.of hr hcur (fun p' ha => .inl (hactive p' ha)) (fun p' hi => ?_) ?_, hcur,
    fun hq p' hp' => ?_, fun p' hp' => .inl ⟨?_, ?_⟩⟩, ?_, ?_⟩, hactive⟩
  · by_cases hne : p' = p
    · subst hne
      exact .inl ⟨.ready, hin, .inl ⟨hst, rfl⟩⟩
    · unfold Idle
      rw [hkept p' hne]
      simp only [hmem p' hne]
      exact hi
  · have ht := h.tidy
    obtain ⟨i, hi⟩ := huser
    refine ⟨fun j hj => ?_, fun j hj => ?_, fun j hj => ?_, fun p' hp' => ?_, fun j hj => ?_,
      fun c' => ?_, hfresh⟩
    · rw [hlist _ (by simp)]
      exact ht.cond j (hcond ▸ hj)
    · rw [hlist _ (by simp)]
      exact ht.sema j (hsema.2 ▸ hj)
    · rw [hlist _ (by simp)]
      exact ht.barrier j (hbar.2 ▸ hj)
    · have hne : p' ≠ p := fun he => by simp [he, hst] at hp'
      rw [hlist _ (by simp)]
      exact ht.gone p' (hkept p' hne ▸ hp')
    · by_cases hne : Slot.user j = p
      · rw [hne]
        exact hpid
      · rw [hpcb _ hne]
        exact ht.user j (hkept _ hne ▸ hj)
    · have hne : Slot.kernel c' ≠ p := fun he => by simp [hi] at he
      rw [hpcb _ hne, hkept _ hne]
      exact ht.kernel c'
  · by_cases hne : p' = p
    · exact hne ▸ hst
    · exact (hkept p' hne).trans (hq p' ((hmem p' hne _).mp hp'))
  · exact hlist .sleep (by simp) ▸ hp'.1
  · have hin : p' ∈ L .sleep := hlist .sleep (by simp) ▸ hp'.1
    have hd := hp'.2
    unfold due at hd ⊢
    rwa [hpcb p' fun he => hfree _ (he ▸ hin), htime] at hd
  · refine ⟨hsema.1, hsema.2, funext fun i => hlist (.sema i) (by simp), fun i p' hp' => ?_, fun p' i g hd => ?_⟩
    · have hne : p' ≠ p := fun he => hfree _ (he ▸ hp')
      show (s'.pcb p').cont = _
      rw [hpcb p' hne]
      rfl
    · by_cases hne : p' = p
      · have hd' : (s'.pcb p').cont = .down i g := hd
        rw [hne, hcont] at hd'
        cases hd'
      · have hd' : (s'.pcb p').cont = .down i g := hd
        rw [hpcb p' hne] at hd'
        exact hd'
  · exact barrierView_eq hbar.1 hbar.2 fun i => hlist (.barrier i) (by simp)

theorem post_doExec (h : Core s L) : Post Minor (Outcome called T s L) (s.doExec c) := by
  have hb := h.busy c
  have ha := h.active c
  unfold doExec
  cases hf : s.allocPcb with
  | none => exact h.unchanged
  | some p =>
    obtain ⟨huser, hexit⟩ := allocPcb_spec hf
    have hfree := hb.free_of_exited hexit
    refine .ite (fun _ => trivial) fun _ => ?_
    rw [post_bind]
    refine post_listAppend (rep_constructPcb h.rep hfree (h.tidy.gone p hexit)) hfree fun m hm => ?_
    unfold attachSubprocess
    cases DList.append ((s.constructPcb p).setLinks m).relation
        (((s.constructPcb p).setLinks m).current c) p with
    | none => trivial
    | some r =>
      have hpcb : ∀ p' ≠ p,
          (((s.constructPcb p).setLinks m).setParent r (s.current c) p).pcb p' = s.pcb p' := by
        intro p' hp'
        exact (upd_of_ne hp').trans (upd_of_ne hp')
      have hnew : (((s.constructPcb p).setLinks m).setParent r (s.current c) p).pcb p =
          { pid := s.process_id, status := .ready, parent := some (s.current c) } := by
        refine upd_self.trans ?_
        show { upd s.pcb p _ p with parent := some (s.current c) } = _
        rw [upd_self]
      have hfresh := h.tidy.fresh
      obtain ⟨hpl, hact⟩ := Plain.create (c := c) (p := p) hb hexit huser hpcb
        (by unfold status; rw [hnew]) (by rw [hnew]) (by rw [hnew]; exact hfresh) hm rfl
        (show (NR_CPUS : ℤ) ≤ s.process_id + 1 by omega) rfl rfl ⟨rfl, rfl⟩ ⟨rfl, rfl⟩
      exact hpl.outcome (hact _ ha)

end Kernel

end OsLab.Sched
