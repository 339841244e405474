import OsLab.Sched.Calls
/-!
# The calls of locks, conditions, semaphores and barriers

Each call of `kernel/locking/` from the invariant between two steps to
itself. A mutex may be set up anew only with nobody on its list: the code
does not look, and a waiter would be left on no list at all.
-/

namespace OsLab.Sched

open DList (Rep)

namespace Kernel

variable {s s' : Kernel} {L L' : Lists} {c : Cpu} {q : Queue} {p : Slot} {X : Slot → Prop}
  {T : Prop}
variable {called : Slot → Call → Prop} {next : Slot} {Q : Kernel → Prop}

theorem post_getPcbIndex {R : Slot → Prop} {pid : ℤ} (hk : ∀ p, s.findPcb pid = some p → R p) :
    Post Minor R (s.getPcbIndex pid) := by
  unfold getPcbIndex
  cases hf : s.findPcb pid with
  | none => trivial
  | some p => exact hk p hf

variable {ref : Idx → Finset Slot} {i : Idx} {key : Idx → ℤ} {k : ℤ} {s1 : Kernel} {r : Finset Slot}

theorem findFree_spec (hf : findFree ref = some i) : ref i = ∅ := by simpa using List.find?_some hf

theorem findKey_spec (hf : findKey ref key k = some i) : ref i ≠ ∅ := by
  have := List.find?_some hf
  rw [decide_eq_true_eq] at this
  exact this.1

theorem findKey_none (hf : findKey ref key k = none) (i : Idx) (hi : ref i ≠ ∅) : key i ≠ k := fun hk => by
  have := List.find?_eq_none.mp hf i (List.mem_finRange i)
  rw [decide_eq_true_eq] at this
  exact this ⟨hi, hk⟩

/-! ## Mutexes -/

theorem post_doMutexLockInit (h : Core s L) (key : ℤ) (hempty : ∀ i, s.mutexAlloc key = some i → L (.mutex i) = []) :
    Post Minor (Outcome called T s L) (s.doMutexLockInit c key) := by
  have hb := h.busy c
  have ha := h.active c
  refine (post_getPcbIndex fun p _ => trivial).bind fun p _ => .init trivial (fun i _ => ?_) fun i hkey hfree => ?_
  · exact Plain.outcome (c := c) (.objects h.rep rfl rfl rfl (fun _ => id) ⟨rfl, rfl⟩ ⟨rfl, rfl⟩ hb rfl) ha
  · have hnil : L (.mutex i) = [] := by
      refine hempty i ?_
      unfold mutexAlloc
      rw [hkey]
      exact hfree
    exact Plain.outcome (c := c)
      (.objects (h.rep.init_empty hnil) rfl rfl rfl (fun _ => id) ⟨rfl, rfl⟩ ⟨rfl, rfl⟩ hb rfl) ha

/-- One round of `mutex_acquire`, of a process that is not inside a
semaphore. -/
theorem post_mutexAcquire {k : Cont} (h : Core s L) (hrun : s.status (s.current c) = .running)
    (hT : T → Picked Nobody next s L) (hk : ∀ i g, k ≠ .down i g) :
    Post Minor (Outcome called T s L) (s.mutexAcquire c k i next) := by
  unfold mutexAcquire
  refine .ite (fun _ => ?_) fun _ => ?_
  · refine Plain.outcome (c := c)
      (.leave h.rep rfl rfl rfl (fun _ => id) ⟨rfl, rfl⟩ ⟨rfl, rfl⟩ h rfl) ?_
    obtain ⟨hst, hfree⟩ := h.active c
    refine ⟨?_, hfree⟩
    have hsame : (s.setCont (s.current c) .user).status (s.current c) = s.status (s.current c) :=
      status_setCont ..
    exact hsame ▸ hst
  · exact (Plain.refl (h.busy c)).post_waitOn hrun (by simp) id (by simp) hT
      (h.tidy.append (fun _ => ⟨nofun, nofun, nofun⟩) nofun) hk

theorem post_doMutexLockAcquire (h : Core s L) (hrun : s.status (s.current c) = .running)
    (hT : T → Picked Nobody next s L) (i : ℤ) :
    Post Minor (Outcome called T s L) (s.doMutexLockAcquire c i next) := by
  exact .index (fun _ => h.unchanged) fun i _ => post_mutexAcquire h hrun hT (by simp)

/-- `mutex_release` inside a call. -/
theorem Plain.post_mutexRelease {L1 : Lists} (h : Plain c X s L s1 L1)
    (hk : ∀ s', Wakes (s1.setMlock i { s1.mlocks i with acquired := false }) L1 s'
      (moveAll L1 (.mutex i)) → Plain c X s L s' (moveAll L1 (.mutex i)) → Q s') :
    Post Minor Q (s1.mutexRelease i) := by
  have h1 : Plain c X s1 L1 (s1.setMlock i { s1.mlocks i with acquired := false }) L1 :=
    .objects h.busy.rep rfl rfl rfl (fun _ => id) ⟨rfl, rfl⟩ ⟨rfl, rfl⟩ h.busy rfl
  unfold mutexRelease
  refine post_unblockList h1.busy.rep (by simp) fun s' hw => hk s' hw ?_
  exact (h.trans h1).trans (.wakes h1.busy hw fun q hq => moveAll_counted id hq)

theorem post_doMutexLockRelease (h : Core s L) (i : ℤ) :
    Post Minor (Outcome called T s L) (s.doMutexLockRelease c i) := by
  have hb := h.busy c
  have ha := h.active c
  refine .index (fun _ => h.unchanged) fun i _ => ?_
  have h1 : Plain c Nobody s L (s.setOwns (s.current c) i false) L :=
    .objects h.rep rfl rfl rfl (fun _ => id) ⟨rfl, rfl⟩ ⟨rfl, rfl⟩ hb rfl
  refine .ite (fun _ => h1.outcome ha) fun _ => .ite (fun _ => h1.outcome ha) fun _ => ?_
  refine h1.post_mutexRelease fun s' hw hp => hp.outcome ?_
  rw [hw.current]
  have ha1 : Active ((s.setOwns (s.current c) i false).setMlock i
      { s.mlocks i with acquired := false }) L (s.current c) := ha
  exact ha1.wakes hw

/-! ## Conditions -/

variable {j : Idx}

theorem ref_kept (hr : r ≠ ∅) (hj : upd ref i r j = ∅) : ref j = ∅ := by
  obtain ⟨-, he⟩ | ⟨-, hj⟩ := upd_eq_cases hj
  · exact absurd he hr
  · exact hj

theorem ref_insert : upd ref i (insert p (ref i)) j = ∅ → ref j = ∅ := ref_kept (Finset.insert_ne_empty _ _)

section

variable (h : Core s L)
include h

theorem post_doConditionInit (key : ℤ) : Post Minor (Outcome called T s L) (s.doConditionInit c key) := by
  have hb := h.busy c
  have ha := h.active c
  refine .init trivial (fun i _ => ?_) fun i _ hfree =>
    ?_ <;> refine (post_getPcbIndex fun p _ => trivial).bind fun p _ => ?_
  · exact Plain.outcome (c := c)
      (.objects h.rep rfl rfl rfl (fun _ => ref_insert) ⟨rfl, rfl⟩ ⟨rfl, rfl⟩ hb rfl) ha
  · have hnil := h.tidy.cond i (findFree_spec hfree)
    exact Plain.outcome (c := c)
      (.objects (h.rep.init_empty hnil) rfl rfl rfl (fun _ => ref_insert) ⟨rfl, rfl⟩ ⟨rfl, rfl⟩ hb rfl) ha

theorem post_doConditionWait (hrun : s.status (s.current c) = .running)
    (hT : T → Picked Nobody next s L) (ci mi : ℤ) :
    Post Minor (Outcome called T s L) (s.doConditionWait c ci mi next) := by
  have hb := h.busy c
  have ha := h.active c
  unfold doConditionWait
  cases index ci with
  | none => exact h.unchanged
  | some ci =>
    cases index mi with
    | none => exact h.unchanged
    | some mi =>
      have hobj : ∀ b, Plain c Nobody s L (s.setOwns (s.current c) mi b) L := fun b =>
        .objects h.rep rfl rfl rfl (fun _ => id) ⟨rfl, rfl⟩ ⟨rfl, rfl⟩ hb rfl
      refine .ite (fun _ => (hobj true).outcome ha) fun hlive => ?_
      have h1 := hobj false
      have hfree := h1.busy.free_of_running hrun
      unfold conditionWait
      rw [post_bind]
      refine post_doBlock h1.busy.rep (fun he => nomatch hrun.symm.trans he) hfree fun m hm => ?_
      have ht : Tidy (s.setOwns (s.current c) mi false)
          (upd L (.cond ci) (L (.cond ci) ++ [s.current c])) := by
        refine h1.busy.tidy.append (fun i => ⟨fun he => ?_, nofun, nofun⟩) nofun
        rw [← Queue.cond.inj he]
        exact hlive
      have h2 := h1.trans (.block h1.busy (by simp) id (by simp) hm ht hrun)
      rw [post_bind]
      refine h2.post_mutexRelease fun s3 hw h3 => ?_
      refine h3.busy.post_doScheduler fun s' L' hs => h3.switched ?_ hs hT (by simp) fun i hin => ?_
      · have hblocked : ((s.setOwns (s.current c) mi false).setStatus (s.current c) .blocked).status
            (s.current c) = .blocked := status_setStatus_self _
        rw [hw.current]
        intro hkill
        rcases hw.place (s.current c) with ⟨hst, -⟩ | ⟨hst, -⟩
        · exact nomatch hkill.symm.trans (hst.trans hblocked)
        · exact nomatch hkill.symm.trans hst
      · rw [hw.current] at hin
        have hin' := hw.mem_of_mem (by simp) hin
        rw [upd_of_ne (by simp)] at hin'
        exact hfree _ hin'

/-- **Objects change, and then processes are woken.** -/
theorem Core.woken (hw : Wakes s1 L s' L') (h1 : Rewired s s1 L') : Result T s L s' L' := by
  refine (Within.wakes_of (h.busy 0) h1 hw).result ?_
  rw [hw.current, h1.current]
  exact (h1.active (h.active 0)).wakes hw

/-- The objects that are counted, and their queues, are left alone. -/
theorem Core.woken_plain (hw : Wakes s1 L s' L') (h1 : Rewired s s1 L') (hl : ∀ q, Counted q → L' q = L q)
    (hv : semaView s1 L = semaView s L ∧ barrierView s1 L = barrierView s L) : Outcome called T s L s' := by
  obtain ⟨hs, hb⟩ := views_eq hw.same.objects hl fun p => by rw [hw.pcb]
  exact ⟨_, h.woken hw h1, .same (hs.trans hv.1 ▸ .refl _), .same (hb.trans hv.2)⟩

/-- `unblock_list` of a queue that is not counted. -/
theorem post_unblock (hq : q ≠ .ready) (hn : ¬ Counted q) : Post Minor (Outcome called T s L) (s.unblockList q) :=
  post_unblockList h.rep hq fun _ hw => h.woken_plain hw .refl (fun _ => moveAll_counted hn) ⟨rfl, rfl⟩

/-- Waking the first of a queue that is not counted. -/
theorem post_unblockOne (hq : q ≠ .ready) (hn : ¬ Counted q) :
    Post Minor (Outcome called T s L) (do return (← s.unblockFirst q).2) := by
  rw [post_bind]
  refine post_unblockFirst h.rep hq (fun _ => h.unchanged) fun p l _ s' hw => ?_
  refine h.woken_plain hw .refl (fun q' hq' => ?_) ⟨rfl, rfl⟩
  rw [upd_of_ne (by rintro rfl; exact hq'), upd_of_ne (by rintro rfl; exact hn hq')]

theorem post_doConditionBroadcast (i : ℤ) : Post Minor (Outcome called T s L) (s.doConditionBroadcast i) := by
  refine .index (fun _ => h.unchanged) fun i _ => ?_
  exact .ite (fun _ => h.unchanged) fun _ => post_unblock h (by simp) id

theorem post_doConditionSignal (i : ℤ) : Post Minor (Outcome called T s L) (s.doConditionSignal i) := by
  refine .index (fun _ => h.unchanged) fun i _ => ?_
  exact .ite (fun _ => h.unchanged) fun _ => post_unblockOne h (by simp) id

end

theorem ref_moved {k : Idx → Queue} (hk : k i ≠ .ready)
    (hj : upd ref i r j = ∅) : ref j = ∅ ∨ moveAll L (k i) (k j) = [] := by
  obtain ⟨rfl, -⟩ | ⟨-, hj⟩ := upd_eq_cases hj
  · exact .inr (moveAll_self hk)
  · exact .inl hj

theorem post_doConditionDestroy (h : Core s L) (i : ℤ) :
    Post Minor (Outcome called T s L) (s.doConditionDestroy i) := by
  refine .index (fun _ => h.unchanged) fun i _ => .ite (fun _ => h.unchanged) fun _ => ?_
  unfold conditionDestruct
  exact post_unblockList (s := s.setCondRef i ∅) h.rep (by simp) fun s' hw =>
    h.woken_plain hw ⟨rfl, rfl, rfl, rfl, fun _ => ref_moved (by simp), fun _ => .inl, fun _ => .inl⟩
      (fun _ => moveAll_counted id) ⟨rfl, rfl⟩

/-! ## Semaphores -/

/-- The halts, with what the two assertions about a count need. -/
def Fault (called : Slot → Call → Prop) (s : Kernel) (L : Lists) : Halt → Prop
  | .semaphoreEmpty => ∃ p j i, called p (.semaUp j) ∧ index j = some i ∧ s.sema_ref i ≠ ∅ ∧
      wrap ((s.semaphores i).count + 1) ≤ 0 ∧ L (.sema i) = []
  | .barrierBroken => ∃ i, s.barrier_ref i ≠ ∅ ∧ ¬ (s.barriers i).current < (s.barriers i).goal
  | _ => True

theorem Fault.of_minor {e : Halt} (h : Minor e) : Fault called s L e := by
  cases e with
  | semaphoreEmpty => exact h.elim
  | barrierBroken => exact h.elim
  | _ => trivial

variable (h : Core s L)
include h

theorem post_doSemaphoreInit (key init : ℤ) (hcall : called (s.current c) (.semaInit key init)) :
    Post Minor (Outcome called T s L) (s.doSemaphoreInit c key init) := by
  have hb := h.busy c
  have ha := h.active c
  refine .init trivial (fun i hkey => ?_) fun i hkey hfree => ?_ <;>
    refine (post_getPcbIndex fun p _ => trivial).bind fun p _ => ?_
  · refine ⟨L, Within.result (c := c)
      (.objects hb rfl h.rep rfl rfl rfl (fun _ => id) (fun _ => ref_insert) fun _ => id) ha, ?_, .same rfl⟩
    exact .join i (insert p (s.sema_ref i)) (findKey_spec hkey) (Finset.subset_insert _ _) rfl rfl rfl rfl
  · have hnil := h.tidy.sema i (findFree_spec hfree)
    have href : upd (upd s.sema_ref i {.kernel 0}) i (insert p (upd s.sema_ref i {.kernel 0} i)) =
        upd s.sema_ref i (insert p {.kernel 0}) := by rw [upd_self, upd_idem]
    refine ⟨L, Within.result (c := c) (.objects hb rfl (h.rep.init_empty hnil) rfl rfl rfl (fun _ => id)
      (fun j hj => ?_) fun _ => id) ha, ?_, .same rfl⟩
    · exact ref_kept (Finset.insert_ne_empty p _) ((congrFun href j).symm.trans hj)
    · refine .init i (insert p {.kernel 0}) (s.current c) key init hcall (findKey_none hkey)
        (findFree_spec hfree) hnil (by simp) rfl ?_ rfl rfl
      exact href

theorem post_doSemaphoreDown (hrun : s.status (s.current c) = .running)
    (hT : T → Picked Nobody next s L) (huser : (s.pcb (s.current c)).cont = .user) (j : ℤ) :
    Post Minor (Outcome called T s L) (s.doSemaphoreDown c j next) := by
  have hb := h.busy c
  have ha := h.active c
  refine .index (fun _ => h.unchanged) fun i hj => ?_
  refine .ite (fun _ => h.unchanged) fun hlive => .ite (fun hneg => ?_) fun hneg => ?_
  · -- it waits
    let v : Sema := { s.semaphores i with
      count := wrap ((s.semaphores i).count - 1), downs := (s.semaphores i).downs + 1 }
    have h1 : Within c Nobody s L (s.setSema i v) L :=
      .objects hb rfl h.rep rfl rfl rfl (fun _ => id) (fun _ => id) fun _ => id
    rw [post_bind]
    refine post_doBlock h1.busy.rep (fun he => nomatch hrun.symm.trans he) ha.2 fun m hm => ?_
    have ht : Tidy (s.setSema i v) (upd L (.sema i) (L (.sema i) ++ [s.current c])) := by
      refine h1.busy.tidy.append (fun i' => ⟨nofun, fun he => ?_, nofun⟩) nofun
      rw [← Queue.sema.inj he]
      exact hlive
    refine h1.post_blocked hrun (by simp) (by simp) hT hm ht fun s' L' hs hres => ⟨L', hres, ?_, .same ?_⟩
    · refine .hold i (s.current c) hlive hneg (fun _ => ha.2 _) huser
        (congrArg Objects.semaphores hs.same.objects) (congrArg Objects.sema_ref hs.same.objects :)
        (waits_sema fun _ => hs.lists _ (by simp) (by simp)) ?_
      funext p
      show (s'.pcb p).cont = upd (fun p => (s.pcb p).cont) (s.current c) (.down i v.gen) p
      have hkept : (((s.setSema i v).setStatus (s.current c) .blocked).pcb p).cont =
          (s.pcb p).cont := by
        rw [pcb_setStatus]
        rfl
      rw [hs.pcb]
      by_cases hp : p = s.current c
      · rw [hp, upd_self]
        exact if_pos rfl
      · rw [upd_of_ne hp]
        exact (if_neg hp).trans hkept
    · exact hs.barrierView_eq.trans (barrierView_eq rfl rfl fun _ => upd_of_ne (by simp))
  · refine ⟨L, Within.result (c := c)
      (.objects hb rfl h.rep rfl rfl rfl (fun _ => id) (fun _ => id) fun _ => id) ha, ?_, .same rfl⟩
    exact .pass i hlive (not_lt.mp hneg) rfl rfl rfl rfl

theorem post_doSemaphoreUp (j : ℤ) (hcall : called (s.current c) (.semaUp j)) :
    Post (Fault called s L) (Outcome called T s L) (s.doSemaphoreUp j) := by
  have hb := h.busy c
  have ha := h.active c
  refine .index (fun _ => h.unchanged) fun i hj => ?_
  refine .ite (fun _ => h.unchanged) fun hlive => .ite (fun hle => ?_) fun hpos => ?_
  · let v : Sema := { s.semaphores i with
      count := wrap ((s.semaphores i).count + 1), ups := (s.semaphores i).ups + 1 }
    rw [post_bind]
    refine (post_unblockFirst (s := s.setSema i v) h.rep (by simp) (fun hnil => ?_) fun w l hl s' hw => ?_).weaken
      fun _ => Fault.of_minor
    · exact ⟨s.current c, j, i, hcall, hj, hlive, hle, hnil⟩
    · have hres : Result T s L s' _ := h.woken hw ⟨rfl, rfl, rfl, rfl, fun _ => .inl, fun _ => .inl, fun _ => .inl⟩
      refine ⟨_, hres, ?_, .same (hw.views.2.trans (barrierView_eq rfl rfl fun i' => ?_))⟩
      · rw [hw.views.1]
        exact .wake i j (s.current c) w l hcall hj hlive hle hl rfl rfl (waits_sema fun _ => upd_of_ne (by simp)) rfl
      · rw [upd_of_ne (by simp), upd_of_ne (by simp)]
  · refine ⟨L, Within.result (c := c)
      (.objects hb rfl h.rep rfl rfl rfl (fun _ => id) (fun _ => id) fun _ => id) ha, ?_, .same rfl⟩
    exact .rise i j (s.current c) hcall hj hlive (not_le.mp hpos) rfl rfl rfl rfl

theorem post_doSemaphoreDestroy (j : ℤ) : Post Minor (Outcome called T s L) (s.doSemaphoreDestroy j) := by
  refine .index (fun _ => trivial) fun i _ => .ite (fun _ => h.unchanged) fun _ => ?_
  unfold semaphoreDestruct
  refine post_unblockList h.rep (by simp) fun s' hw => ?_
  have hres : Result T s L s' (moveAll L (.sema i)) :=
    h.woken hw ⟨rfl, rfl, rfl, rfl, fun _ => .inl,
      fun _ => ref_moved (by simp), fun _ => .inl⟩
  refine ⟨_, hres, ?_, .same (hw.views.2.trans (barrierView_eq rfl rfl fun _ => moveAll_of_ne (by simp) (by simp)))⟩
  rw [hw.views.1]
  exact .destroy i rfl rfl (waits_sema fun _ => upd_of_ne (by simp)) rfl

/-! ## Barriers -/

theorem post_doBarrierInit (key goal : ℤ) (hcall : called (s.current c) (.barrierInit key goal)) :
    Post Minor (Outcome called T s L) (s.doBarrierInit c key goal) := by
  have hb := h.busy c
  have ha := h.active c
  refine (post_getPcbIndex fun p _ => trivial).bind fun p _ => .init trivial (fun i hkey => ?_) fun i _ hfree => ?_
  · refine ⟨L, Within.result (c := c)
      (.objects hb rfl h.rep rfl rfl rfl (fun _ => id) (fun _ => id) fun _ => ref_insert) ha,
      .same (.refl _), ?_⟩
    exact .join i (insert p (s.barrier_ref i)) (findKey_spec hkey) rfl rfl rfl
  · have hnil := h.tidy.barrier i (findFree_spec hfree)
    refine ⟨L, Within.result (c := c) (.objects hb rfl (h.rep.init_empty hnil) rfl rfl rfl (fun _ => id)
      (fun _ => id) fun _ => ref_insert) ha, .same (.refl _), ?_⟩
    refine .init i (insert p (s.barrier_ref i)) (s.current c) key goal hcall hnil ?_ rfl rfl
    show upd (upd s.barriers i _) i { upd s.barriers i _ i with goal := goal } = _
    rw [upd_self, upd_idem]
    rfl

theorem post_doBarrierWait (hrun : s.status (s.current c) = .running)
    (hT : T → Picked Nobody next s L) (j : ℤ)
    (hcall : called (s.current c) (.barrierWait j)) :
    Post (Fault called s L) (Outcome called T s L) (s.doBarrierWait c j next) := by
  have hb := h.busy c
  have ha := h.active c
  refine .index (fun _ => h.unchanged) fun i hj => ?_
  refine .ite (fun _ => h.unchanged) fun hlive => .ite (fun hbroken => ⟨i, hlive, hbroken⟩) fun hlt =>
    .ite (fun hmore => ?_) fun hlast => ?_
  · -- not all are there
    let b : Barrier := { s.barriers i with current := (s.barriers i).current + 1 }
    have h1 : Within c Nobody s L (s.setBarrier i b) L :=
      .objects hb rfl h.rep rfl rfl rfl (fun _ => id) (fun _ => id) fun _ => id
    refine Post.weaken ?_ fun _ => Fault.of_minor
    rw [post_bind]
    refine post_doBlock h1.busy.rep (fun he => nomatch hrun.symm.trans he) ha.2 fun m hm => ?_
    have ht : Tidy (s.setBarrier i b) (upd L (.barrier i) (L (.barrier i) ++ [s.current c])) := by
      refine h1.busy.tidy.append (fun i' => ⟨nofun, nofun, fun he => ?_⟩) nofun
      rw [← Queue.barrier.inj he]
      exact hlive
    refine h1.post_blocked hrun (by simp) (by simp) hT hm ht fun s' L' hs hres => ⟨L', hres, .same ?_, ?_⟩
    · have hview : semaView (((s.setBarrier i b).setStatus (s.current c) .blocked).setLinks m)
          (upd L (.barrier i) (L (.barrier i) ++ [s.current c])) = semaView s L := by
        refine semaView_eq rfl rfl (fun _ => upd_of_ne (by simp)) fun p => ?_
        show (((s.setBarrier i b).setStatus (s.current c) .blocked).pcb p).cont = _
        rw [pcb_setStatus]
        rfl
      rw [← hview]
      refine hs.semaSame (by simp) fun i' hin => ?_
      rw [upd_of_ne (by simp)] at hin
      exact ha.2 _ hin
    · exact .arrive i (s.current c) hlive hmore (congrArg Objects.barriers hs.same.objects)
        (congrArg Objects.barrier_ref hs.same.objects :) (waits_barrier fun _ => hs.lists _ (by simp) (by simp))
  · -- the last one
    let b : Barrier := { s.barriers i with current := 0 }
    refine (post_unblockList (s := s.setBarrier i b) h.rep (by simp) fun s' hw => ?_).weaken fun _ => Fault.of_minor
    refine ⟨_, h.woken hw ⟨rfl, rfl, rfl, rfl, fun _ => .inl, fun _ => .inl, fun _ => .inl⟩, .same ?_, ?_⟩
    · have hview : semaView s' (moveAll L (.barrier i)) = semaView s L :=
        hw.views.1.trans (semaView_eq rfl rfl (fun _ => moveAll_of_ne (by simp) (by simp)) fun _ => rfl)
      exact hview ▸ .refl _
    · rw [hw.views.2]
      refine .release i j (s.current c) hcall hj (ha.2 _) hlive ?_ rfl rfl (waits_barrier fun _ => upd_of_ne (by simp))
      show (s.barriers i).current + 1 = (s.barriers i).goal
      omega

theorem post_doBarrierDestroy (j : ℤ) : Post Minor (Outcome called T s L) (s.doBarrierDestroy j) := by
  refine .index (fun _ => h.unchanged) fun i _ => .ite (fun _ => h.unchanged) fun _ => ?_
  unfold barrierDestruct
  refine post_unblockList h.rep (by simp) fun s' hw => ?_
  have hres : Result T s L s' (moveAll L (.barrier i)) :=
    h.woken hw ⟨rfl, rfl, rfl, rfl, fun _ => .inl, fun _ => .inl,
      fun _ => ref_moved (by simp)⟩
  refine ⟨_, hres, .same ?_, ?_⟩
  · have hview : semaView s' (moveAll L (.barrier i)) = semaView s L :=
      hw.views.1.trans (semaView_eq rfl rfl (fun _ => moveAll_of_ne (by simp) (by simp)) fun _ => rfl)
    exact hview ▸ .refl _
  · rw [hw.views.2]
    exact .destroy i rfl rfl (waits_barrier fun _ => upd_of_ne (by simp))

end Kernel

end OsLab.Sched
