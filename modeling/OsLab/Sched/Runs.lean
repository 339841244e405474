import OsLab.Sched.Ending
/-!
# From boot to any state

One step keeps the invariant of `OsLab.Sched.Core` and does to semaphores
and barriers what their machines allow (`post_step`), unless it ends what
another processor runs, or makes a mutex on which somebody waits. How runs of
given steps are taken and looked at is here too.
-/

namespace OsLab.Sched

open DList (Rep)

/-- The process makes the call in a step. -/
def Performs (s : Kernel) (e : Event) (p : Slot) (call : Call) : Prop :=
  ∃ c next drops, e = .enter c call next drops ∧ s.current c = p ∧ s.status p ≠ .killed

/-- The calls that may come to `do_scheduler`. -/
def Call.switches : Call → Bool
  | .yield | .sleep _ | .waitpid _ | .exit | .mutexAcquire _ | .condWait _ _ | .semaDown _
  | .barrierWait _ | .block _ => true
  | _ => false

/-- A process that goes on in `mutex_acquire` may come to `do_scheduler` again. -/
def Cont.switches : Cont → Bool
  | .acquire _ | .rewait _ => true
  | _ => false

/-- The process that a step switches to, if it comes to `do_scheduler`. -/
def Kernel.pick (s : Kernel) : Event → Option Slot
  | .tick _ => none
  | .enter c call next _ =>
    if s.status (s.current c) = .killed ∨ call.switches then some next else none
  | .resume c next _ =>
    if s.status (s.current c) = .killed ∨ (s.pcb (s.current c)).cont.switches then some next
    else none

/-- **Whoever is woken is picked**: the process that a step switches to is the only one in the
sleep queue whose time has come, and the caller itself if that sleeps for no time. -/
def Timed (s : Kernel) (e : Event) : Prop :=
  ∀ next, s.pick e = some next →
    ∀ p, (s.links (.node p)).container = some .sleep ∧ s.due p = true ∨ Performs s e p (.sleep 0) →
    p = next

namespace Kernel

variable {s s' : Kernel} {L L' : Lists} {c : Cpu} {X : Slot → Prop} {T : Prop}
  {called : Slot → Call → Prop} {next : Slot} {drops : Slot → List ℕ} {call : Call}

/-! ## A step -/

theorem Picked.nobody (h : Picked X next s L) : Picked Nobody next s L := fun p hp =>
  h p (hp.imp_right False.elim)

theorem post_perform (h : Core s L) (hrun : s.status (s.current c) = .running)
    (huser : (s.pcb (s.current c)).cont = .user) (hcall : called (s.current c) call)
    (hX : call = .sleep 0 → X (s.current c)) (hT : call.switches → T → Picked X next s L)
    (hmutex : ∀ key i, call = .mutexInit key → s.mutexAlloc key = some i → L (.mutex i) = []) :
    Post (Fault called s L) (fun s' => Spared c s s' → Outcome called T s L s')
      (s.perform c next drops call) := by
  have picked : call.switches → T → Picked Nobody next s L := fun hc ht => (hT hc ht).nobody
  have plain : ∀ {r : Res}, Post Minor (Outcome called T s L) r →
      Post (Fault called s L) (fun s' => Spared c s s' → Outcome called T s L s') r :=
    fun hr => Post.weaken (hr.mono fun _ ho _ => ho) fun _ hm => .of_minor hm
  cases call with
  | yield => exact plain (post_yield h hrun (picked rfl))
  | sleep t => exact plain (post_doSleep h hrun (fun ht => hX (ht ▸ rfl)) (hT rfl))
  | waitpid pid => exact plain (post_doWaitpid h hrun (picked rfl))
  | exec => exact plain (post_doExec h)
  | exit => exact (post_doExit h (picked rfl)).weaken fun _ => Fault.of_minor
  | kill pid => exact (post_kill h pid).weaken fun _ => Fault.of_minor
  | mutexInit key => exact plain (post_doMutexLockInit h key fun i => hmutex key i rfl)
  | mutexAcquire i => exact plain (post_doMutexLockAcquire h hrun (picked rfl) i)
  | mutexRelease i => exact plain (post_doMutexLockRelease h i)
  | condInit key => exact plain (post_doConditionInit h key)
  | condWait ci mi => exact plain (post_doConditionWait h hrun (picked rfl) ci mi)
  | condSignal i => exact plain (post_doConditionSignal h i)
  | condBroadcast i => exact plain (post_doConditionBroadcast h i)
  | condDestroy i => exact plain (post_doConditionDestroy h i)
  | semaInit key init => exact plain (post_doSemaphoreInit h key init hcall)
  | semaDown i => exact plain (post_doSemaphoreDown h hrun (picked rfl) huser i)
  | semaUp i => exact (post_doSemaphoreUp h i hcall).mono fun _ ho _ => ho
  | semaDestroy i => exact plain (post_doSemaphoreDestroy h i)
  | barrierInit key goal => exact plain (post_doBarrierInit h key goal hcall)
  | barrierWait i => exact (post_doBarrierWait h hrun (picked rfl) i hcall).mono fun _ ho _ => ho
  | barrierDestroy i => exact plain (post_doBarrierDestroy h i)
  | block k =>
    refine plain ((Plain.refl (h.busy c)).post_waitOn hrun (by simp) id (by simp) (picked rfl) ?_ (by simp))
    exact h.tidy.append (fun _ => ⟨nofun, nofun, nofun⟩) nofun
  | wake k => exact plain (post_unblock h (by simp) id)
  | signal k => exact plain (post_unblockOne h (by simp) id)

theorem finishDown_eq (i : Idx) (g : ℕ) : s.finishDown i g = { s with
      semaphores := if (s.semaphores i).gen = g then
        upd s.semaphores i { s.semaphores i with done := (s.semaphores i).done + 1 }
        else s.semaphores } := by
  unfold finishDown
  by_cases hg : (s.semaphores i).gen = g
  · rw [if_pos hg, if_pos hg]
    rfl
  · rw [if_neg hg, if_neg hg]

/-- The process that the processor runs stays with it when it leaves the
kernel. -/
theorem Active.setCont {p p' : Slot} {k : Cont} (h : Active s L p) : Active (s.setCont p' k) L p :=
  ⟨by rw [status_setCont]; exact h.1, h.2⟩

/-- The return from `do_semaphore_down`. -/
theorem Core.finished (h : Core s L) {i : Idx} {g : ℕ}
    (hk : (s.pcb (s.current c)).cont = .down i g) :
    Outcome called T s L ((s.finishDown i g).setCont (s.current c) .user) := by
  have hb := h.busy c
  have ha := h.active c
  rw [finishDown_eq]
  generalize hv : (if (s.semaphores i).gen = g then _ else _) = v
  have hobj : Within c Nobody s L ({ s with semaphores := v } : Kernel) L :=
    .objects hb rfl h.rep rfl rfl rfl (fun _ => id) (fun _ => id) fun _ => id
  have hcore : Core ({ s with semaphores := v } : Kernel) L := hobj.busy.core ha
  have hleave : Plain c Nobody { s with semaphores := v } L
      (({ s with semaphores := v } : Kernel).setCont (s.current c) .user) L :=
    .leave h.rep rfl rfl rfl (fun _ => id) ⟨rfl, rfl⟩ ⟨rfl, rfl⟩ hcore rfl
  refine ⟨L, (hobj.trans hleave.toWithin).result ?_, ?_, .same rfl⟩
  · exact (hcore.active c).setCont
  · refine .finish i (s.current c) g hk (fun j => ha.2 _) hv.symm rfl rfl ?_
    funext p
    show (upd s.pcb (s.current c) _ p).cont = upd (fun p => (s.pcb p).cont) (s.current c) .user p
    by_cases hp : p = s.current c
    · rw [hp, upd_self, upd_self]
    · rw [upd_of_ne hp, upd_of_ne hp]

theorem post_proceed (h : Core s L) (hrun : s.status (s.current c) = .running)
    (hT : (s.pcb (s.current c)).cont.switches → T → Picked Nobody next s L) :
    Post Minor (Outcome called T s L) (s.proceed c next (s.pcb (s.current c)).cont) := by
  have hleave : Outcome called T s L (s.setCont (s.current c) .user) :=
    Plain.outcome (c := c) (.leave h.rep rfl rfl rfl (fun _ => id) ⟨rfl, rfl⟩ ⟨rfl, rfl⟩ h rfl)
      (h.active c).setCont
  cases hk : (s.pcb (s.current c)).cont with
  | user => trivial
  | ret => exact hleave
  | acquire i => exact post_mutexAcquire h hrun (hT (hk ▸ rfl)) (by simp)
  | rewait i => exact post_mutexAcquire h hrun (hT (hk ▸ rfl)) (by simp)
  | down i g => exact h.finished hk
  | barrier i => exact hleave

/-- A step in which a process makes a call is that call. -/
theorem perform_of_step (hkill : s.status (s.current c) ≠ .killed)
    (he : s.step (.enter c call next drops) = .ok s') : s.perform c next drops call = .ok s' := by
  have he' : (if (s.pcb (s.current c)).cont ≠ .user then .error .busy
    else if s.status (s.current c) = .killed then s.doExit drops c next
    else s.perform c next drops call) = Except.ok s' := he
  split_ifs at he'
  exact he'

/-- **A step.** -/
theorem post_step (h : Core s L) (e : Event)
    (hmutex : ∀ p key i, Performs s e p (.mutexInit key) → s.mutexAlloc key = some i → L (.mutex i) = []) :
    Post (Fault (Performs s e) s L) (fun s' => (∀ c, e.cpu ≠ some c →
        s'.status (s.current c) ≠ .exited) → Outcome (Performs s e) (Timed s e) s L s')
      (s.step e) := by
  -- a step of a processor spares the others
  have spared : ∀ {c : Cpu} {r : Res}, e.cpu = some c →
      Post (Fault (Performs s e) s L) (fun s' => Spared c s s' →
        Outcome (Performs s e) (Timed s e) s L s') r →
      Post (Fault (Performs s e) s L) (fun s' => (∀ c, e.cpu ≠ some c →
        s'.status (s.current c) ≠ .exited) → Outcome (Performs s e) (Timed s e) s L s') r := by
    intro c r he hr
    refine hr.mono fun s' ho hs => ho fun c' hc => hs c' ?_
    rw [he]
    exact fun hcc => hc (Option.some.inj hcc).symm
  have picked : ∀ {next}, s.pick e = some next → Timed s e →
      Picked (fun p => Performs s e p (.sleep 0)) next s L := fun hn ht p hp =>
    ht _ hn p (hp.imp_left fun hr => ⟨h.rep.container _ p hr.1, hr.2⟩)
  cases e with
  | tick d =>
    refine fun _ => ⟨L, ⟨⟨h.rep, h.inj, h.active, h.idle, { h.tidy with }⟩, fun hq _ => hq⟩, ?_, .same rfl⟩
    exact .same (.refl _)
  | enter c call next drops =>
    refine spared rfl (.ite (fun _ => trivial) fun hcont => .ite (fun hkill => ?_) fun hkill => ?_)
    · refine (post_doExit h fun ht => (picked ?_ ht).nobody).weaken fun _ => Fault.of_minor
      exact if_pos (.inl hkill)
    · exact post_perform h (h.running hkill) (not_not.mp hcont) ⟨c, next, drops, rfl, rfl, hkill⟩
        (fun ht => ⟨c, next, drops, by rw [ht], rfl, hkill⟩)
        (fun hc => picked (if_pos (.inr hc)))
        fun key i hk => hmutex _ key i ⟨c, next, drops, by rw [hk], rfl, hkill⟩
  | resume c next drops =>
    refine spared rfl (.ite (fun _ => trivial) fun hcont => .ite (fun hkill => ?_) fun hkill => ?_)
    · refine (post_doExit h fun ht => (picked ?_ ht).nobody).weaken fun _ => Fault.of_minor
      exact if_pos (.inl hkill)
    · refine Post.weaken ((post_proceed h (h.running hkill) fun hc ht => ?_).mono fun _ ho _ => ho)
        fun _ hm => .of_minor hm
      exact (picked (if_pos (.inr hc)) ht).nobody

end Kernel

/-! ## A run -/

open Kernel

theorem rep_boot : Rep boot.links fun _ => [] where
  list q := by
    have hset : ∀ q, bootLinks (.head q) = ⟨some (.head q), some (.head q), none⟩ →
        DList.IsList bootLinks q [] := fun q hq => by
      refine List.isChain_pair.mpr ⟨?_, ?_⟩ <;> rw [hq]
    cases q with
    | ready => exact .inl (hset _ rfl)
    | sleep => exact .inl (hset _ rfl)
    | wait p =>
      cases p with
      | kernel c => exact .inl (hset _ rfl)
      | user i => exact .inr ⟨rfl, rfl, rfl⟩
    | other k => exact .inl (hset _ rfl)
    | _ => exact .inr ⟨rfl, rfl, rfl⟩
  nodup _ := List.nodup_nil
  disjoint _ _ _ hp := nomatch hp
  container _ _ hp := nomatch hp
  free _ _ := rfl

theorem core_boot : Core boot fun _ => [] where
  rep := rep_boot
  inj _ _ he := Slot.kernel.inj he
  active c := ⟨.inl rfl, fun _ => List.not_mem_nil⟩
  idle p hp := by
    cases p with
    | kernel c => exact absurd rfl (hp c)
    | user i => exact .inr ⟨rfl, fun _ => List.not_mem_nil⟩
  tidy := by
    refine ⟨fun _ _ => rfl, fun _ _ => rfl, fun _ _ => rfl, fun _ _ => rfl, fun i hi => absurd rfl hi,
      fun c => ⟨rfl, nofun⟩, le_refl _⟩

variable {Good : Kernel → Event → Prop} {es : List Event} {e : Event} {s : Kernel}
  {ok : Kernel → Event → Bool} {Q : Kernel → Prop}

/-- A call with which no other list ends. -/
def Event.call (c : Cpu) (call : Call) (next : Slot) : Event := .enter c call next fun _ => []

/-- The return of a process that waited. -/
def Event.back (c : Cpu) : Event := .resume c (.kernel c) fun _ => []

/-- A list of steps can be taken, each as `ok` wants it. -/
def Kernel.admits (ok : Kernel → Event → Bool) (s : Kernel) : List Event → Bool
  | [] => true
  | e :: es =>
    match s.step e with
    | .ok s' => ok s e && s'.admits ok es
    | .error _ => false

theorem Kernel.of_admits {e : Event} (h : s.admits ok (e :: es)) :
    ∃ s', s.step e = .ok s' ∧ ok s e ∧ s'.admits ok es := by
  unfold admits at h
  cases he : s.step e with
  | error _ =>
    rw [he] at h
    exact nomatch h
  | ok s' =>
    rw [he, Bool.and_eq_true] at h
    exact ⟨s', rfl, h⟩

theorem Reach.of_admits
    (hok : ∀ s e, ok s e → Good s e) (hs : Reach Good s)
    (hes : s.admits ok es) : ∃ s', s.run es = .ok s' ∧ Reach Good s' := by
  induction es generalizing s with
  | nil => exact ⟨s, rfl, hs⟩
  | cons e es ih =>
    obtain ⟨s1, he, hes⟩ := of_admits hes
    obtain ⟨s', hrun, hr⟩ := ih (hs.step (hok s e hes.1) he) hes.2
    refine ⟨s', ?_, hr⟩
    unfold run
    rw [List.foldlM_cons, he]
    exact hrun

/-- A list of steps leads to a state as `ok` wants it. -/
def Kernel.leadsTo (ok : Kernel → Bool) (s : Kernel) (es : List Event) : Bool :=
  match s.run es with
  | .ok s' => ok s'
  | .error _ => false

theorem Kernel.exists_of_leadsTo [DecidablePred Q]
    (h : s.leadsTo (fun s' => decide (Q s')) es) : ∃ s', s.run es = .ok s' ∧ Q s' := by
  unfold leadsTo at h
  cases hr : s.run es with
  | ok s' =>
    rw [hr] at h
    exact ⟨s', rfl, of_decide_eq_true h⟩
  | error _ =>
    rw [hr] at h
    exact nomatch h

/-- The state a run leads to is as `Q` wants it. -/
theorem Kernel.of_leadsTo [DecidablePred Q] {s' : Kernel} (hs : s.run es = .ok s')
    (h : s.leadsTo (fun s' => decide (Q s')) es) : Q s' := by
  obtain ⟨s₁, hs₁, hq⟩ := exists_of_leadsTo h
  exact Except.ok.inj (hs₁.symm.trans hs) ▸ hq

/-- Two processes, one on each processor. -/
def pair : List Event :=
  [.call 0 .exec (.user 0), .call 0 .yield (.user 0), .call 0 .exec (.user 0),
    .call 1 .yield (.user 1)]

end OsLab.Sched
