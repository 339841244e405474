import OsLab.Sched.Step
/-!
# What the scheduler does to the lists

The functions that move processes between queues, stated on the lists that
the links hold (`DList.Rep`). Waking is one relation, `Wakes`: each process
stays where it was with its status, or goes from a queue to the ready
queue and is `READY`.
-/

namespace OsLab.Sched

open List

open DList (Rep)

/-- Every halt but the two assertions about a count. -/
def Minor : Halt → Prop
  | .semaphoreEmpty | .barrierBroken => False
  | _ => True

abbrev Lists := Queue → List Slot

namespace Kernel

variable {s s' : Kernel} {L L' : Lists} {q : Queue} {p : Slot} {Q : Kernel → Prop}

/-! ## One node -/

theorem post_listAppend (hr : Rep s.links L) (hp : ∀ q, p ∉ L q)
    (hk : ∀ m, Rep m (upd L q (L q ++ [p])) → Q (s.setLinks m)) : Post Minor Q (s.listAppend q p) := by
  unfold listAppend
  cases he : DList.append s.links q p with
  | none => trivial
  | some m => exact hk m (hr.append_free hp he)

theorem post_listDelete (hr : Rep s.links L) (hp : p ∈ L q)
    (hk : ∀ m, Rep m (upd L q ((L q).erase p)) → Q (s.setLinks m)) : Post Minor Q (s.listDelete p) := by
  obtain ⟨a, b, -, -, hdel, hr'⟩ := hr.delete_mem hp
  unfold listDelete
  rw [hdel]
  exact hk _ hr'

/-- The lists without a process. -/
def without (L : Lists) (p : Slot) : Lists := fun q => (L q).erase p

variable {p' : Slot} {l : List Slot} {k : Cont} {s'' : Kernel} {fuel : ℕ} {pcb : Pcb}

theorem mem_without (hr : Rep s.links L) : p' ∈ without L p q ↔ p' ≠ p ∧ p' ∈ L q := (hr.nodup q).mem_erase_iff

theorem without_eq (hr : Rep s.links L) (hp : p ∈ L q) : without L p = upd L q ((L q).erase p) := by
  funext q'
  by_cases hq : q' = q
  · rw [hq, upd_self, without]
  · rw [upd_of_ne hq, without]
    exact erase_of_not_mem fun hin => hq (hr.disjoint _ _ _ hin hp)

theorem without_free (hp : ∀ q, p ∉ L q) : without L p = L := funext fun q => erase_of_not_mem (hp q)

theorem post_listDestruct (hr : Rep s.links L) (hk : ∀ m, Rep m (without L p) → Q (s.setLinks m)) :
    Post Minor Q (s.listDestruct p) := by
  unfold listDestruct
  by_cases hp : ∃ q, p ∈ L q
  · obtain ⟨q, hp⟩ := hp
    cases he : DList.destruct s.links p with
    | none => trivial
    | some m =>
      refine hk m ?_
      rw [without_eq hr hp]
      exact hr.destruct_mem hp he
  · have hfree : ∀ q, p ∉ L q := fun q hq => hp ⟨q, hq⟩
    rw [hr.destruct_free hfree]
    refine hk _ ?_
    rw [without_free hfree]
    exact hr

/-! ## Status -/

@[simp] theorem status_setPcb_self : (s.setPcb p pcb).status p = pcb.status := by
  show (upd s.pcb p pcb p).status = _
  rw [upd_self]

theorem status_setPcb_ne (h : p' ≠ p) : (s.setPcb p pcb).status p' = s.status p' := by
  show (upd s.pcb p pcb p').status = _
  rw [upd_of_ne h]
  rfl

@[simp] theorem status_setStatus_self (st : Status) : (s.setStatus p st).status p = st :=
  status_setPcb_self

theorem status_setStatus_ne (st : Status) (h : p' ≠ p) :
    (s.setStatus p st).status p' = s.status p' := status_setPcb_ne h

/-- Only the status changes. -/
theorem pcb_setStatus (s : Kernel) (p : Slot) (st : Status) (p' : Slot) :
    (s.setStatus p st).pcb p' = { s.pcb p' with status := (s.setStatus p st).status p' } := by
  by_cases h : p' = p
  · rw [h, status_setStatus_self]
    exact upd_self
  · rw [status_setStatus_ne st h]
    exact upd_of_ne h

@[simp] theorem status_setCont : (s.setCont p k).status p' = s.status p' := by
  by_cases h : p' = p
  · rw [h]
    exact status_setPcb_self
  · exact status_setPcb_ne h

/-- Nothing changes but the control blocks, their nodes and what the
processors run. -/
structure Same (s s' : Kernel) : Prop where
  objects : s'.toObjects = s.toObjects
  relation : s'.relation = s.relation
  process_id : s'.process_id = s.process_id
  time : s'.time = s.time

theorem Same.refl (s : Kernel) : Same s s := ⟨rfl, rfl, rfl, rfl⟩

theorem Same.trans (h : Same s s') (h' : Same s' s'') : Same s s'' :=
  ⟨h'.objects.trans h.objects, h'.relation.trans h.relation, h'.process_id.trans h.process_id,
    h'.time.trans h.time⟩

theorem Same.of_setLinks {m : DList.Mem Queue Slot} (h : Same (s.setLinks m) s') : Same s s' :=
  { h with }

/-! ## Waking -/

/-- **Some processes are woken.** Nothing else changes. -/
structure Wakes (s : Kernel) (L : Lists) (s' : Kernel) (L' : Lists) : Prop where
  same : Same s s'
  current : s'.current = s.current
  rep : Rep s'.links L'
  pcb : ∀ p, s'.pcb p = { s.pcb p with status := s'.status p }
  place : ∀ p, (s'.status p = s.status p ∧ ∀ q, p ∈ L' q ↔ p ∈ L q) ∨
    (s'.status p = .ready ∧ p ∈ L' .ready ∧ ∃ q ≠ .ready, p ∈ L q)

namespace Wakes

theorem refl (hr : Rep s.links L) : Wakes s L s L where
  same := .refl s
  current := rfl
  rep := hr
  pcb _ := rfl
  place _ := .inl ⟨rfl, fun _ => Iff.rfl⟩

variable (h : Wakes s L s' L')
include h

theorem trans {L'' : Lists} (h' : Wakes s' L' s'' L'') : Wakes s L s'' L'' where
  same := h.same.trans h'.same
  current := h'.current.trans h.current
  rep := h'.rep
  pcb p := by rw [h'.pcb p, h.pcb p]
  place p := by
    rcases h.place p with ⟨hst, hmem⟩ | ⟨hst, hmem, hq⟩
    · rcases h'.place p with ⟨hst', hmem'⟩ | ⟨hst', hmem', q, hne, hq⟩
      · exact .inl ⟨hst'.trans hst, fun q => (hmem' q).trans (hmem q)⟩
      · exact .inr ⟨hst', hmem', q, hne, (hmem q).mp hq⟩
    · rcases h'.place p with ⟨hst', hmem'⟩ | ⟨hst', hmem', -⟩
      · exact .inr ⟨hst'.trans hst, (hmem' _).mpr hmem, hq⟩
      · exact .inr ⟨hst', hmem', hq⟩

/-- A queue takes nothing in. -/
theorem mem_of_mem (hq : q ≠ .ready) (hp : p ∈ L' q) : p ∈ L q := by
  rcases h.place p with ⟨-, hmem⟩ | ⟨-, hready, -⟩
  · exact (hmem q).mp hp
  · exact absurd (h.rep.disjoint _ _ _ hp hready) hq

theorem nil_of_nil (hq : q ≠ .ready) (hnil : L q = []) : L' q = [] := by
  refine eq_nil_iff_forall_not_mem.mpr fun p hp => ?_
  have := h.mem_of_mem hq hp
  rw [hnil] at this
  exact not_mem_nil this

theorem free (hp : ∀ q, p ∉ L q) : s'.status p = s.status p ∧ ∀ q, p ∉ L' q := by
  rcases h.place p with ⟨hst, hmem⟩ | ⟨-, -, q, -, hq⟩
  · exact ⟨hst, fun q hq => hp q ((hmem q).mp hq)⟩
  · exact absurd hq (hp q)

end Wakes

/-- One process is woken: what it leaves behind in its queue is `l`. -/
theorem post_wake (hr : Rep s.links (upd L q l)) (hq : q ≠ .ready) (hp : p ∈ L q)
    (hpl : p ∉ l) (hl : ∀ p' ≠ p, p' ∈ l ↔ p' ∈ L q) (hdisj : ∀ q', p ∈ L q' → q' = q)
    (hk : ∀ s', Wakes s L s' (upd (upd L q l) .ready (L .ready ++ [p])) → Q s') : Post Minor Q (s.doUnblock p) := by
  have hfree : ∀ q', p ∉ upd L q l q' := by
    intro q'
    by_cases h : q' = q
    · rw [h, upd_self]
      exact hpl
    · rw [upd_of_ne h]
      exact fun hin => h (hdisj q' hin)
  unfold doUnblock
  refine post_listAppend (s := s.setStatus p .ready) hr hfree fun m hm => hk _ ?_
  rw [upd_of_ne hq.symm] at hm
  refine ⟨⟨rfl, rfl, rfl, rfl⟩, rfl, hm, pcb_setStatus s p .ready, fun p' => ?_⟩
  by_cases h : p' = p
  · subst h
    refine .inr ⟨status_setStatus_self (s := s) .ready, ?_, q, hq, hp⟩
    rw [upd_self]
    simp
  · refine .inl ⟨status_setStatus_ne (s := s) .ready h, fun q' => ?_⟩
    by_cases hready : q' = .ready
    · rw [hready, upd_self]
      simp [h]
    · rw [upd_of_ne hready]
      by_cases hqq : q' = q
      · rw [hqq, upd_self]
        exact hl p' h
      · rw [upd_of_ne hqq]

/-- The lists once a queue has been woken. -/
def moveAll (L : Lists) (q : Queue) : Lists := upd (upd L q []) .ready (L .ready ++ L q)

theorem moveAll_nil (hnil : L q = []) : moveAll L q = L := by
  unfold moveAll
  have : upd L q [] = L := by
    rw [← hnil]
    exact upd_eq_self
  rw [this, hnil, append_nil, upd_eq_self]

theorem moveAll_cons (hq : q ≠ .ready) (hl : L q = p :: l) :
    moveAll (upd (upd L q l) .ready (L .ready ++ [p])) q = moveAll L q := by
  unfold moveAll
  rw [upd_self, upd_of_ne hq, upd_self, upd_comm hq.symm, upd_idem, upd_idem, hl]
  simp

theorem moveAll_self (hq : q ≠ .ready) : moveAll L q q = [] := by
  unfold moveAll
  rw [upd_of_ne hq, upd_self]

theorem moveAll_of_ne {q' : Queue} (hq' : q' ≠ .ready) (hne : q' ≠ q) : moveAll L q q' = L q' := by
  unfold moveAll
  rw [upd_of_ne hq', upd_of_ne hne]

theorem post_unblockFrom (hq : q ≠ .ready) (hr : Rep s.links L)
    (hk : ∀ s', Wakes s L s' (moveAll L q) → Q s') :
    Post Minor Q (unblockFrom q fuel (some (DList.first q (L q))) s) := by
  induction fuel generalizing s L with
  | zero =>
    cases hl : L q with
    | nil =>
      rw [DList.first, unblockFrom, if_pos rfl]
      refine hk s ?_
      rw [moveAll_nil hl]
      exact .refl hr
    | cons p l => trivial
  | succ fuel ih =>
    cases hl : L q with
    | nil =>
      rw [DList.first, unblockFrom, if_pos rfl]
      refine hk s ?_
      rw [moveAll_nil hl]
      exact .refl hr
    | cons p l =>
      have hp : p ∈ L q := by simp [hl]
      have hnext := hr.node_next (show L q = [] ++ p :: l from hl)
      have hnodup := hr.nodup q
      rw [hl, nodup_cons] at hnodup
      rw [DList.first, unblockFrom, post_bind]
      refine post_listDelete hr hp fun m hm => ?_
      rw [hl, erase_cons_head] at hm
      rw [post_bind]
      refine post_wake (s := s.setLinks m) hm hq hp hnodup.1 (fun p' h => ?_)
        (fun q' hq' => hr.disjoint _ _ _ hq' hp) fun s2 hw => ?_
      · simp [hl, h]
      -- the next link was read before, and is the first of what remains
      have hrest : upd (upd L q l) .ready (L .ready ++ [p]) q = l := by rw [upd_of_ne hq, upd_self]
      have hgo := ih (s := s2) hw.rep fun s' hw' => ?_
      · rw [hrest] at hgo
        rw [hnext]
        exact hgo
      · refine hk s' ?_
        rw [moveAll_cons hq hl] at hw'
        exact .trans ⟨hw.same.of_setLinks, hw.current, hw.rep, hw.pcb, hw.place⟩ hw'

/-- **`unblock_list`.** -/
theorem post_unblockList (hr : Rep s.links L) (hq : q ≠ .ready)
    (hk : ∀ s', Wakes s L s' (moveAll L q) → Q s') : Post Minor Q (s.unblockList q) := by
  unfold unblockList
  cases hset : (s.links (.head q)).next with
  | none => trivial
  | some x =>
    rw [← hset, hr.head_next (by rw [hset]; exact Option.some_ne_none x)]
    exact post_unblockFrom hq hr hk

/-- **`list_shift` and `do_unblock`.** -/
theorem post_unblockFirst {R : Bool × Kernel → Prop} (hr : Rep s.links L) (hq : q ≠ .ready)
    (hnone : L q = [] → R (false, s)) (hsome : ∀ p l, L q = p :: l → ∀ s',
      Wakes s L s' (upd (upd L q l) .ready (L .ready ++ [p])) → R (true, s')) : Post Minor R (s.unblockFirst q) := by
  unfold unblockFirst
  cases he : DList.shift s.links q with
  | none => trivial
  | some r =>
    obtain ⟨r, m⟩ := r
    rcases hr.shift_spec he with ⟨hnil, rfl, rfl⟩ | ⟨p, l, hl, rfl, hm⟩
    · exact hnone hnil
    · have hp : p ∈ L q := by simp [hl]
      have hnodup := hr.nodup q
      rw [hl, nodup_cons] at hnodup
      simp only [post_bind]
      refine post_wake (s := s.setLinks m) hm hq hp hnodup.1 (fun p' h => ?_)
        (fun q' hq' => hr.disjoint _ _ _ hq' hp) fun s2 hw => ?_
      · simp [hl, h]
      · exact hsome p l hl s2 ⟨hw.same.of_setLinks, hw.current, hw.rep, hw.pcb, hw.place⟩

/-! ## The sleep queue -/

/-- The time of the process has come. -/
def due (s : Kernel) (p : Slot) : Bool := decide ((s.pcb p).wakeup_time ≤ s.time)

theorem due_setStatus (p p' : Slot) (st : Status) : (s.setStatus p st).due p' = s.due p' := by
  unfold due
  rw [pcb_setStatus]
  rfl

/-- A sleeper whose time has come. -/
def Roused (s : Kernel) (L : Lists) (p : Slot) : Prop := p ∈ L .sleep ∧ s.due p = true

/-- The lists once `check_sleeping` has looked at `l`, the end of the sleep
queue. -/
def rouse (s : Kernel) (L : Lists) (l₁ l : List Slot) : Lists :=
  upd (upd L .sleep (l₁ ++ l.filter fun p => !s.due p)) .ready (L .ready ++ l.filter s.due)

variable {l₁ : List Slot} {next : Slot} {c : Cpu}

theorem rouse_nil (hl : L .sleep = l₁) : s.rouse L l₁ [] = L := by
  unfold rouse
  simp [← hl]

theorem post_checkFrom (hr : Rep s.links L)
    (hl : L .sleep = l₁ ++ l) (hk : ∀ m, Rep m (s.rouse L l₁ l) → Q (s.setLinks m)) :
    Post Minor Q (checkFrom fuel (some (DList.first .sleep l)) s) := by
  induction fuel generalizing s L l₁ l with
  | zero =>
    cases l with
    | nil =>
      rw [rouse_nil (by rw [hl, append_nil])] at hk
      exact hk s.links hr
    | cons p l => trivial
  | succ fuel ih =>
    cases l with
    | nil =>
      rw [rouse_nil (by rw [hl, append_nil])] at hk
      exact hk s.links hr
    | cons p l =>
      have hp : p ∈ L .sleep := by simp [hl]
      have hnext := hr.node_next hl
      have hnodup := hr.nodup .sleep
      rw [hl, nodup_append] at hnodup
      have hpl1 : p ∉ l₁ := fun hin => hnodup.2.2 p hin p (by simp) rfl
      have herase : (L .sleep).erase p = l₁ ++ l := by rw [hl, erase_append_right _ hpl1, erase_cons_head]
      rw [DList.first, checkFrom]
      refine .ite (fun hdue => ?_) fun hdue => ?_
      · -- it is moved, with the status it has
        have hd : s.due p = true := decide_eq_true hdue
        rw [post_bind]
        refine post_listDelete hr hp fun m hm => ?_
        rw [herase] at hm
        rw [post_bind]
        refine post_listAppend (s := s.setLinks m) hm (fun q hin => ?_) fun m' hm' => ?_
        · by_cases hq : q = .sleep
          · rw [hq, upd_self, mem_append] at hin
            exact hin.elim hpl1 (nodup_cons.mp hnodup.2.1).1
          · rw [upd_of_ne hq] at hin
            exact hq (hr.disjoint _ _ _ hin hp)
        · rw [hnext]
          rw [upd_of_ne (by decide : Queue.ready ≠ .sleep)] at hm'
          have hrest : upd (upd L .sleep (l₁ ++ l)) .ready (L .ready ++ [p]) .sleep = l₁ ++ l := by
            rw [upd_of_ne (by decide : Queue.sleep ≠ .ready), upd_self]
          refine ih (s := s.setLinks m') hm' hrest fun m'' hm'' => ?_
          · refine hk m'' ?_
            have : (s.setLinks m').rouse (upd (upd L .sleep (l₁ ++ l)) .ready
                (L .ready ++ [p])) l₁ l = s.rouse L l₁ (p :: l) := by
              have hdue' : (s.setLinks m').due = s.due := funext fun _ => rfl
              unfold rouse
              rw [hdue', upd_self, upd_comm (by decide : Queue.ready ≠ .sleep), upd_idem, upd_idem]
              simp [hd]
            exact this ▸ hm''
      · have hd : s.due p = false := decide_eq_false hdue
        rw [hnext]
        have hrest : L .sleep = (l₁ ++ [p]) ++ l := by
          rw [hl]
          simp
        refine ih hr hrest fun m hm => hk m ?_
        have : s.rouse L (l₁ ++ [p]) l = s.rouse L l₁ (p :: l) := by simp [rouse, hd]
        exact this ▸ hm

/-- **`check_sleeping`.** A process stays where it is, or its time has come and it is moved
from the sleep queue to the ready queue. -/
theorem post_checkSleeping (hr : Rep s.links L) (hk : ∀ m L', Rep m L' → (∀ q, q ≠ .ready → q ≠ .sleep → L' q = L q) →
      (∀ p, (∀ q, p ∈ L' q ↔ p ∈ L q) ∨ Roused s L p ∧ p ∈ L' .ready) →
      Q (s.setLinks m)) : Post Minor Q s.checkSleeping := by
  unfold checkSleeping
  cases hset : (s.links (.head .sleep)).next with
  | none => trivial
  | some x =>
    rw [← hset, hr.head_next (by rw [hset]; exact Option.some_ne_none x)]
    refine post_checkFrom hr (nil_append _).symm fun m hm => hk m _ hm (fun q h1 h2 => ?_) fun p => ?_
    · rw [rouse, upd_of_ne h1, upd_of_ne h2]
    · have hready : s.rouse L [] (L .sleep) .ready = L .ready ++ (L .sleep).filter s.due := upd_self
      have hsleep : s.rouse L [] (L .sleep) .sleep = (L .sleep).filter fun p => !s.due p := by
        rw [rouse, upd_of_ne (by decide : Queue.sleep ≠ .ready), upd_self, nil_append]
      by_cases hmoved : Roused s L p
      · refine .inr ⟨hmoved, ?_⟩
        rw [hready, mem_append, mem_filter]
        exact .inr hmoved
      · refine .inl fun q => ?_
        by_cases h1 : q = .ready
        · rw [h1, hready, mem_append, mem_filter]
          exact or_iff_left hmoved
        by_cases h2 : q = .sleep
        · rw [h2, hsleep, mem_filter]
          refine and_iff_left_of_imp fun hin => ?_
          have : ¬ s.due p = true := fun hd => hmoved ⟨hin, hd⟩
          simp [this]
        · rw [rouse, upd_of_ne h1, upd_of_ne h2]

/-! ## The switch -/

/-- There are fewer control blocks than the walks allow for. -/
theorem card_lt_FUEL {X : Finset Slot} : X.card < FUEL := by
  have hcard : Fintype.card Slot = NR_CPUS + NUM_MAX_TASK := by decide
  have := X.card_le_univ
  unfold FUEL
  omega

theorem length_lt_FUEL (h : l.Nodup) : l.length < FUEL := by
  rw [← toFinset_card_of_nodup h]
  exact card_lt_FUEL

/-- **The processor has switched to `next`.** -/
structure Switched (s : Kernel) (L : Lists) (c : Cpu) (k : Cont) (next : Slot) (s' : Kernel)
    (L' : Lists) : Prop where
  same : Same s s'
  current : s'.current = upd s.current c next
  rep : Rep s'.links L'
  pcb : ∀ p, s'.pcb p = { s.pcb p with
    status := s'.status p, cont := if p = s.current c then k else (s.pcb p).cont }
  lists : ∀ q, q ≠ .ready → q ≠ .sleep → L' q = L q
  free : ∀ q, next ∉ L' q
  running : s'.status next = .running
  picked : next ∈ L .ready ∨ next ∈ L .sleep ∨ next = s.current c ∧ s.status next = .running
  place : ∀ p ≠ next,
    (p = s.current c ∧ s.status p = .running ∧ s'.status p = .ready ∧ p ∈ L' .ready) ∨
    (¬ (p = s.current c ∧ s.status p = .running) ∧ s'.status p = s.status p ∧
      ((∀ q, p ∈ L' q ↔ p ∈ L q) ∨ Roused s L p ∧ p ∈ L' .ready))

theorem switchTo_pcb : (s.switchTo c k next).pcb p = { s.pcb p with
      status := (s.switchTo c k next).status p
      cont := if p = s.current c then k else (s.pcb p).cont } := by
  have hst : (s.switchTo c k next).status p = (s.setStatus next .running).status p :=
    status_setCont (s := s.setStatus next .running) (p := s.current c)
  have hcont : (s.switchTo c k next).pcb p =
      { (s.setStatus next .running).pcb p with
        cont := if p = s.current c then k else ((s.setStatus next .running).pcb p).cont } := by
    by_cases h : p = s.current c
    · rw [h, if_pos rfl]
      exact upd_self
    · rw [if_neg h]
      exact upd_of_ne h
  rw [hcont, hst, pcb_setStatus]

theorem status_switchTo :
    (s.switchTo c k next).status p = if p = next then .running else s.status p := by
  have hst : (s.switchTo c k next).status p = (s.setStatus next .running).status p :=
    status_setCont (s := s.setStatus next .running) (p := s.current c)
  rw [hst]
  by_cases h : p = next
  · rw [h, if_pos rfl, status_setStatus_self]
  · rw [if_neg h, status_setStatus_ne _ h]

/-- A running process goes to the end of the ready queue. -/
theorem post_requeue (hr : Rep s.links L) (hfree : s.status p = .running → ∀ q, p ∉ L q)
    (hk : ∀ s' L', Same s s' → s'.current = s.current → Rep s'.links L' →
      (∀ p, s'.pcb p = { s.pcb p with status := s'.status p }) → (∀ q, q ≠ .ready → L' q = L q) →
      (∀ p', p' = p ∧ s.status p = .running ∧ s'.status p = .ready ∧ p ∈ L' .ready ∨
        ¬ (p' = p ∧ s.status p = .running) ∧ s'.status p' = s.status p' ∧ ∀ q, p' ∈ L' q ↔ p' ∈ L q) → Q s') :
    Post Minor Q (s.requeue p) := by
  unfold requeue
  refine .ite (fun hrun => ?_) fun hrun => ?_
  · refine post_listAppend (s := s.setStatus p .ready) hr (hfree hrun) fun m hm => ?_
    refine hk _ _ ⟨rfl, rfl, rfl, rfl⟩ rfl hm (pcb_setStatus s p .ready) (fun q hq => upd_of_ne hq) fun p' => ?_
    by_cases h : p' = p
    · subst h
      refine .inl ⟨rfl, hrun, status_setStatus_self (s := s) _, ?_⟩
      rw [upd_self]
      simp
    · refine .inr ⟨fun hh => h hh.1, status_setStatus_ne (s := s) _ h, fun q => ?_⟩
      by_cases hq : q = .ready
      · rw [hq, upd_self]
        simp [h]
      · rw [upd_of_ne hq]
  · exact hk s L (.refl s) rfl hr (fun _ => rfl) (fun _ _ => rfl) fun p' =>
      .inr ⟨fun hh => hrun hh.2, rfl, fun _ => Iff.rfl⟩

/-- **`do_scheduler`.** -/
theorem post_doScheduler (hr : Rep s.links L)
    (hfree : s.status (s.current c) = .running → ∀ q, s.current c ∉ L q)
    (hk : ∀ s' L', Switched s L c k next s' L' → Q s') : Post Minor Q (s.doScheduler c k next) := by
  unfold doScheduler
  rw [post_bind]
  refine post_checkSleeping hr fun m1 L1 hr1 hlists1 hplace1 => ?_
  rw [post_bind]
  have hfree1 : s.status (s.current c) = .running → ∀ q, s.current c ∉ L1 q := by
    intro hrun q hin
    rcases hplace1 (s.current c) with hmem | ⟨hsleep, -⟩
    · exact hfree hrun q ((hmem q).mp hin)
    · exact hfree hrun _ hsleep.1
  refine post_requeue (s := s.setLinks m1) hr1 hfree1
    fun s2 L2 hsame2 hcur hr2 hpcb2 hlists2 hplace2 => ?_
  cases hnodes : DList.nodesFrom s2.links .ready FUEL (s2.links (.head .ready)).next with
  | none => trivial
  | some l =>
    have hl : l = L2 .ready := by
      have hset : (s2.links (.head .ready)).next ≠ none := by
        intro hnull
        rw [hnull] at hnodes
        exact nomatch hnodes
      rw [hr2.nodesFrom_eq hset (length_lt_FUEL (hr2.nodup _))] at hnodes
      exact (Option.some.inj hnodes).symm
    refine .ite (fun hin => ?_) fun _ => trivial
    rw [hl] at hin
    rw [post_bind]
    refine post_listDelete hr2 hin fun m3 hr3 => ?_
    -- membership for every process but the one switched to
    have hmem3 : ∀ p ≠ next, ∀ q, p ∈ upd L2 .ready ((L2 .ready).erase next) q ↔ p ∈ L2 q := by
      intro p hp q
      by_cases hq : q = .ready
      · rw [hq, upd_self]
        exact mem_erase_of_ne hp
      · rw [upd_of_ne hq]
    refine hk _ _ ⟨{ hsame2 with }, congrArg (upd · c next) hcur, hr3, fun p => ?_,
      fun q h1 h2 => ?_, fun q => ?_, ?_, ?_, fun p hp => ?_⟩
    · have hp : (s2.setLinks m3).pcb p = { s.pcb p with status := s2.status p } := hpcb2 p
      have hc : (s2.setLinks m3).current = s.current := hcur
      rw [switchTo_pcb, hp, hc]
    · rw [upd_of_ne h1, hlists2 q h1, hlists1 q h1 h2]
    · by_cases hq : q = .ready
      · rw [hq, upd_self]
        exact (hr2.nodup _).not_mem_erase
      · rw [upd_of_ne hq]
        exact fun hin' => hq (hr2.disjoint _ _ _ hin' hin)
    · rw [status_switchTo, if_pos rfl]
    · rcases hplace2 next with ⟨he, hrun, -⟩ | ⟨-, -, hmem⟩
      · exact .inr (.inr ⟨he, he ▸ hrun⟩)
      · rcases hplace1 next with hmem1 | ⟨hsleep, -⟩
        · exact .inl ((hmem1 _).mp ((hmem _).mp hin))
        · exact .inr (.inl hsleep.1)
    · have hst : ((s2.setLinks m3).switchTo c k next).status p = s2.status p := by
        rw [status_switchTo, if_neg hp]
        rfl
      rcases hplace2 p with ⟨he, hrun, hready, hp2⟩ | ⟨hnot, hsame, hmem⟩
      · refine .inl ⟨he, he ▸ hrun, hst.trans (he ▸ hready), ?_⟩
        exact (hmem3 p hp _).mpr (he ▸ hp2)
      · refine .inr ⟨fun hh => hnot ⟨hh.1, hh.1 ▸ hh.2⟩, hst.trans hsame, ?_⟩
        rcases hplace1 p with hmem1 | ⟨hsleep, hready⟩
        · exact .inl fun q => (hmem3 p hp q).trans ((hmem q).trans (hmem1 q))
        · exact .inr ⟨hsleep, (hmem3 p hp _).mpr ((hmem _).mpr hready)⟩

/-- **`do_block`** of a process that is not blocked. -/
theorem post_doBlock (hr : Rep s.links L) (hst : s.status p ≠ .blocked) (hfree : ∀ q, p ∉ L q)
    (hk : ∀ m, Rep m (upd L q (L q ++ [p])) →
      Q ((s.setStatus p .blocked).setLinks m)) : Post Minor Q (s.doBlock p q) := by
  unfold doBlock
  rw [if_neg hst, if_neg (by rw [hr.free p hfree]; simp [DList.Links.null])]
  exact post_listAppend (s := s.setStatus p .blocked) hr hfree hk

end Kernel

end OsLab.Sched
