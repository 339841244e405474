import OsLab.Sched.Teardown
/-!
# Mutexes of the kernel

Who has taken a mutex and not given it up since finds it taken, with its
own pid, and nobody else has (`Exclusive`). There are four ways in which
the kernel takes a mutex from its owner, and careful runs without them keep
this:

* `do_condition_wait` releases the mutex it is called with, whoever has it;
* on a condition that nobody refers to it returns at once, without taking
  the mutex;
* `do_mutex_lock_init` allocates a mutex that nobody refers to. It may be
  taken, as taking it does not make a reference;
* the exit of the last process that refers to a mutex releases it, whoever
  has it.
-/

namespace OsLab.Sched

open Kernel

/-- **Mutual exclusion.** -/
def Exclusive (s : Kernel) : Prop :=
  ∀ p i, s.owns p i = true → (s.mlocks i).acquired = true ∧ (s.mlocks i).pid = (s.pcb p).pid ∧
    ∀ p', s.owns p' i = true → p' = p

/-- **The steps that take no mutex from its owner.** -/
structure MutexSafe (s : Kernel) (e : Event) : Prop extends Careful s e where
  /-- a process that waits on a condition has the mutex, or nobody has -/
  wait : ∀ p j k ci i, Performs s e p (.condWait j k) → index j = some ci → index k = some i →
    s.cond_ref ci ≠ ∅ → ∀ p', s.owns p' i = true → p' = p
  /-- it has it, if nobody refers to the condition -/
  early : ∀ p j k ci i, Performs s e p (.condWait j k) → index j = some ci → index k = some i →
    s.cond_ref ci = ∅ → (s.mlocks i).acquired = true ∧ (s.mlocks i).pid = (s.pcb p).pid
  /-- nobody has a mutex that is made -/
  unowned : ∀ p key i, Performs s e p (.mutexInit key) → s.mutexAlloc key = some i →
    ∀ p', s.owns p' i = false
  /-- where all fall that refer to a mutex, so does who has it -/
  last : ∀ i p, s.mlock_ref i ≠ ∅ → (∀ x ∈ s.mlock_ref i, Fallen s e x) → s.owns p i = true →
    Fallen s e p

/-- The control block has been used. -/
def Known (s : Kernel) (p : Slot) : Prop := (∃ c, p = .kernel c) ∨ (NR_CPUS : ℤ) ≤ (s.pcb p).pid

/-- **The invariant.** -/
structure MutexInv (s : Kernel) : Prop where
  owner : ∀ p i, s.owns p i = true →
    (s.mlocks i).acquired = true ∧ (s.mlocks i).pid = (s.pcb p).pid
  one : ∀ p p' i, s.owns p i = true → s.owns p' i = true → p = p'
  known : ∀ p i, s.owns p i = true → Known s p

theorem MutexInv.exclusive {s : Kernel} (h : MutexInv s) : Exclusive s := fun p i hp =>
  ⟨(h.owner p i hp).1, (h.owner p i hp).2, fun p' hp' => h.one p' p i hp' hp⟩

variable {s s' s'' : Kernel} {L : Lists} {R : Slot → List Slot} {c : Cpu} {p p' next : Slot} {i : Idx}
  {drops : Slot → List ℕ}

theorem known_congr (hpid : ∀ p, (s'.pcb p).pid = (s.pcb p).pid) : Known s' p ↔ Known s p := by
  unfold Known
  rw [hpid]

/-- Pids tell the processes apart. -/
theorem Known.inj (hp : Known s p) (hp' : Known s p') (h : Pids s) (he : (s.pcb p).pid = (s.pcb p').pid) :
    p = p' := by
  rcases hp with ⟨c, rfl⟩ | hp
  · rcases hp' with ⟨c', rfl⟩ | hp'
    · rw [h.kernel, h.kernel] at he
      rw [Fin.ext (Int.ofNat_inj.mp he)]
    · exact (h.inj p' _ hp' he.symm).symm
  · exact h.inj p p' hp he

/-- What runs has been used. -/
theorem Kernel.Core.known (h : Core s L) (c : Cpu) : Known s (s.current c) := by
  cases hc : s.current c with
  | kernel c' => exact .inl ⟨c', rfl⟩
  | user j => exact .inr (h.tidy.user j (hc ▸ h.current_alive c))

/-- **What keeps the invariant**: pids stay, and who owns a mutex has taken it. -/
theorem MutexInv.change (hpid : ∀ p, (s'.pcb p).pid = (s.pcb p).pid)
    (howns : ∀ p i, s'.owns p i = true →
      ((s'.mlocks i).acquired = true ∧ (s'.mlocks i).pid = (s.pcb p).pid) ∧ Known s p)
    (hone : ∀ p p' i, s'.owns p i = true → s'.owns p' i = true → p = p') : MutexInv s' where
  owner p i hp := by
    rw [hpid]
    exact (howns p i hp).1
  one := hone
  known p i hp := (known_congr hpid).mpr (howns p i hp).2

/-- No mutex that stays owned changes. -/
theorem MutexInv.keep (h : MutexInv s) (hpid : ∀ p, (s'.pcb p).pid = (s.pcb p).pid)
    (howns : ∀ p i, s'.owns p i = true → s.owns p i = true ∧
      (s'.mlocks i).acquired = (s.mlocks i).acquired ∧ (s'.mlocks i).pid = (s.mlocks i).pid) : MutexInv s' := by
  refine .change hpid (fun p i hp => ?_) fun p p' i hp hp' => ?_
  · obtain ⟨ho, ha, hm⟩ := howns p i hp
    rw [ha, hm]
    exact ⟨h.owner p i ho, h.known p i ho⟩
  · exact h.one p p' i (howns p i hp).1 (howns p' i hp').1

/-- One mutex changes that nobody owns. -/
theorem MutexInv.keep_of_ne (h : MutexInv s) (hpcb : s'.pcb = s.pcb) (howns : s'.owns = s.owns)
    (hfree : ∀ p, s.owns p i = false) (hm : ∀ j ≠ i, s'.mlocks j = s.mlocks j) : MutexInv s' := by
  refine h.keep (fun p => by rw [hpcb]) fun p j hp => ?_
  rw [howns] at hp
  rw [hm j fun hj => by rw [hj, hfree] at hp; cases hp]
  exact ⟨hp, rfl, rfl⟩

theorem MutexInv.quiet (h : MutexInv s) (hq : Quiet s s') : MutexInv s' :=
  h.keep hq.pid fun p i hp => by
    rw [hq.owns] at hp
    rw [hq.mlocks]
    exact ⟨hp, rfl, rfl⟩

/-- A free mutex is taken by the process of a processor. -/
theorem MutexInv.take (h : MutexInv s) (hk : Known s (s.current c))
    (hfree : ∀ p', s.owns p' i = true → p' = s.current c)
    (hlock : (s'.mlocks i).acquired = true ∧ (s'.mlocks i).pid = s.curPid c)
    (hother : ∀ j ≠ i, s'.mlocks j = s.mlocks j)
    (howns : s'.owns = upd s.owns (s.current c) (upd (s.owns (s.current c)) i true))
    (hpid : ∀ p, (s'.pcb p).pid = (s.pcb p).pid) : MutexInv s' := by
  have hmine : ∀ p, s'.owns p i = true → p = s.current c := by
    intro p hp
    by_contra hne
    rw [howns, upd_of_ne hne] at hp
    exact hne (hfree p hp)
  have hrest : ∀ p, ∀ j ≠ i, s'.owns p j = s.owns p j := by
    intro p j hj
    rw [howns]
    by_cases hp : p = s.current c
    · rw [hp, upd_self, upd_of_ne hj]
    · rw [upd_of_ne hp]
  refine .change hpid (fun p j hp => ?_) fun p p' j hp hp' => ?_
  · by_cases hj : j = i
    · subst hj
      rw [hmine p hp]
      exact ⟨hlock, hk⟩
    · rw [hrest p j hj] at hp
      rw [hother j hj]
      exact ⟨h.owner p j hp, h.known p j hp⟩
  · by_cases hj : j = i
    · subst hj
      rw [hmine p hp, hmine p' hp']
    · rw [hrest _ j hj] at hp hp'
      exact h.one p p' j hp hp'

/-! ## The end of processes -/

/-- **The end of processes keeps the invariant**, if who has a mutex to which only they refer
is one of them. -/
theorem MutexInv.ends (h : MutexInv s) (hp : Pids s) {l : List Teardown} (hr : Returned l s s')
    (hlast : ∀ i p, s.mlock_ref i ≠ ∅ → (∀ x ∈ s.mlock_ref i, TornDown l x) → s.owns p i = true →
      TornDown l p) : MutexInv s' := by
  refine h.keep hr.pid fun p i hown => ?_
  obtain ⟨ho, hleft⟩ := hr.owns p i hown
  refine ⟨ho, ?_⟩
  rcases hr.lock i with hl | ⟨w, hw, hm⟩ | ⟨hne, hall⟩
  · rw [hl]
    exact ⟨rfl, rfl⟩
  · -- taken with the pid of one that ended: by that one
    obtain ⟨r, hrl, rfl⟩ := List.mem_map.mp hw
    obtain ⟨hlow, hdate⟩ := hr.dated r hrl
    have hsame : p = r.slot := (h.known p i ho).inj (.inr (hdate ▸ hlow)) hp ((h.owner p i ho).2.symm.trans hm)
    exact absurd (hsame ▸ hw) hleft
  · exact absurd (hlast i p hne hall ho) hleft

/-! ## The calls -/

/-- A control block is made anew. -/
theorem MutexInv.construct (h : MutexInv s) : MutexInv (s.constructPcb p) := by
  have hpid : ∀ p' ≠ p, ((s.constructPcb p).pcb p').pid = (s.pcb p').pid := fun p' hp' =>
    congrArg Pcb.pid (upd_of_ne hp')
  have hown : ∀ p' j, (s.constructPcb p).owns p' j = true → p' ≠ p ∧ s.owns p' j = true :=
    fun _ _ => owns_of_upd
  refine ⟨fun p' j hp' => ?_, fun p' p'' j hp' hp'' => ?_, fun p' j hp' => ?_⟩
  · obtain ⟨hne, ho⟩ := hown p' j hp'
    rw [hpid p' hne]
    exact h.owner p' j ho
  · exact h.one p' p'' j (hown p' j hp').2 (hown p'' j hp'').2
  · obtain ⟨hne, ho⟩ := hown p' j hp'
    refine (h.known p' j ho).imp_right fun hlow => ?_
    rw [hpid p' hne]
    exact hlow

theorem MutexInv.exec (h : MutexInv s) : Yields MutexInv (s.doExec c) := by
  unfold doExec
  cases hf : s.allocPcb with
  | none => exact h
  | some p =>
    refine .ite (fun _ => trivial) fun _ => ?_
    refine (quiet_of (c := 0) (quiet_frame.listAppend away_nobody id)).bind fun s2 h2 => ?_
    unfold attachSubprocess
    cases DList.append s2.relation (s2.current c) p with
    | none => trivial
    | some r =>
      have h3 := (h.construct (p := p)).quiet h2
      exact h3.keep (pid_setPcb rfl) fun _ _ hp => ⟨hp, rfl, rfl⟩

section

variable (h : MutexInv s)
include h

theorem MutexInv.init (key : ℤ) (hfree : ∀ i, s.mutexAlloc key = some i → ∀ p, s.owns p i = false) :
    Yields MutexInv (s.doMutexLockInit c key) := by
  refine post_index fun p => .init trivial (fun i _ => ?_) fun i hk hf => ?_
  · exact h.keep (fun _ => rfl) fun _ _ hp => ⟨hp, rfl, rfl⟩
  · exact h.keep_of_ne (i := i) rfl rfl (hfree i (by rw [mutexAlloc, hk, hf]))
      fun j hj => (upd_of_ne hj).trans (upd_of_ne hj)

theorem MutexInv.acquire {k : Cont} (hk : Known s (s.current c)) :
    Yields MutexInv (s.mutexAcquire c k i next) := by
  unfold Kernel.mutexAcquire
  refine .ite (fun hfree => ?_) fun _ =>
    (quiet_of (quiet_frame.block away_nobody id)).mono fun _ hq => h.quiet hq
  refine h.take (c := c) (i := i) hk (fun p hp => ?_) ?_ (fun j hj => upd_of_ne hj) rfl (pid_setPcb rfl)
  · have := (h.owner p i hp).1
    rw [this] at hfree
    exact nomatch hfree
  · show (upd s.mlocks i _ i).acquired = true ∧ (upd s.mlocks i _ i).pid = _
    rw [upd_self]
    exact ⟨rfl, rfl⟩

/-- A mutex that nobody owns is released. -/
theorem MutexInv.release (hfree : ∀ p, s.owns p i = false) : Yields MutexInv (s.mutexRelease i) := by
  have h1 : MutexInv (s.setMlock i { s.mlocks i with acquired := false }) :=
    h.keep_of_ne rfl rfl hfree fun j hj => upd_of_ne hj
  exact quiet_unblockList.mono fun _ hq => h1.quiet hq

/-- A process gives a mutex up. -/
theorem MutexInv.giveUp : MutexInv (s.setOwns p i false) ∧
    ∀ p', (s.setOwns p i false).owns p' i = true → p' ≠ p ∧ s.owns p' i = true := by
  have hown : ∀ p' j, (s.setOwns p i false).owns p' j = true →
      s.owns p' j = true ∧ (j = i → p' ≠ p) := by
    intro p' j hp'
    have hp' : upd s.owns p (upd (s.owns p) i false) p' j = true := hp'
    by_cases he : p' = p
    · rw [he, upd_self] at hp'
      by_cases hj : j = i
      · rw [hj, upd_self] at hp'
        exact nomatch hp'
      · rw [upd_of_ne hj] at hp'
        exact ⟨he ▸ hp', fun h => absurd h hj⟩
    · rw [upd_of_ne he] at hp'
      exact ⟨hp', fun _ => he⟩
  refine ⟨h.keep (fun _ => rfl) fun p' j hp' => ?_, fun p' hp' => ?_⟩
  · exact ⟨(hown p' j hp').1, rfl, rfl⟩
  · exact ⟨(hown p' i hp').2 rfl, (hown p' i hp').1⟩

theorem MutexInv.releaseCall {j : ℤ} (hpids : Pids s) (hk : Known s (s.current c)) :
    Yields MutexInv (s.doMutexLockRelease c j) := by
  refine .index (fun _ => h) fun i _ => ?_
  obtain ⟨h1, hown⟩ := h.giveUp (p := s.current c) (i := i)
  refine .ite (fun _ => h1) fun _ => .ite (fun _ => h1) fun hpid => h1.release fun p => ?_
  -- an owner would have the pid of the caller
  by_contra hp
  obtain ⟨hne, ho⟩ := hown p (Bool.eq_true_of_not_eq_false hp)
  have hmine : (s.mlocks i).pid = (s.pcb (s.current c)).pid := not_not.mp hpid
  exact hne ((h.known p i ho).inj hk hpids ((h.owner p i ho).2.symm.trans hmine))

theorem MutexInv.wait (hpids : Pids s) (hkn : Known s (s.current c)) (j k : ℤ)
    (hwait : ∀ ci i, index j = some ci → index k = some i → s.cond_ref ci ≠ ∅ →
      ∀ p, s.owns p i = true → p = s.current c)
    (hearly : ∀ ci i, index j = some ci → index k = some i → s.cond_ref ci = ∅ →
      (s.mlocks i).acquired = true ∧ (s.mlocks i).pid = s.curPid c) :
    Yields MutexInv (s.doConditionWait c j k next) := by
  unfold doConditionWait
  cases hj : index j with
  | none => exact h
  | some ci =>
    cases hk : index k with
    | none => exact h
    | some i =>
      refine .ite (fun hnil => ?_) fun hlive => ?_
      · have hlock := hearly ci i hj hk hnil
        refine h.take (c := c) (i := i) hkn (fun p hp => ?_) hlock (fun _ _ => rfl) rfl fun _ => rfl
        exact (h.known p i hp).inj hkn hpids ((h.owner p i hp).2.symm.trans hlock.2)
      · obtain ⟨h1, hown⟩ := h.giveUp (p := s.current c) (i := i)
        unfold conditionWait
        refine (quiet_of (c := 0) (quiet_frame.doBlock away_nobody id)).bind fun s2 hq => ?_
        have h2 := h1.quiet hq
        refine (h2.release fun p => ?_).bind fun s3 h3 => ?_
        · by_contra hp
          rw [hq.owns] at hp
          obtain ⟨hne, ho⟩ := hown p (Bool.eq_true_of_not_eq_false hp)
          exact hne (hwait ci i hj hk hlive p ho)
        · exact quiet_doScheduler.mono fun _ h4 => h3.quiet h4

end

/-! ## Steps and runs -/

variable {e : Event}

/-- A call, of which the ends of processes are left out. -/
theorem MutexInv.perform (h : MutexInv s) (hs : Settled s L R) (hg : MutexSafe s e) {call : Call}
    (hcall : Performs s e (s.current c) call) (hends : ∀ l, Returned l s s' → l = s.teardowns e → MutexInv s')
    (hexit : call = .exit → s.exitLog drops c = s.teardowns e)
    (hkill : ∀ pid, call = .kill pid → killLog drops c FUEL s pid = s.teardowns e)
    (hp : s.perform c next drops call = .ok s') : MutexInv s' := by
  have hk := hs.core.known c
  have hcommon : call.Common → MutexInv s' := fun hcall =>
    h.quiet ((quiet_of (quiet_frame.perform away_nobody id hcall)).of_ok hp)
  cases call with
  | exec => exact h.exec.of_ok hp
  | exit => exact hends _ ((returned_doExit hs.core hs.pids).of_ok hp) (hexit rfl)
  | kill pid => exact hends _ (((kills_returned c drops).doKill FUEL s () hs.pids pid).of_ok hp) (hkill pid rfl)
  | mutexInit key => exact (h.init key fun i => hg.unowned _ key i hcall).of_ok hp
  | mutexAcquire j =>
    have hp : s.doMutexLockAcquire c j next = .ok s' := hp
    unfold doMutexLockAcquire at hp
    cases hj : index j with
    | none =>
      rw [hj] at hp
      exact Except.ok.inj hp ▸ h
    | some i =>
      rw [hj] at hp
      exact (h.acquire hk).of_ok hp
  | mutexRelease j => exact (h.releaseCall hs.pids hk).of_ok hp
  | condWait j k =>
    exact (h.wait hs.pids hk j k (fun ci i hj hk => hg.wait _ j k ci i hcall hj hk) fun ci i hj hk =>
      hg.early _ j k ci i hcall hj hk).of_ok hp
  | _ => exact hcommon trivial

theorem MutexInv.proceed (h : MutexInv s) (hk : Known s (s.current c)) (k : Cont) :
    Yields MutexInv (s.proceed c next k) := by
  have hleave : ∀ s1, Quiet s s1 → MutexInv (s1.setCont (s.current c) .user) :=
    fun s1 hq => h.quiet (hq.trans (quiet_setPcb rfl))
  cases k with
  | user => trivial
  | ret => exact hleave s .refl
  | acquire i => exact h.acquire hk
  | rewait i => exact h.acquire hk
  | down i g =>
    refine hleave (s.finishDown i g) ?_
    rw [finishDown_eq]
    exact ⟨rfl, rfl, fun _ => rfl⟩
  | barrier i => exact hleave s .refl

/-- **A step.** -/
theorem MutexInv.step (h : MutexInv s) (hs : Settled s L R) (hg : MutexSafe s e) {L' : Lists}
    (ha : Advance s L e s' L') (he : s.step e = .ok s') : MutexInv s' := by
  have hends : ∀ l, Returned l s s' → l = s.teardowns e → MutexInv s' := by
    rintro l hr rfl
    refine h.ends hs.pids hr fun i p hne hall ho => (ha.tornDown_iff hs).mpr ?_
    exact hg.last i p hne (fun x hx => (ha.tornDown_iff hs).mp (hall x hx)) ho
  cases e with
  | tick d =>
    rw [← Except.ok.inj he]
    exact h.keep (fun _ => rfl) fun _ _ hp => ⟨hp, rfl, rfl⟩
  | enter c call next drops =>
    have he' : (if (s.pcb (s.current c)).cont ≠ .user then .error .busy
      else if s.status (s.current c) = .killed then s.doExit drops c next
      else s.perform c next drops call) = Except.ok s' := he
    split_ifs at he' with hcont hkill
    · refine hends _ ((returned_doExit hs.core hs.pids).of_ok he') ?_
      exact ((if_neg hcont).trans (if_pos hkill)).symm
    · refine h.perform hs hg ⟨c, next, drops, rfl, rfl, hkill⟩ hends (fun hc => ?_) (fun pid hc => ?_) he'
      all_goals
        rw [hc]
        exact ((if_neg hcont).trans (if_neg hkill)).symm
  | resume c next drops =>
    have he' : (if (s.pcb (s.current c)).cont = .user then .error .busy
      else if s.status (s.current c) = .killed then s.doExit drops c next
      else s.proceed c next (s.pcb (s.current c)).cont) = Except.ok s' := he
    split_ifs at he' with hcont hkill
    · refine hends _ ((returned_doExit hs.core hs.pids).of_ok he') ?_
      exact ((if_neg hcont).trans (if_pos hkill)).symm
    · exact (h.proceed (hs.core.known c) _).of_ok he'

/-- **Mutual exclusion** in every state of a run that takes no mutex from
its owner. -/
theorem mutexes_exclude {s : Kernel} (h : Reach MutexSafe s) : Exclusive s := by
  obtain ⟨L, R, -, hinv⟩ := h.induct (P := fun s _ => MutexInv s) (fun _ _ hg => hg.toCareful)
    ⟨fun _ _ hp => (nomatch hp), fun _ _ _ hp => (nomatch hp), fun _ _ hp => (nomatch hp)⟩
    fun _ _ _ _ _ _ hg he hs h ha => h.step hs hg ha he
  exact hinv.exclusive

/-- Enough of `MutexSafe` for a step that waits on no condition. -/
def mutexSafeIf (s : Kernel) (e : Event) : Bool :=
  carefulIf s e &&
  (match e with
    | .enter _ (.condWait _ _) _ _ => false
    | .enter _ (.mutexInit key) _ _ => decide (∀ i, s.mutexAlloc key = some i → ∀ p, s.owns p i = false)
    | _ => true) &&
  decide (∀ i p, s.mlock_ref i ≠ ∅ → s.owns p i = true → ∃ x ∈ s.mlock_ref i, s.sparesIf e 4 x)

theorem mutexSafe_of_mutexSafeIf (hok : mutexSafeIf s e) : MutexSafe s e := by
  unfold mutexSafeIf at hok
  rw [Bool.and_eq_true, Bool.and_eq_true, decide_eq_true_eq] at hok
  obtain ⟨⟨hcareful, hcall⟩, hlast⟩ := hok
  have hwait : ∀ p j k, ¬ Performs s e p (.condWait j k) := by
    rintro p j k ⟨c, next, drops, rfl, -⟩
    exact nomatch hcall
  refine ⟨careful_of_carefulIf hcareful, fun p j k _ _ hp => absurd hp (hwait p j k),
    fun p j k _ _ hp => absurd hp (hwait p j k), fun p key i hp => ?_, fun i p hne hall ho => ?_⟩
  · obtain ⟨c, next, drops, rfl, -⟩ := hp
    exact of_decide_eq_true hcall i
  · obtain ⟨x, hx, hok⟩ := hlast i p hne ho
    exact absurd (hall x hx) (not_fallen_of_sparesIf hok)

/-- One process waits for the mutex of the other, and gets it. A third one refers to the mutex
and is killed. -/
def passMutex : List Event :=
  [.call 0 .exec (.user 0), .call 0 .yield (.user 0), .call 0 .exec (.user 0), .call 0 .exec (.user 0),
    .call 1 .yield (.user 2), .call 1 (.mutexInit 7) (.user 2), .call 1 .yield (.user 1),
    .call 0 (.mutexInit 7) (.user 0), .call 0 (.mutexAcquire 0) (.user 0), .call 0 (.kill 4) (.user 0),
    .call 1 (.mutexAcquire 0) (.kernel 1), .call 0 (.mutexRelease 0) (.user 0), .back 1,
    .call 1 .yield (.user 1), .back 1]

theorem mutexes_exclude_pass : ∃ s, boot.run passMutex = .ok s ∧ Exclusive s := by
  obtain ⟨s, hs, hr⟩ := Reach.of_admits (fun _ _ => mutexSafe_of_mutexSafeIf) .boot
    (show boot.admits mutexSafeIf passMutex by decide +kernel)
  exact ⟨s, hs, mutexes_exclude hr⟩

/-- A process waits on a condition with the mutex of another. -/
def waitWithOther : List Event :=
  pair ++ [.call 0 (.mutexInit 7) (.user 0), .call 0 (.mutexAcquire 0) (.user 0),
    .call 1 (.condInit 3) (.user 1), .call 1 (.condWait 0 0) (.kernel 1)]

/-- A process waits on a condition that there is not. -/
def waitOnNone : List Event :=
  pair ++ [.call 1 (.mutexInit 7) (.user 1), .call 1 (.condWait 0 0) (.kernel 1)]

/-- A mutex that is taken is given out again. -/
def makeTaken : List Event :=
  pair ++ [.call 1 (.mutexInit 7) (.user 1), .call 1 .exit (.kernel 1),
    .call 0 (.mutexAcquire 0) (.user 0), .call 0 (.mutexInit 9) (.user 0)]

/-- The only process that refers to a mutex exits while another has it. -/
def exitLast : List Event :=
  pair ++ [.call 1 (.mutexInit 7) (.user 1), .call 0 (.mutexAcquire 0) (.user 0),
    .call 1 .exit (.kernel 1)]

/-- **The four ways in which a mutex is taken from its owner.** -/
theorem not_exclusive : [waitWithOther, waitOnNone, makeTaken, exitLast].Forall fun es =>
    ∃ s, boot.run es = .ok s ∧ ¬ Exclusive s := by
  refine List.forall_iff_forall_mem.mpr fun es hes => ?_
  have hrun : boot.leadsTo (fun s => decide (∃ p, s.owns p 0 = true ∧ (s.mlocks 0).acquired = false)) es := by
    revert es
    decide +kernel
  obtain ⟨s, hs, p, hp, hfree⟩ := exists_of_leadsTo hrun
  exact ⟨s, hs, fun h => nomatch hfree.symm.trans (h p 0 hp).1⟩

end OsLab.Sched
