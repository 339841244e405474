import OsLab.Sched.Reclaim
/-!
# What the other calls take

A call that ends nobody gives at most one object a reference, to the caller,
and takes at most one mutex, for the caller; an object may be destroyed
(`Touches`). An init call that allocates a semaphore begins with the bit of
the first process of the kernel's in its bitmap.
-/

namespace OsLab.Sched

namespace Kernel

variable {s s' s'' : Kernel} {c : Cpu} {p x next : Slot} {i : Idx} {o : Obj} {g : Option Obj}
  {me : ℤ} {drops : Slot → List ℕ} {L : Lists} {e : Event}

/-- The bitmap to which an init call adds the caller. -/
def base (s : Kernel) (o : Obj) : Finset Slot :=
  if s.ref o = ∅ then
    match o with
    | .sema _ => {.kernel 0}
    | _ => ∅
  else s.ref o

/-- **A call by the process `p` that ends nobody.** -/
structure Touches (g : Option Obj) (p : Slot) (me : ℤ) (s s' : Kernel) : Prop where
  ref : ∀ o, s'.ref o = s.ref o ∨ s'.ref o = ∅ ∨ g = some o ∧ s'.ref o = insert p (s.base o)
  held : ∀ i, (s'.mlocks i).acquired = true →
    (s.mlocks i).acquired = true ∧ (s'.mlocks i).pid = (s.mlocks i).pid ∨ (s'.mlocks i).pid = me

namespace Touches

/-- Nothing changes but the value of an object. -/
theorem value (href : s'.ref = s.ref) (hm : s'.mlocks = s.mlocks) : Touches g p me s s' where
  ref o := .inl (by rw [href])
  held i hi := by
    rw [hm] at hi ⊢
    exact .inl ⟨hi, rfl⟩

theorem ref_still (h : Still s s') : s'.ref = s.ref := funext fun o => by
  unfold Kernel.ref
  rw [h.objects]

theorem of_still (h : Still s s') : Touches g p me s s' := .value (ref_still h) (by rw [h.objects])

theorem keep (h : Touches g p me s s') (href : s''.ref = s'.ref) (hm : s''.mlocks = s'.mlocks) :
    Touches g p me s s'' where
  ref o := by
    rw [href]
    exact h.ref o
  held i hi := by
    rw [hm] at hi ⊢
    exact h.held i hi

theorem still (h : Touches g p me s s') (h' : Still s' s'') : Touches g p me s s'' :=
  h.keep (ref_still h') (by rw [h'.objects])

theorem after (href : s'.ref = s.ref) (hm : s'.mlocks = s.mlocks) (h : Touches g p me s' s'') :
    Touches g p me s s'' where
  ref o := by
    have hr := h.ref o
    unfold base at hr ⊢
    rwa [href] at hr
  held i hi := by
    have hh := h.held i hi
    rwa [hm] at hh

/-- An object is destroyed. -/
theorem destroy (href : ∀ o', s'.ref o' = if o' = o then ∅ else s.ref o') (hm : s'.mlocks = s.mlocks) :
    Touches g p me s s' where
  ref o' := by
    rw [href]
    split_ifs with ho
    · exact .inr (.inl rfl)
    · exact .inl rfl
  held i hi := by
    rw [hm] at hi ⊢
    exact .inl ⟨hi, rfl⟩

/-- An object is given a reference. A mutex is free then, if it is made. -/
theorem give {r : Finset Slot} (hr : r = s.base o)
    (href : ∀ o', s'.ref o' = if o' = o then insert p r else s.ref o')
    (hm : ∀ i, (s'.mlocks i).acquired = true → s'.mlocks i = s.mlocks i) : Touches (some o) p me s s' where
  ref o' := by
    rw [href]
    split_ifs with ho
    · rw [ho, hr]
      exact .inr (.inr ⟨rfl, rfl⟩)
    · exact .inl rfl
  held i hi := by
    have hsame := hm i hi
    rw [hsame] at hi
    exact .inl ⟨hi, congrArg Mutex.pid hsame⟩

/-- A mutex is given up or taken by the caller. -/
theorem mutex {m : Mutex} (hm : m.acquired = true → m.pid = me) : Touches g p me s (s.setMlock i m) where
  ref o := .inl (by cases o <;> rfl)
  held j hj := by
    by_cases hji : j = i
    · rw [hji] at hj ⊢
      have hself : (s.setMlock i m).mlocks i = m := upd_self
      rw [hself] at hj ⊢
      exact .inr (hm hj)
    · have hsame : (s.setMlock i m).mlocks j = s.mlocks j := upd_of_ne hji
      rw [hsame] at hj ⊢
      exact .inl ⟨hj, rfl⟩

end Touches

theorem base_of_ne (h : s.ref o ≠ ∅) : s.base o = s.ref o := if_neg h

/-- Only a semaphore begins with a bit. -/
theorem base_eq (h : ∀ i, o ≠ .sema i) : s.base o = s.ref o := by
  by_cases hr : s.ref o = ∅
  · unfold base
    rw [if_pos hr, hr]
    cases o with
    | sema i => exact absurd rfl (h i)
    | _ => rfl
  · exact base_of_ne hr

/-! ## The init calls -/

section

variable (hf : ∀ x, s.findPcb (s.curPid c) = some x → x = p)
include hf

/-- The caller's index is its own. -/
theorem post_own {f : Slot → Res} {Q : Kernel → Prop}
    (h : Yields Q (f p)) : Yields Q (s.getPcbIndex (s.curPid c) >>= f) := by
  unfold getPcbIndex
  cases hx : s.findPcb (s.curPid c) with
  | none => trivial
  | some x =>
    obtain rfl := hf x hx
    exact h

theorem touches_doMutexLockInit (key : ℤ) :
    Yields (Touches (s.gives (.mutexInit key)) p me s) (s.doMutexLockInit c key) := by
  refine post_own hf (.init trivial (fun i hk => ?_) fun i hk hi => ?_)
  · rw [show s.gives (.mutexInit key) = some (.mutex i) by simp [gives, hk]]
    exact .give (base_eq (o := .mutex i) nofun).symm (fun _ => ref_setMlockRef) fun _ _ => rfl
  · rw [show s.gives (.mutexInit key) = some (.mutex i) by simp [gives, hk, hi]]
    refine .give (base_eq (o := .mutex i) nofun).symm (fun _ => ref_setMlockRef) fun j hj => ?_
    -- the mutex that is made is free
    obtain hji | rfl := ne_or_eq j i
    · exact (upd_of_ne hji).trans (upd_of_ne hji)
    · simp [mutexInit, setMlock, setMlockRef, setLinks] at hj

theorem touches_doConditionInit (key : ℤ) :
    Yields (Touches (s.gives (.condInit key)) p me s) (s.doConditionInit c key) := by
  refine .init trivial (fun i hk => ?_) fun i hk hi => ?_
  · rw [show s.gives (.condInit key) = some (.cond i) by simp [gives, hk]]
    exact post_own hf (.give (base_eq (o := .cond i) nofun).symm (fun _ => ref_setCondRef) fun _ _ => rfl)
  · rw [show s.gives (.condInit key) = some (.cond i) by simp [gives, hk, hi]]
    exact post_own hf (.give (base_eq (o := .cond i) nofun).symm (fun _ => ref_setCondRef) fun _ _ => rfl)

theorem touches_doBarrierInit (key goal : ℤ) :
    Yields (Touches (s.gives (.barrierInit key goal)) p me s) (s.doBarrierInit c key goal) := by
  refine post_own hf (.init trivial (fun i hk => ?_) fun i hk hi => ?_)
  · rw [show s.gives (.barrierInit key goal) = some (.barrier i) by simp [gives, hk]]
    exact .give (base_eq (o := .barrier i) nofun).symm (fun _ => ref_setBarrierRef) fun _ _ => rfl
  · rw [show s.gives (.barrierInit key goal) = some (.barrier i) by simp [gives, hk, hi]]
    exact .give (base_eq (o := .barrier i) nofun).symm (fun _ => ref_setBarrierRef) fun _ _ => rfl

theorem touches_doSemaphoreInit (key init : ℤ) :
    Yields (Touches (s.gives (.semaInit key init)) p me s) (s.doSemaphoreInit c key init) := by
  refine .init trivial (fun i hk => ?_) fun i hk hi => ?_
  · rw [show s.gives (.semaInit key init) = some (.sema i) by simp [gives, hk]]
    exact post_own hf (.give (base_of_ne (o := .sema i) (findKey_spec hk)).symm (fun _ => ref_setSemaRef)
      fun _ _ => rfl)
  · rw [show s.gives (.semaInit key init) = some (.sema i) by simp [gives, hk, hi]]
    -- the bit of the kernel's first process is set before the caller's
    have hbase : (s.semaphoreAlloc i key init).sema_ref i = s.base (.sema i) :=
      upd_self.trans (if_pos (findFree_spec hi)).symm
    refine post_own (s := s.semaphoreAlloc i key init) hf (.give hbase (fun o => ?_) fun _ _ => rfl)
    refine ref_setSemaRef.trans ?_
    split_ifs with ho
    · rfl
    · exact (ref_setSemaRef (s := s)).trans (if_neg ho)

/-! ## The other calls -/

end

theorem touches_mutexRelease : Yields (Touches g p me s) (s.mutexRelease i) :=
  still_unblockList.mono fun _ h => (Touches.mutex (m := { s.mlocks i with acquired := false }) nofun).still h

variable {q : Queue} {k : Cont}

theorem still_block : Yields (Still s) (s.doBlock p q) :=
  still_of (c := 0) (still_frame.doBlock away_nobody id)

/-- The caller waits, once a value has changed. -/
theorem touches_block (h : Touches g p me s s') :
    Yields (Touches g p me s) (do (← s'.doBlock x q).doScheduler c k next) := by
  exact still_block.bind fun s1 h1 => still_doScheduler.mono fun s2 h2 => (h.still h1).still h2

theorem touches_mutexAcquire : Yields (Touches g p (s.curPid c) s) (s.mutexAcquire c k i next) := by
  refine .ite (fun _ => ?_) fun _ => touches_block (.value rfl rfl)
  have hset : Touches g p (s.curPid c) s
      (s.setMlock i { s.mlocks i with acquired := true, pid := s.curPid c }) := .mutex fun _ => rfl
  exact hset.keep (funext fun o => by cases o <;> rfl) rfl

theorem ref_setOwns {b : Bool} : (s.setOwns p i b).ref = s.ref := funext fun o => by cases o <;> rfl

theorem touches_doMutexLockRelease (i : ℤ) : Yields (Touches g p me s) (s.doMutexLockRelease c i) := by
  refine .index (fun _ => .value rfl rfl) fun i _ => ?_
  refine .ite (fun _ => .value ref_setOwns rfl) fun _ => .ite (fun _ => .value ref_setOwns rfl) fun _ => ?_
  exact touches_mutexRelease.mono fun _ h => h.after ref_setOwns rfl

theorem touches_doConditionWait (ci mi : ℤ) : Yields (Touches g p me s) (s.doConditionWait c ci mi next) := by
  unfold doConditionWait
  cases index ci with
  | none => exact .value rfl rfl
  | some ci =>
    cases index mi with
    | none => exact .value rfl rfl
    | some mi =>
      refine .ite (fun _ => .value ref_setOwns rfl) fun _ => ?_
      unfold conditionWait
      refine still_block.bind fun s1 h1 => ?_
      have hrel : Yields (Touches g p me s1) (s1.mutexRelease mi) := touches_mutexRelease
      refine hrel.bind fun s2 h2 => still_doScheduler.mono fun s3 h3 => ?_
      exact ((h2.still h3).after (Touches.ref_still h1) (by rw [h1.objects])).after ref_setOwns rfl

theorem touches_doConditionDestroy (j : ℤ) : Yields (Touches g p me s) (s.doConditionDestroy j) := by
  refine .index (fun _ => .value rfl rfl) fun i _ => .ite (fun _ => .value rfl rfl) fun _ => ?_
  exact still_unblockList.mono fun _ h => (Touches.destroy (fun _ => ref_setCondRef) rfl).still h

theorem touches_doBarrierDestroy (j : ℤ) : Yields (Touches g p me s) (s.doBarrierDestroy j) := by
  refine .index (fun _ => .value rfl rfl) fun i _ => .ite (fun _ => .value rfl rfl) fun _ => ?_
  exact still_unblockList.mono fun _ h => (Touches.destroy (fun _ => ref_setBarrierRef) rfl).still h

theorem ref_setSema {v : Sema} : (s.setSema i v).ref = s.ref := funext fun o => by cases o <;> rfl

theorem ref_setBarrier {b : Barrier} : (s.setBarrier i b).ref = s.ref := funext fun o => by cases o <;> rfl

theorem touches_doSemaphoreDestroy (j : ℤ) : Yields (Touches g p me s) (s.doSemaphoreDestroy j) := by
  refine .index (fun _ => trivial) fun i _ => ?_
  refine .ite (fun _ => .value rfl rfl) fun _ => still_unblockList.mono fun _ h => ?_
  exact ((Touches.destroy (fun _ => ref_setSemaRef) rfl).keep ref_setSema rfl).still h

theorem touches_doSemaphoreDown (j : ℤ) : Yields (Touches g p me s) (s.doSemaphoreDown c j next) := by
  refine .index (fun _ => .value rfl rfl) fun i _ => ?_
  refine .ite (fun _ => .value rfl rfl) fun _ => .ite (fun _ => ?_) fun _ => .value ref_setSema rfl
  exact touches_block (.value ref_setSema rfl)

theorem still_unblockFirst : Yields (fun r => Still s r.2) (s.unblockFirst q) :=
  (still_frame.unblockFirst (c := 0) away_nobody).mono fun _ h => h.kept

theorem touches_doSemaphoreUp (j : ℤ) : Yields (Touches g p me s) (s.doSemaphoreUp j) := by
  refine .index (fun _ => .value rfl rfl) fun i _ => ?_
  refine .ite (fun _ => .value rfl rfl) fun _ => .ite (fun _ => ?_) fun _ => .value ref_setSema rfl
  refine still_unblockFirst.bind fun r h => .ite (fun _ => ?_) fun _ => trivial
  exact (Touches.value ref_setSema rfl).still h

theorem touches_doBarrierWait (j : ℤ) : Yields (Touches g p me s) (s.doBarrierWait c j next) := by
  refine .index (fun _ => .value rfl rfl) fun i _ => ?_
  refine .ite (fun _ => .value rfl rfl) fun _ => .ite (fun _ => trivial) fun _ => .ite (fun _ => ?_) fun _ => ?_
  · exact touches_block (.value ref_setBarrier rfl)
  · exact still_unblockList.mono fun _ h => (Touches.value ref_setBarrier rfl).still h

/-- A part of the kernel that leaves the objects alone. -/
theorem touches_still {r : Res} (h : Framed Nobody Still c s r) : Yields (Touches g p me s) r :=
  h.mono fun _ h => .of_still h.kept

/-- **The calls other than those that make and end processes.** -/
theorem touches_perform (hf : ∀ x, s.findPcb (s.curPid c) = some x → x = p) {call : Call}
    (hexec : call ≠ .exec) (hexit : call ≠ .exit) (hkill : ∀ pid, call ≠ .kill pid) :
    Yields (Touches (s.gives call) p (s.curPid c) s) (s.perform c next drops call) := by
  have haway := away_nobody (s := s)
  cases call with
  | exec => exact absurd rfl hexec
  | exit => exact absurd rfl hexit
  | kill pid => exact absurd rfl (hkill pid)
  | mutexInit key => exact touches_doMutexLockInit hf key
  | condInit key => exact touches_doConditionInit hf key
  | semaInit key init => exact touches_doSemaphoreInit hf key init
  | barrierInit key goal => exact touches_doBarrierInit hf key goal
  | yield => exact touches_still (still_frame.doScheduler haway id)
  | sleep t => exact touches_still (still_frame.doSleep haway id)
  | waitpid pid => exact touches_still (still_frame.doWaitpid haway id)
  | mutexAcquire j =>
    show Post _ _ (s.doMutexLockAcquire c j next)
    exact .index (fun _ => .value rfl rfl) fun i _ => touches_mutexAcquire
  | mutexRelease j => exact touches_doMutexLockRelease j
  | condWait ci mi => exact touches_doConditionWait ci mi
  | condSignal j =>
    show Post _ _ (s.doConditionSignal j)
    exact .index (fun _ => .value rfl rfl) fun i _ => .ite (fun _ => .value rfl rfl) fun _ =>
      touches_still (c := 0) (still_frame.signal haway)
  | condBroadcast j =>
    show Post _ _ (s.doConditionBroadcast j)
    exact .index (fun _ => .value rfl rfl) fun i _ => .ite (fun _ => .value rfl rfl) fun _ =>
      touches_still (c := 0) (still_frame.unblockList haway)
  | condDestroy j => exact touches_doConditionDestroy j
  | semaDown j => exact touches_doSemaphoreDown j
  | semaUp j => exact touches_doSemaphoreUp j
  | semaDestroy j => exact touches_doSemaphoreDestroy j
  | barrierWait j => exact touches_doBarrierWait j
  | barrierDestroy j => exact touches_doBarrierDestroy j
  | block k => exact touches_block (.value rfl rfl)
  | wake k => exact touches_still (c := 0) (still_frame.unblockList haway)
  | signal k => exact touches_still (c := 0) (still_frame.signal haway)

/-- What a process does that was switched to. -/
theorem touches_proceed : Yields (Touches none p (s.curPid c) s) (s.proceed c next k) := by
  have hleave : ∀ {s1 : Kernel}, s1.ref = s.ref → s1.mlocks = s.mlocks →
      Touches none p (s.curPid c) s (s1.setCont (s.current c) .user) := fun href hm =>
    (Touches.value href hm).keep (funext fun o => by cases o <;> rfl) rfl
  cases k with
  | user => trivial
  | ret => exact hleave rfl rfl
  | acquire i => exact touches_mutexAcquire
  | rewait i => exact touches_mutexAcquire
  | down i gen =>
    refine hleave ?_ ?_ <;> rw [finishDown_eq]
    exact funext fun o => by cases o <;> rfl
  | barrier i => exact hleave rfl rfl

/-! ## A step -/

/-- The object that a step gives a reference. -/
def given (s : Kernel) : Event → Option Obj
  | .enter c call _ _ => if s.status (s.current c) = .killed then none else s.gives call
  | _ => none

/-- **What a step does to references, mutexes and pids.** -/
structure Turn (s : Kernel) (e : Event) (s' : Kernel) : Prop where
  ref : ∀ o, (∀ x, x ∈ s'.ref o ↔ x ∈ s.ref o ∧ ¬ TornDown (s.teardowns e) x) ∨ s'.ref o = ∅ ∨
    ∃ c, e.cpu = some c ∧ s.teardowns e = [] ∧ s.given e = some o ∧
      s'.ref o = insert (s.current c) (s.base o)
  held : ∀ i, (s'.mlocks i).acquired = true →
    ((s.mlocks i).acquired = true ∧ (s'.mlocks i).pid = (s.mlocks i).pid ∧
      (s.mlock_ref i ≠ ∅ → ∀ x, TornDown (s.teardowns e) x → (s.mlocks i).pid ≠ (s.pcb x).pid)) ∨
    ∃ c, e.cpu = some c ∧ s.teardowns e = [] ∧ (s'.mlocks i).pid = s.curPid c
  pids : Pids s'
  pid : ∀ x, s.status x ≠ .exited → (s'.pcb x).pid = (s.pcb x).pid
  fresh : ∀ x, s'.status x ≠ .exited → s.status x = .exited → (s'.pcb x).pid = s.process_id
  process_id : s.process_id ≤ s'.process_id
  gone : ∀ x, TornDown (s.teardowns e) x → s'.status x = .exited
  ended : ∀ x, s'.status x = .exited → s.status x = .exited ∨ TornDown (s.teardowns e) x
  dated : ∀ r ∈ s.teardowns e, (NR_CPUS : ℤ) ≤ r.pid ∧ r.pid = (s.pcb r.slot).pid

/-- A step that ends processes, or nobody. -/
theorem Turn.returned (h : Returned (s.teardowns e) s s') (hp : Pids s)
    (hgone : ∀ x, s'.status x = .exited ↔ s.status x = .exited ∨ TornDown (s.teardowns e) x) : Turn s e s' where
  ref o := .inl fun x => ⟨h.ref o x, fun hx => (h.kept o x hx.1).resolve_right hx.2⟩
  held i hi := by
    obtain ⟨ha, hpid, hr⟩ := h.held i hi
    exact .inl ⟨ha, hpid, fun hne => (hr hne).2⟩
  pids := hp.congr h.pid h.process_id
  pid x _ := h.pid x
  fresh x hx he := absurd ((hgone x).mpr (.inl he)) hx
  process_id := h.process_id.ge
  gone x hx := (hgone x).mpr (.inr hx)
  ended x hx := (hgone x).mp hx
  dated := h.dated

/-- A step in which the process of a processor makes a call, or goes on. -/
theorem Turn.called (h : Core s L) (hp : Pids s) (hcpu : e.cpu = some c) (hno : s.teardowns e = [])
    (hk : Kin (Unlisted L (s.current c)) s s') (ht : Touches (s.given e) (s.current c) (s.curPid c) s s') :
    Turn s e s' := by
  have hexit := hk.exited fun p => h.unlisted_of_exited (c := c)
  have hnobody : ∀ x, ¬ TornDown (s.teardowns e) x := fun x hx => by
    rw [hno] at hx
    exact List.not_mem_nil hx
  refine ⟨fun o => ?_, fun i hi => ?_, hp.congr hk.pid hk.process_id, fun x _ => hk.pid x,
    fun x hx he => absurd ((hexit x).mpr he) hx, hk.process_id.ge, fun x hx => absurd hx (hnobody x),
    fun x hx => .inl ((hexit x).mp hx), by rw [hno]; nofun⟩
  · rcases ht.ref o with hr | hr | ⟨hg, hr⟩
    · refine .inl fun x => ?_
      rw [hr]
      exact (and_iff_left (hnobody x)).symm
    · exact .inr (.inl hr)
    · exact .inr (.inr ⟨c, hcpu, hno, hg, hr⟩)
  · rcases ht.held i hi with ⟨ha, hpid⟩ | hpid
    · exact .inl ⟨ha, hpid, fun _ x hx => absurd hx (hnobody x)⟩
    · exact .inr ⟨c, hcpu, hno, hpid⟩

/-- What `do_exec` has done: a control block was free and has a new pid, if
anything has changed. -/
structure Born (p : Slot) (s s' : Kernel) : Prop where
  objects : s'.ref = s.ref ∧ s'.mlocks = s.mlocks
  free : s.status p = .exited
  user : ∃ i, p = .user i
  pid : ∀ x, (s'.pcb x).pid = if x = p then s.process_id else (s.pcb x).pid
  status : ∀ x, s'.status x = if x = p then .ready else s.status x
  process_id : s'.process_id = s.process_id + 1

theorem post_doExec_born : Yields (fun s' => s' = s ∨ ∃ p, Born p s s') (s.doExec c) := by
  unfold doExec
  cases hf : s.allocPcb with
  | none => exact .inl rfl
  | some p =>
    obtain ⟨huser, hexit⟩ := allocPcb_spec hf
    refine .ite (fun _ => trivial) fun _ => post_bind.mpr ?_
    unfold listAppend
    cases DList.append (s.constructPcb p).links .ready p with
    | none => trivial
    | some m =>
      show Post _ _ (attachSubprocess ((s.constructPcb p).setLinks m) (s.current c) p)
      unfold attachSubprocess
      cases DList.append ((s.constructPcb p).setLinks m).relation (s.current c) p with
      | none => trivial
      | some r =>
        refine .inr ⟨p, ⟨funext fun o => by cases o <;> rfl, rfl⟩, hexit, huser, fun x => ?_, fun x => ?_, rfl⟩
        · by_cases hx : x = p <;> simp [setParent, setLinks, constructPcb, hx, upd_of_ne]
        · by_cases hx : x = p <;> simp [status, setParent, setLinks, constructPcb, hx, upd_of_ne]

theorem Pids.born (h : Pids s) (hb : Born p s s') : Pids s' := by
  obtain ⟨i, hi⟩ := hb.user
  refine ⟨fun x y hx hxy => ?_, fun c => ?_, fun x => ?_, ?_⟩
  · rw [hb.pid] at hx
    rw [hb.pid, hb.pid] at hxy
    have h1 := h.fresh x
    have h2 := h.fresh y
    split_ifs at hx hxy with hxp hyp hyp
    · rw [hxp, hyp]
    · omega
    · omega
    · exact h.inj x y hx hxy
  · rw [hb.pid, if_neg (by rw [hi]; nofun)]
    exact h.kernel c
  · have := h.fresh x
    rw [hb.pid, hb.process_id]
    split_ifs <;> omega
  · have := h.base
    rw [hb.process_id]
    omega

/-- A step in which a process is made. -/
theorem Turn.born (hp : Pids s) (hno : s.teardowns e = []) (hb : Born p s s') : Turn s e s' := by
  have hnobody : ∀ x, ¬ TornDown (s.teardowns e) x := fun x hx => by
    rw [hno] at hx
    exact List.not_mem_nil hx
  refine ⟨fun o => .inl fun x => ?_, fun i hi => .inl ?_, hp.born hb, fun x hx => ?_, fun x hx he => ?_, ?_,
    fun x hx => absurd hx (hnobody x), fun x hx => .inl ?_, by rw [hno]; nofun⟩
  · rw [hb.objects.1]
    exact (and_iff_left (hnobody x)).symm
  · rw [hb.objects.2] at hi ⊢
    exact ⟨hi, rfl, fun _ x hx => absurd hx (hnobody x)⟩
  · rw [hb.pid, if_neg]
    rintro rfl
    exact hx hb.free
  · rw [hb.status] at hx
    split_ifs at hx with hxp
    · rw [hb.pid, if_pos hxp]
    · exact absurd he hx
  · rw [hb.process_id]
    omega
  · rw [hb.status] at hx
    split_ifs at hx
    exact hx

/-- The caller's index is its own. -/
theorem Core.findPcb_current (h : Core s L) (hp : Pids s) (hx : s.findPcb (s.curPid c) = some x) :
    x = s.current c := by
  have hpid : (s.pcb x).pid = s.curPid c := by
    rcases findPcb_spec hx with ⟨c', rfl, hc⟩ | ⟨i, rfl, hpid, -⟩
    · exact (hp.kernel c').trans hc.symm
    · exact hpid
  by_cases hlow : (NR_CPUS : ℤ) ≤ s.curPid c
  · exact (hp.inj (s.current c) x hlow hpid.symm).symm
  -- below that there are only the processes of the kernel
  have hker : ∀ y, s.status y ≠ .exited → (s.pcb y).pid = s.curPid c → ∃ c', y = .kernel c' := by
    intro y hy hyp
    cases y with
    | kernel c' => exact ⟨c', rfl⟩
    | user i => exact absurd (hyp ▸ h.tidy.user i hy) hlow
  obtain ⟨c1, rfl⟩ := hker x (h.tidy.findPcb_alive hx) hpid
  obtain ⟨c2, hc2⟩ := hker (s.current c) (h.current_alive c) rfl
  unfold curPid at hpid
  rw [hc2, hp.kernel, hp.kernel] at hpid
  rw [hc2, Fin.ext (Int.ofNat_inj.mp hpid)]

/-- **A step.** -/
theorem post_turn (h : Core s L) (hp : Pids s) : Yields (Turn s e) (s.step e) := by
  have hexit : ∀ {c next drops}, s.teardowns e = s.exitLog drops c →
      Yields (Turn s e) (s.doExit drops c next) := by
    intro c next drops hlog
    refine ((returned_doExit h hp).and (post_exit h)).mono fun s' ⟨hret, s1, L1, L', hr, _, hs⟩ => ?_
    rw [← hlog] at hret hr
    exact .returned hret hp fun x => (hs.exited hr.loose x).trans (hr.exited x)
  have haway : ∀ c, Away (Unlisted L (s.current c)) s := fun c => away_unlisted h.rep
  have hown : ∀ c, ¬ Unlisted L (s.current c) (s.current c) := fun c hu => hu.1 rfl
  cases e with
  | tick d =>
    refine .returned (Returned.of_still (.of_pcb rfl rfl rfl)) hp fun x => ?_
    exact (or_iff_left List.not_mem_nil).symm
  | enter c call next drops =>
    refine .ite (fun _ => trivial) fun hcont => .ite (fun hk => hexit ?_) fun hkill => ?_
    · exact (if_neg hcont).trans (if_pos hk)
    have hgiven : s.given (.enter c call next drops) = s.gives call := if_neg hkill
    by_cases hex : call = .exit
    · subst hex
      exact hexit ((if_neg hcont).trans (if_neg hkill))
    by_cases hki : ∃ pid, call = .kill pid
    · obtain ⟨pid, rfl⟩ := hki
      have hlog : s.teardowns (.enter c (.kill pid) next drops) = killLog drops c FUEL s pid :=
        (if_neg hcont).trans (if_neg hkill)
      refine (((kills_returned c drops).doKill FUEL s () hp pid).and
        ((kills_reaped c drops).doKill FUEL s L (h.busy c).loose pid)).mono
        fun s' ⟨hret, L', hr, _⟩ => ?_
      rw [← hlog] at hret hr
      exact .returned hret hp hr.exited
    have hno : s.teardowns (.enter c call next drops) = [] := by
      refine (if_neg hcont).trans ((if_neg hkill).trans ?_)
      cases call with
      | exit => exact absurd rfl hex
      | kill pid => exact absurd ⟨pid, rfl⟩ hki
      | _ => rfl
    by_cases hexec : call = .exec
    · subst hexec
      refine post_doExec_born.mono fun s' hb => ?_
      rcases hb with rfl | ⟨p, hb⟩
      · refine .called h hp rfl hno (kin_frame.refl s') (.value rfl rfl)
      · exact .born hp hno hb
    have hkill' : ∀ pid, call ≠ .kill pid := fun pid he => hki ⟨pid, he⟩
    refine ((kin_frame.perform (haway c) (hown c) hexec hex hkill').and
      (touches_perform (fun x => h.findPcb_current hp) hexec hex hkill')).mono fun s' ⟨hk, ht⟩ => ?_
    exact .called h hp rfl hno hk.kept (hgiven ▸ ht)
  | resume c next drops =>
    refine .ite (fun _ => trivial) fun hcont => .ite (fun hk => hexit ?_) fun hkill => ?_
    · exact (if_neg hcont).trans (if_pos hk)
    refine ((kin_frame.proceed (haway c) (hown c)).and (touches_proceed (p := s.current c))).mono
      fun s' ⟨hk, ht⟩ => ?_
    exact .called h hp rfl ((if_neg hcont).trans (if_neg hkill)) hk.kept ht

end Kernel

end OsLab.Sched
