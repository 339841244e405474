import OsLab.Sched.SyncCalls
/-!
# What most of the kernel leaves alone

The calls other than `do_exec`, `do_exit` and `do_kill` are put together from a few kinds of change:
the status of a process on a list or of the caller, links, objects, and what a processor runs. A
relation that is kept by each of these (`Frame`) is kept by the calls, and by the cleanup functions;
one that does not allow for the objects (`BaseFrame`), by the scheduler and by what blocks and
wakes. This holds of any state, whether or not its lists are in order.

The control blocks `N` are some that no link leads to. Nothing is done to
one of them, as long as the caller is not among them.
-/

namespace OsLab.Sched

open DList (Avoids IsSet KeepsHeads)

/-- The lists of the objects that processes refer to. -/
def Uses (o : Objects) : Queue → Prop
  | .mutex i => o.mlock_ref i ≠ ∅
  | .cond i => o.cond_ref i ≠ ∅
  | .sema i => o.sema_ref i ≠ ∅
  | .barrier i => o.barrier_ref i ≠ ∅
  | _ => False

/-- Which objects are in use, kind by kind. -/
theorem uses_of {o o' : Objects} {X : Queue → Prop} (hm : ∀ i, o'.mlock_ref i ≠ ∅ → o.mlock_ref i ≠ ∅ ∨ X (.mutex i))
    (hc : ∀ i, o'.cond_ref i ≠ ∅ → o.cond_ref i ≠ ∅ ∨ X (.cond i))
    (hs : ∀ i, o'.sema_ref i ≠ ∅ → o.sema_ref i ≠ ∅ ∨ X (.sema i))
    (hb : ∀ i, o'.barrier_ref i ≠ ∅ → o.barrier_ref i ≠ ∅ ∨ X (.barrier i)) (q : Queue)
    (hq : Uses o' q) : Uses o q ∨ X q := by
  cases q with
  | mutex i => exact hm i hq
  | cond i => exact hc i hq
  | sema i => exact hs i hq
  | barrier i => exact hb i hq
  | _ => exact hq.elim

/-- The calls that neither make or end a process nor have to do with
mutexes. -/
def Call.Common : Call → Prop
  | .exec | .exit | .kill _ | .mutexInit _ | .mutexAcquire _ | .mutexRelease _ | .condWait _ _ => False
  | _ => True

variable {r : Finset Slot}

/-- One object is referred to by others than before. -/
theorem ref_upd (ref : Idx → Finset Slot) (X : Idx → Prop) {i j : Idx}
    (hr : r ≠ ∅ → ref i ≠ ∅ ∨ X i) (hj : upd ref i r j ≠ ∅) : ref j ≠ ∅ ∨ X j := by
  by_cases hji : j = i
  · rw [hji] at hj ⊢
    rw [upd_self] at hj
    exact hr hj
  · rw [upd_of_ne hji] at hj
    exact .inl hj

theorem ne_empty_of_erase {p : Slot} (h : r.erase p ≠ ∅) : r ≠ ∅ := by
  rintro rfl
  exact h (Finset.erase_empty p)

namespace Kernel

variable {N : Slot → Prop} {K : Kernel → Kernel → Prop}
variable {s s' : Kernel} {c : Cpu} {q : Queue} {p next : Slot} {i : Idx} {j pid key goal n : ℤ}
  {fuel t gen : ℕ} {k : Cont} {drops : List ℕ} {link : Option (DList.Node Queue Slot)} {call : Call}

/-- No link leads to a control block of `N`. -/
def Away (N : Slot → Prop) (s : Kernel) : Prop := ∀ p, N p → Avoids s.links p

/-- Everything is out of reach of nobody. -/
theorem away_nobody : Away Nobody s := fun _ hp => hp.elim

theorem Away.of_link (h : Away N s) {x : DList.Node Queue Slot}
    (hp : (s.links x).next = some (.node p)) : ¬ N p := fun hn => (h p hn x).1 hp

section

variable (N K)

/-- **A relation that the moves between lists and processors keep.** -/
structure BaseFrame : Prop where
  refl : ∀ s, K s s
  trans : ∀ {s s' s''}, K s s' → K s' s'' → K s s''
  status : ∀ {s p st}, ¬ N p → st ≠ .exited → K s (s.setStatus p st)
  stamp : ∀ {s p t k}, ¬ N p → K s (s.setPcb p { s.pcb p with wakeup_time := t, cont := k })
  links : ∀ {s m}, (∀ p, N p → Avoids m p) → KeepsHeads s.links m → K s (s.setLinks m)
  current : ∀ {s : Kernel} {c next}, ¬ N next → K s { s with current := upd s.current c next }

/-- **A relation that the changes to objects keep as well.** A list comes into
use only once it has been set up. -/
structure Frame : Prop extends BaseFrame N K where
  objects : ∀ {s : Kernel} {o : Objects}, o.mlocks = s.mlocks → o.mlock_ref = s.mlock_ref →
    o.owns = s.owns → (∀ q, Uses o q → Uses s.toObjects q ∨ IsSet s.links q) →
    K s { s with toObjects := o }

/-- A relation that the changes to mutexes keep as well. -/
structure FullFrame : Prop extends Frame N K where
  mutexes : ∀ {s : Kernel} {o : Objects},
    (∀ q, Uses o q → Uses s.toObjects q ∨ IsSet s.links q) → K s { s with toObjects := o }

/-- The relation holds, and `N` is still out of reach. -/
structure Kept (c : Cpu) (s s' : Kernel) : Prop where
  kept : K s s'
  away : Away N s'
  own : ¬ N (s.current c) → ¬ N (s'.current c)

/-- A part of the kernel that keeps the relation, if it does not halt. -/
abbrev Framed (c : Cpu) (s : Kernel) (r : Res) : Prop :=
  Yields (Kept N K c s) r

end

/-- What is done with an index, whatever it is. -/
theorem post_index {Q : Kernel → Prop} {f : Slot → Res} (hf : ∀ p, Yields Q (f p)) :
    Yields Q (s.getPcbIndex pid >>= f) := by
  unfold getPcbIndex
  cases s.findPcb pid with
  | none => trivial
  | some p => exact hf p

namespace BaseFrame

variable (F : BaseFrame N K) {s'' : Kernel}

include F

/-! ## Putting parts together -/

theorem same (h : Away N s) : Kept N K c s s := ⟨F.refl s, h, id⟩

theorem seq (h : Kept N K c s s') (h' : Kept N K c s' s'') : Kept N K c s s'' :=
  ⟨F.trans h.kept h'.kept, h'.away, fun hc => h'.own (h.own hc)⟩

variable {r : Res} {T : Kind}

theorem after (h : Kept N K c s s') (hr : Framed N K c s' r) : Framed N K c s r :=
  hr.mono fun _ h' => F.seq h h'

theorem bind {f : Kernel → Res} (hr : Framed N K c s r)
    (hf : ∀ s1, Kept N K c s s1 → Framed N K c s1 (f s1)) : Framed N K c s (r >>= f) :=
  Post.bind hr fun s1 h1 => F.after h1 (hf s1 h1)

/-- A change, and then a part of the kernel. -/
theorem step (h : Kept N K c s s') (hr : Away N s' → Framed N K c s' r) : Framed N K c s r := F.after h (hr h.away)

/-- A change, and then another. -/
theorem andThen (h : Kept N K c s s') (h' : Away N s' → Kept N K c s' s'') : Kept N K c s s'' :=
  F.seq h (h' h.away)

theorem setStatus {st : Status} (h : Away N s) (hp : ¬ N p) (hst : st ≠ .exited) :
    Kept N K c s (s.setStatus p st) := ⟨F.status hp hst, h, id⟩

theorem setLinks {m : DList.Mem Queue Slot} (hm : ∀ p, N p → Avoids m p)
    (hk : KeepsHeads s.links m) : Kept N K c s (s.setLinks m) := ⟨F.links hm hk, hm, id⟩

/-! ## Lists -/

theorem ofLinks {m : Option (DList.Mem Queue Slot)}
    (hm : ∀ m', m = some m' → (∀ p, N p → Avoids m' p) ∧ KeepsHeads s.links m') : Framed N K c s (s.ofLinks m) := by
  cases m with
  | none => trivial
  | some m => exact F.setLinks (hm m rfl).1 (hm m rfl).2

theorem listAppend (h : Away N s) (hp : ¬ N p) : Framed N K c s (s.listAppend q p) :=
  F.ofLinks fun _ he => ⟨fun p' hp' =>
    (h p' hp').append (fun hpp : p = p' => hp (hpp ▸ hp')) he, .append he⟩

theorem listDelete (h : Away N s) : Framed N K c s (s.listDelete p) :=
  F.ofLinks fun _ he => ⟨fun p' hp' => (h p' hp').delete he, .delete he⟩

theorem listDestruct (h : Away N s) : Framed N K c s (s.listDestruct p) :=
  F.ofLinks fun _ he => ⟨fun p' hp' => (h p' hp').destruct he, .destruct he⟩

theorem doBlock (h : Away N s) (hp : ¬ N p) : Framed N K c s (s.doBlock p q) := by
  unfold Kernel.doBlock
  refine .ite (fun _ => F.same h) fun _ => .ite (fun _ => trivial) fun _ => ?_
  exact F.step (F.setStatus h hp (by nofun)) fun h => F.listAppend h hp

theorem doUnblock (h : Away N s) (hp : ¬ N p) : Framed N K c s (s.doUnblock p) :=
  F.step (F.setStatus h hp (by nofun)) fun h => F.listAppend h hp

theorem unblockFrom (h : Away N s)
    (hl : ∀ p, link = some (.node p) → ¬ N p) : Framed N K c s (unblockFrom q fuel link s) := by
  induction fuel generalizing s link with
  | zero =>
    rcases link with _ | ⟨q' | p⟩
    · trivial
    · exact .ite (fun _ => F.same h) fun _ => trivial
    · trivial
  | succ fuel ih =>
    rcases link with _ | ⟨q' | p⟩
    · trivial
    · exact .ite (fun _ => F.same h) fun _ => trivial
    · have hnext : ∀ p', (s.links (.node p)).next = some (.node p') → ¬ N p' := fun _ => h.of_link
      refine F.bind (F.listDelete h) fun s1 h1 => ?_
      exact F.bind (F.doUnblock h1.away (hl p rfl)) fun s2 h2 => ih h2.away hnext

theorem unblockList (h : Away N s) : Framed N K c s (s.unblockList q) := F.unblockFrom h fun _ => h.of_link

theorem unblockFirst (h : Away N s) : Yields (fun r => Kept N K c s r.2) (s.unblockFirst q) := by
  unfold Kernel.unblockFirst
  cases hs : DList.shift s.links q with
  | none => trivial
  | some r =>
    obtain ⟨r, m⟩ := r
    have hm : ∀ p, N p → Avoids m p := fun p hp => ((h p hp).shift hs).1
    have h1 : Kept N K c s (s.setLinks m) := F.setLinks hm (.shift hs)
    cases r with
    | none => exact h1
    | some p =>
      have hp : ¬ N p := fun hn => ((h p hn).shift hs).2 rfl
      exact Post.bind (F.after h1 (F.doUnblock hm hp)) fun _ => id

/-- Wake the first of a list. -/
theorem signal (h : Away N s) : Framed N K c s (do return (← s.unblockFirst q).2) :=
  (F.unblockFirst h).bind fun _ => id

/-! ## The scheduler -/

theorem checkFrom (h : Away N s)
    (hl : ∀ p, link = some (.node p) → ¬ N p) : Framed N K c s (checkFrom fuel link s) := by
  induction fuel generalizing s link with
  | zero =>
    rcases link with _ | ⟨q' | p⟩
    · trivial
    · exact .ite (fun _ => F.same h) fun _ => trivial
    · trivial
  | succ fuel ih =>
    rcases link with _ | ⟨q' | p⟩
    · trivial
    · exact .ite (fun _ => F.same h) fun _ => trivial
    · have hnext : ∀ p', (s.links (.node p)).next = some (.node p') → ¬ N p' := fun _ => h.of_link
      refine .ite (fun _ => ?_) fun _ => ih h hnext
      refine F.bind (F.listDelete h) fun s1 h1 => ?_
      exact F.bind (F.listAppend h1.away (hl p rfl)) fun s2 h2 => ih h2.away hnext

section

variable (h : Away N s)
include h

theorem requeue (hp : ¬ N p) : Framed N K c s (s.requeue p) := by
  exact .ite (fun _ => F.step (F.setStatus h hp (by nofun)) fun h => F.listAppend h hp) fun _ => F.same h

theorem setCont (hp : ¬ N p) : Kept N K c s (s.setCont p k) := ⟨F.stamp hp, h, id⟩

theorem switchTo (hc : ¬ N (s.current c)) (hn : ¬ N next) : Kept N K c s (s.switchTo c k next) := by
  have h1 := F.andThen (F.setStatus (c := c) (p := next) h hn (by nofun : Status.running ≠ .exited)) fun h =>
    F.setCont (k := k) h hc
  refine F.seq h1 ⟨F.current hn, h1.away, fun _ => ?_⟩
  show ¬ N (upd s.current c next c)
  rw [upd_self]
  exact hn

theorem doScheduler (hc : ¬ N (s.current c)) : Framed N K c s (s.doScheduler c k next) := by
  unfold Kernel.doScheduler
  refine F.bind (F.checkFrom h fun _ => h.of_link) fun s1 h1 => ?_
  have hc1 := h1.own hc
  refine F.bind (F.requeue h1.away hc1) fun s2 h2 => ?_
  cases hl : DList.nodesFrom s2.links .ready FUEL (s2.links (.head .ready)).next with
  | none => trivial
  | some l =>
    refine .ite (fun hin => ?_) fun _ => trivial
    have hn : ¬ N next := fun hn => (h2.away next hn).nodesFrom ((h2.away next hn) _).1 hl hin
    exact F.bind (F.listDelete h2.away) fun s3 h3 => F.switchTo h3.away (h3.own (h2.own hc1)) hn

theorem block (hc : ¬ N (s.current c)) :
    Framed N K c s (do let s ← s.doBlock (s.current c) q; s.doScheduler c k next) :=
  F.bind (F.doBlock h hc) fun _ h1 => F.doScheduler h1.away (h1.own hc)

theorem doSleep (hc : ¬ N (s.current c)) : Framed N K c s (s.doSleep c t next) := by
  exact F.step ⟨F.stamp hc, h, id⟩ fun h => F.block h hc

theorem doWaitpid (hc : ¬ N (s.current c)) : Framed N K c s (s.doWaitpid c pid next) := by
  unfold Kernel.doWaitpid
  cases s.findPcb pid with
  | none => exact F.same h
  | some p =>
    refine F.bind (F.listAppend h hc) fun s1 h1 => ?_
    exact F.step (F.setStatus h1.away (h1.own hc) (by nofun)) fun h => F.doScheduler h (h1.own hc)

/-! ## The objects -/

theorem init : Kept N K c s (s.setLinks (DList.init s.links q)) :=
  F.setLinks (fun p hp => (h p hp).init) .init

end

section

variable (hset : ∀ s i p, Away N s → Kept N K c s (T.setRef s i ((T.ref s i).erase p)))
  (hdestruct : ∀ s i, Away N s → Framed N K c s (T.destruct s i)) (h : Away N s)
include hset hdestruct h

theorem dropRef : Framed N K c s (dropRef T pid s i) := by
  refine post_index fun p => .ite (fun _ => ?_) fun _ => F.same h
  exact .ite (fun _ => F.step (hset s i p h) fun h => hdestruct _ i h) fun _ => hset s i p h

theorem cleanupRefs : Framed N K c s (cleanupRefs T pid s) :=
  Post.foldlM (fun _ _ _ h1 => F.after h1 (F.dropRef hset hdestruct h1.away)) (F.same h)

end

theorem cleanupOthers (h : Away N s) : Framed N K c s (s.cleanupOthers drops) :=
  Post.foldlM (fun _ _ _ h1 => F.after h1 (F.unblockList h1.away)) (F.same h)

end BaseFrame

namespace Frame

variable (F : Frame N K)

include F

theorem setObjects {o : Objects} (h : Away N s) (hm : o.mlocks = s.mlocks)
    (hr : o.mlock_ref = s.mlock_ref) (ho : o.owns = s.owns)
    (hu : ∀ q, Uses o q → Uses s.toObjects q ∨ IsSet s.links q) :
    Kept N K c s { s with toObjects := o } := ⟨F.objects hm hr ho hu, h, id⟩

/-! ## Conditions -/

variable {r : Finset Slot} (h : Away N s)
include h

theorem setCondRef (hr : r ≠ ∅ → s.cond_ref i ≠ ∅ ∨ IsSet s.links (.cond i)) : Kept N K c s (s.setCondRef i r) :=
  F.setObjects h rfl rfl rfl (uses_of (fun _ => .inl)
    (fun _ => ref_upd s.cond_ref (fun i => IsSet s.links (.cond i)) hr) (fun _ => .inl) fun _ => .inl)

theorem cleanupConditions : Framed N K c s (s.cleanupConditions pid) :=
  F.cleanupRefs (fun _ _ _ h => F.setCondRef h fun hr => .inl (ne_empty_of_erase hr))
    (fun _ _ h => F.unblockList h) h

theorem doConditionInit : Framed N K c s (s.doConditionInit c key) := by
  refine .init trivial (fun i hk => post_index fun p => F.setCondRef h fun _ => .inl (findKey_spec hk)) fun i _ _ => ?_
  exact post_index fun p => F.andThen (F.init h) fun h => F.andThen
    (F.setObjects (o := { s.toObjects with cond_key := upd s.cond_key i key }) h rfl rfl rfl fun _ => .inl)
    fun h => F.setCondRef h fun _ => .inr (DList.isSet_init ..)

theorem doConditionBroadcast : Framed N K c s (s.doConditionBroadcast j) := by
  exact .index (fun _ => F.same h) fun i _ => .ite (fun _ => F.same h) fun _ => F.unblockList h

theorem doConditionSignal : Framed N K c s (s.doConditionSignal j) := by
  exact .index (fun _ => F.same h) fun i _ => .ite (fun _ => F.same h) fun _ => F.signal h

theorem doConditionDestroy : Framed N K c s (s.doConditionDestroy j) := by
  refine .index (fun _ => F.same h) fun i _ => .ite (fun _ => F.same h) fun _ => ?_
  exact F.step (F.setCondRef h fun hr => absurd rfl hr) fun h => F.unblockList h

/-! ## Semaphores -/

theorem setSemaRef (hr : r ≠ ∅ → s.sema_ref i ≠ ∅ ∨ IsSet s.links (.sema i)) : Kept N K c s (s.setSemaRef i r) :=
  F.setObjects h rfl rfl rfl (uses_of (fun _ => .inl) (fun _ => .inl)
    (fun _ => ref_upd s.sema_ref (fun i => IsSet s.links (.sema i)) hr) fun _ => .inl)

theorem setSema {v : Sema} : Kept N K c s (s.setSema i v) := F.setObjects h rfl rfl rfl fun _ => .inl

theorem semaphoreDestruct : Framed N K c s (s.semaphoreDestruct i) :=
  F.step (F.setSema h) fun h => F.unblockList h

theorem cleanupSemaphores : Framed N K c s (s.cleanupSemaphores pid) :=
  F.cleanupRefs (fun _ _ _ h => F.setSemaRef h fun hr => .inl (ne_empty_of_erase hr))
    (fun _ _ h => F.semaphoreDestruct h) h

theorem semaphoreAlloc : Kept N K c s (s.semaphoreAlloc i key n) := by
  exact F.andThen (F.init (c := c) h) fun h => F.andThen
    (F.setSemaRef (i := i) (r := {.kernel 0}) h fun _ => .inr (DList.isSet_init ..)) fun h => F.setSema h

theorem doSemaphoreInit : Framed N K c s (s.doSemaphoreInit c key n) := by
  refine .init trivial (fun i hk => post_index fun p => F.setSemaRef h fun _ => .inl (findKey_spec hk)) fun i _ _ => ?_
  exact post_index fun p => F.andThen (F.semaphoreAlloc h) fun h =>
    F.setSemaRef h fun _ => .inr (DList.isSet_init ..)

theorem doSemaphoreDown (hc : ¬ N (s.current c)) : Framed N K c s (s.doSemaphoreDown c j next) := by
  refine .index (fun _ => F.same h) fun i _ => .ite (fun _ => F.same h) fun _ => .ite
    (fun _ => ?_) fun _ => F.setSema h
  exact F.step (F.setSema h) fun h => F.block h hc

theorem doSemaphoreUp : Framed N K c s (s.doSemaphoreUp j) := by
  refine .index (fun _ => F.same h) fun i _ => .ite (fun _ => F.same h) fun _ => .ite
    (fun _ => ?_) fun _ => F.setSema h
  refine F.step (F.setSema h) fun h => (F.unblockFirst (c := c) h).bind fun r hr => ?_
  exact .ite (fun _ => hr) fun _ => trivial

theorem doSemaphoreDestroy : Framed N K c s (s.doSemaphoreDestroy j) := by
  refine .index (fun _ => trivial) fun i _ => .ite (fun _ => F.same h) fun _ => ?_
  exact F.step (F.setSemaRef h fun hr => absurd rfl hr) fun h => F.semaphoreDestruct h

theorem finishDown : Kept N K c s (s.finishDown i gen) := by
  unfold Kernel.finishDown
  by_cases hg : (s.semaphores i).gen = gen
  · rw [if_pos hg]
    exact F.setSema h
  · rw [if_neg hg]
    exact F.same h

/-! ## Barriers -/

theorem setBarrierRef (hr : r ≠ ∅ → s.barrier_ref i ≠ ∅ ∨ IsSet s.links (.barrier i)) :
    Kept N K c s (s.setBarrierRef i r) :=
  F.setObjects h rfl rfl rfl
    (uses_of (fun _ => .inl) (fun _ => .inl) (fun _ => .inl) fun _ =>
      ref_upd s.barrier_ref (fun i => IsSet s.links (.barrier i)) hr)

theorem setBarrier {b : Barrier} : Kept N K c s (s.setBarrier i b) := F.setObjects h rfl rfl rfl fun _ => .inl

theorem cleanupBarriers : Framed N K c s (s.cleanupBarriers pid) :=
  F.cleanupRefs (fun _ _ _ h => F.setBarrierRef h fun hr => .inl (ne_empty_of_erase hr))
    (fun _ _ h => F.unblockList h) h

theorem barrierInit : Kept N K c s (s.barrierInit i) := by
  exact F.andThen (F.setBarrier h) fun h => F.init h

theorem doBarrierInit : Framed N K c s (s.doBarrierInit c key goal) := by
  refine post_index fun p => .init trivial
    (fun i hk => F.setBarrierRef h fun _ => .inl (findKey_spec hk)) fun i _ _ => ?_
  exact F.andThen (F.andThen (F.barrierInit h) fun h => F.setBarrier h) fun h =>
    F.setBarrierRef h fun _ => .inr (DList.isSet_init ..)

theorem doBarrierWait (hc : ¬ N (s.current c)) : Framed N K c s (s.doBarrierWait c j next) := by
  refine .index (fun _ => F.same h) fun i _ => .ite (fun _ => F.same h) fun _ => .ite (fun _ => trivial) fun _ => ?_
  exact .ite (fun _ => F.step (F.setBarrier h) fun h => F.block h hc) fun _ =>
    F.step (F.setBarrier h) fun h => F.unblockList h

theorem doBarrierDestroy : Framed N K c s (s.doBarrierDestroy j) := by
  refine .index (fun _ => F.same h) fun i _ => .ite (fun _ => F.same h) fun _ => ?_
  exact F.step (F.setBarrierRef h fun hr => absurd rfl hr) fun h => F.unblockList h

/-! ## Calls -/

theorem perform (hc : ¬ N (s.current c)) {drops : Slot → List ℕ}
    (hcall : call.Common) : Framed N K c s (s.perform c next drops call) := by
  cases call with
  | yield => exact F.doScheduler h hc
  | sleep t => exact F.doSleep h hc
  | waitpid pid => exact F.doWaitpid h hc
  | condInit key => exact F.doConditionInit h
  | condSignal j => exact F.doConditionSignal h
  | condBroadcast j => exact F.doConditionBroadcast h
  | condDestroy j => exact F.doConditionDestroy h
  | semaInit key init => exact F.doSemaphoreInit h
  | semaDown j => exact F.doSemaphoreDown h hc
  | semaUp j => exact F.doSemaphoreUp h
  | semaDestroy j => exact F.doSemaphoreDestroy h
  | barrierInit key goal => exact F.doBarrierInit h
  | barrierWait j => exact F.doBarrierWait h hc
  | barrierDestroy j => exact F.doBarrierDestroy h
  | block k => exact F.block h hc
  | wake k => exact F.unblockList h
  | signal k => exact F.signal h
  | _ => exact hcall.elim

end Frame

/-! ## Mutexes -/

namespace FullFrame

variable (F : FullFrame N K)

include F

theorem setMutexes {o : Objects} (h : Away N s) (hu : ∀ q, Uses o q → Uses s.toObjects q ∨ IsSet s.links q) :
    Kept N K c s { s with toObjects := o } := ⟨F.mutexes hu, h, id⟩

variable (h : Away N s)
include h

theorem setMlockRef (hr : r ≠ ∅ → s.mlock_ref i ≠ ∅ ∨ IsSet s.links (.mutex i)) : Kept N K c s (s.setMlockRef i r) :=
  F.setMutexes h (uses_of
    (fun _ => ref_upd s.mlock_ref (fun i => IsSet s.links (.mutex i)) hr) (fun _ => .inl)
    (fun _ => .inl) fun _ => .inl)

theorem setMlock {v : Mutex} : Kept N K c s (s.setMlock i v) := F.setMutexes h fun _ => .inl

theorem setOwns {b : Bool} : Kept N K c s (s.setOwns p i b) := F.setMutexes h fun _ => .inl

theorem mutexRelease : Framed N K c s (s.mutexRelease i) := F.step (F.setMlock h) fun h => F.unblockList h

theorem mutexDestruct : Framed N K c s (s.mutexDestruct i) :=
  F.bind (F.mutexRelease h) fun _ h1 => F.setMlockRef h1.away fun hr => absurd rfl hr

theorem cleanupMutexes : Framed N K c s (s.cleanupMutexes pid) := by
  refine F.bind ?_ fun s1 h1 => ?_
  · refine Post.foldlM (fun s1 i _ h1 => F.after h1 ?_) (F.same h)
    exact .ite (fun _ => F.mutexRelease h1.away) fun _ => F.same h1.away
  · exact F.cleanupRefs (fun _ _ _ h => F.setMlockRef h fun hr => .inl (ne_empty_of_erase hr))
      (fun _ i h => F.mutexDestruct h) h1.away

theorem mutexInit : Kept N K c s (s.mutexInit i) := by
  exact F.andThen (F.setMlock h) fun h => F.init h

theorem doMutexLockInit : Framed N K c s (s.doMutexLockInit c key) := by
  refine post_index fun p => .init trivial
    (fun i hk => F.setMlockRef h fun _ => .inl (findKey_spec hk)) fun i _ _ => ?_
  exact F.andThen (F.andThen (F.mutexInit h) fun h => F.setMlock h) fun h =>
    F.setMlockRef h fun _ => .inr (DList.isSet_init ..)

theorem mutexAcquire (hc : ¬ N (s.current c)) : Framed N K c s (s.mutexAcquire c k i next) := by
  refine .ite (fun _ => ?_) fun _ => F.block h hc
  exact F.andThen (F.andThen (F.setMlock h) fun h => F.setCont (k := .user) h hc) fun h => F.setOwns h

theorem doMutexLockAcquire (hc : ¬ N (s.current c)) : Framed N K c s (s.doMutexLockAcquire c j next) := by
  exact .index (fun _ => F.same h) fun i _ => F.mutexAcquire h hc

theorem doMutexLockRelease : Framed N K c s (s.doMutexLockRelease c j) := by
  refine .index (fun _ => F.same h) fun i _ => .ite (fun _ => F.setOwns h) fun _ => .ite
    (fun _ => F.setOwns h) fun _ => ?_
  exact F.step (F.setOwns h) fun h => F.mutexRelease h

theorem doConditionWait {k : ℤ} (hc : ¬ N (s.current c)) : Framed N K c s (s.doConditionWait c j k next) := by
  unfold Kernel.doConditionWait
  cases index j with
  | none => exact F.same h
  | some ci =>
    cases index k with
    | none => exact F.same h
    | some mi =>
      refine .ite (fun _ => F.setOwns h) fun _ => ?_
      refine F.step (F.setOwns h) fun h => F.bind (F.doBlock h hc) fun s2 h2 => ?_
      refine F.bind (F.mutexRelease h2.away) fun s3 h3 => ?_
      exact F.doScheduler h3.away (h3.own (h2.own hc))

/-- **The calls other than those that make and end processes.** -/
theorem perform (hc : ¬ N (s.current c)) {drops : Slot → List ℕ}
    (hexec : call ≠ .exec) (hexit : call ≠ .exit) (hkill : ∀ pid, call ≠ .kill pid) :
    Framed N K c s (s.perform c next drops call) := by
  cases call with
  | exec => exact absurd rfl hexec
  | exit => exact absurd rfl hexit
  | kill pid => exact absurd rfl (hkill pid)
  | mutexInit key => exact F.doMutexLockInit h
  | mutexAcquire j => exact F.doMutexLockAcquire h hc
  | mutexRelease j => exact F.doMutexLockRelease h
  | condWait j k => exact F.doConditionWait h hc
  | _ => exact F.toFrame.perform h hc trivial

/-- What a process does that was switched to. -/
theorem proceed (hc : ¬ N (s.current c)) : Framed N K c s (s.proceed c next k) := by
  cases k with
  | user => trivial
  | ret => exact F.setCont h hc
  | acquire i => exact F.mutexAcquire h hc
  | rewait i => exact F.mutexAcquire h hc
  | down i gen => exact F.andThen (F.finishDown h) fun h => F.setCont h hc
  | barrier i => exact F.setCont h hc

end FullFrame

end Kernel

end OsLab.Sched
