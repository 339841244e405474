import OsLab.Sched.Model
import OsLab.Common.Post
/-!
# Locks, conditions, semaphores, barriers and the end of a process

`kernel/locking/`, and the part of `kernel/sched/sched.cpp` that ends
processes. An index a program passes is an integer, and each call checks
it. The wait of a call in `do_scheduler` is its last action here: what the
process does when it is run again is in `OsLab.Sched.Step`.
-/

namespace OsLab

namespace Sched

/-- The index a program passes, if it is in range. -/
def index (i : ℤ) : Option Idx :=
  if h : 0 ≤ i ∧ i.toNat < LOCK_NUM then some ⟨i.toNat, h.2⟩ else none

/-- The value of an `int`. -/
def wrap (x : ℤ) : ℤ := (x + 2 ^ 31) % 2 ^ 32 - 2 ^ 31

/-- The first loop of an init call: an object in use under the key. -/
def findKey (ref : Idx → Finset Slot) (key : Idx → ℤ) (k : ℤ) : Option Idx :=
  (List.finRange LOCK_NUM).find? fun i => decide (ref i ≠ ∅ ∧ key i = k)

/-- The second loop of an init call: an object not in use. -/
def findFree (ref : Idx → Finset Slot) : Option Idx :=
  (List.finRange LOCK_NUM).find? fun i => decide (ref i = ∅)

/-- One kind of object: the processes that refer to each, and what is done
when the last of them is gone. -/
structure Kind where
  ref : Kernel → Idx → Finset Slot
  setRef : Kernel → Idx → Finset Slot → Kernel
  destruct : Kernel → Idx → Res

/-- One round of the loop of a cleanup function. -/
def dropRef (K : Kind) (pid : ℤ) (s : Kernel) (i : Idx) : Res := do
  let p ← s.getPcbIndex pid
  if p ∈ K.ref s i then
    let s := K.setRef s i ((K.ref s i).erase p)
    if K.ref s i = ∅ then K.destruct s i else .ok s
  else .ok s

/-- A cleanup function: the process's references are dropped. -/
def cleanupRefs (K : Kind) (pid : ℤ) (s : Kernel) : Res :=
  (List.finRange LOCK_NUM).foldlM (dropRef K pid) s

namespace Kernel

variable (s : Kernel)

/-! ## Mutexes -/

def setMlockRef (i : Idx) (r : Finset Slot) : Kernel :=
  { s with mlock_ref := upd s.mlock_ref i r }

def setMlock (i : Idx) (v : Mutex) : Kernel :=
  { s with mlocks := upd s.mlocks i v }

def mutexInit (i : Idx) : Kernel :=
  (s.setMlock i { acquired := false, pid := -1, key := -1 }).setLinks
    (DList.init s.links (.mutex i))

def mutexRelease (i : Idx) : Res :=
  (s.setMlock i { s.mlocks i with acquired := false }).unblockList (.mutex i)

def mutexDestruct (i : Idx) : Res := do
  let s ← s.mutexRelease i
  return s.setMlockRef i ∅

def mutexKind : Kind := ⟨(·.mlock_ref), setMlockRef, mutexDestruct⟩

/-- One round of the first loop of `cleanup_mutexes`: what the process
holds is released, if anyone refers to it. -/
def releaseHeld (pid : ℤ) (s : Kernel) (i : Idx) : Res :=
  if s.mlock_ref i ≠ ∅ ∧ (s.mlocks i).acquired ∧ (s.mlocks i).pid = pid then s.mutexRelease i
  else .ok s

def cleanupMutexes (pid : ℤ) (s : Kernel) : Res := do
  let s ← (List.finRange LOCK_NUM).foldlM (releaseHeld pid) s
  cleanupRefs mutexKind pid s

/-- The index `do_mutex_lock_init` allocates, if it does not find the key. -/
def mutexAlloc (key : ℤ) : Option Idx :=
  match findKey s.mlock_ref (fun i => (s.mlocks i).key) key with
  | some _ => none
  | none => findFree s.mlock_ref

def doMutexLockInit (c : Cpu) (key : ℤ) : Res := do
  let p ← s.getPcbIndex (s.curPid c)
  match findKey s.mlock_ref (fun i => (s.mlocks i).key) key with
  | some i => return s.setMlockRef i (insert p (s.mlock_ref i))
  | none =>
    match findFree s.mlock_ref with
    | some i =>
      let s := s.mutexInit i
      let s := s.setMlock i { s.mlocks i with key := key }
      return s.setMlockRef i (insert p (s.mlock_ref i))
    | none => .error .noIndex

def setOwns (p : Slot) (i : Idx) (b : Bool) : Kernel :=
  { s with owns := upd s.owns p (upd (s.owns p) i b) }

/-- One round of the loop of `mutex_acquire`. The call that is made or
gone on with is `k`. -/
def mutexAcquire (c : Cpu) (k : Cont) (i : Idx) (next : Slot) : Res :=
  let p := s.current c
  if !(s.mlocks i).acquired then
    let s := s.setMlock i { s.mlocks i with acquired := true, pid := s.curPid c }
    .ok ((s.setCont p .user).setOwns p i true)
  else do
    let s ← s.doBlock p (.mutex i)
    s.doScheduler c k next

def doMutexLockAcquire (c : Cpu) (i : ℤ) (next : Slot) : Res :=
  match index i with
  | none => .ok s
  | some i => s.mutexAcquire c (.acquire i) i next

def doMutexLockRelease (c : Cpu) (i : ℤ) : Res :=
  match index i with
  | none => .ok s
  | some i =>
    let s := s.setOwns (s.current c) i false
    if s.mlock_ref i = ∅ then .ok s
    else if (s.mlocks i).pid ≠ s.curPid c then .ok s
    else s.mutexRelease i

/-! ## Conditions -/

def setCondRef (i : Idx) (r : Finset Slot) : Kernel :=
  { s with cond_ref := upd s.cond_ref i r }

def conditionInit (i : Idx) : Kernel := s.setLinks (DList.init s.links (.cond i))

def conditionDestruct (i : Idx) : Res := s.unblockList (.cond i)

def condKind : Kind := ⟨(·.cond_ref), setCondRef, conditionDestruct⟩

def cleanupConditions (pid : ℤ) (s : Kernel) : Res := cleanupRefs condKind pid s

def doConditionInit (c : Cpu) (key : ℤ) : Res :=
  match findKey s.cond_ref s.cond_key key with
  | some i => do
    let p ← s.getPcbIndex (s.curPid c)
    return s.setCondRef i (insert p (s.cond_ref i))
  | none =>
    match findFree s.cond_ref with
    | some i => do
      let s := s.conditionInit i
      let s := { s with cond_key := upd s.cond_key i key }
      let p ← s.getPcbIndex (s.curPid c)
      return s.setCondRef i (insert p (s.cond_ref i))
    | none => .error .noIndex

/-- `condition_wait`, up to its `do_scheduler`. The mutex is released
whoever holds it. -/
def conditionWait (c : Cpu) (ci mi : Idx) (next : Slot) : Res := do
  let s ← s.doBlock (s.current c) (.cond ci)
  let s ← s.mutexRelease mi
  s.doScheduler c (.rewait mi) next

def doConditionWait (c : Cpu) (ci mi : ℤ) (next : Slot) : Res :=
  match index ci, index mi with
  | some ci, some mi =>
    if s.cond_ref ci = ∅ then .ok (s.setOwns (s.current c) mi true)
    else (s.setOwns (s.current c) mi false).conditionWait c ci mi next
  | _, _ => .ok s

def doConditionBroadcast (i : ℤ) : Res :=
  match index i with
  | none => .ok s
  | some i => if s.cond_ref i = ∅ then .ok s else s.unblockList (.cond i)

def doConditionSignal (i : ℤ) : Res :=
  match index i with
  | none => .ok s
  | some i => if s.cond_ref i = ∅ then .ok s else return (← s.unblockFirst (.cond i)).2

def doConditionDestroy (i : ℤ) : Res :=
  match index i with
  | none => .ok s
  | some i => if s.cond_ref i = ∅ then .ok s else (s.setCondRef i ∅).conditionDestruct i

/-! ## Semaphores -/

def setSemaRef (i : Idx) (r : Finset Slot) : Kernel :=
  { s with sema_ref := upd s.sema_ref i r }

def setSema (i : Idx) (v : Sema) : Kernel :=
  { s with semaphores := upd s.semaphores i v }

def semaphoreDestruct (i : Idx) : Res :=
  (s.setSema i { s.semaphores i with key := -1, count := 0 }).unblockList (.sema i)

def semaKind : Kind := ⟨(·.sema_ref), setSemaRef, semaphoreDestruct⟩

def cleanupSemaphores (pid : ℤ) (s : Kernel) : Res := cleanupRefs semaKind pid s

/-- What `do_semaphore_init` does to an object it allocates. Bit 0 of the
references, that of `pcb_kernel[0]`, is set first. -/
def semaphoreAlloc (i : Idx) (key init : ℤ) : Kernel :=
  let s := s.setSemaRef i {.kernel 0}
  let s := s.setSema i
    { key := key, count := wrap init, gen := (s.semaphores i).gen + 1, init := wrap init }
  s.setLinks (DList.init s.links (.sema i))

def doSemaphoreInit (c : Cpu) (key init : ℤ) : Res :=
  match findKey s.sema_ref (fun i => (s.semaphores i).key) key with
  | some i => do
    let p ← s.getPcbIndex (s.curPid c)
    return s.setSemaRef i (insert p (s.sema_ref i))
  | none =>
    match findFree s.sema_ref with
    | some i => do
      let s := s.semaphoreAlloc i key init
      let p ← s.getPcbIndex (s.curPid c)
      return s.setSemaRef i (insert p (s.sema_ref i))
    | none => .error .noIndex

def doSemaphoreDown (c : Cpu) (i : ℤ) (next : Slot) : Res :=
  match index i with
  | none => .ok s
  | some i =>
    if s.sema_ref i = ∅ then .ok s
    else
      let v := s.semaphores i
      let v := { v with count := wrap (v.count - 1), downs := v.downs + 1 }
      if v.count < 0 then do
        let s ← (s.setSema i v).doBlock (s.current c) (.sema i)
        s.doScheduler c (.down i v.gen) next
      else .ok (s.setSema i { v with done := v.done + 1 })

def doSemaphoreUp (i : ℤ) : Res :=
  match index i with
  | none => .ok s
  | some i =>
    if s.sema_ref i = ∅ then .ok s
    else
      let v := s.semaphores i
      let v := { v with count := wrap (v.count + 1), ups := v.ups + 1 }
      let s := s.setSema i v
      if v.count ≤ 0 then do
        let (found, s) ← s.unblockFirst (.sema i)
        if found then .ok s else .error .semaphoreEmpty
      else .ok s

/-- `do_semaphore_destroy`. It reports an index out of range and goes on. -/
def doSemaphoreDestroy (i : ℤ) : Res :=
  match index i with
  | none => .error .outOfRange
  | some i => if s.sema_ref i = ∅ then .ok s else (s.setSemaRef i ∅).semaphoreDestruct i

/-! ## Barriers -/

def setBarrierRef (i : Idx) (r : Finset Slot) : Kernel :=
  { s with barrier_ref := upd s.barrier_ref i r }

def setBarrier (i : Idx) (b : Barrier) : Kernel :=
  { s with barriers := upd s.barriers i b }

def barrierDestruct (i : Idx) : Res := s.unblockList (.barrier i)

def barrierKind : Kind := ⟨(·.barrier_ref), setBarrierRef, barrierDestruct⟩

def cleanupBarriers (pid : ℤ) (s : Kernel) : Res := cleanupRefs barrierKind pid s

def barrierInit (i : Idx) : Kernel :=
  (s.setBarrier i { s.barriers i with goal := 0, current := 0 }).setLinks
    (DList.init s.links (.barrier i))

/-- `do_barrier_init`. The key is looked for and never stored. -/
def doBarrierInit (c : Cpu) (key goal : ℤ) : Res := do
  let p ← s.getPcbIndex (s.curPid c)
  match findKey s.barrier_ref (fun i => (s.barriers i).key) key with
  | some i => return s.setBarrierRef i (insert p (s.barrier_ref i))
  | none =>
    match findFree s.barrier_ref with
    | some i =>
      let s := s.barrierInit i
      let s := s.setBarrier i { s.barriers i with goal := goal }
      return s.setBarrierRef i (insert p (s.barrier_ref i))
    | none => .error .noIndex

def doBarrierWait (c : Cpu) (i : ℤ) (next : Slot) : Res :=
  match index i with
  | none => .ok s
  | some i =>
    if s.barrier_ref i = ∅ then .ok s
    else
      let b := s.barriers i
      if ¬ b.current < b.goal then .error .barrierBroken
      else if b.current + 1 < b.goal then do
        let s ← (s.setBarrier i { b with current := b.current + 1 }).doBlock (s.current c)
          (.barrier i)
        s.doScheduler c (.barrier i) next
      else (s.setBarrier i { b with current := 0 }).unblockList (.barrier i)

def doBarrierDestroy (i : ℤ) : Res :=
  match index i with
  | none => .ok s
  | some i => if s.barrier_ref i = ∅ then .ok s else (s.setBarrierRef i ∅).barrierDestruct i

/-! ## The end of a process -/

/-- `cleanup_mailboxes` and `cleanup_pipe`: some of the other lists are
woken. -/
def cleanupOthers (drops : List ℕ) (s : Kernel) : Res :=
  drops.foldlM (fun s k => s.unblockList (.other k)) s

def relationDestruct (p : Slot) : Res :=
  match DList.destruct s.relation p with
  | some m => .ok { s with relation := m }
  | none => .error .badList

/-- `free_pcb`, and the end of what the process owned. -/
def freePcb (p : Slot) : Res :=
  if (s.pcb p).pid < NR_CPUS then .error .kernelExit
  else .ok { s.setStatus p .exited with owns := upd s.owns p fun _ => false }

/-- `cleanup_proc`. Which mailboxes and pipes end with the process is
`drops`. -/
def cleanupProc (drops : Slot → List ℕ) (s : Kernel) (p : Slot) : Res := do
  let pid := (s.pcb p).pid
  let s ← s.cleanupMutexes pid
  let s ← s.cleanupBarriers pid
  let s ← s.cleanupConditions pid
  let s ← s.cleanupSemaphores pid
  let s ← s.cleanupOthers (drops p)
  let s ← s.listDestruct p
  let s ← s.relationDestruct p
  let s ← s.unblockList (.wait p)
  s.freePcb p

/-- Whether the pid is that of a process or of one above it. -/
def isAncestor (s : Kernel) (pid : ℤ) : (fuel : ℕ) → Option Slot → Except Halt Bool
  | _, none => .ok false
  | fuel + 1, some p => if (s.pcb p).pid = pid then .ok true else isAncestor s pid fuel (s.pcb p).parent
  | 0, some _ => .error .loop

/-- `kill_subprocess`, from a link of the child list of `p` on. -/
def killFrom (kill : Kernel → ℤ → Res) (p : Slot) :
    (fuel : ℕ) → Option (DList.Node Slot Slot) → Kernel → Res
  | fuel + 1, some (.node child), s => do
    let next := (s.relation (.node child)).next
    let s ← kill s (s.pcb child).pid
    killFrom kill p fuel next s
  | _, some (.head p'), s => if p' = p then .ok s else .error .badList
  | _, _, _ => .error .badList

def killSubprocess (kill : Kernel → ℤ → Res) (s : Kernel) (p : Slot) : Res :=
  killFrom kill p FUEL (s.relation (.head p)).next s

/-- `do_kill`, nested to a depth. -/
def doKill (drops : Slot → List ℕ) (c : Cpu) : (depth : ℕ) → Kernel → ℤ → Res
  | 0, _, _ => .error .loop
  | depth + 1, s, pid =>
    if pid < NR_CPUS then .ok s
    else do
      if ← s.isAncestor pid FUEL (some (s.current c)) then return s
      match s.findPcb pid with
      | none => return s
      | some p =>
        if s.status p = .running then return s.setStatus p .killed
        else
          let s ← s.killSubprocess (doKill drops c depth) p
          s.cleanupProc drops p

def doExit (drops : Slot → List ℕ) (s : Kernel) (c : Cpu) (next : Slot) : Res :=
  if s.curPid c < NR_CPUS then .error .kernelExit
  else do
    let s ← s.killSubprocess (doKill drops c FUEL) (s.current c)
    let s ← s.cleanupProc drops (s.current c)
    s.doScheduler c .user next

end Kernel

end Sched

variable {Q : Sched.Kernel → Prop} {E : Sched.Halt → Prop}

/-- A call that does one thing with an index in range, and another without one. -/
theorem Post.index {o : Option Sched.Idx} {r : Sched.Res}
    {f : Sched.Idx → Sched.Res} : (o = none → Post E Q r) → (∀ i, o = some i → Post E Q (f i)) →
      Post E Q (match o with | none => r | some i => f i) := by
  intro hn hs
  cases o with
  | none => exact hn rfl
  | some i => exact hs i rfl

/-- An init call finds an object in use under its key, or takes one that is not in use. -/
theorem Post.init {o o' : Option Sched.Idx}
    {f g : Sched.Idx → Sched.Res} (hE : E .noIndex) : (∀ i, o = some i → Post E Q (f i)) →
      (∀ i, o = none → o' = some i → Post E Q (g i)) → Post E Q (match o with
        | some i => f i
        | none => match o' with
          | some i => g i
          | none => .error .noIndex) := by
  intro hf hg
  cases o with
  | some i => exact hf i rfl
  | none =>
    cases o' with
    | some i => exact hg i rfl rfl
    | none => exact hE

end OsLab
