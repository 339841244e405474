import OsLab.Common.DList
import Mathlib.Algebra.Group.Int.Defs
import Mathlib.Algebra.GroupWithZero.Nat
import Mathlib.Data.Fintype.Sum
import Mathlib.Tactic.DeriveFintype
/-!
# Processes and the scheduler

`kernel/sched/sched.cpp` and `kernel/sched/time.c`: the process control
blocks, the queues they wait on, and the switch from one to the next. The
queues are linked lists in memory (`libs/list.c`), and a control block has
one node for them.

The state is that of the kernel lock: a call runs under it from the entry
to the return or to the switch in `do_scheduler`, and what a process has
left to do in the kernel when it is switched to again is its `Cont`. Spin
locks are taken and given back under the kernel lock and are left out, as
are the memory, the files and the pipes of a process.
-/

namespace OsLab.Sched

abbrev NR_CPUS : ℕ := 2
abbrev NUM_MAX_TASK : ℕ := 32
/-- `LOCK_NUM`, `CONDITION_NUM`, `SEMAPHORE_NUM` and `BARRIER_NUM`. -/
abbrev LOCK_NUM : ℕ := 16

instance : NeZero NR_CPUS := ⟨by decide⟩
instance : NeZero NUM_MAX_TASK := ⟨by decide⟩
instance : NeZero LOCK_NUM := ⟨by decide⟩

abbrev Cpu := Fin NR_CPUS
abbrev Idx := Fin LOCK_NUM

/-- An entry of `pcb_all`: one of `pcb_kernel`, or one of `pcb_user`. -/
inductive Slot
  | kernel (c : Cpu)
  | user (i : Fin NUM_MAX_TASK)
  deriving DecidableEq, Fintype

inductive Status
  | blocked | running | ready | exited | killed
  deriving DecidableEq

/-- The lists a control block's `sched_node` can be on. The mailboxes, the
pipes and the network keep lists of their own, the `other` ones. -/
inductive Queue
  | ready
  | sleep
  | wait (p : Slot)
  | mutex (i : Idx)
  | cond (i : Idx)
  | sema (i : Idx)
  | barrier (i : Idx)
  | other (k : ℕ)
  deriving DecidableEq

/-- What a process has left to do in the kernel. -/
inductive Cont
  /-- nothing: it runs its own code -/
  | user
  /-- return -/
  | ret
  /-- go on in `mutex_acquire`, called from `do_mutex_lock_acquire` -/
  | acquire (i : Idx)
  /-- go on in `mutex_acquire`, at the end of `condition_wait` -/
  | rewait (i : Idx)
  /-- return from `do_semaphore_down` -/
  | down (i : Idx) (gen : ℕ)
  /-- return from `do_barrier_wait` -/
  | barrier (i : Idx)
  deriving DecidableEq

structure Pcb where
  pid : ℤ
  status : Status
  wakeup_time : ℕ := 0
  parent : Option Slot := none
  cont : Cont := .user

structure Mutex where
  acquired : Bool := false
  pid : ℤ := 0
  key : ℤ := 0

structure Sema where
  key : ℤ := 0
  count : ℤ := 0
  /-- History of this use of the slot: its number, the value it began
  with, the ups, the downs, and the downs that returned. -/
  gen : ℕ := 0
  init : ℤ := 0
  ups : ℕ := 0
  downs : ℕ := 0
  done : ℕ := 0

structure Barrier where
  key : ℤ := 0
  goal : ℤ := 0
  current : ℤ := 0

/-- The objects of `kernel/locking/`, with the processes that refer to
each. `owns` is history: the process has returned from taking the mutex and
not given it up since. -/
structure Objects where
  mlocks : Idx → Mutex
  mlock_ref : Idx → Finset Slot
  cond_key : Idx → ℤ
  cond_ref : Idx → Finset Slot
  semaphores : Idx → Sema
  sema_ref : Idx → Finset Slot
  barriers : Idx → Barrier
  barrier_ref : Idx → Finset Slot
  owns : Slot → Idx → Bool

/-- The kernel's variables. -/
structure Kernel extends Objects where
  pcb : Slot → Pcb
  current : Cpu → Slot
  links : DList.Mem Queue Slot
  relation : DList.Mem Slot Slot
  process_id : ℤ
  time : ℕ

/-- How the kernel stops. -/
inductive Halt
  /-- a null link is followed, or an assertion of `libs/list.c` fails -/
  | badList
  /-- `pcb_node is already in a list` -/
  | inList
  /-- `no process to run`, or not the one named -/
  | noProcess
  /-- `cannot find pcb in get_pcb_index` -/
  | noPcb
  /-- `assert(id >= 0)` -/
  | noIndex
  /-- `kernel process cannot exit` -/
  | kernelExit
  /-- `semaphore wait list is empty while count < 0` -/
  | semaphoreEmpty
  /-- `barrier broken` -/
  | barrierBroken
  /-- `invalid pageframe address` -/
  | noPageGroup
  /-- an index out of range is used -/
  | outOfRange
  /-- a walk over the processes does not end -/
  | loop
  /-- the processor is elsewhere -/
  | busy
  deriving DecidableEq

abbrev Res := Except Halt Kernel

/-- More than there are control blocks. -/
def FUEL : ℕ := NUM_MAX_TASK + NR_CPUS + 1

namespace Kernel

variable (s : Kernel)

/-! ## Lists and status -/

def setLinks (m : DList.Mem Queue Slot) : Kernel := { s with links := m }

def ofLinks : Option (DList.Mem Queue Slot) → Res
  | some m => .ok (s.setLinks m)
  | none => .error .badList

def listAppend (q : Queue) (p : Slot) : Res := s.ofLinks (DList.append s.links q p)

def listDelete (p : Slot) : Res := s.ofLinks (DList.delete s.links p)

def listDestruct (p : Slot) : Res := s.ofLinks (DList.destruct s.links p)

def status (p : Slot) : Status := (s.pcb p).status

def setPcb (p : Slot) (pcb : Pcb) : Kernel := { s with pcb := upd s.pcb p pcb }

def setStatus (p : Slot) (st : Status) : Kernel :=
  s.setPcb p { s.pcb p with status := st }

def setCont (p : Slot) (k : Cont) : Kernel := s.setPcb p { s.pcb p with cont := k }

/-! ## Blocking and waking -/

def doBlock (p : Slot) (q : Queue) : Res :=
  if s.status p = .blocked then .ok s
  else if (s.links (.node p)).next.isSome || (s.links (.node p)).prev.isSome then .error .inList
  else (s.setStatus p .blocked).listAppend q p

def doUnblock (p : Slot) : Res := (s.setStatus p .ready).listAppend .ready p

/-- The loop of `unblock_list`, from a link on. -/
def unblockFrom (q : Queue) : (fuel : ℕ) → Option (DList.Node Queue Slot) → Kernel → Res
  | fuel + 1, some (.node p), s => do
    let next := (s.links (.node p)).next
    let s ← s.listDelete p
    let s ← s.doUnblock p
    unblockFrom q fuel next s
  | _, some (.head q'), s => if q' = q then .ok s else .error .badList
  | _, _, _ => .error .badList

def unblockList (q : Queue) : Res :=
  unblockFrom q FUEL (s.links (.head q)).next s

/-- `list_shift`, and `do_unblock` of what it gives. -/
def unblockFirst (q : Queue) : Except Halt (Bool × Kernel) :=
  match DList.shift s.links q with
  | some (some p, m) => do return (true, ← (s.setLinks m).doUnblock p)
  | some (none, m) => .ok (false, s.setLinks m)
  | none => .error .badList

/-- The loop of `check_sleeping`, from a link on. It does not change the
status of what it wakes. -/
def checkFrom : (fuel : ℕ) → Option (DList.Node Queue Slot) → Kernel → Res
  | fuel + 1, some (.node p), s =>
    let next := (s.links (.node p)).next
    if (s.pcb p).wakeup_time ≤ s.time then do
      let s ← s.listDelete p
      let s ← s.listAppend .ready p
      checkFrom fuel next s
    else checkFrom fuel next s
  | _, some (.head q), s => if q = .sleep then .ok s else .error .badList
  | _, _, _ => .error .badList

def checkSleeping : Res := checkFrom FUEL (s.links (.head .sleep)).next s

/-- The first lines of `do_scheduler`: a running process goes to the end
of the ready queue. -/
def requeue (p : Slot) : Res :=
  if s.status p = .running then (s.setStatus p .ready).listAppend .ready p else .ok s

/-- The switch to `next`. -/
def switchTo (c : Cpu) (k : Cont) (next : Slot) : Kernel :=
  let s := s.setStatus next .running
  let s := s.setCont (s.current c) k
  { s with current := upd s.current c next }

/-- `do_scheduler` on a processor. `pick_process` chooses by affinity and
by what the processes have consumed; here it may choose any process of the
ready queue, `next`. The caller goes on with `k` when it is next run. -/
def doScheduler (c : Cpu) (k : Cont) (next : Slot) : Res := do
  let s ← s.checkSleeping
  let s ← s.requeue (s.current c)
  match DList.nodesFrom s.links .ready FUEL (s.links (.head .ready)).next with
  | some l =>
    if next ∈ l then do
      let s ← s.listDelete next
      return s.switchTo c k next
    else .error .noProcess
  | none => .error .badList

/-! ## Sleeping and waiting -/

def doSleep (c : Cpu) (sleep_time : ℕ) (next : Slot) : Res := do
  let p := s.current c
  let s := s.setPcb p { s.pcb p with wakeup_time := s.time + sleep_time }
  let s ← s.doBlock p .sleep
  s.doScheduler c .ret next

def findPcb (pid : ℤ) : Option Slot :=
  if pid < 0 then none
  else if h : pid.toNat < NR_CPUS then some (.kernel ⟨pid.toNat, h⟩)
  else ((List.finRange NUM_MAX_TASK).find? fun i =>
    decide ((s.pcb (.user i)).pid = pid ∧ s.status (.user i) ≠ .exited)).map .user

/-- `do_waitpid`. It appends the caller to the list itself. -/
def doWaitpid (c : Cpu) (pid : ℤ) (next : Slot) : Res :=
  match s.findPcb pid with
  | none => .ok s
  | some p => do
    let s ← s.listAppend (.wait p) (s.current c)
    let s := s.setStatus (s.current c) .blocked
    s.doScheduler c .ret next

/-- `get_pcb_index`. -/
def getPcbIndex (pid : ℤ) : Except Halt Slot :=
  match s.findPcb pid with
  | some p => .ok p
  | none => .error .noPcb

/-- The process a call is made by. -/
def curPid (c : Cpu) : ℤ := (s.pcb (s.current c)).pid

/-! ## Creating -/

def allocPcb : Option Slot :=
  ((List.finRange NUM_MAX_TASK).find? fun i => decide (s.status (.user i) = .exited)).map .user

/-- `construct_pcb` on a free control block: everything is zeroed, and the
two list heads in it are set up. -/
def constructPcb (p : Slot) : Kernel :=
  { s with
    pcb := upd s.pcb p { pid := s.process_id, status := .ready }
    links := DList.init (upd (upd s.links (.node p) .null) (.head (.wait p)) .null) (.wait p)
    relation := DList.init (upd (upd s.relation (.node p) .null) (.head p) .null) p
    process_id := s.process_id + 1
    owns := upd s.owns p fun _ => false }

/-- The end of `attach_subprocess`: the new process knows its parent. -/
def setParent (r : DList.Mem Slot Slot) (parent child : Slot) : Kernel :=
  { s with
    relation := r
    pcb := upd s.pcb child { s.pcb child with parent := some parent } }

def attachSubprocess (parent child : Slot) : Res :=
  match DList.append s.relation parent child with
  | some r => .ok (s.setParent r parent child)
  | none => .error .badList

/-- `do_exec`. `create_task_pgdir` looks for the page group of the caller when the control
block has been zeroed, and finds none if that is the caller's own. -/
def doExec (c : Cpu) : Res :=
  match s.allocPcb with
  | none => .ok s
  | some p =>
    if p = s.current c then .error .noPageGroup
    else do
      let s ← (s.constructPcb p).listAppend .ready p
      s.attachSubprocess (s.current c) p

end Kernel

end OsLab.Sched
