import OsLab.Sched.Sync
/-!
# Runs of the kernel

A processor enters the kernel with a call of the process it runs, or is
switched to a process that waited in the kernel. Either way it has taken
the kernel lock, and `lock_kernel` looks first whether the process has been
killed. A step ends with the lock free again.
-/

namespace OsLab.Sched

/-- What a processor enters the kernel for. The last three are what the
mailboxes, the pipes and the network do with their lists, in a call or in
an interrupt. -/
inductive Call
  | yield
  | sleep (sleep_time : ℕ)
  | waitpid (pid : ℤ)
  | exec
  | exit
  | kill (pid : ℤ)
  | mutexInit (key : ℤ)
  | mutexAcquire (i : ℤ)
  | mutexRelease (i : ℤ)
  | condInit (key : ℤ)
  | condWait (ci mi : ℤ)
  | condSignal (i : ℤ)
  | condBroadcast (i : ℤ)
  | condDestroy (i : ℤ)
  | semaInit (key init : ℤ)
  | semaDown (i : ℤ)
  | semaUp (i : ℤ)
  | semaDestroy (i : ℤ)
  | barrierInit (key goal : ℤ)
  | barrierWait (i : ℤ)
  | barrierDestroy (i : ℤ)
  | block (k : ℕ)
  | wake (k : ℕ)
  | signal (k : ℕ)
  deriving DecidableEq

/-- A step: time passes, or a processor goes through the kernel. Where it
comes to `do_scheduler` it switches to `next`, and what ends in it takes
the lists `drops` with it. -/
inductive Event
  | tick (d : ℕ)
  | enter (c : Cpu) (call : Call) (next : Slot) (drops : Slot → List ℕ)
  | resume (c : Cpu) (next : Slot) (drops : Slot → List ℕ)

/-- The processor of a step. -/
def Event.cpu : Event → Option Cpu
  | .tick _ => none
  | .enter c _ _ _ => some c
  | .resume c _ _ => some c

namespace Kernel

/-- The interrupts and system calls. -/
def perform (s : Kernel) (c : Cpu) (next : Slot) (drops : Slot → List ℕ) : Call → Res
  | .yield => s.doScheduler c .ret next
  | .sleep t => s.doSleep c t next
  | .waitpid pid => s.doWaitpid c pid next
  | .exec => s.doExec c
  | .exit => s.doExit drops c next
  | .kill pid => doKill drops c FUEL s pid
  | .mutexInit key => s.doMutexLockInit c key
  | .mutexAcquire i => s.doMutexLockAcquire c i next
  | .mutexRelease i => s.doMutexLockRelease c i
  | .condInit key => s.doConditionInit c key
  | .condWait ci mi => s.doConditionWait c ci mi next
  | .condSignal i => s.doConditionSignal i
  | .condBroadcast i => s.doConditionBroadcast i
  | .condDestroy i => s.doConditionDestroy i
  | .semaInit key init => s.doSemaphoreInit c key init
  | .semaDown i => s.doSemaphoreDown c i next
  | .semaUp i => s.doSemaphoreUp i
  | .semaDestroy i => s.doSemaphoreDestroy i
  | .barrierInit key goal => s.doBarrierInit c key goal
  | .barrierWait i => s.doBarrierWait c i next
  | .barrierDestroy i => s.doBarrierDestroy i
  | .block k => do (← s.doBlock (s.current c) (.other k)).doScheduler c .ret next
  | .wake k => s.unblockList (.other k)
  | .signal k => return (← s.unblockFirst (.other k)).2

/-- The end of `do_semaphore_down`. -/
def finishDown (s : Kernel) (i : Idx) (gen : ℕ) : Kernel :=
  let v := s.semaphores i
  if v.gen = gen then s.setSema i { v with done := v.done + 1 } else s

/-- What a process does that was switched to, from where it waited. -/
def proceed (s : Kernel) (c : Cpu) (next : Slot) : Cont → Res
  | .user => .error .busy
  | .ret => .ok (s.setCont (s.current c) .user)
  | .acquire i => s.mutexAcquire c (.acquire i) i next
  | .rewait i => s.mutexAcquire c (.rewait i) i next
  | .down i gen => .ok ((s.finishDown i gen).setCont (s.current c) .user)
  | .barrier _ => .ok (s.setCont (s.current c) .user)

def step (s : Kernel) : Event → Res
  | .tick d => .ok { s with time := s.time + d }
  | .enter c call next drops =>
    if (s.pcb (s.current c)).cont ≠ .user then .error .busy
    else if s.status (s.current c) = .killed then s.doExit drops c next
    else s.perform c next drops call
  | .resume c next drops =>
    if (s.pcb (s.current c)).cont = .user then .error .busy
    else if s.status (s.current c) = .killed then s.doExit drops c next
    else s.proceed c next (s.pcb (s.current c)).cont

end Kernel

/-- The links once every processor runs its own process: the ready queue,
the sleep queue, the wait lists of the kernel's own processes and the other
lists are set up. -/
def bootLinks : DList.Mem Queue Slot
  | .head .ready => ⟨some (.head .ready), some (.head .ready), none⟩
  | .head .sleep => ⟨some (.head .sleep), some (.head .sleep), none⟩
  | .head (.wait (.kernel c)) => ⟨some (.head (.wait (.kernel c))), some (.head (.wait (.kernel c))), none⟩
  | .head (.other k) => ⟨some (.head (.other k)), some (.head (.other k)), none⟩
  | _ => .null

def bootRelation : DList.Mem Slot Slot
  | .head (.kernel c) => ⟨some (.head (.kernel c)), some (.head (.kernel c)), none⟩
  | _ => .null

/-- The state once every processor runs its own process, before the shell
is made. -/
def boot : Kernel where
  pcb
    | .kernel c => { pid := c, status := .running }
    | .user _ => { pid := 0, status := .exited }
  current c := .kernel c
  links := bootLinks
  relation := bootRelation
  process_id := NR_CPUS
  time := 0
  mlocks _ := {}
  mlock_ref _ := ∅
  cond_key _ := 0
  cond_ref _ := ∅
  semaphores _ := {}
  sema_ref _ := ∅
  barriers _ := {}
  barrier_ref _ := ∅
  owns _ _ := false

/-- The states that runs from `boot` reach, all of whose steps are `Good`. -/
inductive Reach (Good : Kernel → Event → Prop) : Kernel → Prop
  | boot : Reach Good boot
  | step {s s' : Kernel} {e : Event} (hs : Reach Good s) (hg : Good s e) (he : s.step e = .ok s') :
      Reach Good s'

/-- The state a list of steps leads to. -/
def Kernel.run (s : Kernel) (es : List Event) : Res := es.foldlM Kernel.step s

end OsLab.Sched
