import OsLab.Sched.Log
/-!
# The objects that processes refer to

The four tables of `kernel/locking/` that are in `Kernel`, and two whose
entries have names: the mailboxes (`mailbox.cpp`) and the pipes (`pipe.c`).
Of the last two only what opening, closing and the end of a process do is
here; what is sent through them leaves the references alone. An entry that
is destroyed wakes those who wait on it, which is `drops` in a step that ends
a process, and `Call.wake` otherwise.

A `World` is the kernel with these tables. Two parts of it are history: the
processes that have come to refer to an object since it was last free
(`users`), and those that have been torn down (`ended`), both by pid.
-/

namespace OsLab.Sched

def MBOX_NUM : ℕ := 8

def PIPE_MAX_COUNT : ℕ := 32

def PIPE_NAME_MAX_LEN : ℕ := 32

/-- A name, without its null byte. -/
abbrev Name := List UInt8

/-- Of a `mailbox_t`. -/
structure MboxEntry where
  name : Name := []
  nref : ℤ := 0

/-- Of a `pipe_entry_t`. -/
structure PipeEntry where
  used : Bool := false
  name : Name := []
  refcnt : ℕ := 0
  ref_bitmap : Finset Slot := ∅

structure Tables where
  mailboxes : Fin MBOX_NUM → MboxEntry := fun _ => {}
  mbox_ref : Fin MBOX_NUM → Finset Slot := fun _ => ∅
  pipes : Fin PIPE_MAX_COUNT → PipeEntry := fun _ => {}

namespace Tables

/-! ## Mailboxes -/

/-- The two loops of `do_mbox_open`: the mailbox of the name, or a free one. -/
def mboxFor (t : Tables) (name : Name) : Option (Fin MBOX_NUM) :=
  ((List.finRange MBOX_NUM).find? fun i =>
    decide (t.mbox_ref i ≠ ∅ ∧ (t.mailboxes i).name = name)).or
  ((List.finRange MBOX_NUM).find? fun i => decide (t.mbox_ref i = ∅))

/-- `do_mbox_open`. A free mailbox is set up first. -/
def doMboxOpen (t : Tables) (p : Slot) (name : Name) : Except Halt Tables :=
  match t.mboxFor name with
  | some i =>
    let m := if t.mbox_ref i = ∅ then { name := name } else t.mailboxes i
    .ok { t with
      mailboxes := upd t.mailboxes i { m with nref := wrap (m.nref + 1) }
      mbox_ref := upd t.mbox_ref i (insert p (t.mbox_ref i)) }
  | none => .error .noIndex

/-- `do_mbox_close`, by whoever calls it. -/
def doMboxClose (t : Tables) (mbox_idx : ℤ) : Tables :=
  if h : 0 ≤ mbox_idx ∧ mbox_idx.toNat < MBOX_NUM then
    let i : Fin MBOX_NUM := ⟨mbox_idx.toNat, h.2⟩
    let nref := wrap ((t.mailboxes i).nref - 1)
    if t.mbox_ref i = ∅ then t
    else if 0 < nref then
      { t with mailboxes := upd t.mailboxes i { t.mailboxes i with nref := nref } }
    else
      { t with mailboxes := upd t.mailboxes i {}, mbox_ref := upd t.mbox_ref i ∅ }
  else t

/-- `cleanup_mailboxes`, whose rounds have to do with one mailbox each. -/
def cleanupMailboxes (t : Tables) (p : Slot) : Tables :=
  { t with
    mbox_ref := fun i => (t.mbox_ref i).erase p
    mailboxes := fun i =>
      if p ∈ t.mbox_ref i ∧ (t.mbox_ref i).erase p = ∅ then {} else t.mailboxes i }

/-! ## Pipes -/

/-- The loop of `pipe_open`: the pipe of the name, or a free one. -/
def pipeFor (t : Tables) (name : Name) : Option (Fin PIPE_MAX_COUNT) :=
  ((List.finRange PIPE_MAX_COUNT).find? fun i =>
    decide ((t.pipes i).used ∧ (t.pipes i).name = name)).or
  ((List.finRange PIPE_MAX_COUNT).find? fun i => !(t.pipes i).used)

/-- `pipe_open`. It has no result if all pipes are in use. -/
def pipeOpen (t : Tables) (p : Slot) (name : Name) : Tables :=
  let local_name := name.take (PIPE_NAME_MAX_LEN - 1)
  match t.pipeFor local_name with
  | some i =>
    let e := if (t.pipes i).used then t.pipes i else { used := true, name := local_name }
    if p ∈ e.ref_bitmap then t
    else
      { t with
        pipes := upd t.pipes i { e with
          ref_bitmap := insert p e.ref_bitmap
          refcnt := e.refcnt + 1 } }
  | none => t

/-- One round of `cleanup_pipe`. -/
def dropPipe (p : Slot) (e : PipeEntry) : PipeEntry :=
  if e.used ∧ p ∈ e.ref_bitmap then
    if e.refcnt - 1 = 0 then {}
    else { e with ref_bitmap := e.ref_bitmap.erase p, refcnt := e.refcnt - 1 }
  else e

def cleanupPipe (t : Tables) (p : Slot) : Tables := { t with pipes := fun i => dropPipe p (t.pipes i) }

/-- What `cleanup_proc` does here. The index is that of the pid, and so of the
process itself: `cleanup_mutexes`, which comes first, stops if there is none. -/
def cleanup (t : Tables) (r : Teardown) : Tables :=
  (t.cleanupMailboxes r.slot).cleanupPipe r.slot

end Tables

/-! ## All six -/

inductive Obj
  | mutex (i : Idx)
  | barrier (i : Idx)
  | cond (i : Idx)
  | sema (i : Idx)
  | mbox (i : Fin MBOX_NUM)
  | pipe (i : Fin PIPE_MAX_COUNT)
  deriving DecidableEq

/-- The bitmap of an object, of those that `Kernel` has. -/
def Kernel.ref (s : Kernel) : Obj → Finset Slot
  | .mutex i => s.mlock_ref i
  | .barrier i => s.barrier_ref i
  | .cond i => s.cond_ref i
  | .sema i => s.sema_ref i
  | _ => ∅

/-- The object that an init call is for. -/
def Kernel.gives (s : Kernel) : Call → Option Obj
  | .mutexInit key =>
    ((findKey s.mlock_ref (fun i => (s.mlocks i).key) key).or (findFree s.mlock_ref)).map .mutex
  | .condInit key => ((findKey s.cond_ref s.cond_key key).or (findFree s.cond_ref)).map .cond
  | .semaInit key _ =>
    ((findKey s.sema_ref (fun i => (s.semaphores i).key) key).or (findFree s.sema_ref)).map .sema
  | .barrierInit key _ =>
    ((findKey s.barrier_ref (fun i => (s.barriers i).key) key).or (findFree s.barrier_ref)).map .barrier
  | _ => none

structure World where
  kernel : Kernel
  tables : Tables
  users : Obj → Finset ℤ
  ended : List ℤ

/-- The calls that have to do with the two tables. -/
inductive TableCall
  | mboxOpen (name : Name)
  | mboxClose (mbox_idx : ℤ)
  | pipeOpen (name : Name)

/-- A step of the kernel, or one of the calls above by the process that a
processor runs. -/
inductive Move
  | sched (e : Event)
  | table (c : Cpu) (call : TableCall) (next : Slot) (drops : Slot → List ℕ)

namespace World

/-- The bitmap of an object. -/
def ref (w : World) : Obj → Finset Slot
  | .mbox i => w.tables.mbox_ref i
  | .pipe i => (w.tables.pipes i).ref_bitmap
  | o => w.kernel.ref o

/-- A process has come to refer to an object. One that was free begins
anew. -/
def refer (w : World) (pid : ℤ) (o : Obj) : Obj → Finset ℤ :=
  upd w.users o (if w.ref o = ∅ then {pid} else insert pid (w.users o))

/-- The history after a step of the kernel. -/
def usersAfter (w : World) : Event → Obj → Finset ℤ
  | .enter c call _ _ =>
    if w.kernel.status (w.kernel.current c) = .killed then w.users
    else
      match w.kernel.gives call with
      | some o => w.refer (w.kernel.curPid c) o
      | none => w.users
  | _ => w.users

def schedStep (w : World) (e : Event) : Except Halt World := do
  let k ← w.kernel.step e
  return {
    kernel := k
    tables := (w.kernel.teardowns e).foldl Tables.cleanup w.tables
    users := w.usersAfter e
    ended := w.ended ++ (w.kernel.teardowns e).map Teardown.pid }

/-- A call of the process `p`. -/
def tableStep (w : World) (p : Slot) (pid : ℤ) : TableCall → Except Halt World
  | .mboxOpen name => do
    let t ← w.tables.doMboxOpen p name
    return { w with
      tables := t
      users := ((w.tables.mboxFor name).elim w.users fun i => w.refer pid (.mbox i)) }
  | .mboxClose mbox_idx => .ok { w with tables := w.tables.doMboxClose mbox_idx }
  | .pipeOpen name =>
    .ok { w with
      tables := w.tables.pipeOpen p name
      users := ((w.tables.pipeFor (name.take (PIPE_NAME_MAX_LEN - 1))).elim w.users fun i =>
        w.refer pid (.pipe i)) }

/-- The step of the kernel that a move is. A process that has been killed
exits when it enters the kernel. -/
def event (w : World) : Move → Option Event
  | .sched e => some e
  | .table c _ next drops =>
    if w.kernel.status (w.kernel.current c) = .killed then some (.enter c .exit next drops) else none

def step (w : World) : Move → Except Halt World
  | .sched e => w.schedStep e
  | .table c call next drops =>
    if w.kernel.status (w.kernel.current c) = .killed then w.schedStep (.enter c .exit next drops)
    else if (w.kernel.pcb (w.kernel.current c)).cont ≠ .user then .error .busy
    else do
      let p ← w.kernel.getPcbIndex (w.kernel.curPid c)
      w.tableStep p (w.kernel.curPid c) call

end World

/-- Nothing is in use. -/
def World.boot : World := ⟨Sched.boot, {}, fun _ => ∅, []⟩

/-- The worlds that runs from the start reach, all of whose moves are
`Good`. -/
inductive World.Reach (Good : World → Move → Prop) : World → Prop
  | boot : Reach Good World.boot
  | step {w w' : World} {m : Move} (hw : Reach Good w) (hg : Good w m) (hm : w.step m = .ok w') :
      Reach Good w'

end OsLab.Sched
