import OsLab.Common.Bytes
import OsLab.Common.Ring
/-!
# The mailbox

`do_mbox_send` and `do_mbox_recv` of `kernel/locking/mailbox.cpp` on one
open mailbox, with the mutex and the two conditions they use. The index is
in range and the mailbox is in use, so the checks at the head of the two
calls pass.

Each process stands at one of the points between which the code takes or
gives up `buffer_lock`, and any process that is on no list may go next. A
process on a list is woken by being taken off it.
-/

namespace OsLab.Mailbox

def MAX_MBOX_LENGTH : ℕ := 256

/-- Where a process stands. -/
inductive Pc
  /-- in neither call -/
  | idle
  /-- at the test of the loop -/
  | top
  /-- in `mutex_acquire`, for the guard of the loop's body -/
  | enter
  /-- holding the lock, about to look at the buffer -/
  | inside
  /-- having moved a byte, about to call `condition_signal` -/
  | signal
  /-- about to release the lock at the end of the body -/
  | leave
  /-- on a wait list, about to release the lock in `condition_wait` -/
  | wait
  /-- in `mutex_acquire`, at the end of `condition_wait` -/
  | again
  deriving DecidableEq

/-- The call a process makes, with its loop counter. What `do_mbox_recv`
has stored is the list `received`. -/
inductive Call
  | send (message : Bytes) (msg_length : ℤ) (sent : ℕ)
  | recv (msg_length : ℤ) (received : List UInt8)

namespace Call

def isSend : Call → Bool
  | send .. => true
  | recv .. => false

/-- The test of the loop. -/
def more : Call → Bool
  | send _ msg_length sent => decide ((sent : ℤ) < msg_length)
  | recv msg_length received => decide ((received.length : ℤ) < msg_length)

end Call

/-- A process: its call, and the messages of the calls it has finished.
`signalled` records that a signal woke it and that it has not looked at
the buffer since. -/
structure Proc where
  pc : Pc := .idle
  call : Call := .recv 0 []
  blocked : Bool := false
  returned : Bool := false
  signalled : Bool := false
  sends : List (List UInt8) := []
  recvs : List (List UInt8) := []

structure Mbox (P : Type) where
  buffer : Bytes
  head : ℕ
  tail : ℕ
  used : ℕ
  -- `buffer_lock`
  acquired : Bool
  pid : Option P
  block_list : List P
  -- the wait lists of the two conditions
  empty : List P
  full : List P

/-- The mailbox, the processes, and what has been placed and removed so
far and by whom. -/
structure State (P : Type) where
  mbox : Mbox P
  proc : P → Proc
  placed : List (P × UInt8)
  removed : List (P × UInt8)

/-- The mailbox as `do_mbox_open` makes it, and nobody in a call. -/
def State.init (P : Type) : State P where
  mbox :=
    { buffer := Bytes.fill 0, head := 0, tail := 0, used := 0, acquired := false, pid := none
      block_list := [], empty := [], full := [] }
  proc := fun _ => {}
  placed := []
  removed := []

variable {P : Type} [DecidableEq P]

/-! ## The lock -/

/-- One round of `mutex_acquire`: the process has the lock, or it is on
its list. -/
def mutexAcquire (m : Mbox P) (p : P) : Mbox P :=
  if m.acquired then { m with block_list := m.block_list ++ [p] }
  else { m with acquired := true, pid := some p }

/-- `mutex_release`, with its `unblock_list`. -/
def mutexRelease (m : Mbox P) : Mbox P := { m with acquired := false, block_list := [] }

/-! ## The conditions -/

/-- The wait list of the condition that senders, or receivers, wait for. -/
def Mbox.waits (m : Mbox P) : Bool → List P
  | true => m.full
  | false => m.empty

def Mbox.setWaits (m : Mbox P) (l : List P) : Bool → Mbox P
  | true => { m with full := l }
  | false => { m with empty := l }

variable (s : State P)

/-- `condition_signal` on the condition of the senders, or of the
receivers. -/
def conditionSignal (send : Bool) : State P :=
  match s.mbox.waits send with
  | [] => s
  | q :: rest =>
    { s with
      mbox := s.mbox.setWaits rest send
      proc := upd s.proc q { s.proc q with signalled := true } }

/-! ## The two calls -/

/-- The body of `do_mbox_send`, the lock held. -/
def sendBody (p : P) (message : Bytes) (msg_length : ℤ) (sent : ℕ) : State P :=
  if s.mbox.used < MAX_MBOX_LENGTH then
    { s with
      mbox := { s.mbox with
        buffer := upd s.mbox.buffer s.mbox.tail (message sent)
        tail := (s.mbox.tail + 1) % MAX_MBOX_LENGTH
        used := s.mbox.used + 1 }
      proc := upd s.proc p { s.proc p with
        pc := .signal, call := .send message msg_length (sent + 1), signalled := false }
      placed := s.placed ++ [(p, message sent)] }
  else
    { s with
      mbox := { s.mbox with full := s.mbox.full ++ [p] }
      proc := upd s.proc p { s.proc p with pc := .wait, blocked := true, signalled := false } }

/-- The body of `do_mbox_recv`, the lock held. -/
def recvBody (p : P) (msg_length : ℤ) (received : List UInt8) : State P :=
  if 0 < s.mbox.used then
    { s with
      mbox := { s.mbox with
        head := (s.mbox.head + 1) % MAX_MBOX_LENGTH
        used := s.mbox.used - 1 }
      proc := upd s.proc p { s.proc p with
        pc := .signal
        call := .recv msg_length (received ++ [s.mbox.buffer s.mbox.head])
        signalled := false }
      removed := s.removed ++ [(p, s.mbox.buffer s.mbox.head)] }
  else
    { s with
      mbox := { s.mbox with empty := s.mbox.empty ++ [p] }
      proc := upd s.proc p { s.proc p with pc := .wait, blocked := true, signalled := false } }

def body (p : P) : State P :=
  match (s.proc p).call with
  | .send message msg_length sent => sendBody s p message msg_length sent
  | .recv msg_length received => recvBody s p msg_length received

/-- The end of a call: the message it was about is done. -/
def Proc.finish (pr : Proc) : Proc :=
  let pr' := { pr with pc := .idle, call := .recv 0 [], returned := pr.blocked }
  match pr.call with
  | .send message msg_length _ =>
    { pr' with sends := pr.sends ++ [(List.range msg_length.toNat).map message] }
  | .recv _ received => { pr' with recvs := pr.recvs ++ [received] }

def State.setPc (p : P) (pc : Pc) : State P :=
  { s with proc := upd s.proc p { s.proc p with pc := pc } }

def State.setMbox (m : Mbox P) : State P := { s with mbox := m }

/-- A call is made. -/
def State.begin (p : P) (c : Call) : State P :=
  { s with proc := upd s.proc p { s.proc p with pc := .top, call := c, blocked := false } }

/-- A process goes on by one step. -/
def step (p : P) : State P :=
  match (s.proc p).pc with
  | .idle => s
  | .top =>
    if (s.proc p).call.more then s.setPc p .enter
    else { s with proc := upd s.proc p (s.proc p).finish }
  | .enter => (s.setMbox (mutexAcquire s.mbox p)).setPc p (if s.mbox.acquired then .enter else .inside)
  | .inside => body s p
  | .signal => (conditionSignal s !(s.proc p).call.isSend).setPc p .leave
  | .leave => (s.setMbox (mutexRelease s.mbox)).setPc p .top
  | .wait => (s.setMbox (mutexRelease s.mbox)).setPc p .again
  | .again => (s.setMbox (mutexAcquire s.mbox p)).setPc p (if s.mbox.acquired then .again else .leave)

/-- On no list. -/
def Ready (p : P) : Prop :=
  p ∉ s.mbox.block_list ∧ p ∉ s.mbox.empty ∧ p ∉ s.mbox.full

instance (s : State P) (p : P) : Decidable (Ready s p) := inferInstanceAs (Decidable (_ ∧ _ ∧ _))

/-- **Any interleaving.** A process outside makes a call, or one inside
goes on. One that has just put itself on a wait list has yet to release
the lock. -/
inductive Step : State P → State P → Prop
  | send (s : State P) (p : P) (message : Bytes) (msg_length : ℤ) (hpc : (s.proc p).pc = .idle) :
      Step s (s.begin p (.send message msg_length 0))
  | recv (s : State P) (p : P) (msg_length : ℤ) (hpc : (s.proc p).pc = .idle) :
      Step s (s.begin p (.recv msg_length []))
  | run (s : State P) (p : P) (hpc : (s.proc p).pc ≠ .idle)
      (hready : (s.proc p).pc = .wait ∨ Ready s p) : Step s (step s p)

/-- The states reached by any run. -/
def Reachable : Prop := Relation.ReflTransGen Step (State.init P) s

/-! ## Schedules -/

/-- The processes of the list can go on one after the other. -/
def Schedule (s : State P) : List P → Prop
  | [] => True
  | p :: ps => (s.proc p).pc ≠ .idle ∧ ((s.proc p).pc = .wait ∨ Ready s p) ∧ Schedule (step s p) ps

instance (s : State P) (ps : List P) : Decidable (Schedule s ps) :=
  match ps with
  | [] => inferInstanceAs (Decidable True)
  | p :: ps =>
    have : Decidable (Schedule (step s p) ps) := instDecidableSchedule (step s p) ps
    inferInstanceAs (Decidable (_ ∧ _ ∧ _))

theorem Reachable.schedule {s : State P} {ps : List P} (h : Reachable s) (hps : Schedule s ps) :
    Reachable (ps.foldl step s) := by
  induction ps generalizing s with
  | nil => exact h
  | cons p ps ih => exact ih (.tail h (.run s p hps.1 hps.2.1)) hps.2.2

end OsLab.Mailbox
