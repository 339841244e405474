import OsLab.Mailbox.Model
import Mathlib.Data.Fintype.Basic
/-!
# The table of mailboxes

The other calls of `kernel/locking/mailbox.cpp`: `do_mbox_open`,
`do_mbox_close` and `cleanup_mailboxes`, which a process runs through when it
exits or is killed. `mailboxes` is the array in memory, so that a
name which is longer than its field goes on into what follows it. The lock and the
conditions of a mailbox are carried along as bytes here.

Of `do_mbox_send` and `do_mbox_recv` there is which mailbox a process is in,
and what moving a byte does to it.
-/

namespace OsLab

namespace Bytes

/-- The `int` at word index `k`. -/
def int (b : Bytes) (k : ℕ) : ℤ := Int.bmod (b.word k).toNat (2 ^ 32)

/-- Store an `int` at word index `k`. -/
def setInt (b : Bytes) (k : ℕ) (z : ℤ) : Bytes := b.setWord k (UInt32.ofNat (z % 2 ^ 32).toNat)

end Bytes

namespace Mailbox

def MBOX_NUM : ℕ := 8
def MAX_MBOX_NAME : ℕ := 32
def NUM_MAX_PCB : ℕ := 34

/-- `sizeof(mailbox_t)`: name and buffer, four `int`s, and 136 bytes for the lock and the
two conditions. -/
def MBOX_SIZE : ℕ := 440

/-- Where the lock begins. -/
def LOCK_OFFSET : ℕ := 304

instance : NeZero NUM_MAX_PCB := ⟨by decide⟩

/-- A place in `pcb_all`. -/
abbrev Pcb := Fin NUM_MAX_PCB

structure Table where
  mailboxes : Bytes
  mbox_ref : ℕ → Finset Pcb
  /-- the mailbox in whose `do_mbox_send` or `do_mbox_recv` a process is -/
  inside : Pcb → Option ℕ
  /-- Ghost: the opens of a process that its own closes have not matched. -/
  opens : Pcb → ℕ → ℕ
  /-- Ghost: such opens of processes that have exited while the mailbox stayed. -/
  left : ℕ → ℕ

namespace Table

/-! ## Fields -/

-- word indices of the fields of mailbox `i`
def nrefAt (i : ℕ) : ℕ := 110 * i + 72
def usedAt (i : ℕ) : ℕ := 110 * i + 73
def headAt (i : ℕ) : ℕ := 110 * i + 74
def tailAt (i : ℕ) : ℕ := 110 * i + 75

variable (s : Table)

def nref (i : ℕ) : ℤ := s.mailboxes.int (nrefAt i)
def used (i : ℕ) : ℤ := s.mailboxes.int (usedAt i)
def head (i : ℕ) : ℤ := s.mailboxes.int (headAt i)
def tail (i : ℕ) : ℤ := s.mailboxes.int (tailAt i)

/-- Where the buffer has its byte `k`. -/
def bufferAt (i : ℕ) (k : ℤ) : ℕ := ((MBOX_SIZE * i + MAX_MBOX_NAME : ℕ) + k).toNat

/-- After `init_mbox`. -/
def init : Table where
  mailboxes := Bytes.fill 0
  mbox_ref _ := ∅
  inside _ := none
  opens _ _ := 0
  left _ := 0

/-- `mailbox_init`, the lock and the conditions apart. -/
def mailboxInit (m : Bytes) (i : ℕ) : Bytes := m.blit (MBOX_SIZE * i) (Bytes.fill 0) 0 LOCK_OFFSET

/-- `mailbox_destruct`. Those who wait are woken. -/
def mailboxDestruct (m : Bytes) (i : ℕ) : Bytes := m.blit (MBOX_SIZE * i) (Bytes.fill 0) 0 MBOX_SIZE

/-- `strcmp(s, name) == 0`, where `s` is the string at `off`. -/
def strEq (m : Bytes) (off : ℕ) : List UInt8 → Bool
  | [] => m off == 0
  | c :: cs => m off == c && strEq m (off + 1) cs

/-- `strcpy`. -/
def strcpy (m : Bytes) (off : ℕ) (name : List UInt8) : Bytes :=
  m.blit off (fun k => name.getD k 0) 0 (name.length + 1)

/-! ## The calls -/

/-- The first loop of `do_mbox_open`. -/
def existing (name : List UInt8) : Option ℕ :=
  (List.range MBOX_NUM).find? fun i => s.mbox_ref i ≠ ∅ && strEq s.mailboxes (MBOX_SIZE * i) name

/-- The second loop. -/
def unused : Option ℕ := (List.range MBOX_NUM).find? fun i => s.mbox_ref i = ∅

/-- The mailbox has been found, or made: count the reference, and note who has it. -/
def reference (p : Pcb) (i : ℕ) : Table :=
  { s with
    mailboxes := s.mailboxes.setInt (nrefAt i) (s.nref i + 1)
    mbox_ref := upd s.mbox_ref i (insert p (s.mbox_ref i))
    opens := upd s.opens p (upd (s.opens p) i (s.opens p i + 1)) }

/-- `do_mbox_open`. When no mailbox is left the assertion fails. -/
def doMboxOpen (p : Pcb) (name : List UInt8) : Option Table :=
  match s.existing name with
  | some i => some (s.reference p i)
  | none => s.unused.map fun i =>
    { s with mailboxes := strcpy (mailboxInit s.mailboxes i) (MBOX_SIZE * i) name }.reference p i

/-- The end of mailbox `i`. -/
def destroy (i : ℕ) : Table :=
  { s with
    mailboxes := mailboxDestruct s.mailboxes i
    mbox_ref := upd s.mbox_ref i ∅
    left := upd s.left i 0 }

/-- A close of mailbox `i` that is in use. -/
def dereference (p : Pcb) (i : ℕ) : Table :=
  { s with
    mailboxes := s.mailboxes.setInt (nrefAt i) (s.nref i - 1)
    opens := upd s.opens p (upd (s.opens p) i (s.opens p i - 1)) }

/-- The end of `do_mbox_close`: at `nref` 0 the mailbox is destroyed. -/
def retire (i : ℕ) : Table := if 0 < s.nref i then s else s.destroy i

/-- `do_mbox_close`. -/
def doMboxClose (p : Pcb) (mbox_idx : ℤ) : Table :=
  if mbox_idx < 0 ∨ MBOX_NUM ≤ mbox_idx then s
  else if s.mbox_ref mbox_idx.toNat = ∅ then s
  else (s.dereference p mbox_idx.toNat).retire mbox_idx.toNat

/-- The process lets go of mailbox `i`, which stays. -/
def leaveBehind (p : Pcb) (i : ℕ) : Table :=
  { s with
    mbox_ref := upd s.mbox_ref i ((s.mbox_ref i).erase p)
    opens := upd s.opens p (upd (s.opens p) i 0)
    left := upd s.left i (s.left i + s.opens p i) }

/-- The body of the loop of `cleanup_mailboxes`. -/
def cleanupMailbox (p : Pcb) (s : Table) (i : ℕ) : Table :=
  if p ∈ s.mbox_ref i then
    let s' := s.leaveBehind p i
    if s'.mbox_ref i = ∅ then s'.destroy i else s'
  else s

/-- `cleanup_mailboxes`, as the process ends. -/
def cleanupMailboxes (p : Pcb) : Table :=
  { (List.range MBOX_NUM).foldl (cleanupMailbox p) s with inside := upd s.inside p none }

/-- The checks at the head of `do_mbox_send` and `do_mbox_recv`. -/
def enter (p : Pcb) (mbox_idx : ℤ) : Table :=
  if mbox_idx < 0 ∨ MBOX_NUM ≤ mbox_idx then s
  else if s.mbox_ref mbox_idx.toNat = ∅ then s
  else { s with inside := upd s.inside p (some mbox_idx.toNat) }

/-- `do_mbox_send` puts a byte in the buffer. -/
def put (i : ℕ) (c : UInt8) : Table :=
  if s.used i < MAX_MBOX_LENGTH then
    { s with mailboxes := (Bytes.setInt (upd s.mailboxes (bufferAt i (s.tail i)) c) (tailAt i)
        (Int.tmod (s.tail i + 1) MAX_MBOX_LENGTH)).setInt (usedAt i) (s.used i + 1) }
  else s

/-- `do_mbox_recv` takes a byte from the buffer. -/
def get (i : ℕ) : Table :=
  if 0 < s.used i then
    { s with mailboxes := (s.mailboxes.setInt (headAt i)
        (Int.tmod (s.head i + 1) MAX_MBOX_LENGTH)).setInt (usedAt i) (s.used i - 1) }
  else s

inductive Event
  /-- `do_mbox_open` of the string in these bytes -/
  | opens (p : Pcb) (name : List UInt8)
  | close (p : Pcb) (mbox_idx : ℤ)
  /-- the process exits or is killed -/
  | exit (p : Pcb)
  /-- `do_mbox_send` or `do_mbox_recv` is called -/
  | enter (p : Pcb) (mbox_idx : ℤ)
  | put (p : Pcb) (c : UInt8)
  | get (p : Pcb)
  /-- the call returns -/
  | leave (p : Pcb)

/-- Who does it. -/
def Event.pcb : Event → Pcb
  | opens p _ | close p _ | exit p | enter p _ | put p _ | get p | leave p => p

def step : Event → Option Table
  | .opens p name => if s.inside p = none then s.doMboxOpen p (name.takeWhile (· ≠ 0)) else none
  | .close p mbox_idx => if s.inside p = none then some (s.doMboxClose p mbox_idx) else none
  | .exit p => some (s.cleanupMailboxes p)
  | .enter p mbox_idx => if s.inside p = none then some (s.enter p mbox_idx) else none
  | .put p c => (s.inside p).map fun i => s.put i c
  | .get p => (s.inside p).map fun i => s.get i
  | .leave p => (s.inside p).map fun _ => { s with inside := upd s.inside p none }

/-- The states that runs lead to whose steps all satisfy `P`. -/
inductive Reach (P : Table → Event → Prop) : Table → Prop
  | init : Reach P init
  | step {s s' : Table} (e : Event) (hs : Reach P s) (hp : P s e) (h : s.step e = some s') : Reach P s'

end Table

end Mailbox

end OsLab
