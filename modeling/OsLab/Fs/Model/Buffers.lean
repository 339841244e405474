import OsLab.Fs.Model.Layout
/-!
# Block buffers

The first part of `kernel/fs/block.c`: eight buffers with reference
counts between the file system and the store of blocks below. An opened
block is modified in place, through the pointer `block_open` returned.
-/

namespace OsLab.Buffers

def BLOCK_CONCURRENCY : ℕ := 8

/-- A pointer into `blocks`. -/
abbrev Ptr := Fin BLOCK_CONCURRENCY

/-- `block_t`. -/
structure Buffer where
  valid : Bool
  block_num : ℕ
  /-- The opens of the block less its closes; an `int`, so fewer than `2 ^ 31`. -/
  refcnt : ℕ
  data : Block

/-- `block_read` and `block_write` of whatever is below the buffers. -/
structure BlockIo (σ : Type) where
  read : σ → ℕ → Block × σ
  write : σ → ℕ → Block → σ

/-- A store below the buffers: `block_read` returns what was last given to
`block_write` for the block, and changes nothing that a later read
returns. -/
structure BlockStore (σ : Type) extends BlockIo σ where
  /-- What a read of the block would return. -/
  holds : σ → ℕ → Block
  read_fst : ∀ t n, (read t n).1 = holds t n
  holds_read : ∀ t n, holds (read t n).2 = holds t
  holds_write : ∀ t n b, holds (write t n b) = upd (holds t) n b

instance {σ : Type} : CoeOut (BlockStore σ) (BlockIo σ) := ⟨BlockStore.toBlockIo⟩

/-- The buffers and the store. -/
structure Layer (σ : Type) where
  blocks : Ptr → Buffer
  store : σ

inductive Halt
  /-- `no available block buffer` -/
  | noBuffer
  /-- `block_close with refcnt <= 0` -/
  | notOpen
  deriving DecidableEq

namespace Layer

variable {σ : Type} (S : BlockIo σ) (s : Layer σ)

def setBlock (i : Ptr) (b : Buffer) : Layer σ := { s with blocks := upd s.blocks i b }

/-- The first loop of `block_open`. -/
def find (n : ℕ) : Option Ptr :=
  (List.finRange BLOCK_CONCURRENCY).find? fun i => (s.blocks i).valid && (s.blocks i).block_num == n

/-- The buffer the second loop of `block_open` takes. -/
def free : Option Ptr :=
  (List.finRange BLOCK_CONCURRENCY).find? fun i => !(s.blocks i).valid || (s.blocks i).refcnt == 0

/-- The body of the second loop of `block_open`. -/
def load (i : Ptr) (n : ℕ) : Layer σ :=
  let b := s.blocks i
  let t := if b.valid then S.write s.store b.block_num b.data else s.store
  { blocks := upd s.blocks i ⟨true, n, 1, (S.read t n).1⟩, store := (S.read t n).2 }

/-- `block_open`. -/
def blockOpen (n : ℕ) : Except Halt (Ptr × Layer σ) :=
  match s.find n with
  | some i => .ok (i, s.setBlock i { s.blocks i with refcnt := (s.blocks i).refcnt + 1 })
  | none =>
    match s.free with
    | some i => .ok (i, s.load S i n)
    | none => .error .noBuffer

/-- `block_close`. -/
def blockClose (i : Ptr) : Except Halt (Layer σ) :=
  if (s.blocks i).refcnt = 0 then .error .notOpen
  else .ok (s.setBlock i { s.blocks i with refcnt := (s.blocks i).refcnt - 1 })

/-- An opened block is modified in place. -/
def modify (i : Ptr) (f : Block → Block) : Layer σ :=
  s.setBlock i { s.blocks i with data := f (s.blocks i).data }

/-- `block_memset`. -/
def blockMemset (n : ℕ) (val : UInt8) : Except Halt (Layer σ) := do
  let (i, s) ← s.blockOpen S n
  (s.modify i fun _ => Bytes.fill val).blockClose i

/-- One buffer of `flush_block_cache`, open or not. -/
def writeBack (i : Ptr) : Layer σ :=
  let b := s.blocks i
  if b.valid then { s with store := S.write s.store b.block_num b.data } else s

/-- `flush_block_cache`. -/
def flush : Layer σ := (List.finRange BLOCK_CONCURRENCY).foldl (writeBack S) s

/-- No buffer is in use. -/
def start (t : σ) : Layer σ := ⟨fun _ => ⟨false, 0, 0, fun _ => 0⟩, t⟩

end Layer

/-! ## Users of the layer -/

/-- What a user of the layer does. An opened block is named by its place
among those that are open. -/
inductive Op
  | blockOpen (n : ℕ)
  | modify (j : ℕ) (f : Block → Block)
  | blockClose (j : ℕ)
  | blockMemset (n : ℕ) (val : UInt8)
  | flush

/-- The layer, and the pointers its users hold. -/
structure Session (σ : Type) where
  layer : Layer σ
  held : List Ptr

namespace Session

variable {σ : Type} (S : BlockIo σ)

/-- One operation, and the bytes an opened block shows. -/
def step (s : Session σ) : Op → Except Halt (Option Block × Session σ)
  | .blockOpen n => do
    let (i, l) ← s.layer.blockOpen S n
    .ok (some (l.blocks i).data, ⟨l, s.held ++ [i]⟩)
  | .modify j f =>
    match s.held[j]? with
    | some i => .ok (none, { s with layer := s.layer.modify i f })
    | none => .error .notOpen
  | .blockClose j =>
    match s.held[j]? with
    | some i => do
      let l ← s.layer.blockClose i
      .ok (none, ⟨l, s.held.eraseIdx j⟩)
    | none => .error .notOpen
  | .blockMemset n val => do
    let l ← s.layer.blockMemset S n val
    .ok (none, { s with layer := l })
  | .flush => .ok (none, { s with layer := s.layer.flush S })

/-- A sequence of operations, and what the opened blocks showed. -/
def run : Session σ → List Op → Except Halt (List (Option Block) × Session σ)
  | s, [] => .ok ([], s)
  | s, op :: ops => do
    let (out, s) ← s.step S op
    let (outs, s) ← run s ops
    .ok (out :: outs, s)

def start (t : σ) : Session σ := ⟨.start t, []⟩

end Session

/-! ## One flat array -/

/-- What the layer is to look like: the bytes last left in each block, and
the blocks that are open. -/
structure Flat where
  bytes : ℕ → Block
  opened : List ℕ

namespace Flat

/-- Opening a block leaves no more than eight different ones open. -/
def Fits (F : Flat) (n : ℕ) : Prop := (n :: F.opened).toFinset.card ≤ BLOCK_CONCURRENCY

instance (F : Flat) (n : ℕ) : Decidable (F.Fits n) := inferInstanceAs (Decidable (_ ≤ _))

/-- One operation on the array, where its users keep to eight blocks and
to the blocks they have open. -/
def step (F : Flat) : Op → Option (Option Block × Flat)
  | .blockOpen n => if F.Fits n then some (some (F.bytes n), { F with opened := F.opened ++ [n] }) else none
  | .modify j f => F.opened[j]?.map fun n => (none, { F with bytes := upd F.bytes n (f (F.bytes n)) })
  | .blockClose j => F.opened[j]?.map fun _ => (none, { F with opened := F.opened.eraseIdx j })
  | .blockMemset n val =>
    if F.Fits n then some (none, { F with bytes := upd F.bytes n (Bytes.fill val) }) else none
  | .flush => some (none, F)

def run : Flat → List Op → Option (List (Option Block) × Flat)
  | F, [] => some ([], F)
  | F, op :: ops => do
    let (out, F) ← F.step op
    let (outs, F) ← run F ops
    some (out :: outs, F)

end Flat

end OsLab.Buffers
