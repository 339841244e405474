import OsLab.Common.Update
import Mathlib.Data.Nat.Bitwise
/-!
# The kernel allocator

`kernel/mm/kmalloc.c`: a buddy allocator over one pool of 4 MiB. A free
block holds the link of its free list in its first word, and a block in
use holds its header there, so the lists live in the memory they manage.
Memory is 64-bit words by address; a list ends in the null pointer `0`.
-/

namespace OsLab.Kmalloc

def POOL_PAGES : ℕ := 1024
def PAGE_SIZE : ℕ := 4096
def POOL_BYTES : ℕ := POOL_PAGES * PAGE_SIZE
def MIN_ORDER : ℕ := 4
def MIN_BLOCK_SIZE : ℕ := 2 ^ MIN_ORDER
def MAX_ORDER : ℕ := 22
def HEADER_MAGIC : ℕ := 0xC0DECAFE

/-- `sizeof(block_header_t)`. -/
def HEADER_SIZE : ℕ := 8

/-- The allocator's variables and the memory. -/
structure Heap where
  kmalloc_ready : Bool
  pool_base : ℕ
  pool_end : ℕ
  free_lists : ℕ → ℕ
  mem : ℕ → ℕ
  /-- What `alloc_pageframe` answers. It halts rather than answer `0`. -/
  frame : ℕ
  frame_pos : 0 < frame

/-- A store to memory. -/
def Heap.store (h : Heap) (addr val : ℕ) : Heap := { h with mem := upd h.mem addr val }

def orderSize (order : ℕ) : ℕ := 2 ^ order

def orderIndex (order : ℕ) : ℕ := order - MIN_ORDER

/-! ## Free lists -/

def pushBlock (order addr : ℕ) (h : Heap) : Heap :=
  { h with
    mem := upd h.mem addr (h.free_lists (orderIndex order))
    free_lists := upd h.free_lists (orderIndex order) addr }

/-- `pop_block`: a block, or `0`. -/
def popBlock (order : ℕ) (h : Heap) : ℕ × Heap :=
  let block := h.free_lists (orderIndex order)
  if block = 0 then (0, h)
  else (block, { h with free_lists := upd h.free_lists (orderIndex order) (h.mem block) })

/-- The inner loop of `acquire_block`: halve the block down to `order`. -/
def splitBlock (order block : ℕ) : (cur : ℕ) → Heap → Heap
  | 0, h => h
  | cur + 1, h =>
    if order < cur + 1 then splitBlock order block cur (pushBlock cur (block + orderSize cur) h)
    else h

/-- The outer loop of `acquire_block`, from order `cur`. -/
def acquireFrom (order : ℕ) : (fuel cur : ℕ) → Heap → ℕ × Heap
  | 0, _, h => (0, h)
  | fuel + 1, cur, h =>
    if cur ≤ MAX_ORDER then
      let (block, h) := popBlock cur h
      if block = 0 then acquireFrom order fuel (cur + 1) h
      else (block, splitBlock order block cur h)
    else (0, h)

def acquireBlock (order : ℕ) (h : Heap) : ℕ × Heap :=
  acquireFrom order (MAX_ORDER + 1 - order) order h

/-- A `free_block_t**`: the head of a list, or the link in a block. -/
inductive Link
  | head (idx : ℕ)
  | next (addr : ℕ)

def Link.get (h : Heap) : Link → ℕ
  | head idx => h.free_lists idx
  | next addr => h.mem addr

def Link.set (h : Heap) (val : ℕ) : Link → Heap
  | head idx => { h with free_lists := upd h.free_lists idx val }
  | next addr => { h with mem := upd h.mem addr val }

/-- The search of `merge_block`: the link that points to `buddy`. -/
def findBuddy (h : Heap) (buddy : ℕ) : (fuel : ℕ) → (prev : Link) → Option Link
  | 0, _ => none
  | fuel + 1, prev =>
    let cur := prev.get h
    if cur = 0 then none
    else if cur = buddy then some prev
    else findBuddy h buddy fuel (.next cur)

/-- The loop of `merge_block`. A list has at most a block for each
smallest block of the pool. -/
def mergeFrom : (fuel addr order : ℕ) → Heap → ℕ × ℕ × Heap
  | 0, addr, order, h => (addr, order, h)
  | fuel + 1, addr, order, h =>
    if order < MAX_ORDER then
      let offset := addr - h.pool_base
      let buddy := h.pool_base + (offset ^^^ orderSize order)
      match findBuddy h buddy (POOL_BYTES / MIN_BLOCK_SIZE + 1) (.head (orderIndex order)) with
      | some prev =>
        mergeFrom fuel (if buddy < addr then buddy else addr) (order + 1) (prev.set h (h.mem buddy))
      | none => (addr, order, h)
    else (addr, order, h)

def mergeBlock (addr order : ℕ) (h : Heap) : Heap :=
  let (addr, order, h) := mergeFrom (MAX_ORDER + 1) addr order h
  pushBlock order addr h

/-! ## The interface -/

def initKmalloc (h : Heap) : Heap :=
  pushBlock MAX_ORDER h.frame
    { h with
      pool_base := h.frame
      pool_end := h.frame + POOL_BYTES
      free_lists := fun _ => 0
      kmalloc_ready := true }

/-- The first order from `order` whose blocks are large enough. -/
def fitOrder (total : ℕ) : (fuel order : ℕ) → ℕ
  | 0, order => order
  | fuel + 1, order =>
    if order ≤ MAX_ORDER ∧ orderSize order < total then fitOrder total fuel (order + 1) else order

/-- The first word of a block in use: order below, magic above. -/
def header (order magic : ℕ) : ℕ := order + magic * 2 ^ 32

def headerOrder (word : ℕ) : ℕ := word % 2 ^ 32

def headerMagic (word : ℕ) : ℕ := word / 2 ^ 32

/-- `kmalloc`: a pointer, or `0` for `NULL`. -/
def kmalloc (size : ℕ) (h : Heap) : ℕ × Heap :=
  let h := if h.kmalloc_ready then h else initKmalloc h
  if size = 0 then (0, h)
  else
    let total := (size + HEADER_SIZE) % 2 ^ 64
    let total := if total < MIN_BLOCK_SIZE then MIN_BLOCK_SIZE else total
    let order := fitOrder total (MAX_ORDER + 1) MIN_ORDER
    if MAX_ORDER < order then (0, h)
    else
      let (block, h) := acquireBlock order h
      if block = 0 then (0, h)
      else (block + HEADER_SIZE, h.store block (header order HEADER_MAGIC))

/-- `kfree`. -/
def kfree (ptr : ℕ) (h : Heap) : Heap :=
  let h := if h.kmalloc_ready then h else initKmalloc h
  if ptr = 0 then h
  else
    let addr := ptr - HEADER_SIZE
    if addr < h.pool_base ∨ h.pool_end ≤ addr then h
    else
      let word := h.mem addr
      if headerMagic word ≠ HEADER_MAGIC ∨ MAX_ORDER < headerOrder word ∨
          headerOrder word < MIN_ORDER then h
      else
        mergeBlock addr (headerOrder word) (h.store addr (header (headerOrder word) 0))

end OsLab.Kmalloc
