import OsLab.Fs.Model.Layout
import Mathlib.Algebra.BigOperators.Group.Finset.Basic
import Mathlib.Data.List.TakeWhile
/-!
# The page cache

`kernel/fs/cache.c` over the parts of `kernel/mm` it calls: frames and
their records, the three-level page table, eviction, swapping. The cache
keeps the block of sector `s` in the page at virtual address `512 * s`
of its own page directory; a page's swap location is its sector.

Frames are numbered from `FREEMEM_KERNEL`, and a page-table entry that is
present holds the number of its frame. A pointer to an entry is a frame
and an index in it, so that a pointer outlives the table it was made for.
Only the cache's own group is modelled: a frame of another group is one
that is taken and never touched.

The SD card is the plain array `Prog` runs on, by the first sector of
each block.
-/

namespace OsLab.PageCache

open Prog List

/-! ## Data -/

def SECTOR_SIZE : ℕ := 512
def PTE_ENTRY_NUM : ℕ := 512
def MAX_PAGE_NUM : ℕ := 57342
def FS_CACHE_SIZE : ℕ := 8192
def SWAP_LEN : ℕ := 8
/-- The entries of `swap_using`. -/
def NUM_MAX_SWAP : ℕ := 16384

/-- A page-table entry, by its fields. -/
structure Pte where
  present : Bool
  read : Bool
  write : Bool
  exec : Bool
  user : Bool
  soft : Bool
  pfn : ℕ
  deriving DecidableEq

namespace Pte

/-- The entry `0`. -/
def empty : Pte := ⟨false, false, false, false, false, false, 0⟩

/-- `get_attribute(pte, _PAGE_EXEC | _PAGE_READ | _PAGE_WRITE)`. -/
def leaf (p : Pte) : Bool := p.exec || p.read || p.write

/-- `_PAGE_USER | _PAGE_READ | _PAGE_WRITE`. -/
def urw (p : Pte) : Pte := { p with user := true, read := true, write := true }

/-- `_PAGE_USER | _PAGE_READ | _PAGE_WRITE | _PAGE_EXEC`. -/
def urwx (p : Pte) : Pte := { p.urw with exec := true }

end Pte

/-- How a page's contents read as page-table entries, and the contents a
page of entries has. Nothing is assumed of either. -/
class PageWords (β : Type) where
  words : β → ℕ → Pte
  ofWords : (ℕ → Pte) → β

/-- The bits of an entry, as the hardware has them. -/
def Pte.bits (p : Pte) : ℕ :=
  p.present.toNat + 2 * p.read.toNat + 4 * p.write.toNat + 8 * p.exec.toNat + 16 * p.user.toNat +
    256 * p.soft.toNat + 1024 * p.pfn

def Pte.ofBits (n : ℕ) : Pte :=
  ⟨n.testBit 0, n.testBit 1, n.testBit 2, n.testBit 3, n.testBit 4, n.testBit 8, n / 1024⟩

/-- Eight bytes an entry, the lowest first. -/
instance : PageWords Block where
  words b k := Pte.ofBits (∑ i ∈ Finset.range 8, (b (8 * k + i)).toNat * 256 ^ i)
  ofWords t := fun i => UInt8.ofNat ((t (i / 8)).bits / 256 ^ (i % 8))

/-- `pageframe_t`. -/
structure Pageframe where
  /-- Where the entry that maps the frame is. -/
  pte : Option (ℕ × ℕ)
  uva : ℕ
  /-- Ghost: the sector whose block the frame was taken for. -/
  sector : ℕ

/-- The replacement policy of a group: it takes a leaf of the group's
list and may reorder the list, and gives up only when there is none. -/
structure Evict where
  pick : (leaf : ℕ → Bool) → List ℕ → Option (ℕ × List ℕ)
  pick_leaf : ∀ {leaf l f l'}, pick leaf l = some (f, l') → f ∈ l ∧ leaf f = true
  pick_perm : ∀ {leaf l f l'}, pick leaf l = some (f, l') → l'.Perm l
  pick_none : ∀ {leaf l}, pick leaf l = none → ∀ f ∈ l, leaf f = false

/-- `pagecache_config.policy`. -/
inductive Policy
  | writeBack
  | writeThrough
  deriving DecidableEq

/-- The page group of a process that flushes (`get_current_pagegroup`), and
whether a record of `page_groups` is free. -/
structure Caller where
  pages : List ℕ
  used : ℕ
  capacity : ℕ
  spare : Bool

/-- What the cache finds and does not change. -/
structure Env where
  swap_base_location : ℕ
  /-- A store outside `swap_using` traps. If it does not, it hits memory
  that nothing here reads. -/
  traps : Bool
  caller : Caller

/-- The kernel's memory, as far as the cache reaches it. -/
structure Mem (β : Type) where
  pages : ℕ → Pageframe
  /-- `attrs[id].start != 0`. Every run of frames here is one frame. -/
  start : ℕ → Bool
  /-- A frame read as a page table. -/
  table : ℕ → ℕ → Pte
  /-- A frame read as a block. -/
  data : ℕ → β
  /-- `cur_kernel_mem`, as a frame number. -/
  cur_kernel_mem : ℕ
  /-- `fs_cache_group->pages`, from the head. -/
  group : List ℕ
  used : ℕ
  capacity : ℕ
  evict : Evict
  cache_pgdir : ℕ
  policy : Policy
  env : Env
  swap_using : Fin NUM_MAX_SWAP → Bool
  swap_used : UInt64
  swap_counter_in : ℕ
  swap_counter_out : ℕ
  /-- Ghost: the SD writes made for cached pages, as the page's own sector
  and the sector written, the latest first. -/
  writes : List (ℕ × ℕ)

inductive Halt
  | reclaimFailed
  | outOfMemory
  | doubleFree
  | invalidPteState
  | pageAllocated
  | levelNotPresent
  | notSwappedOut
  | vaNotAligned
  | groupNotEmpty
  | outOfBounds
  deriving DecidableEq

/-- A program of the cache, over an SD card of blocks `β`. -/
abbrev CM (β : Type) := Prog (Mem β) Halt β

variable {β : Type} [PageWords β]

def getMem : CM β (Mem β) := .get .ret

def modifyMem (f : Mem β → Mem β) : CM β Unit := .get fun m => .set (f m) (.ret ())

def asserts (cond : Bool) (h : Halt) : CM β Unit := if cond then pure () else .halt h

/-! ## Contents of frames -/

/-- Store an entry. -/
def setPte (a : ℕ × ℕ) (p : Pte) : CM β Unit := modifyMem fun m =>
  { m with
    table := upd m.table a.1 (upd (m.table a.1) a.2 p)
    data := upd m.data a.1 (PageWords.ofWords (upd (m.table a.1) a.2 p)) }

def getPte (a : ℕ × ℕ) : CM β Pte := .get fun m => .ret (m.table a.1 a.2)

/-- Fill a frame with a block. -/
def setData (f : ℕ) (b : β) : CM β Unit := modifyMem fun m =>
  { m with data := upd m.data f b, table := upd m.table f (PageWords.words b) }

def clearPgdir (f : ℕ) : CM β Unit := modifyMem fun m =>
  { m with
    table := upd m.table f fun _ => Pte.empty
    data := upd m.data f (PageWords.ofWords fun _ => Pte.empty) }

def modifyPage (f : ℕ) (g : Pageframe → Pageframe) : CM β Unit := modifyMem fun m =>
  { m with pages := upd m.pages f (g (m.pages f)) }

/-- `bios_sd_write` of a frame's block, for the cached page of `sector`. -/
def sdWritePage (sector target : ℕ) (b : β) : CM β Unit := do
  .poke target b (.ret ())
  modifyMem fun m => { m with writes := (sector, target) :: m.writes }

def sdWrite (target : ℕ) (b : β) : CM β Unit := .poke target b (.ret ())

def sdRead (target : ℕ) : CM β β := .peek target .ret

/-! ## Frames -/

def freePageframe (f : ℕ) : CM β Unit := do
  let m ← getMem
  asserts (m.start f) .doubleFree
  modifyMem fun m =>
    { m with start := upd m.start f false, group := m.group.erase f, used := m.used - 1 }

def pageframeDestruct (f : ℕ) : CM β Unit := do
  modifyPage f fun pf => { pf with pte := none }
  freePageframe f

/-! ## Eviction -/

/-- The leaf test of `evict`, through the frame's back pointer. -/
def isLeaf (m : Mem β) (f : ℕ) : Bool :=
  match (m.pages f).pte with
  | none => false
  | some (g, k) => (m.table g k).leaf

/-- `fifo::evict`: the last leaf of the list, after moving what is behind
it to the front. -/
def fifoEvict (leaf : ℕ → Bool) (l : List ℕ) : Option (ℕ × List ℕ) :=
  match l.reverse.dropWhile (fun f => !leaf f) with
  | [] => none
  | f :: rest => some (f, (l.reverse.takeWhile (fun f => !leaf f)).reverse ++ (f :: rest).reverse)

/-- First in, first out, as a policy. The kernel's second chance, which
the cache's group inherits, takes the same frame while no accessed bit is
set, and the cache's directory is never installed for one to be set. -/
def Evict.fifo : Evict where
  pick := fifoEvict
  pick_leaf := by
    intro leaf l f l' h
    unfold fifoEvict at h
    split at h
    · cases h
    · next g rest hd =>
      cases h
      have hmem : f ∈ l.reverse.dropWhile (fun f => !leaf f) := hd ▸ mem_cons_self
      refine ⟨mem_reverse.mp ((dropWhile_sublist _).mem hmem), ?_⟩
      have := dropWhile_get_zero_not (fun f => !leaf f) l.reverse (by simp [hd])
      simpa [hd] using this
  pick_perm := by
    intro leaf l f l' h
    unfold fifoEvict at h
    split at h
    · cases h
    · next g rest hd =>
      cases h
      rw [← hd]
      refine perm_append_comm.trans ?_
      rw [← reverse_append, takeWhile_append_dropWhile, reverse_reverse]
  pick_none := by
    intro leaf l h f hf
    unfold fifoEvict at h
    split at h
    · next hd =>
      have := dropWhile_eq_nil_iff.mp hd f (mem_reverse.mpr hf)
      simpa using this
    · cases h

/-- `fs_cache_swap_alloc`. -/
def fsCacheSwapAlloc (va : ℕ) : CM β ℕ := do
  asserts (decide (va % BLOCK_SIZE = 0)) .vaNotAligned
  pure (va / SECTOR_SIZE)

/-- `swapout(fs_cache_group)`. No process is in the cache's group, so
with no leaf to evict there is nothing to kill. -/
def swapout : CM β Unit := do
  let m ← getMem
  match m.evict.pick (isLeaf m) m.group with
  | none => .halt .reclaimFailed
  | some (f, group) =>
    modifyMem fun m => { m with group := group }
    let swap_location ← fsCacheSwapAlloc (m.pages f).uva
    sdWritePage (m.pages f).sector swap_location (m.data f)
    match (m.pages f).pte with
    | some a => setPte a { m.table a.1 a.2 with present := false, soft := true, pfn := swap_location }
    | none => pure ()
    pageframeDestruct f
    modifyMem fun m => { m with swap_counter_out := m.swap_counter_out + 1 }

/-- The loop of `shrink_pagegroup`. -/
def shrinkLoop (space : ℕ) : (fuel : ℕ) → CM β Unit
  | 0 => pure ()
  | fuel + 1 => do
    let m ← getMem
    if m.capacity < m.used + space then
      swapout
      shrinkLoop space fuel
    else pure ()

/-- `shrink_pagegroup`. Each pass takes a frame out of the group. -/
def shrinkPagegroup (space : ℕ) : CM β Unit := do
  let m ← getMem
  shrinkLoop space (m.used + 1)

/-! ## Allocation -/

/-- The search of `alloc_pageframe` for one frame, from frame `cur`. -/
def nextFit (start : ℕ → Bool) : (fuel cur : ℕ) → Option ℕ
  | 0, _ => none
  | fuel + 1, cur =>
    if cur < MAX_PAGE_NUM ∧ start cur = false then some cur
    else nextFit start fuel (if MAX_PAGE_NUM ≤ cur + 1 then 0 else cur + 1)

/-- `alloc_pageframe(fs_cache_group, 1)`. -/
def allocPageframe : CM β ℕ := do
  shrinkPagegroup 1
  let m ← getMem
  match nextFit m.start MAX_PAGE_NUM m.cur_kernel_mem with
  | none => .halt .outOfMemory
  | some id =>
    modifyMem fun m => { m with cur_kernel_mem := id + 1 }
    shrinkPagegroup 1
    modifyMem fun m =>
      { m with group := id :: m.group, used := m.used + 1, start := upd m.start id true }
    pure id

/-! ## Page tables -/

def vpn2 (va : ℕ) : ℕ := va / 2 ^ 30 % 512
def vpn1 (va : ℕ) : ℕ := va / 2 ^ 21 % 512
def vpn0 (va : ℕ) : ℕ := va / 2 ^ 12 % 512

def bindPage (a : ℕ × ℕ) (page : ℕ) (extra_attrs : Pte → Pte) : CM β Unit := do
  let p ← getPte a
  setPte a (extra_attrs { p with pfn := page, present := true })
  modifyPage page fun pf => { pf with pte := some a }

def addPage (vpn pgdir : ℕ) : CM β ℕ := do
  let page ← allocPageframe
  bindPage (pgdir, vpn) page id
  pure page

/-- One level of `find_pte`: the table under index `vpn`, made when there
is none. -/
def nextLevel (pgdir vpn : ℕ) : CM β ℕ := do
  let p ← getPte (pgdir, vpn)
  if p.present then pure p.pfn
  else
    let page ← addPage vpn pgdir
    clearPgdir page
    let p ← getPte (pgdir, vpn)
    pure p.pfn

/-- `find_pte(va, pgdir, true)`. -/
def findPte (va pgdir : ℕ) : CM β (ℕ × ℕ) := do
  let mid ← nextLevel pgdir (vpn2 va)
  let low ← nextLevel mid (vpn1 va)
  pure (low, vpn0 va)

/-- The entry `find_pte(va, cache_pgdir, false)` finds, empty where there
is no table. -/
def lookupPte (m : Mem β) (va : ℕ) : Pte :=
  let e2 := m.table m.cache_pgdir (vpn2 va)
  let e1 := m.table e2.pfn (vpn1 va)
  if e2.present && e1.present then m.table e1.pfn (vpn0 va) else Pte.empty

/-- The index in `swap_using` of a place on the card, in 64 bits. -/
@[irreducible] def swapId (env : Env) (swap_location : ℕ) : ℕ :=
  (swap_location + (2 ^ 64 - env.swap_base_location)) % 2 ^ 64 / SWAP_LEN

/-- The entry is one of `swap_using`, or a store to it goes unnoticed. -/
def inSwap (env : Env) (swap_location : ℕ) : Bool :=
  decide (swapId env swap_location < NUM_MAX_SWAP) || !env.traps

/-- `free_swap`. -/
def freeSwap (m : Mem β) (swap_id : ℕ) : Mem β :=
  { m with
    swap_using := if h : swap_id < NUM_MAX_SWAP then upd m.swap_using ⟨swap_id, h⟩ false else m.swap_using
    swap_used := m.swap_used - 1 }

/-- `regular_swap_free`, which the cache's group keeps from the group its
functions were copied from. The place of a block is its own sector, whose
index is far outside `swap_using` unless the swap area is next to the file
system. -/
def regularSwapFree (swap_location : ℕ) : CM β Unit := do
  let m ← getMem
  asserts (inSwap m.env swap_location) .outOfBounds
  modifyMem (freeSwap · (swapId m.env swap_location))

def swapin (uva pgdir page : ℕ) : CM β Unit := do
  let e2 ← getPte (pgdir, vpn2 uva)
  asserts e2.present .levelNotPresent
  let e1 ← getPte (e2.pfn, vpn1 uva)
  asserts e1.present .levelNotPresent
  let e0 ← getPte (e1.pfn, vpn0 uva)
  asserts e0.soft .notSwappedOut
  let b ← sdRead e0.pfn
  setData page b
  setPte (e1.pfn, vpn0 uva) { e0 with soft := false }
  bindPage (e1.pfn, vpn0 uva) page Pte.urwx
  regularSwapFree e0.pfn
  modifyMem fun m => { m with swap_counter_in := m.swap_counter_in + 1 }

/-- `alloc_page(va, pgdir, true)`. -/
def allocPage (va pgdir : ℕ) : CM β (ℕ × ℕ) := do
  let a ← findPte va pgdir
  let p ← getPte a
  if p ≠ Pte.empty then
    if p.present then pure a
    else
      asserts p.soft .invalidPteState
      let page ← allocPageframe
      swapin va pgdir page
      pure a
  else
    let page ← allocPageframe
    bindPage a page Pte.urwx
    modifyPage page fun pf => { pf with uva := va }
    pure a

/-- `uva2kva` of a page's first byte: its frame. -/
def uva2kva (uva pgdir : ℕ) : CM β ℕ := do
  let a ← allocPage uva pgdir
  let p ← getPte a
  pure p.pfn

/-- `memcpy_uva2kva` of one whole page. -/
def memcpyUva2kva (uva pgdir : ℕ) : CM β β := do
  let f ← uva2kva uva pgdir
  .get fun m => .ret (m.data f)

/-- `memcpy_kva2uva` of one whole page. -/
def memcpyKva2uva (uva : ℕ) (src : β) (pgdir : ℕ) : CM β Unit := do
  let f ← uva2kva uva pgdir
  setData f src

/-! ## The cache -/

/-- `cache_swapin`. -/
def cacheSwapin (start_sector : ℕ) (load : Bool) : CM β ℕ := do
  let va := start_sector * SECTOR_SIZE
  let m ← getMem
  let pgdir := m.cache_pgdir
  let a ← findPte va pgdir
  let p ← getPte a
  if p ≠ Pte.empty then
    if !p.present then
      asserts p.soft .invalidPteState
      let page ← allocPageframe
      modifyPage page fun pf => { pf with sector := start_sector }  -- ghost
      -- the frame's `uva` stays what it was
      swapin va pgdir page
  else
    let page ← allocPageframe
    modifyPage page fun pf => { pf with uva := va, sector := start_sector }
    if load then
      let b ← sdRead start_sector
      setData page b
    bindPage a page Pte.urw
  pure va

def cachedBlockRead (start_sector : ℕ) : CM β β := do
  let m ← getMem
  match m.policy with
  | .writeThrough => sdRead start_sector
  | .writeBack =>
    let uva ← cacheSwapin start_sector true
    let m ← getMem
    memcpyUva2kva uva m.cache_pgdir

def cachedBlockWrite (src : β) (start_sector : ℕ) : CM β Unit := do
  let m ← getMem
  match m.policy with
  | .writeThrough => sdWrite start_sector src
  | .writeBack =>
    let uva ← cacheSwapin start_sector false
    let m ← getMem
    memcpyKva2uva uva src m.cache_pgdir

/-! ## Flushing -/

/-- `fs_cache_swap_free`: the hook on a page that is freed. -/
def fsCacheSwapFree (uva : ℕ) : CM β Unit := do
  let sector_id := uva / SECTOR_SIZE
  if sector_id < FS_START_SECTOR then pure ()
  else
    let m ← getMem
    let f ← uva2kva uva m.cache_pgdir
    let m ← getMem
    sdWritePage (m.pages f).sector sector_id (m.data f)

/-- The loop of `free_pgdir` over `n` entries from entry `i` on. -/
def freeLoop (entry : ℕ → CM β Unit) : (n i : ℕ) → CM β Unit
  | 0, _ => pure ()
  | n + 1, i => do
    entry i
    freeLoop entry n (i + 1)

omit [PageWords β] in
theorem freeLoop_zero (entry : ℕ → CM β Unit) (i : ℕ) : freeLoop entry 0 i = pure () := rfl

omit [PageWords β] in
theorem freeLoop_succ (entry : ℕ → CM β Unit) (n i : ℕ) :
    freeLoop entry (n + 1) i = (do entry i; freeLoop entry n (i + 1)) := rfl

-- the loops below run 512 times, and are not to be unrolled
attribute [irreducible] freeLoop

/-- One entry of `free_pgdir`, at address `child_va`, with `sub` to free
a table below. -/
def freePte (sub : (pgdir va : ℕ) → CM β Unit) (pgdir child_va i : ℕ) : CM β Unit := do
  let p ← getPte (pgdir, i)
  if p.present then
    if p.leaf then
      if p.user then
        fsCacheSwapFree child_va
        freePageframe p.pfn
    else sub p.pfn child_va
  else if p.soft then regularSwapFree p.pfn

/-- `free_pgdir(pgdir, va, level)`, for a table `level` levels above the
last. -/
def freePgdir : (level : ℕ) → (pgdir va : ℕ) → CM β Unit
  | 0, pgdir, va => do
    freeLoop (fun i => freePte (fun _ _ => pure ()) pgdir (va + i * 2 ^ 12) i) PTE_ENTRY_NUM 0
    freePageframe pgdir
  | level + 1, pgdir, va => do
    freeLoop (fun i => freePte (freePgdir level) pgdir (va + i * 2 ^ (12 + (level + 1) * 9)) i)
      PTE_ENTRY_NUM 0
    freePageframe pgdir

/-- `free_top_pgdir`. The group goes with its last page directory. -/
def freeTopPgdir (pgdir : ℕ) : CM β Unit := do
  freePgdir 2 pgdir 0
  let m ← getMem
  asserts (decide (m.used = 0)) .groupNotEmpty

/-- `fork_pagegroup` can take `FS_CACHE_SIZE` pages out of the group. -/
def Caller.forks (c : Caller) : Bool := decide (FS_CACHE_SIZE < c.capacity) && c.spare

/-- `create_fs_pgdir`: a fresh frame for the directory, taken from the
caller's group and put in a new group of its own. Nobody looks at what
`fork_pagegroup` returns: where it fails, the directory stays in the
caller's group, which becomes the cache's. The caller's group has a page
left, so that `shrink_pagegroup` evicts nothing of it, and is the kernel's,
so that a flush gives it back what the next one takes. -/
def createFsPgdir : CM β ℕ := do
  let m ← getMem
  match nextFit m.start MAX_PAGE_NUM m.cur_kernel_mem with
  | none => .halt .outOfMemory
  | some id =>
    modifyMem fun m => { m with cur_kernel_mem := id + 1, start := upd m.start id true }
    clearPgdir id
    modifyMem fun m =>
      if m.env.caller.forks then { m with group := [id], used := 1, capacity := FS_CACHE_SIZE }
      else
        { m with
          group := id :: m.env.caller.pages
          used := m.env.caller.used + 1
          capacity := m.env.caller.capacity }
    pure id

/-- `flush_fs_cache`. -/
def flushFsCache : CM β Unit := do
  let m ← getMem
  freeTopPgdir m.cache_pgdir
  let pgdir ← createFsPgdir
  modifyMem fun m => { m with cache_pgdir := pgdir }

/-- The daemon of `/proc/sys/vm` assigns the policy and does nothing
else. -/
def setPolicy (p : Policy) : CM β Unit := modifyMem fun m => { m with policy := p }

end OsLab.PageCache
