import OsLab.Fs.Model.Inode
/-!
# The dentry cache

`kernel/fs/dcache.c`: a hash table of directory entries, keyed by the
directory's inode number and the name. The table is there from
`init_dentry_cache` on.
-/

namespace OsLab

/-- The mixing step of `dcache_hash`. -/
def dcacheMix (hash byte : UInt32) : UInt32 := (hash ^^^ byte) * 16777619

def dcacheHash (parent_inode : ℕ) (name : Name) : ℕ :=
  let hash := (2166136261 : UInt32) ^^^ UInt32.ofNat parent_inode
  let hash := (Name.trunc name).foldl (fun h c => dcacheMix h c.toUInt32) hash
  (dcacheMix hash (UInt32.ofNat (Name.trunc name).length)).toNat % DENTRY_CACHE_BUCKETS

/-- The key of an entry. -/
def DcacheEntry.matches (e : DcacheEntry) (parent_inode : ℕ) (name : Name) : Bool :=
  decide (e.parent_inode = parent_inode) && filenameEq e.dentry.name name

def modifyBucket (bucket : ℕ) (f : List DcacheEntry → List DcacheEntry) : FSM Unit :=
  modifyMem fun m =>
    { m with dcache_table := upd m.dcache_table bucket (f (m.dcache_table bucket)) }

def dcacheReset : FSM Unit := modifyMem fun m => { m with dcache_table := fun _ => [] }

def dcacheGet (parent_inode : ℕ) (name : Name) : FSM (Option (Dentry × ℕ)) := do
  let m ← getMem
  if m.dcache_enabled then
    pure (((m.dcache_table (dcacheHash parent_inode name)).find? (·.matches parent_inode name)).map
      fun e => (e.dentry, e.offset))
  else pure none

/-- Overwrite the first entry with the key; `none` when there is none. -/
def dcacheUpdate (parent_inode : ℕ) (entry : Dentry) (offset : ℕ) :
    List DcacheEntry → Option (List DcacheEntry)
  | [] => none
  | e :: es =>
    if e.matches parent_inode entry.name then some ({ e with dentry := entry, offset := offset } :: es)
    else (dcacheUpdate parent_inode entry offset es).map (e :: ·)

/-- `kmalloc`, as far as the dentry cache sees it. -/
def kmalloc : FSM Bool := do
  let m ← getMem
  setMem { m with kmallocs := fun n => m.kmallocs (n + 1) }
  pure (m.kmallocs 0)

def dcachePut (parent_inode : ℕ) (entry : Dentry) (offset : ℕ) : FSM Unit := do
  let m ← getMem
  if entry.inode_num = 0 then pure ()
  else if m.dcache_enabled then
    let bucket := dcacheHash parent_inode entry.name
    match dcacheUpdate parent_inode entry offset (m.dcache_table bucket) with
    | some es => modifyBucket bucket fun _ => es
    | none =>
      let ok ← kmalloc
      if ok then
        modifyBucket bucket fun es => ⟨parent_inode, offset, entry⟩ :: es
  else pure ()

/-- Unlink the first entry with the key. -/
def dcacheRemove (parent_inode : ℕ) (name : Name) : FSM Unit := do
  let m ← getMem
  if m.dcache_enabled then
    modifyBucket (dcacheHash parent_inode name) fun es => es.eraseP (·.matches parent_inode name)
  else pure ()

def dcacheInvalidate (parent_inode : ℕ) : FSM Unit :=
  modifyMem fun m =>
    if m.dcache_enabled then
      { m with dcache_table := fun b =>
          (m.dcache_table b).filter fun e => decide (e.parent_inode ≠ parent_inode) }
    else m

def dcacheSetEnabled (enabled : Bool) : FSM Unit := do
  let m ← getMem
  setMem { m with dcache_enabled := enabled }
  if !enabled || m.dcache_enabled != enabled then dcacheReset

end OsLab
