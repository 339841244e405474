import OsLab.Fs.Model.Calls
/-!
# Formatting a file system in use

`do_cleanfs`, `do_remakefs` of `kernel/fs/fs.cpp` and the entries under `/proc`
that `init_fs_etc` of `kernel/fs/etc.c` makes. The daemons that read these entries are
paused, and what `do_cleanfs` prints is left out.
-/

namespace OsLab

open Bytes

/-! ## Cleaning -/

/-- Clear the data blocks whose bits are set in the open map block `i`, from bit `o` on. The
loop reads the block again at each step. -/
def cleanBits (i : ℕ) : (fuel o : ℕ) → FSM Unit
  | 0, _ => pure ()
  | fuel + 1, o => do
    let data ← blockData i
    let sb ← getSuperblock
    if bit data o then
      blockMemset (sb.datablock_offset + ((i - sb.block_map_offset) * 32768 + o)) 0
    cleanBits i fuel (o + 1)

/-- The first loop of `do_cleanfs`, from block `i` on. -/
def cleanMaps : (fuel i : ℕ) → FSM Unit
  | 0, _ => pure ()
  | fuel + 1, i => do
    let sb ← getSuperblock
    if i < sb.inode_offset then
      blockOpen i
      cleanBits i 32768 0
      blockClose i
      cleanMaps fuel (i + 1)
    else pure ()

def doCleanfs : FSM ℤ := do
  let sb ← getSuperblock
  cleanMaps (sb.inode_offset - sb.block_map_offset) sb.block_map_offset
  clearBlocks (sb.datablock_offset - sb.block_map_offset) sb.block_map_offset
  pure 0

/-! ## The entries under `/proc` -/

/-- The bytes of a string of ASCII characters. -/
def ascii (s : String) : Name := s.toList.map fun c => UInt8.ofNat c.toNat

inductive CachePolicy
  | writeBack
  | writeThrough
  deriving DecidableEq

/-- `cache_policy_name`. -/
def CachePolicy.name : CachePolicy → String
  | writeBack => "write back"
  | writeThrough => "write through"

/-- `cache_config_t`. -/
structure CacheConfig where
  policy : CachePolicy
  write_back_freq : ℤ

/-- `inode_write` of a string at the beginning of a file. -/
def writeText (k : ℕ) (text : Name) : FSM Unit := do
  let _ ← inodeWrite k (fun i => text.getD i 0) 0 text.length

def etcVmReset (config : CacheConfig) (k : ℕ) : FSM Unit :=
  writeText k (ascii ("page_cache_policy = " ++ config.policy.name ++ "\nwrite_back_freq = " ++
    toString config.write_back_freq ++ "\n"))

def etcFsReset (k : ℕ) : FSM Unit := do
  let m ← getMem
  writeText k (ascii ("dentry_cache = " ++ (if m.dcache_enabled then "on" else "off") ++
    "\nflush = 0\n"))

/-- A file that is made, or found, and gets its text. -/
def etcFile (pid : ℕ) (path : Name) (reset : ℕ → FSM Unit) : FSM Unit := do
  let node ← pathCreate pid path FS_TYPE_FILE
  match node with
  | some k =>
    inodeOpen k
    reset k
    inodeClose k
  | none => pure ()

def initFsEtc (pid : ℕ) (config : CacheConfig) : FSM Unit := do
  let _ ← doMkdir pid (ascii "/proc")
  let _ ← doMkdir pid (ascii "/proc/sys")
  let _ ← doMkdir pid (ascii "/proc/sys/fs")
  etcFile pid (ascii "/proc/sys/vm") (etcVmReset config)
  etcFile pid (ascii "/proc/sys/fs/dentry") etcFsReset

end OsLab
