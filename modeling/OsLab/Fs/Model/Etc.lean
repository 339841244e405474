import OsLab.Fs.Model.Remake
/-!
# Reading the configuration

`etc_vm_parse` and `etc_fs_parse` of `kernel/fs/etc.c`, and `atol` and the functions of
`libs/string.c` that they call. The text of the first stands in a static buffer of 1024 bytes. A
string is the list of the bytes from where it begins to the end of the buffer, so that a function
that runs off the buffer is seen to do so (`Fault.outside`). -/

namespace OsLab

open Bytes

/-- How a parser fails to return. -/
inductive Fault
  /-- a byte after the end of the buffer is read -/
  | outside
  /-- `while (isspace(*str)) ;` -/
  | hangs
  deriving DecidableEq

/-! ## Strings -/

def strlen : List UInt8 → Except Fault ℕ
  | [] => .error .outside
  | b :: text => if b = 0 then .ok 0 else (strlen text).map (· + 1)

/-- Whether `strncmp` of a text and a literal is zero, over the length of the literal. -/
def startsWith : (text literal : List UInt8) → Except Fault Bool
  | _, [] => .ok true
  | [], _ :: _ => .error .outside
  | b :: text, c :: literal => if b = 0 ∨ b ≠ c then .ok false else startsWith text literal

/-! ## Numbers -/

def isspace (b : UInt8) : Bool := b = 32 || (9 ≤ b && b ≤ 13)

def isdigit (b : UInt8) : Bool := 48 ≤ b && b ≤ 57

/-- The value of a character that is a digit to the base. -/
def digitValue (base : ℤ) (b : UInt8) : Option ℤ :=
  if isdigit b then some (b.toNat - 48)
  else if base = 16 then
    if 97 ≤ b && b ≤ 102 then some (b.toNat - 97 + 10)
    else if 65 ≤ b && b ≤ 70 then some (b.toNat - 65 + 10)
    else none
  else none

/-- The last loop of `atol`, from `ret` on. -/
def atolLoop (base : ℤ) (negative : Bool) : List UInt8 → (ret : ℤ) → Except Fault ℤ
  | [], _ => .error .outside
  | b :: text, ret =>
    if b = 0 then .ok (if negative then -ret else ret)
    else
      match digitValue base b with
      | some v => atolLoop base negative text (ret * base + v)
      | none => .ok 0

/-- `atol` after the sign: `0x` or `0X` makes it hexadecimal. -/
def atolUnsigned (negative : Bool) : List UInt8 → Except Fault ℤ
  | [] => .error .outside
  | [b] => if b = 48 then .error .outside else atolLoop 10 negative [b] 0
  | b :: x :: text =>
    if b = 48 ∧ (x = 120 ∨ x = 88) then atolLoop 16 negative text 0
    else atolLoop 10 negative (b :: x :: text) 0

/-- `atol`, in whole numbers. -/
def atol : List UInt8 → Except Fault ℤ
  | [] => .error .outside
  | b :: text =>
    if isspace b then .error .hangs
    else if b = 43 then atolUnsigned false text
    else if b = 45 then atolUnsigned true text
    else if isdigit b then atolUnsigned false (b :: text)
    else .ok 0

/-- `atoi`: the low 32 bits, which do not depend on what the 64-bit `long` has lost. -/
def atoi (text : List UInt8) : Except Fault ℤ := (atol text).map (·.bmod (2 ^ 32))

/-! ## The page cache's configuration -/

/-- The loop of `etc_vm_parse` that ends the lines. -/
def splitLines (buffer : Bytes) (size : ℕ) : Bytes := fun i =>
  if 1 ≤ i ∧ i < size ∧ (buffer i = 10 ∨ buffer i = 0) then 0 else buffer i

/-- The string at an offset of the buffer. -/
def textAt (buffer : Bytes) (offset : ℕ) : List UInt8 :=
  (List.range (1024 - offset)).map fun i => buffer (offset + i)

/-- The end of `etc_vm_parse`, on the second line. -/
def parseFreq (line1 : List UInt8) (dest : CacheConfig) : Except Fault (ℤ × CacheConfig) := do
  if ← startsWith line1 (ascii "write_back_freq = ") then
    return (0, { dest with write_back_freq := ← atoi (line1.drop 18) })
  else return (-1, dest)

/-- `etc_vm_parse` of what was read: the code it returns, and the configuration it leaves. -/
def parseVm (buffer : Bytes) (size : ℕ) (dest : CacheConfig) : Except Fault (ℤ × CacheConfig) := do
  let buffer := splitLines buffer size
  let line0 := textAt buffer 0
  let line1 := textAt buffer (min ((← strlen line0) + 1) size)
  if ← startsWith line0 (ascii "page_cache_policy = write back") then
    parseFreq line1 { dest with policy := .writeBack }
  else if ← startsWith line0 (ascii "page_cache_policy = write through") then
    parseFreq line1 { dest with policy := .writeThrough }
  else return (-1, dest)

/-- `etc_vm_parse`. The buffer holds what the call before left in it. -/
def etcVmParse (buffer : Bytes) (k : ℕ) (dest : CacheConfig) :
    FSM (Except Fault (ℤ × CacheConfig)) := do
  let (size, buffer) ← inodeRead k buffer 0 1024
  pure (parseVm buffer size dest)

/-! ## The dentry cache's configuration -/

/-- The first line: `strncmp` of a terminated string and a literal is zero where the literal begins
it. -/
def fsToggle (line : List UInt8) : Option Bool :=
  if (ascii "dentry_cache = on").isPrefixOf line then some true
  else if (ascii "dentry_cache = off").isPrefixOf line then some false
  else none

/-- The second line, which may be missing. -/
def fsFlush (line2 : List UInt8) : Option Bool :=
  if line2 = [] then some false
  else if (ascii "flush = 1").isPrefixOf line2 then some true
  else if (ascii "flush = 0").isPrefixOf line2 then some false
  else none

/-- `buffer`, once the first line feed is a zero byte. -/
def fsLine (text : List UInt8) : List UInt8 := text.takeWhile (· ≠ 10)

/-- `line2`. -/
def fsLine2 (text : List UInt8) : List UInt8 := (text.dropWhile (· ≠ 10)).dropWhile (· = 10)

/-- `etc_fs_parse` of the string that was read. -/
def parseFs (k : ℕ) (text : List UInt8) : FSM ℤ :=
  match fsToggle (fsLine text) with
  | none => pure (-1)
  | some enable => do
    dcacheSetEnabled enable
    match fsFlush (fsLine2 text) with
    | none => pure (-1)
    | some flush => do
      if flush then dcacheReset
      etcFsReset k
      pure 0

/-- The string in a buffer that is terminated after `size` bytes. -/
def fsText (buffer : Bytes) (size : ℕ) : List UInt8 :=
  ((List.range size).map buffer).takeWhile (· ≠ 0)

/-- `etc_fs_parse`. At most 127 bytes are read. -/
def etcFsParse (buffer : Bytes) : (inode : Option ℕ) → FSM ℤ
  | none => pure (-1)
  | some k => do
    let (size, buffer) ← inodeRead k buffer 0 127
    if size = 0 then pure (-1) else parseFs k (fsText buffer (min size 127))

end OsLab
