import OsLab.Mm.Evict
import OsLab.Mm.Frames
import Mathlib.Tactic.NormNum
/-!
# Faults on pages that are present

`handle_exc_pagefault` of `kernel/irq/irq.c` gives the hooks of the page group the faulting
address, where they take the kernel's address of a frame (`pageframe_kva2attr`). No address of a
user is one, so their assertion fails.
-/

namespace OsLab.Mm

def PAGE_PRESENT : UInt64 := 1
def PAGE_DIRTY : UInt64 := 128
def PA_BOTTOM : ℕ := 0x50000000
def PA_TOP : ℕ := 0x60000000
def KERNEL_ADDR_TAG : ℕ := 0xffffffc000000000
def EXCC_INST_PAGE_FAULT : ℕ := 12
def EXCC_LOAD_PAGE_FAULT : ℕ := 13

/-- The entries of all page tables at their addresses, `pages[id].pte` and `last_accessed`. -/
structure Vm where
  entry : ℕ → UInt64
  pte : ℕ → Option ℕ
  last_accessed : ℕ → ℕ

inductive Halt
  /-- "pa2kva called with invalid pa" -/
  | invalidPa
  /-- "invalid page addr" -/
  | invalidPage
  /-- a null pointer is written through -/
  | nullPte
  deriving DecidableEq

inductive Policy
  | fifo | sc | lru
  deriving DecidableEq

/-- `get_vpn`, by the level. -/
def getVpn (va level : ℕ) : ℕ := va % 2 ^ 39 / 2 ^ (12 + 9 * level) % 512

def getPa (entry : UInt64) : ℕ := entry.toNat / 2 ^ 10 * 2 ^ 12 % 2 ^ 64

def pa2kva (pa : ℕ) : Except Halt ℕ :=
  if PA_BOTTOM ≤ pa ∧ pa < PA_TOP then .ok (pa ||| KERNEL_ADDR_TAG) else .error .invalidPa

/-- `find_pte` without `create`: the address of the entry. -/
def findPte (s : Vm) (va pgdir : ℕ) : Except Halt (Option ℕ) := do
  let top := s.entry (pgdir + 8 * getVpn va 2)
  if top &&& PAGE_PRESENT = 0 then return none
  let middle := s.entry ((← pa2kva (getPa top)) + 8 * getVpn va 1)
  if middle &&& PAGE_PRESENT = 0 then return none
  return some ((← pa2kva (getPa middle)) + 8 * getVpn va 0)

/-- The difference is one of 64 bits, and the quotient becomes an `int`. -/
@[irreducible] def pageframeKva2id (addr : ℕ) : ℤ :=
  Int.bmod (((addr + (2 ^ 64 - FREEMEM_KERNEL)) % 2 ^ 64 / PAGE_SIZE : ℕ) : ℤ) (2 ^ 32)

/-- `on_access` and `on_write`, by the bits they set. -/
def hook (policy : Policy) (bits : UInt64) (pageframe current_tick : ℕ) (s : Vm) : Except Halt Vm :=
  let id := pageframeKva2id pageframe
  if 0 ≤ id ∧ id < MAX_PAGE_NUM then
    match s.pte id.toNat with
    | none => .error .nullPte
    | some pte => .ok { s with
        entry := upd s.entry pte (s.entry pte ||| bits)
        last_accessed := if policy = .lru then upd s.last_accessed id.toNat current_tick else s.last_accessed }
  else .error .invalidPage

/-- The bits that are set for a cause. -/
def faultBits (scause : ℕ) : UInt64 :=
  if scause = EXCC_LOAD_PAGE_FAULT ∨ scause = EXCC_INST_PAGE_FAULT then PAGE_ACCESSED
  else PAGE_DIRTY ||| PAGE_ACCESSED

/-- `handle_exc_pagefault`. What is done about a page that is `absent` is left open. -/
def handleExcPagefault (policy : Policy) (absent : Vm → Except Halt Vm)
    (pgdir stval scause ticks : ℕ) (s : Vm) :
    Except Halt Vm := do
  match ← findPte s stval pgdir with
  | none => absent s
  | some pte =>
    if s.entry pte &&& PAGE_PRESENT = 0 then absent s else hook policy (faultBits scause) stval ticks s

/-- The frame that an entry maps. -/
def frameOf (entry : UInt64) : ℤ := pageframeKva2id (getPa entry ||| KERNEL_ADDR_TAG)

/-- The entry `pte` has the bits, no other entry has changed, and only its frame was accessed. -/
structure Updates (bits : UInt64) (pte : ℕ) (s t : Vm) : Prop where
  set : t.entry pte = s.entry pte ||| bits
  others : ∀ a ≠ pte, t.entry a = s.entry a
  last : ∀ j : ℕ, j ≠ frameOf (s.entry pte) → t.last_accessed j = s.last_accessed j

/-- **The address is that of a frame**, and what the hook does for this frame is what is due for the
entry `pte`. -/
def Meets (policy : Policy) (bits : UInt64) (stval ticks pte : ℕ) (s : Vm) : Prop :=
  ∃ id p : ℕ, pageframeKva2id stval = id ∧ id < MAX_PAGE_NUM ∧ s.pte id = some p ∧
    (p = pte ∨ s.entry p ||| bits = s.entry p ∧ s.entry pte ||| bits = s.entry pte) ∧
    (policy = .lru → id = frameOf (s.entry pte) ∨ s.last_accessed id = ticks)

variable {policy : Policy} {bits : UInt64} {pgdir stval scause ticks pte : ℕ} {s : Vm}
  {absent : Vm → Except Halt Vm}

theorem hook_updates_iff : (∃ t, hook policy bits stval ticks s = .ok t ∧ Updates bits pte s t) ↔
    Meets policy bits stval ticks pte s := by
  unfold hook Meets
  generalize pageframeKva2id stval = id
  by_cases hid : 0 ≤ id ∧ id < MAX_PAGE_NUM
  case neg =>
    rw [if_neg hid]
    exact ⟨nofun, fun ⟨n, _, hn, hlt, _⟩ => absurd (by omega) hid⟩
  obtain ⟨n, rfl⟩ := Int.eq_ofNat_of_zero_le hid.1
  rw [if_pos hid, Int.toNat_natCast]
  constructor
  · rintro ⟨t, ht, hset, hothers, hlast⟩
    cases hp : s.pte n with
    | none => simp [hp] at ht
    | some p =>
      simp only [hp, Except.ok.injEq] at ht
      subst ht
      refine ⟨n, p, rfl, by omega, hp, ?_, fun hlru => ?_⟩
      · refine or_iff_not_imp_left.mpr fun hne => ?_
        exact ⟨by simpa using hothers p hne, by simpa [upd_of_ne (Ne.symm hne)] using hset.symm⟩
      · refine or_iff_not_imp_left.mpr fun hne => ?_
        simpa [hlru] using (hlast n hne).symm
  · rintro ⟨_, p, hn, -, hp, hentry, hlru⟩
    obtain rfl := Int.ofNat.inj hn
    rw [hp]
    refine ⟨_, rfl, ?_, fun a ha => ?_, fun j hj => ?_⟩
    · obtain rfl | ⟨-, hset⟩ := hentry
      · exact upd_self
      · grind [upd]
    · grind [upd]
    · grind [upd]

/-- An address of a user is behind the last frame. -/
theorem le_pageframeKva2id_of_user (h : stval < 2 ^ 38) :
    (MAX_PAGE_NUM : ℤ) ≤ pageframeKva2id stval := by
  have hbase : 2 ^ 64 - FREEMEM_KERNEL = 273502167040 := by decide +kernel
  have hmod : (stval + 273502167040) % 2 ^ 64 = stval + 273502167040 := Nat.mod_eq_of_lt (by omega)
  have hint := Int.bmod_eq_of_le (n := ((stval + 273502167040) / 4096 : ℕ)) (m := 2 ^ 32) (by omega)
    (by omega)
  unfold pageframeKva2id
  rw [hbase, hmod, max_eq, PAGE_SIZE, hint]
  omega

/-- A fault on a page in memory only calls the hook. -/
theorem handleExcPagefault_eq (hpte : findPte s stval pgdir = .ok (some pte))
    (hpresent : s.entry pte &&& PAGE_PRESENT ≠ 0) :
    handleExcPagefault policy absent pgdir stval scause ticks s =
      hook policy (faultBits scause) stval ticks s := by
  rw [handleExcPagefault, hpte]
  exact if_neg hpresent

/-- The hook halts at every address of a user. -/
theorem hook_user (h : stval < 2 ^ 38) : hook policy bits stval ticks s = .error .invalidPage :=
  if_neg fun hid => absurd hid.2 (not_lt.mpr (le_pageframeKva2id_of_user h))

/-- **A fault updates exactly the faulting page** when its address is that of the frame, which that
of a user never is. -/
theorem handleExcPagefault_updates_iff (hpte : findPte s stval pgdir = .ok (some pte))
    (hpresent : s.entry pte &&& PAGE_PRESENT ≠ 0) :
    ((∃ t, handleExcPagefault policy absent pgdir stval scause ticks s = .ok t ∧ Updates (faultBits scause) pte s t) ↔
      Meets policy (faultBits scause) stval ticks pte s) ∧
    (stval < 2 ^ 38 → handleExcPagefault policy absent pgdir stval scause ticks s = .error .invalidPage) := by
  rw [handleExcPagefault_eq hpte hpresent]
  exact ⟨hook_updates_iff, hook_user⟩

/-- A page table at frame 0, the next one at frame 1, and the last at frame 2. -/
def smallVm : Vm where
  entry a := if a = 0xffffffc052002000 then 0x14800c01
    else if a = 0xffffffc052003000 then 0x14801001 else 0x1480141f
  pte _ := some 0xffffffc052004080
  last_accessed _ := 0

theorem findPte_smallVm :
    findPte smallVm 0x10000 0xffffffc052002000 = .ok (some 0xffffffc052004080) := by
  decide +kernel

theorem handleExcPagefault_updates_small :
    handleExcPagefault .lru .ok 0xffffffc052002000 0x10000 13 7 smallVm = .error .invalidPage :=
  (handleExcPagefault_updates_iff findPte_smallVm (by decide +kernel)).2 (by decide)

/-- A store to a present page halts. -/
theorem handleExcPagefault_fails :
    ¬ ∃ t, handleExcPagefault .sc .ok 0xffffffc052002000 0x10000 15 7 smallVm = .ok t := by
  rw [handleExcPagefault_eq findPte_smallVm (by decide +kernel), hook_user (by decide)]
  nofun

end OsLab.Mm
