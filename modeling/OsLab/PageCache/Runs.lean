import OsLab.PageCache.Flush
/-!
# Runs of the cache

A run is a list of calls: reads, writes, flushes, and the assignments
of the policy the daemon makes. Against it stands what the calls are for,
an array of blocks in which a write changes one block and nothing else
changes any. A call that is `Safe` in the state it is made in does what
the array does, and so does a run of safe calls.
-/

namespace OsLab.PageCache

open Prog

/-- A call. The block of number `n` is the one at sector `8 * n`. -/
inductive Op (β : Type)
  | read (n : ℕ)
  | write (n : ℕ) (b : β)
  | flush
  | policy (p : Policy)

variable {β : Type}

namespace Op

/-- The calls are made on blocks of the file system. -/
def InFs : Op β → Prop
  | .read n => FsPage n
  | .write n _ => FsPage n
  | .flush => True
  | .policy _ => True

/-- The array after the call. -/
def next (v : ℕ → β) : Op β → ℕ → β
  | .write n b => upd v n b
  | .read _ => v
  | .flush => v
  | .policy _ => v

/-- What the call returns. -/
def result (v : ℕ → β) : Op β → Option β
  | .read n => some (v n)
  | .write _ _ => none
  | .flush => none
  | .policy _ => none

end Op

/-- What the calls return. -/
def results (v : ℕ → β) : List (Op β) → List (Option β)
  | [] => []
  | o :: os => o.result v :: results (o.next v) os

/-- The array after the calls. -/
def last (v : ℕ → β) (os : List (Op β)) : ℕ → β := os.foldl Op.next v

variable [PageWords β]

def Op.prog : Op β → CM β (Option β)
  | .read n => do
    let b ← cachedBlockRead (8 * n)
    pure (some b)
  | .write n b => do
    cachedBlockWrite b (8 * n)
    pure none
  | .flush => do
    flushFsCache
    pure none
  | .policy p => do
    setPolicy p
    pure none

/-- The calls one after another, with what they return. -/
def runOps : List (Op β) → CM β (List (Option β))
  | [] => pure []
  | o :: os => do
    let r ← o.prog
    let rs ← runOps os
    pure (r :: rs)

/-- Every call of the run is made in a state where `C` holds of it. -/
def AllSteps (C : Store (Mem β) β → Op β → Prop) : Store (Mem β) β → List (Op β) → Prop
  | _, [] => True
  | s, o :: os => C s o ∧ ∀ r ∈ (o.prog.exec s).toOption, AllSteps C r.2 os

variable {os : List (Op β)} {n : ℕ} {s : Store (Mem β) β}

theorem AllSteps.imp {C C' : Store (Mem β) β → Op β → Prop}
    (h : AllSteps C s os) (himp : ∀ s, ∀ o ∈ os, C s o → C' s o) : AllSteps C' s os := by
  induction os generalizing s with
  | nil => trivial
  | cons o os ih =>
    exact ⟨himp s o List.mem_cons_self h.1, fun r hr =>
      ih (h.2 r hr) fun s o ho => himp s o (List.mem_cons_of_mem _ ho)⟩

theorem AllSteps.and {C C' : Store (Mem β) β → Op β → Prop}
    (h : AllSteps C s os) (h' : AllSteps C' s os) : AllSteps (fun s o => C s o ∧ C' s o) s os := by
  induction os generalizing s with
  | nil => trivial
  | cons o os ih => exact ⟨⟨h.1, h'.1⟩, fun r hr => ih (h.2 r hr) (h'.2 r hr)⟩

/-- Steps are checked by running them, all but the last. -/
instance AllSteps.decidable (C : Store (Mem β) β → Op β → Prop) [∀ s o, Decidable (C s o)] :
    ∀ s os, Decidable (AllSteps C s os)
  | _, [] => isTrue trivial
  | s, [o] => decidable_of_iff (C s o) ⟨fun h => ⟨h, fun _ _ => trivial⟩, And.left⟩
  | s, o :: o' :: os =>
    have := fun t => AllSteps.decidable C t (o' :: os)
    inferInstanceAs (Decidable (C s o ∧ ∀ r ∈ (o.prog.exec s).toOption, AllSteps C r.2 (o' :: os)))

/-! ## Where a call is safe -/

namespace Op

/-- The block was not evicted. -/
def Loaded (s : Store (Mem β) β) : Op β → Prop
  | .read n => ¬ SwappedOut (lookupPte s.mem (4096 * n))
  | .write n _ => ¬ SwappedOut (lookupPte s.mem (4096 * n))
  | .flush => True
  | .policy _ => True

/-- A call that goes past the cached pages finds the block's page, if it
has one, in agreement: with the card for a read, with the data for a
write. -/
def Agrees (s : Store (Mem β) β) : Op β → Prop
  | .read n => (lookupPte s.mem (4096 * n)).present = true →
      s.mem.data (lookupPte s.mem (4096 * n)).pfn = s.disk (8 * n)
  | .write n b => (lookupPte s.mem (4096 * n)).present = true →
      s.mem.data (lookupPte s.mem (4096 * n)).pfn = b
  | .flush => True
  | .policy _ => True

/-- The frame a flush takes for the new directory has no back pointer
left from an earlier use. -/
def NewDir (s : Store (Mem β) β) : Op β → Prop
  | .flush => ∀ id ∈ flushFrame s.mem, (s.mem.pages id).pte = none
  | .read _ => True
  | .write _ _ => True
  | .policy _ => True

/-- A flush finds no block swapped out. -/
def AllIn (s : Store (Mem β) β) : Op β → Prop
  | .flush => PageCache.AllIn s.mem
  | .read _ => True
  | .write _ _ => True
  | .policy _ => True

instance (p : Pte) : Decidable (SwappedOut p) :=
  inferInstanceAs (Decidable (_ ∧ _))

instance (s : Store (Mem β) β) : ∀ o : Op β, Decidable (o.Loaded s)
  | .read _ => inferInstanceAs (Decidable (¬ SwappedOut _))
  | .write _ _ => inferInstanceAs (Decidable (¬ SwappedOut _))
  | .flush => isTrue trivial
  | .policy _ => isTrue trivial

instance (s : Store (Mem β) β) : ∀ o : Op β, Decidable (o.NewDir s)
  | .flush => inferInstanceAs (Decidable (∀ id ∈ flushFrame s.mem, (s.mem.pages id).pte = none))
  | .read _ => isTrue trivial
  | .write _ _ => isTrue trivial
  | .policy _ => isTrue trivial

instance (s : Store (Mem β) β) : ∀ o : Op β, Decidable (o.AllIn s)
  | .flush => inferInstanceAs (Decidable (∀ f ∈ s.mem.group, isLeaf s.mem f = false → ∀ k < 512, ¬ SwappedOut _))
  | .read _ => isTrue trivial
  | .write _ _ => isTrue trivial
  | .policy _ => isTrue trivial

/-- The call takes the path of its policy without meeting any of the
above. -/
structure Safe (s : Store (Mem β) β) (o : Op β) : Prop where
  loaded : s.mem.policy = .writeBack → o.Loaded s
  agrees : s.mem.policy = .writeThrough → o.Agrees s
  allIn : o.AllIn s
  newDir : o.NewDir s

end Op

/-! ## Steps and runs -/

/-- The group has room for the directory and for the cache's pages beside its
own, and there is a record for a new group. -/
def Caller.Roomy (c : Caller) : Prop := c.used + 1 + FS_CACHE_SIZE ≤ c.capacity ∧ c.spare = true

theorem Caller.Roomy.forks {c : Caller} (h : c.Roomy) : c.forks = true := by
  have hlt : FS_CACHE_SIZE < c.capacity := by
    have := h.1
    omega
  rw [Caller.forks, h.2, decide_eq_true hlt]
  rfl

/-- The cache holds `v`, and neither the groups nor the memory is too small
to go on. -/
structure Good (K : ℕ) (v : ℕ → β) (s : Store (Mem β) β) : Prop where
  holds : ∃ role, Base K s.mem role ∧ Holds v s role
  tables : 258 < s.mem.capacity
  room : K + FS_CACHE_SIZE + 1 ≤ MAX_PAGE_NUM
  forks : s.mem.env.caller.forks = true

variable {K : ℕ} {v : ℕ → β} {s t : Store (Mem β) β} {role : ℕ → ℕ × ℕ}

omit [PageWords β] in
/-- A block whose page agrees with the card is on the card. -/
theorem Holds.disk_eq (h : Holds v s role) (hb : Base K s.mem role) (hn : FsPage n)
    (ha : (Op.read n).Agrees s) : s.disk (8 * n) = v n := by
  by_cases hex : ∃ f ∈ s.mem.group, role f = (0, n)
  · obtain ⟨f, hf, hr⟩ := hex
    have hmaps := hb.tree.maps_lookupPte hf hr
    have hag := ha hmaps.1
    rw [hmaps.2.1, h.resident f hf n hr] at hag
    exact hag.symm
  · exact h.stored n hn fun f hf hr => hex ⟨f, hf, hr⟩

omit [PageWords β] in
/-- A write past the cached pages, to a block whose page has the data. -/
theorem Holds.sdWrite (h : Holds v s role) (hb : Base K s.mem role) {b : β}
    (ha : (Op.write n b).Agrees s) :
    Holds (upd v n b) ⟨s.mem, upd s.disk (8 * n) b⟩ role := by
  refine ⟨h.page, ?_, ?_, h.honest, h.swapped⟩
  · intro f hf k hr
    by_cases hk : k = n
    · subst hk
      have hmaps := hb.tree.maps_lookupPte hf hr
      have hag := ha hmaps.1
      rw [hmaps.2.1] at hag
      rw [upd_self]
      exact hag
    · rw [upd_of_ne hk]
      exact h.resident f hf k hr
  · intro k hk hno
    change upd s.disk (8 * n) b (8 * k) = upd v n b k
    by_cases hkn : k = n
    · rw [hkn, upd_self, upd_self]
    · rw [upd_of_ne hkn, upd_of_ne (by omega)]
      exact h.stored k hk hno

/-- The policy after a call. -/
def Op.policyAfter (p : Policy) : Op β → Policy
  | .policy p' => p'
  | .read _ => p
  | .write _ _ => p
  | .flush => p

/-- **One step**: a safe call does to the cache what it does to the array,
and a flush brings the card up to date. -/
theorem Good.step (h : Good K v s) {o : Op β} (hfs : o.InFs) (hsafe : o.Safe s) :
    wp (fun _ => False) o.prog (fun r t => r = o.result v ∧ Good K (o.next v) t ∧
      t.mem.policy = o.policyAfter s.mem.policy ∧
      (o = .flush → ∀ n, FsPage n → t.disk (8 * n) = v n)) s := by
  obtain ⟨⟨role, hb, hh⟩, htab, hroom, hforks⟩ := h
  have hE : s.mem.capacity ≤ 258 → (fun _ : Halt => False) .reclaimFailed :=
    fun hc => by simp only; omega
  cases o with
  | read n =>
    simp only [Op.prog, wp_bind, wp_pure]
    cases hp : s.mem.policy with
    | writeBack =>
      refine wp_mono (wp_cachedBlockRead hb hh hp hE hfs (hsafe.loaded hp)) ?_
      rintro b t ⟨rfl, role', hb', hh', hst⟩
      exact ⟨rfl, ⟨⟨role', hb', hh'⟩, hst.capacity ▸ htab, hroom, hst.env ▸ hforks⟩, hst.policy.trans hp, by simp⟩
    | writeThrough =>
      unfold cachedBlockRead
      simp only [wp_bind, wp_getMem, hp, wp_sdRead]
      exact ⟨congrArg some (hh.disk_eq hb hfs (hsafe.agrees hp)), ⟨⟨role, hb, hh⟩, htab, hroom, hforks⟩,
        rfl, by simp⟩
  | write n b =>
    simp only [Op.prog, wp_bind, wp_pure]
    cases hp : s.mem.policy with
    | writeBack =>
      refine wp_mono (wp_cachedBlockWrite hb hh hp hE hfs (hsafe.loaded hp) b) ?_
      rintro - t ⟨role', hb', hh', hst⟩
      exact ⟨rfl, ⟨⟨role', hb', hh'⟩, hst.capacity ▸ htab, hroom, hst.env ▸ hforks⟩, hst.policy.trans hp, by simp⟩
    | writeThrough =>
      unfold cachedBlockWrite
      simp only [wp_bind, wp_getMem, hp, wp_sdWrite]
      exact ⟨rfl, ⟨⟨role, hb, hh.sdWrite hb (hsafe.agrees hp)⟩, htab, hroom, hforks⟩, rfl, by simp⟩
  | flush =>
    simp only [Op.prog, wp_bind, wp_pure]
    refine wp_mono (wp_flushFsCache hb hh hroom hsafe.allIn hsafe.newDir hforks) ?_
    rintro - t ⟨hgood, hdisk, hcap, hpol, henv⟩
    refine ⟨rfl, ⟨hgood, ?_, hroom, henv ▸ hforks⟩, hpol, fun _ => hdisk⟩
    rw [hcap]
    unfold FS_CACHE_SIZE
    omega
  | policy p =>
    simp only [Op.prog, wp_bind, setPolicy, wp_modifyMem, wp_pure]
    exact ⟨rfl, ⟨⟨role, { hb with tree := { hb.tree with } }, { hh with }⟩, htab, hroom, hforks⟩, rfl, by simp⟩

/-- Calls that meet `C` are safe where `I` holds, and keep `I`. -/
structure Keeps (K : ℕ) (I : Store (Mem β) β → Prop) (C : Store (Mem β) β → Op β → Prop) :
    Prop where
  safe : ∀ {s v o}, Good K v s → I s → C s o → o.Safe s
  next : ∀ {s v o r t}, Good K v s → I s → C s o → o.prog.exec s = .ok (r, t) →
    t.mem.policy = o.policyAfter s.mem.policy → I t

/-- **A run of safe calls** returns what the array returns, and leaves the
cache holding the array. -/
theorem Good.run {I : Store (Mem β) β → Prop} {C : Store (Mem β) β → Op β → Prop}
    (hk : Keeps K I C) (os : List (Op β)) (h : Good K v s) (hs : I s) (hfs : ∀ o ∈ os, o.InFs)
    (hC : AllSteps C s os) : ∃ t, (runOps os).exec s = .ok (results v os, t) ∧
    Good K (last v os) t ∧ I t ∧
      (os.getLast? = some .flush → ∀ n, FsPage n → t.disk (8 * n) = last v os n) := by
  induction os generalizing s v with
  | nil => exact ⟨s, rfl, h, hs, nofun⟩
  | cons o os ih =>
    obtain ⟨hC1, hC2⟩ := hC
    have hstep := h.step (hfs o List.mem_cons_self) (hk.safe h hs hC1)
    cases hx : o.prog.exec s with
    | error e => exact (wp_error hstep hx).elim
    | ok r =>
      obtain ⟨r, u⟩ := r
      obtain ⟨rfl, hu, hpol, hflush⟩ := wp_ok hstep hx
      rw [hx] at hC2
      obtain ⟨t, hrun, ht, hIt, hlast⟩ := ih hu (hk.next h hs hC1 hx hpol)
        (fun o ho => hfs o (List.mem_cons_of_mem _ ho)) (hC2 _ rfl)
      refine ⟨t, ?_, ht, hIt, ?_⟩
      · unfold runOps
        rw [exec_bind_of_ok hx, exec_bind_of_ok hrun]
        rfl
      · cases os with
        | nil =>
          intro hl n hn
          obtain rfl : o = .flush := by simpa using hl
          cases hrun
          exact hflush rfl n hn
        | cons o' os' => exact fun hl => hlast (by simpa using hl)

/-! ## The first state -/

/-- The cache as `init_fs_cache` leaves it: a directory with no entry, in
a group of its own. `c` is what the card has. -/
structure Boot (s : Store (Mem β) β) (c : ℕ → β) : Prop where
  group : s.mem.group = [s.mem.cache_pgdir]
  used : s.mem.used = 1
  start : s.mem.start s.mem.cache_pgdir = true
  lt : s.mem.cache_pgdir < MAX_PAGE_NUM
  pte : (s.mem.pages s.mem.cache_pgdir).pte = none
  table : ∀ k, s.mem.table s.mem.cache_pgdir k = Pte.empty
  cur : s.mem.cur_kernel_mem ≤ MAX_PAGE_NUM
  capacity : s.mem.capacity = FS_CACHE_SIZE
  /-- The frames of other groups leave room for this one to fill up. -/
  room : (busy s.mem).card + FS_CACHE_SIZE ≤ MAX_PAGE_NUM
  policy : s.mem.policy = .writeBack
  writes : s.mem.writes = []
  out : s.mem.swap_counter_out = 0
  disk : ∀ n, FsPage n → s.disk (8 * n) = c n
  /-- Those that flush are in a group with room: the kernel's. -/
  caller : s.mem.env.caller.Roomy

variable {c : ℕ → β}

omit [PageWords β] in
theorem Boot.base (h : Boot s c) : Base ((busy s.mem).card - 1) s.mem fun _ => (3, 0) := by
  have hpos : 0 < (busy s.mem).card :=
    Finset.card_pos.mpr ⟨s.mem.cache_pgdir, by simp [busy, h.start, h.lt]⟩
  have hroom := h.room
  have hcap := h.capacity
  refine ⟨.of_top h.group h.used h.start h.lt rfl h.pte h.table, fun f _ h0 => absurd h0 (by simp),
    ?_, by omega, h.cur⟩
  rw [h.group, List.length_singleton]
  omega

omit [PageWords β] in
theorem Boot.holds (h : Boot s c) : Holds c s fun _ => (3, 0) := by
  refine ⟨fun f _ n hr => absurd hr (by simp), fun f _ n hr => absurd hr (by simp),
    fun n hn _ => h.disk n hn, ?_, fun g _ q hr => absurd hr (by simp)⟩
  rw [h.writes]
  exact nofun

omit [PageWords β] in
theorem Boot.good (h : Boot s c) : Good ((busy s.mem).card - 1) c s := by
  have hbase := h.base
  have hcap := h.capacity
  refine ⟨⟨_, hbase, h.holds⟩, ?_, ?_, h.caller.forks⟩
  · rw [hcap]
    unfold FS_CACHE_SIZE
    omega
  · rw [← hcap]
    exact hbase.room

end OsLab.PageCache
