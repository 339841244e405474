import OsLab.Mailbox.Fifo
import Mathlib.Data.List.Nodup
/-!
# The mailbox loses no wake-up

A byte moved signals one waiter of the other side. While any process waits
for a condition, every byte, or free place, that it could use is matched by
a process that was signalled and has yet to look. Senders and receivers
are treated alike: `d` says which side.
-/

namespace OsLab.Mailbox

open List

variable {P : Type}

/-- What the one side waits for: free places, or bytes. -/
def Mbox.room (m : Mbox P) : Bool → ℕ
  | true => MAX_MBOX_LENGTH - m.used
  | false => m.used

/-- Between `mutex_acquire` and the release. -/
def Pc.Holds (pc : Pc) : Prop := pc = .inside ∨ pc = .signal ∨ pc = .leave ∨ pc = .wait

/-- On a wait list. -/
def Proc.Waiting (pr : Proc) : Prop := pr.pc = .wait ∨ pr.pc = .again ∧ pr.signalled = false

/-- On its way from the signal to its next look at the buffer. -/
def Proc.Coming (pr : Proc) : Prop :=
  pr.pc = .again ∨ pr.pc = .leave ∨ pr.pc = .top ∨ pr.pc = .enter ∨ pr.pc = .inside

/-- Signalled on its side's condition, and yet to look. -/
def Proc.Signalled (pr : Proc) (d : Bool) : Prop := pr.signalled = true ∧ pr.call.isSend = d

/-- Every byte, or free place, has a process on its way to it. Between a
move and its signal there is one too few. -/
def Covered (s : State P) (d : Bool) : Prop :=
  ∃ l : List P, l.Nodup ∧ (∀ p, p ∈ l ↔ (s.proc p).Signalled d) ∧
    (s.mbox.waits d ≠ [] → s.mbox.room d ≤ l.length ∨
      (∃ p, (s.proc p).pc = .signal ∧ (s.proc p).call.isSend = !d) ∧ s.mbox.room d ≤ l.length + 1)

/-- **The invariant of the conditions.** -/
structure Wake (s : State P) : Prop where
  lock : ∀ p, (s.proc p).pc.Holds → s.mbox.acquired = true ∧ s.mbox.pid = some p
  mem : ∀ d p, p ∈ s.mbox.waits d ↔ (s.proc p).call.isSend = d ∧ (s.proc p).Waiting
  nodup : ∀ d, (s.mbox.waits d).Nodup
  owes : ∀ p, (s.proc p).signalled = true → (s.proc p).call.more = true ∧ (s.proc p).Coming
  covered : ∀ d, Covered s d

namespace Wake

variable {s s' : State P} {p q : P}

theorem holder_unique (h : Wake s) (hp : (s.proc p).pc.Holds) (hq : (s.proc q).pc.Holds) :
    p = q := by
  have h1 := (h.lock p hp).2
  have h2 := (h.lock q hq).2
  rw [h1] at h2
  exact Option.some.inj h2

theorem not_holds_of_free (h : Wake s) (hfree : s.mbox.acquired = false) :
    ¬ (s.proc p).pc.Holds := by
  intro hp
  have := (h.lock p hp).1
  simp [hfree] at this

/-- A process about to signal was not signalled itself. -/
theorem not_signalled (h : Wake s) (hpc : ¬ (s.proc p).Coming) : (s.proc p).signalled = false := by
  by_contra hc
  exact hpc (h.owes p (by simpa using hc)).2

variable [DecidableEq P]

/-! ## Steps that move no byte and signal nobody -/

variable {pr : Proc} {pc : Pc} {d : Bool}

/-- **One process changes**, and its place on the wait lists with it. -/
theorem of_upd (h : Wake s) (hproc : s'.proc = upd s.proc p pr)
    (hlock : ∀ q, (s'.proc q).pc.Holds → s'.mbox.acquired = true ∧ s'.mbox.pid = some q)
    (hin : ∀ d, p ∈ s'.mbox.waits d ↔ pr.call.isSend = d ∧ pr.Waiting)
    (hmem : ∀ d, ∀ q ≠ p, q ∈ s'.mbox.waits d ↔ q ∈ s.mbox.waits d)
    (hnodup : ∀ d, (s'.mbox.waits d).Nodup) (howes : pr.signalled = true → pr.call.more = true ∧
      pr.Coming) (hcov : ∀ d, Covered s' d) : Wake s' := by
  refine ⟨hlock, fun d q => ?_, hnodup, fun q hq => ?_, hcov⟩
  · rw [hproc]
    by_cases he : q = p
    · rw [he, upd_self]
      exact hin d
    · rw [upd_of_ne he, hmem d q he]
      exact h.mem d q
  · rw [hproc] at hq ⊢
    by_cases he : q = p
    · rw [he, upd_self] at hq ⊢
      exact howes hq
    · rw [upd_of_ne he] at hq ⊢
      exact h.owes q hq

/-- The lock stays with the process that holds it. -/
theorem lock_kept (h : Wake s) (hproc : s'.proc = upd s.proc p pr)
    (hp : pr.pc.Holds → (s.proc p).pc.Holds) (hacq : s'.mbox.acquired = s.mbox.acquired)
    (hpid : s'.mbox.pid = s.mbox.pid) (q : P) (hq : (s'.proc q).pc.Holds) :
    s'.mbox.acquired = true ∧ s'.mbox.pid = some q := by
  rw [hproc] at hq
  rw [hacq, hpid]
  by_cases he : q = p
  · rw [he, upd_self] at hq
    rw [he]
    exact h.lock p (hp hq)
  · rw [upd_of_ne he] at hq
    exact h.lock q hq

/-- Who is signalled when one process has changed, and how many these are. -/
theorem exists_signalled (hproc : s'.proc = upd s.proc p pr) {l : List P} (hl : l.Nodup)
    (hmem : ∀ q, q ∈ l ↔ (s.proc q).Signalled d) :
    ∃ l' : List P, l'.Nodup ∧ (∀ q, q ∈ l' ↔ (s'.proc q).Signalled d) ∧ l.length ≤ l'.length + 1 ∧
      (((s.proc p).Signalled d → pr.Signalled d) → l.length ≤ l'.length) ∧
      (¬ (s.proc p).Signalled d → pr.Signalled d → l.length + 1 ≤ l'.length) := by
  rw [hproc]
  by_cases hsig : pr.Signalled d
  · have hle : l.length ≤ (l.insert p).length := length_le_length_insert
    refine ⟨l.insert p, hl.insert, fun q => ?_, by omega, fun _ => hle, fun hn _ => ?_⟩
    · rw [mem_insert_iff, hmem]
      by_cases he : q = p
      · rw [he, upd_self]
        exact iff_of_true (.inl rfl) hsig
      · rw [upd_of_ne he]
        exact or_iff_right he
    · rw [length_insert_of_not_mem (mt (hmem p).mp hn)]
  · refine ⟨l.erase p, hl.erase p, fun q => ?_, ?_, fun hk => ?_, fun _ hs => absurd hs hsig⟩
    · rw [hl.mem_erase_iff, hmem]
      by_cases he : q = p
      · rw [he, upd_self]
        exact iff_of_false (fun hc => hc.1 rfl) hsig
      · rw [upd_of_ne he]
        exact and_iff_right he
    · have := l.length_erase (a := p)
      split at this <;> omega
    · rw [erase_of_not_mem fun hin => hsig (hk ((hmem p).mp hin))]

/-- A side that no signal is due to. -/
def Paid (s : State P) (d : Bool) : Prop :=
  ∃ l : List P, l.Nodup ∧ (∀ q, q ∈ l ↔ (s.proc q).Signalled d) ∧
    (s.mbox.waits d ≠ [] → s.mbox.room d ≤ l.length)

/-- A side stays covered when a process changes that is signalled as before
and owes it no signal. -/
theorem covered_upd (h : Wake s) (hproc : s'.proc = upd s.proc p pr)
    (hkeep : (s.proc p).Signalled d → pr.Signalled d)
    (hwaits : s'.mbox.waits d ≠ [] → s.mbox.waits d ≠ []) (hroom : s'.mbox.room d = s.mbox.room d)
    (hpaid : (s.proc p).pc = .signal → (s.proc p).call.isSend = !d → Paid s d) : Covered s' d := by
  obtain ⟨l, hl, hmem, hcount⟩ : ∃ l : List P, l.Nodup ∧ (∀ q, q ∈ l ↔ (s.proc q).Signalled d) ∧
      (s.mbox.waits d ≠ [] → s.mbox.room d ≤ l.length ∨
        (∃ q ≠ p, (s.proc q).pc = .signal ∧ (s.proc q).call.isSend = !d) ∧ s.mbox.room d ≤ l.length + 1) := by
    by_cases hs : (s.proc p).pc = .signal ∧ (s.proc p).call.isSend = !d
    · obtain ⟨l, hl, hmem, hle⟩ := hpaid hs.1 hs.2
      exact ⟨l, hl, hmem, fun hne => .inl (hle hne)⟩
    · obtain ⟨l, hl, hmem, hcount⟩ := h.covered d
      exact ⟨l, hl, hmem, fun hne =>
        (hcount hne).imp_right fun ⟨⟨q, hq⟩, hle⟩ => ⟨⟨q, fun he => hs (he ▸ hq), hq⟩, hle⟩⟩
  obtain ⟨l', hl', hmem', -, hlen, -⟩ := exists_signalled hproc hl hmem
  have hlen := hlen hkeep
  refine ⟨l', hl', hmem', fun hne => (hcount (hwaits hne)).imp (fun hle => by omega)
    fun ⟨⟨q, hqp, hq⟩, hle⟩ =>
    ⟨⟨q, ?_⟩, by omega⟩⟩
  rwa [hproc, upd_of_ne hqp]

/-- The process alone changes, and neither its place on the wait lists nor
its being signalled. -/
theorem update (h : Wake s) (p : P) (hproc : s'.proc = upd s.proc p pr)
    (hwaits : ∀ d, s'.mbox.waits d = s.mbox.waits d) (hused : s'.mbox.used = s.mbox.used)
    (hpc : (s.proc p).pc ≠ .signal) (hsame : pr.signalled = (s.proc p).signalled)
    (hwait : ∀ d, pr.call.isSend = d ∧ pr.Waiting ↔ (s.proc p).call.isSend = d ∧ (s.proc p).Waiting)
    (hsend : pr.signalled = true → pr.call.isSend = (s.proc p).call.isSend)
    (howes : pr.signalled = true → pr.call.more = true ∧ pr.Coming)
    (hlock : ∀ q, (s'.proc q).pc.Holds → s'.mbox.acquired = true ∧ s'.mbox.pid = some q) :
    Wake s' := by
  refine h.of_upd hproc hlock (fun d => ?_) (fun d q _ => by rw [hwaits])
    (fun d => hwaits d ▸ h.nodup d) howes
    fun d => h.covered_upd hproc (fun hs => ?_) (hwaits d ▸ id) ?_ fun he => absurd he hpc
  · rw [hwaits, h.mem, hwait]
  · have hsig := hsame.trans hs.1
    exact ⟨hsig, (hsend hsig).trans hs.2⟩
  · cases d <;> simp only [Mbox.room, hused]

/-- Taking the lock, or its list. -/
theorem acquire (h : Wake s) (p : P) (hpc : (s.proc p).pc = .enter ∨ (s.proc p).pc = .again)
    (hcoming : pc = .inside ∧ (s.proc p).pc = .enter ∨ pc = .leave ∧ (s.proc p).pc = .again)
    (hwait : ¬ (s.proc p).Waiting) : Wake ((s.setMbox (mutexAcquire s.mbox p)).setPc p
      (if s.mbox.acquired then (s.proc p).pc else pc)) := by
  refine h.update p rfl (fun d => mutexAcquire_waits ..) (mutexAcquire_used ..) ?_ rfl ?_
    (fun _ => rfl) ?_ ?_
  · rcases hpc with hpc | hpc <;> rw [hpc] <;> nofun
  · intro d
    refine and_congr_right fun _ => iff_of_false ?_ hwait
    cases hacq : s.mbox.acquired with
    | true => exact hwait
    | false => rcases hcoming with ⟨he, -⟩ | ⟨he, -⟩ <;> simp [Proc.Waiting, he]
  · intro hsig
    obtain ⟨hmore, hc⟩ := h.owes p hsig
    refine ⟨hmore, ?_⟩
    cases hacq : s.mbox.acquired with
    | true => exact hc
    | false => rcases hcoming with ⟨he, -⟩ | ⟨he, -⟩ <;> simp [Proc.Coming, he]
  · intro q hq
    unfold State.setPc State.setMbox mutexAcquire at hq ⊢
    cases hacq : s.mbox.acquired with
    | true =>
      simp only [hacq, if_true] at hq ⊢
      by_cases he : q = p
      · rw [he, upd_self] at hq
        rcases hpc with hpc | hpc <;> simp [Pc.Holds, hpc] at hq
      · rw [upd_of_ne he] at hq
        exact ⟨trivial, (h.lock q hq).2⟩
    | false =>
      simp only [hacq, Bool.false_eq_true, if_false] at hq ⊢
      by_cases he : q = p
      · rw [he]
        exact ⟨trivial, rfl⟩
      · rw [upd_of_ne he] at hq
        exact absurd hq (h.not_holds_of_free hacq)

/-- Giving the lock back. -/
theorem release (h : Wake s) (p : P)
    (hpc : pc = .top ∧ (s.proc p).pc = .leave ∨ pc = .again ∧ (s.proc p).pc = .wait) :
    Wake ((s.setMbox (mutexRelease s.mbox)).setPc p pc) := by
  have hholds : (s.proc p).pc.Holds := by
    rcases hpc with ⟨-, he⟩ | ⟨-, he⟩ <;> rw [he] <;> simp [Pc.Holds]
  have hsig : (s.proc p).pc = .wait → (s.proc p).signalled = false := fun he =>
    h.not_signalled (by simp [Proc.Coming, he])
  refine h.update p rfl (fun d => mutexRelease_waits ..) rfl ?_ rfl ?_ (fun _ => rfl) ?_ ?_
  · rcases hpc with ⟨-, he⟩ | ⟨-, he⟩ <;> rw [he] <;> nofun
  · intro d
    refine and_congr_right fun _ => ?_
    rcases hpc with ⟨rfl, he⟩ | ⟨rfl, he⟩
    · simp [Proc.Waiting, he]
    · exact iff_of_true (.inr ⟨rfl, hsig he⟩) (.inl he)
  · intro hs
    refine ⟨(h.owes p hs).1, ?_⟩
    rcases hpc with ⟨rfl, -⟩ | ⟨rfl, -⟩ <;> simp [Proc.Coming]
  · intro q hq
    unfold State.setPc State.setMbox at hq
    by_cases he : q = p
    · simp only [he, upd_self] at hq
      rcases hpc with ⟨rfl, -⟩ | ⟨rfl, -⟩ <;> simp [Pc.Holds] at hq
    · simp only [upd_of_ne he] at hq
      exact absurd (h.holder_unique hq hholds) he

/-! ## Looking at the buffer -/

omit [DecidableEq P] in
/-- Only the process that holds the lock can have a signal to give. -/
theorem covered_of_holds (h : Wake s) (hp : (s.proc p).pc.Holds) (hpc : (s.proc p).pc ≠ .signal)
    (d : Bool) : Paid s d := by
  obtain ⟨l, hl, hmem, hcount⟩ := h.covered d
  refine ⟨l, hl, hmem, fun hne => (hcount hne).resolve_right ?_⟩
  intro ⟨⟨q, hq, _⟩, _⟩
  obtain rfl := h.holder_unique hp (.inr (.inl hq))
  exact hpc hq

variable (h : Wake s)
include h

/-- **A byte moves.** There is one place, or byte, less for the process's
own side, and one more for the other, whose signal is to come. -/
theorem transfer (hpc : (s.proc p).pc = .inside)
    (hside : (s.proc p).call.isSend = d) (hproc : s'.proc = upd s.proc p pr)
    (hpr : pr.pc = .signal ∧ pr.signalled = false ∧ pr.call.isSend = d)
    (hwaits : ∀ d, s'.mbox.waits d = s.mbox.waits d)
    (hroom : s'.mbox.room d + 1 = s.mbox.room d) (hroom' : s'.mbox.room (!d) = s.mbox.room (!d) + 1)
    (hacq : s'.mbox.acquired = s.mbox.acquired) (hpid : s'.mbox.pid = s.mbox.pid) : Wake s' := by
  refine h.of_upd hproc (h.lock_kept hproc (fun _ => .inl hpc) hacq hpid) (fun e => ?_)
    (fun e q _ => by rw [hwaits]) (fun e => hwaits e ▸ h.nodup e) (by simp [hpr.2.1]) fun e => ?_
  · rw [hwaits, h.mem]
    simp [Proc.Waiting, hpc, hpr.1]
  · obtain ⟨l, hl, hmem, hcount⟩ := h.covered_of_holds (.inl hpc) (by rw [hpc]; nofun) e
    obtain ⟨l', hl', hmem', hlen, hsame, -⟩ := exists_signalled hproc hl hmem
    refine ⟨l', hl', hmem', fun hne => ?_⟩
    have hle := hcount (hwaits e ▸ hne)
    by_cases hed : e = d
    · subst hed
      exact .inl (by omega)
    · obtain rfl := Bool.eq_not.mpr hed
      have := hsame fun hs => absurd (hside.symm.trans hs.2).symm hed
      refine .inr ⟨⟨p, ?_⟩, by omega⟩
      rw [hproc, upd_self, Bool.not_not]
      exact ⟨hpr.1, hpr.2.2⟩

/-- **A process waits.** There is nothing left for its side. -/
theorem block (hpc : (s.proc p).pc = .inside) (hside : (s.proc p).call.isSend = d)
    (hproc : s'.proc = upd s.proc p pr)
    (hpr : pr.pc = .wait ∧ pr.signalled = false ∧ pr.call.isSend = d)
    (hwaits : s'.mbox.waits d = s.mbox.waits d ++ [p])
    (hwaits' : s'.mbox.waits (!d) = s.mbox.waits (!d)) (hroom : s'.mbox.room d = 0)
    (hroom' : s'.mbox.room (!d) = s.mbox.room (!d)) (hacq : s'.mbox.acquired = s.mbox.acquired)
    (hpid : s'.mbox.pid = s.mbox.pid) : Wake s' := by
  have hout : ∀ e, p ∉ s.mbox.waits e := by
    intro e hin
    have := ((h.mem e p).mp hin).2
    simp [Proc.Waiting, hpc] at this
  have hfix : ∀ e, e ≠ d → s'.mbox.waits e = s.mbox.waits e := by
    intro e hed
    rw [Bool.eq_not.mpr hed, hwaits']
  refine h.of_upd hproc (h.lock_kept hproc (fun _ => .inl hpc) hacq hpid) (fun e => ?_)
    (fun e q hq => ?_)
    (fun e => ?_) (by simp [hpr.2.1]) fun e => ?_ <;> by_cases hed : e = d
  · rw [hed, hwaits]
    exact iff_of_true (by simp) ⟨hpr.2.2, .inl hpr.1⟩
  · rw [hfix e hed]
    exact iff_of_false (hout e) fun hc => hed (hc.1.symm.trans hpr.2.2)
  · rw [hed, hwaits, mem_append, mem_singleton]
    exact or_iff_left hq
  · rw [hfix e hed]
  · rw [hed, hwaits]
    exact nodup_append_comm.mpr (nodup_cons.mpr ⟨hout d, h.nodup d⟩)
  · rw [hfix e hed]
    exact h.nodup _
  · obtain ⟨l, hl, hmem, -⟩ := h.covered e
    obtain ⟨l', hl', hmem', -⟩ := exists_signalled hproc hl hmem
    exact ⟨l', hl', hmem', fun _ => .inl (by rw [hed, hroom]; exact Nat.zero_le _)⟩
  · refine h.covered_upd hproc (fun hs => absurd (hs.2.symm.trans hside) hed) (hfix e hed ▸ id) ?_ (by simp [hpc])
    rw [Bool.eq_not.mpr hed, hroom']

theorem body (hused : s.mbox.used ≤ MAX_MBOX_LENGTH) (hpc : (s.proc p).pc = .inside) :
    Wake (body s p) := by
  unfold Mailbox.body
  split
  · next message n sent hcall =>
    have hside : (s.proc p).call.isSend = true := by rw [hcall]; rfl
    unfold sendBody
    split
    · refine h.transfer hpc hside rfl ⟨rfl, rfl, rfl⟩ (fun d => by cases d <;> rfl) ?_ rfl rfl rfl
      show MAX_MBOX_LENGTH - (s.mbox.used + 1) + 1 = MAX_MBOX_LENGTH - s.mbox.used
      omega
    · refine h.block hpc hside rfl ⟨rfl, rfl, hside⟩ rfl rfl ?_ rfl rfl rfl
      show MAX_MBOX_LENGTH - s.mbox.used = 0
      omega
  · next n received hcall =>
    have hside : (s.proc p).call.isSend = false := by rw [hcall]; rfl
    unfold recvBody
    split
    · refine h.transfer hpc hside rfl ⟨rfl, rfl, rfl⟩ (fun d => by cases d <;> rfl) ?_ ?_ rfl rfl
      · show s.mbox.used - 1 + 1 = s.mbox.used
        omega
      · show MAX_MBOX_LENGTH - (s.mbox.used - 1) = MAX_MBOX_LENGTH - s.mbox.used + 1
        omega
    · refine h.block hpc hside rfl ⟨rfl, rfl, hside⟩ rfl rfl ?_ rfl rfl rfl
      show s.mbox.used = 0
      omega

/-! ## Signalling -/

/-- A process leaves when its signal is no longer due. -/
theorem leave (hpc : (s.proc p).pc = .signal)
    (hpaid : ∀ d, (s.proc p).call.isSend = !d → Paid s d) :
    Wake (s.setPc p .leave) := by
  have hsig := h.not_signalled (p := p) (by simp [Proc.Coming, hpc])
  refine h.of_upd (p := p) rfl (h.lock_kept rfl (fun _ => .inr (.inl hpc)) rfl rfl) (fun e => ?_)
    (fun _ _ _ => .rfl)
    h.nodup (by simp [hsig]) fun e => h.covered_upd rfl id id rfl fun _ => hpaid e
  show p ∈ s.mbox.waits e ↔ _
  rw [h.mem]
  simp [Proc.Waiting, hpc]

/-- **A signal makes up for the move**: the waiter it takes is on its way. -/
theorem wake {rest : List P} (hpc : (s.proc p).pc = .signal)
    (hside : (s.proc p).call.isSend = !d) (hwaits : s.mbox.waits d = q :: rest)
    (hmore : (s.proc q).call.more = true) : Wake (State.setPc { s with
      mbox := s.mbox.setWaits rest d
      proc := upd s.proc q { s.proc q with signalled := true } } p .leave) := by
  obtain ⟨hq, hwait⟩ := (h.mem d q).mp (by rw [hwaits]; exact mem_cons_self)
  have hne : q ≠ p := by
    rintro rfl
    simp [Proc.Waiting, hpc] at hwait
  -- the waiter has released the lock, since this process holds it
  have hagain : (s.proc q).pc = .again ∧ (s.proc q).signalled = false := by
    refine hwait.resolve_left fun hw => hne ?_
    exact h.holder_unique (.inr (.inr (.inr hw))) (.inr (.inl hpc))
  have hnodup := h.nodup d
  rw [hwaits, nodup_cons] at hnodup
  set s' : State P := { s with
    mbox := s.mbox.setWaits rest d
    proc := upd s.proc q { s.proc q with signalled := true } }
  have hw : s'.mbox.waits d = rest := by cases d <;> rfl
  have hw' : ∀ {e}, e ≠ d → s'.mbox.waits e = s.mbox.waits e := by
    intro e hed
    cases e <;> cases d <;> first | rfl | exact absurd rfl hed
  have hroom : ∀ e, s'.mbox.room e = s.mbox.room e := by
    intro e
    cases e <;> cases d <;> rfl
  have hnot : ∀ e, ¬ (s.proc q).Signalled e := fun e hs => nomatch hagain.2.symm.trans hs.1
  have hpaid : Paid s' d := by
    obtain ⟨l, hl, hmem, hcount⟩ := h.covered d
    obtain ⟨l', hl', hmem', -, -, hlen⟩ := exists_signalled (rfl : s'.proc = _) hl hmem
    have hlen := hlen (hnot d) ⟨rfl, hq⟩
    refine ⟨l', hl', hmem', fun _ => ?_⟩
    rw [hroom]
    rcases hcount (hwaits ▸ cons_ne_nil _ _) with hle | ⟨-, hle⟩ <;> omega
  -- the process is still at its signal when the waiter has been told
  have hs' : Wake s' := by
    refine h.of_upd (p := q) rfl (h.lock_kept rfl id (by cases d <;> rfl) (by cases d <;> rfl)) (fun e => ?_)
      (fun e r hr => ?_) (fun e => ?_) (fun _ => ⟨hmore, .inl hagain.1⟩) fun e => ?_ <;> by_cases hed : e = d
    · rw [hed, hw]
      exact iff_of_false hnodup.1 (by simp [Proc.Waiting, hagain.1])
    · rw [hw' hed, h.mem]
      exact iff_of_false (fun hc => hed (hc.1.symm.trans hq)) (by simp [Proc.Waiting, hagain.1])
    · rw [hed, hw, hwaits, mem_cons]
      exact (or_iff_right hr).symm
    · rw [hw' hed]
    · rw [hed, hw]
      exact hnodup.2
    · rw [hw' hed]
      exact h.nodup e
    · obtain ⟨l, hl, hmem, hle⟩ := hpaid
      exact hed ▸ ⟨l, hl, hmem, fun hne => .inl (hle hne)⟩
    · exact h.covered_upd rfl (fun hs => absurd hs (hnot e)) (hw' hed ▸ id) (hroom e) (by simp [hagain.1])
  have hp : s'.proc p = s.proc p := upd_of_ne hne.symm
  refine hs'.leave (hp ▸ hpc) fun e he => ?_
  rw [hp, hside, Bool.not_inj_iff] at he
  exact he ▸ hpaid

theorem signal (hok : ∀ q, (s.proc q).Ok) (hpc : (s.proc p).pc = .signal) :
    Wake ((conditionSignal s !(s.proc p).call.isSend).setPc p .leave) := by
  rcases conditionSignal_cases (!(s.proc p).call.isSend) s with ⟨hnone, he⟩ | ⟨q, rest, hwaits, he⟩
  · rw [he]
    refine h.leave hpc fun d hd => ?_
    obtain ⟨l, hl, hmem, -⟩ := h.covered d
    rw [hd, Bool.not_not] at hnone
    exact ⟨l, hl, hmem, fun hne => absurd hnone hne⟩
  · rw [he]
    have hwait := ((h.mem _ q).mp (by rw [hwaits]; exact mem_cons_self)).2
    refine h.wake hpc (Bool.not_not _).symm hwaits ((hok q).more ?_)
    rcases hwait with hw | hw
    · exact .inr (.inr (.inl hw))
    · exact .inr (.inr (.inr hw.1))

/-! ## Runs -/

theorem step (hq : Queue s) (hok : ∀ q, (s.proc q).Ok)
    (hready : (s.proc p).pc = .wait ∨ Ready s p) : Wake (step s p) := by
  -- a process on no list is not waiting
  have hwait : (s.proc p).pc ≠ .wait → ¬ (s.proc p).Waiting := by
    intro hpc hw
    have hin := (h.mem (s.proc p).call.isSend p).mpr ⟨rfl, hw⟩
    have hout := (hready.resolve_left hpc).2
    cases hd : (s.proc p).call.isSend with
    | true => exact hout.2 (by rwa [hd] at hin)
    | false => exact hout.1 (by rwa [hd] at hin)
  unfold Mailbox.step
  split
  · exact h
  · next hpc =>
    have hlock : ∀ {pr : Proc}, ¬ pr.pc.Holds → ∀ q, (upd s.proc p pr q).pc.Holds →
        s.mbox.acquired = true ∧ s.mbox.pid = some q := by
      intro pr hnot q hq
      by_cases he : q = p
      · rw [he, upd_self] at hq
        exact absurd hq hnot
      · rw [upd_of_ne he] at hq
        exact h.lock q hq
    have hnw : ¬ (s.proc p).Waiting := hwait (by simp [hpc])
    split
    · refine h.update p rfl (fun _ => rfl) rfl (by simp [hpc]) rfl (fun d => ?_) (fun _ => rfl)
        (fun hs => ⟨(h.owes p hs).1, by simp [Proc.Coming]⟩) (hlock (by simp [Pc.Holds]))
      refine and_congr_right fun _ => iff_of_false ?_ hnw
      simp [Proc.Waiting]
    · next hmore =>
      have hns : (s.proc p).signalled = false := by
        by_contra hc
        exact hmore (h.owes p (by simpa using hc)).1
      have hfin : (s.proc p).finish.pc = .idle ∧ (s.proc p).finish.signalled = false := by
        unfold Proc.finish
        split <;> exact ⟨rfl, hns⟩
      have hfw : ¬ (s.proc p).finish.Waiting := by simp [Proc.Waiting, hfin.1]
      refine h.update p rfl (fun _ => rfl) rfl (by simp [hpc]) (hfin.2.trans hns.symm)
        (fun d => ?_) (fun hs => ?_) (fun hs => ?_) (hlock ?_)
      · exact iff_of_false (fun hc => hfw hc.2) fun hc => hnw hc.2
      · exact absurd (hfin.2.symm.trans hs) Bool.false_ne_true
      · exact absurd (hfin.2.symm.trans hs) Bool.false_ne_true
      · rw [hfin.1]
        simp [Pc.Holds]
  · next hpc =>
    have := h.acquire p (.inl hpc) (.inl ⟨rfl, hpc⟩) (hwait (by simp [hpc]))
    rwa [hpc] at this
  · next hpc => exact h.body hq.used_le hpc
  · next hpc => exact h.signal hok hpc
  · next hpc => exact h.release p (.inl ⟨rfl, hpc⟩)
  · next hpc => exact h.release p (.inr ⟨rfl, hpc⟩)
  · next hpc =>
    have := h.acquire p (.inr hpc) (.inr ⟨rfl, hpc⟩) (hwait (by simp [hpc]))
    rwa [hpc] at this

theorem begin {c : Call} (hpc : (s.proc p).pc = .idle) : Wake (s.begin p c) := by
  have hns := h.not_signalled (p := p) (by simp [Proc.Coming, hpc])
  refine h.update p rfl (fun _ => rfl) rfl (by rw [hpc]; nofun) rfl (fun d => ?_) (fun hs => ?_)
    (fun hs => ?_) (fun q hq => ?_)
  · exact iff_of_false (fun hc => by simp [Proc.Waiting] at hc) fun hc => by simp [Proc.Waiting, hpc] at hc
  · exact absurd (hns.symm.trans hs) Bool.false_ne_true
  · exact absurd (hns.symm.trans hs) Bool.false_ne_true
  · by_cases he : q = p
    · rw [he] at hq
      simp [State.begin, Pc.Holds] at hq
    · rw [show (s.begin p c).proc q = s.proc q from upd_of_ne he] at hq
      exact h.lock q hq

end Wake

theorem wake_init : Wake (State.init P) := by
  refine ⟨fun p hp => ?_, fun d p => ?_, fun d => ?_, nofun, fun d => ⟨[], nodup_nil, ?_, ?_⟩⟩
  · simp [State.init, Pc.Holds] at hp
  · cases d <;> simp [State.init, Mbox.waits, Proc.Waiting]
  · cases d <;> exact nodup_nil
  · simp [State.init, Proc.Signalled]
  · cases d <;> simp [State.init, Mbox.waits]

variable [DecidableEq P]

theorem Reachable.wake {s : State P} (h : Reachable s) : Wake s := by
  induction h with
  | refl => exact wake_init
  | tail hrun hstep ih =>
    cases hstep with
    | send p message n hpc => exact ih.begin hpc
    | recv p n hpc => exact ih.begin hpc
    | run p hpc hready => exact ih.step (Reachable.queue hrun) (Reachable.streams hrun).ok hready

/-- **No wake-up is lost.** In every state reached in which `buffer_lock`
is free: if there are bytes and a process waits for them, at least as many
receivers have been signalled and not yet looked; and if there are free
places and a process waits for one, at least as many senders. -/
theorem reachable_wakeup (s : State P) (h : Reachable s) (hfree : s.mbox.acquired = false) :
    (0 < s.mbox.used → s.mbox.empty ≠ [] → ∃ l : List P, l.Nodup ∧ s.mbox.used ≤ l.length ∧
      ∀ p ∈ l, (s.proc p).Signalled false) ∧
    (s.mbox.used < 256 → s.mbox.full ≠ [] → ∃ l : List P, l.Nodup ∧ 256 - s.mbox.used ≤ l.length ∧
      ∀ p ∈ l, (s.proc p).Signalled true) := by
  have hw := h.wake
  have key : ∀ d, s.mbox.waits d ≠ [] → ∃ l : List P, l.Nodup ∧ s.mbox.room d ≤ l.length ∧
      ∀ p ∈ l, (s.proc p).Signalled d := by
    intro d hne
    obtain ⟨l, hl, hmem, hcount⟩ := hw.covered d
    refine ⟨l, hl, (hcount hne).resolve_right ?_, fun p hp => (hmem p).mp hp⟩
    intro ⟨⟨p, hp, _⟩, _⟩
    exact hw.not_holds_of_free hfree (.inr (.inl hp))
  exact ⟨fun _ hne => key false hne, fun _ hne => key true hne⟩

/-- Two receivers wait, and a sender has placed one byte: the receiver it
signalled is on its way, the other still waits. -/
theorem reachable_wakeup_three : ∃ s : State (Fin 3), Reachable s ∧ s.mbox.acquired = false ∧
    s.mbox.used = 1 ∧ s.mbox.empty = [1] ∧
    ∃ l : List (Fin 3), l.Nodup ∧ 1 ≤ l.length ∧ ∀ p ∈ l, (s.proc p).Signalled false := by
  let s₁ := (((State.init (Fin 3)).begin 0 (.recv 1 [])).begin 1 (.recv 1 [])).begin 2
    (.send (Bytes.fill 7) 1 0)
  have h₁ : Reachable s₁ :=
    (((Relation.ReflTransGen.refl).tail (.recv _ 0 1 rfl)).tail (.recv _ 1 1 rfl)).tail
      (.send _ 2 (Bytes.fill 7) 1 rfl)
  let ps : List (Fin 3) := [0, 0, 0, 0, 1, 1, 1, 1, 2, 2, 2, 2, 2]
  have h₂ : Reachable (ps.foldl step s₁) := h₁.schedule (by decide +kernel)
  have hused : (ps.foldl step s₁).mbox.used = 1 := by decide +kernel
  have hempty : (ps.foldl step s₁).mbox.empty = [1] := by decide +kernel
  have hfree : (ps.foldl step s₁).mbox.acquired = false := by decide +kernel
  refine ⟨_, h₂, hfree, hused, hempty, ?_⟩
  obtain ⟨l, hl, hlen, hmem⟩ := (reachable_wakeup _ h₂ hfree).1 (by rw [hused]; decide)
    (by rw [hempty]; exact cons_ne_nil _ _)
  exact ⟨l, hl, hused ▸ hlen, hmem⟩

end OsLab.Mailbox
