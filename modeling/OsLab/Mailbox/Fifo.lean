import OsLab.Mailbox.Model
/-!
# The mailbox is a queue of bytes

Bytes come out in the order they went in, none lost and none twice, in
every interleaving. What a process has placed is its messages one after
the other, so one sender and one receiver exchange a byte stream.
-/

namespace OsLab.Mailbox

open List

variable {P : Type}

/-! ## What the helpers leave alone -/

section Frame

variable (m : Mbox P) (p : P) (d : Bool)

@[simp] theorem mutexAcquire_buffer : (mutexAcquire m p).buffer = m.buffer := by
  unfold mutexAcquire
  split <;> rfl

@[simp] theorem mutexAcquire_head : (mutexAcquire m p).head = m.head := by
  unfold mutexAcquire
  split <;> rfl

@[simp] theorem mutexAcquire_tail : (mutexAcquire m p).tail = m.tail := by
  unfold mutexAcquire
  split <;> rfl

@[simp] theorem mutexAcquire_used : (mutexAcquire m p).used = m.used := by
  unfold mutexAcquire
  split <;> rfl

@[simp] theorem mutexAcquire_waits : (mutexAcquire m p).waits d = m.waits d := by
  unfold mutexAcquire
  cases d <;> split <;> rfl

@[simp] theorem mutexRelease_waits : (mutexRelease m).waits d = m.waits d := by
  cases d <;> rfl

variable [DecidableEq P] (s : State P)

/-- **A signal moves a waiter**, and touches nothing else of a process
than that it was signalled. -/
theorem conditionSignal_cases : s.mbox.waits d = [] ∧ conditionSignal s d = s ∨
    ∃ q rest, s.mbox.waits d = q :: rest ∧ conditionSignal s d = { s with
      mbox := s.mbox.setWaits rest d
      proc := upd s.proc q { s.proc q with signalled := true } } := by
  unfold conditionSignal
  split
  · exact .inl ⟨‹_›, rfl⟩
  · exact .inr ⟨_, _, ‹_›, rfl⟩

end Frame

/-! ## The bytes of a process -/

/-- What a call has placed so far. -/
def Call.sentBytes : Call → List UInt8
  | send message _ sent => (List.range sent).map message
  | recv .. => []

/-- What a call has received so far. -/
def Call.gotBytes : Call → List UInt8
  | send .. => []
  | recv _ received => received

/-- The bytes a process has sent: its messages, one after the other. -/
def Proc.sentBytes (pr : Proc) : List UInt8 := pr.sends.flatten ++ pr.call.sentBytes

/-- The bytes a process has received. -/
def Proc.gotBytes (pr : Proc) : List UInt8 := pr.recvs.flatten ++ pr.call.gotBytes

variable [DecidableEq P] {l : List (P × UInt8)}

/-- The part of a history that one process made. -/
def madeBy (p : P) (l : List (P × UInt8)) : List UInt8 := (l.filter (·.1 = p)).map Prod.snd

theorem madeBy_append_self (p : P) (l : List (P × UInt8)) (b : UInt8) :
    madeBy p (l ++ [(p, b)]) = madeBy p l ++ [b] := by
  simp [madeBy, filter_append]

theorem madeBy_append_ne {p q : P} (hne : q ≠ p) {b : UInt8} :
    madeBy q (l ++ [(p, b)]) = madeBy q l := by
  simp [madeBy, filter_append, hne.symm]

/-- A history that one process made alone. -/
theorem madeBy_of_alone {p : P} (h : ∀ q ≠ p, madeBy q l = []) :
    madeBy p l = l.map Prod.snd := by
  refine congrArg _ (filter_eq_self.mpr fun x hx => ?_)
  by_contra hne
  have hnil := h x.1 (by simpa using hne)
  unfold madeBy at hnil
  have hmem : x ∈ l.filter (·.1 = x.1) := mem_filter.mpr ⟨hx, by simp⟩
  rw [map_eq_nil_iff] at hnil
  rw [hnil] at hmem
  exact not_mem_nil hmem

/-! ## The invariant -/

/-- **The ring is the queue of what was placed and not removed.** -/
structure Queue (s : State P) : Prop where
  used_le : s.mbox.used ≤ MAX_MBOX_LENGTH
  head_lt : s.mbox.head < MAX_MBOX_LENGTH
  tail_eq : s.mbox.tail = (s.mbox.head + s.mbox.used) % MAX_MBOX_LENGTH
  fifo : s.placed.map Prod.snd =
    s.removed.map Prod.snd ++ ring MAX_MBOX_LENGTH s.mbox.buffer s.mbox.head s.mbox.used

/-- A process has a byte left to move from the loop's test until it moves
it, has moved no more than its message, and is in no call when it is
idle. -/
structure Proc.Ok (pr : Proc) : Prop where
  more : pr.pc = .enter ∨ pr.pc = .inside ∨ pr.pc = .wait ∨ pr.pc = .again → pr.call.more = true
  sent_le : ∀ message n k, pr.call = .send message n k → k ≤ n.toNat
  idle : pr.pc = .idle → pr.call = .recv 0 []

/-- **The histories are the processes' messages.** -/
structure Streams (s : State P) : Prop where
  ok : ∀ p, (s.proc p).Ok
  placed : ∀ p, madeBy p s.placed = (s.proc p).sentBytes
  removed : ∀ p, madeBy p s.removed = (s.proc p).gotBytes

variable {s : State P}

omit [DecidableEq P] in
theorem Queue.congr {s' : State P} (h : Queue s) (hb : s'.mbox.buffer = s.mbox.buffer)
    (hh : s'.mbox.head = s.mbox.head) (ht : s'.mbox.tail = s.mbox.tail)
    (hu : s'.mbox.used = s.mbox.used) (hp : s'.placed = s.placed) (hr : s'.removed = s.removed) :
    Queue s' := by
  refine ⟨?_, ?_, ?_, ?_⟩
  · rw [hu]
    exact h.used_le
  · rw [hh]
    exact h.head_lt
  · rw [ht, hh, hu]
    exact h.tail_eq
  · rw [hp, hr, hb, hh, hu]
    exact h.fifo

/-- **Moving a byte keeps the queue.** -/
theorem Queue.body (h : Queue s) (p : P) : Queue (body s p) := by
  unfold Mailbox.body
  split
  · unfold sendBody
    split
    · next hlt =>
      refine ⟨hlt, h.head_lt, ?_, ?_⟩
      · show (s.mbox.tail + 1) % MAX_MBOX_LENGTH = _
        rw [h.tail_eq, Nat.mod_add_mod, Nat.add_assoc]
      · show (s.placed ++ [_]).map Prod.snd = _ ++ ring _ (upd _ s.mbox.tail _) _ _
        rw [map_append, h.fifo, h.tail_eq, ring_push hlt, append_assoc]
        rfl
    · exact h.congr rfl rfl rfl rfl rfl rfl
  · unfold recvBody
    split
    · next hpos =>
      obtain ⟨used, hused⟩ : ∃ used, s.mbox.used = used + 1 := ⟨s.mbox.used - 1, by omega⟩
      have hle := h.used_le
      refine ⟨?_, Nat.mod_lt _ (by decide), ?_, ?_⟩
      · show s.mbox.used - 1 ≤ _
        omega
      · show s.mbox.tail = ((s.mbox.head + 1) % MAX_MBOX_LENGTH + (s.mbox.used - 1)) % _
        rw [h.tail_eq, Nat.mod_add_mod, hused, Nat.add_sub_cancel]
        congr 1
        omega
      · have hfifo := h.fifo
        rw [hused, ring_pop, Nat.mod_eq_of_lt h.head_lt] at hfifo
        rw [map_append, hused, Nat.add_sub_cancel, append_assoc]
        exact hfifo
    · exact h.congr rfl rfl rfl rfl rfl rfl

theorem Queue.conditionSignal (h : Queue s) (d : Bool) : Queue (conditionSignal s d) := by
  rcases conditionSignal_cases d s with ⟨-, he⟩ | ⟨q, rest, -, he⟩
  · rw [he]
    exact h
  · rw [he]
    cases d <;> exact h.congr rfl rfl rfl rfl rfl rfl

theorem Queue.step (h : Queue s) (p : P) : Queue (step s p) := by
  unfold Mailbox.step
  split
  · exact h
  · split <;> exact h.congr rfl rfl rfl rfl rfl rfl
  · exact h.congr (mutexAcquire_buffer ..) (mutexAcquire_head ..) (mutexAcquire_tail ..)
      (mutexAcquire_used ..) rfl rfl
  · exact h.body p
  · exact (h.conditionSignal _).congr rfl rfl rfl rfl rfl rfl
  · exact h.congr rfl rfl rfl rfl rfl rfl
  · exact h.congr rfl rfl rfl rfl rfl rfl
  · exact h.congr (mutexAcquire_buffer ..) (mutexAcquire_head ..) (mutexAcquire_tail ..)
      (mutexAcquire_used ..) rfl rfl

/-! ## The streams -/

variable {pr : Proc}

section

variable (h : Streams s)
include h

variable {s' : State P}

/-- A step that changes one process, and adds to the histories what the
process says. -/
theorem Streams.update (p : P)
    (hproc : s'.proc = upd s.proc p pr) (hok : pr.Ok) (hplaced : madeBy p s'.placed = pr.sentBytes)
    (hremoved : madeBy p s'.removed = pr.gotBytes)
    (hp : ∀ q ≠ p, madeBy q s'.placed = madeBy q s.placed)
    (hr : ∀ q ≠ p, madeBy q s'.removed = madeBy q s.removed) : Streams s' := by
  have hself : s'.proc p = pr := by rw [hproc, upd_self]
  have hother : ∀ {q}, q ≠ p → s'.proc q = s.proc q := fun hne => by rw [hproc, upd_of_ne hne]
  refine ⟨fun q => ?_, fun q => ?_, fun q => ?_⟩ <;> by_cases hq : q = p
  · rw [hq, hself]
    exact hok
  · rw [hother hq]
    exact h.ok q
  · rw [hq, hself]
    exact hplaced
  · rw [hp q hq, hother hq]
    exact h.placed q
  · rw [hq, hself]
    exact hremoved
  · rw [hr q hq, hother hq]
    exact h.removed q

/-- A step that moves no byte. -/
theorem Streams.setPc (p : P)
    (hproc : s'.proc = upd s.proc p pr) (hok : pr.Ok) (hsent : pr.sentBytes = (s.proc p).sentBytes)
    (hgot : pr.gotBytes = (s.proc p).gotBytes) (hplaced : s'.placed = s.placed)
    (hremoved : s'.removed = s.removed) : Streams s' := by
  refine h.update p hproc hok ?_ ?_ ?_ ?_
  · rw [hplaced, hsent, h.placed]
  · rw [hremoved, hgot, h.removed]
  · intro q _
    rw [hplaced]
  · intro q _
    rw [hremoved]

theorem Streams.body (p : P) (hpc : (s.proc p).pc = .inside) : Streams (body s p) := by
  have hok := h.ok p
  have hmore := hok.more (.inr (.inl hpc))
  unfold Mailbox.body
  split
  · next message n sent hcall =>
    rw [hcall] at hmore
    have hlt : (sent : ℤ) < n := of_decide_eq_true hmore
    unfold sendBody
    split
    · refine h.update p rfl ⟨by simp, ?_, by simp⟩ ?_ ?_ ?_ (fun _ _ => rfl)
      · intro message' n' k he
        injection he with _ hn hk
        omega
      · show madeBy p (s.placed ++ [_]) = _
        rw [madeBy_append_self, h.placed, Proc.sentBytes, Proc.sentBytes, hcall]
        simp only [Call.sentBytes, range_succ, map_append, append_assoc]
        rfl
      · show madeBy p s.removed = _
        rw [h.removed, Proc.gotBytes, Proc.gotBytes, hcall]
        rfl
      · intro q hq
        exact madeBy_append_ne hq
    · refine h.setPc p rfl ⟨fun _ => ?_, hok.sent_le, by simp⟩ rfl rfl rfl rfl
      exact hok.more (.inr (.inl hpc))
  · next n received hcall =>
    unfold recvBody
    split
    · refine h.update p rfl ⟨by simp, by simp, by simp⟩ ?_ ?_ (fun _ _ => rfl) ?_
      · show madeBy p s.placed = _
        rw [h.placed, Proc.sentBytes, Proc.sentBytes, hcall]
        rfl
      · show madeBy p (s.removed ++ [_]) = _
        rw [madeBy_append_self, h.removed, Proc.gotBytes, Proc.gotBytes, hcall]
        simp only [Call.gotBytes, append_assoc]
      · intro q hq
        exact madeBy_append_ne hq
    · refine h.setPc p rfl ⟨fun _ => ?_, hok.sent_le, by simp⟩ rfl rfl rfl rfl
      exact hok.more (.inr (.inl hpc))

/-- **A finished call has moved its whole message.** -/
theorem Streams.finish (p : P) (hmore : (s.proc p).call.more = false) :
    Streams { s with proc := upd s.proc p (s.proc p).finish } := by
  have hok := h.ok p
  refine h.setPc p rfl ?_ ?_ ?_ rfl rfl
  · unfold Proc.finish
    split
    · exact ⟨nofun, nofun, fun _ => rfl⟩
    · exact ⟨nofun, nofun, fun _ => rfl⟩
  · unfold Proc.finish Proc.sentBytes
    split
    · next message n sent hcall =>
      have hle := hok.sent_le message n sent hcall
      rw [hcall] at hmore ⊢
      have hge : ¬ (sent : ℤ) < n := of_decide_eq_false hmore
      have hn : n.toNat = sent := by omega
      simp [Call.sentBytes, hn]
    · next hcall =>
      rw [hcall]
      rfl
  · unfold Proc.finish Proc.gotBytes
    split
    · next hcall =>
      rw [hcall]
      rfl
    · next n received hcall =>
      rw [hcall]
      simp [Call.gotBytes]

theorem Streams.conditionSignal (d : Bool) : Streams (conditionSignal s d) := by
  rcases conditionSignal_cases d s with ⟨-, he⟩ | ⟨q, rest, -, he⟩
  · rw [he]
    exact h
  · rw [he]
    have hok := h.ok q
    exact h.setPc q rfl ⟨hok.more, hok.sent_le, hok.idle⟩ rfl rfl rfl rfl

theorem Streams.step (p : P) : Streams (step s p) := by
  have hok := h.ok p
  unfold Mailbox.step
  split
  · exact h
  · split
    · next hmore => exact h.setPc p rfl ⟨fun _ => hmore, hok.sent_le, by simp⟩ rfl rfl rfl rfl
    · next hmore => exact h.finish p (by simpa using hmore)
  · next hpc =>
    refine h.setPc p rfl ⟨fun _ => hok.more (.inl hpc), hok.sent_le, fun hidle => ?_⟩ rfl rfl rfl rfl
    cases hacq : s.mbox.acquired <;> simp [hacq] at hidle
  · next hpc => exact h.body p hpc
  · have hsig := h.conditionSignal !(s.proc p).call.isSend
    exact hsig.setPc p rfl ⟨by simp, (hsig.ok p).sent_le, by simp⟩ rfl rfl rfl rfl
  · exact h.setPc p rfl ⟨by simp, hok.sent_le, by simp⟩ rfl rfl rfl rfl
  · next hpc =>
    refine h.setPc p rfl ⟨fun _ => ?_, hok.sent_le, by simp⟩ rfl rfl rfl rfl
    exact hok.more (.inr (.inr (.inl hpc)))
  · next hpc =>
    refine h.setPc p rfl ⟨fun _ => ?_, hok.sent_le, fun hidle => ?_⟩ rfl rfl rfl rfl
    · exact hok.more (.inr (.inr (.inr hpc)))
    · cases hacq : s.mbox.acquired <;> simp [hacq] at hidle

/-- A call begins with nothing moved. -/
theorem Streams.begin (p : P) {c : Call}
    (hpc : (s.proc p).pc = .idle) (hsent : c.sentBytes = []) (hgot : c.gotBytes = [])
    (hle : ∀ message n k, c = .send message n k → k ≤ n.toNat) : Streams (s.begin p c) := by
  have hidle := (h.ok p).idle hpc
  refine h.setPc p rfl ⟨nofun, hle, nofun⟩ ?_ ?_ rfl rfl
  · rw [Proc.sentBytes, Proc.sentBytes, hidle]
    exact congrArg _ hsent
  · rw [Proc.gotBytes, Proc.gotBytes, hidle]
    exact congrArg _ hgot

/-! ## Runs -/

end

omit [DecidableEq P] in
theorem queue_init : Queue (State.init P) :=
  ⟨Nat.zero_le _, (by decide : 0 < MAX_MBOX_LENGTH), rfl, rfl⟩

theorem streams_init : Streams (State.init P) :=
  ⟨fun _ => ⟨nofun, nofun, fun _ => rfl⟩, fun _ => rfl, fun _ => rfl⟩

theorem Reachable.queue (h : Reachable s) : Queue s := by
  induction h with
  | refl => exact queue_init
  | tail _ hstep ih =>
    cases hstep with
    | send p message n hpc => exact ih.congr rfl rfl rfl rfl rfl rfl
    | recv p n hpc => exact ih.congr rfl rfl rfl rfl rfl rfl
    | run p hpc hready => exact ih.step p

theorem Reachable.streams (h : Reachable s) : Streams s := by
  induction h with
  | refl => exact streams_init
  | tail _ hstep ih =>
    cases hstep with
    | send p message n hpc =>
      refine ih.begin p hpc rfl rfl fun message' n' k he => ?_
      injection he with _ _ hk
      omega
    | recv p n hpc => exact ih.begin p hpc rfl rfl nofun
    | run p hpc hready => exact ih.step p

/-- **The mailbox is a queue of bytes.** In every state reached by any
number of senders and receivers the ring's indices agree, what was placed
is what was removed and then what is in the ring, and, with one sender
and one receiver, the receiver's messages are the sender's byte stream but
for what is still in the ring. -/
theorem reachable_fifo (s : State P) (h : Reachable s) :
    s.mbox.used ≤ 256 ∧ s.mbox.tail = (s.mbox.head + s.mbox.used) % 256 ∧ s.placed.map Prod.snd =
      s.removed.map Prod.snd ++ ring 256 s.mbox.buffer s.mbox.head s.mbox.used ∧
    ∀ p q, (∀ r ≠ p, (s.proc r).sentBytes = []) → (∀ r ≠ q, (s.proc r).gotBytes = []) →
      (s.proc p).sentBytes =
        (s.proc q).gotBytes ++ ring 256 s.mbox.buffer s.mbox.head s.mbox.used := by
  have hq := h.queue
  have hs := h.streams
  refine ⟨hq.used_le, hq.tail_eq, hq.fifo, fun p q hp hr => ?_⟩
  rw [← hs.placed p, ← hs.removed q, madeBy_of_alone fun r hne => (hs.placed r).trans (hp r hne),
    madeBy_of_alone fun r hne => (hs.removed r).trans (hr r hne)]
  exact hq.fifo

/-- A sender has placed two of the three bytes of its message, and the
receiver has taken one of them. -/
theorem reachable_fifo_two : ∃ s : State Bool, Reachable s ∧ (s.proc true).sentBytes = [7, 7] ∧
    (s.proc false).gotBytes = [7] ∧ (s.proc true).sentBytes =
      (s.proc false).gotBytes ++ ring 256 s.mbox.buffer s.mbox.head s.mbox.used := by
  let s₁ := ((State.init Bool).begin true (.send (Bytes.fill 7) 3 0)).begin false (.recv 1 [])
  have h₁ : Reachable s₁ :=
    ((Relation.ReflTransGen.refl).tail (.send _ true (Bytes.fill 7) 3 rfl)).tail
      (.recv _ false 1 rfl)
  let ps : List Bool := [true, true, true, true, true, true, true, true, true, true,
    false, false, false]
  have h₂ : Reachable (ps.foldl step s₁) := h₁.schedule (by decide +kernel)
  refine ⟨_, h₂, by decide +kernel, by decide +kernel, (reachable_fifo _ h₂).2.2.2 true false ?_ ?_⟩
  · intro r hr
    obtain rfl : r = false := by simpa using hr
    decide +kernel
  · intro r hr
    obtain rfl : r = true := by simpa using hr
    decide +kernel

end OsLab.Mailbox
