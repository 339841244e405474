import OsLab.Mailbox.Fifo
import Mathlib.Data.Fintype.Basic
/-!
# Messages and the byte stream

A send takes the lock once for each byte, so between two bytes of a message
another sender may place its own, above all when the first one waits for
room in the middle. If no byte is placed while another sender is part way
through its message, the bytes come out as whole messages one after the
other.
-/

namespace OsLab.Mailbox

open List

variable {P : Type} [DecidableEq P]

/-! ## Whole messages -/

/-- The messages of which a process has placed a byte, and those it has
finished. -/
def Proc.begun (pr : Proc) : List (List UInt8) :=
  match pr.call with
  | .send message n sent => if 0 < sent then pr.sends ++ [(List.range n.toNat).map message] else pr.sends
  | .recv .. => pr.sends

/-- Some bytes of the message are placed, and some are not. -/
def Proc.PartWay (pr : Proc) : Prop :=
  ∃ message n sent, pr.call = .send message n sent ∧ 0 < sent ∧ (sent : ℤ) < n

/-- **Messages stay whole.** There is an order of all the messages begun
that keeps the order of each sender, and the bytes removed are those
messages one after the other: a first part of them in general, and all of
them when the mailbox is empty and nobody is part way through a
message. -/
def Whole (s : State P) : Prop :=
  ∃ log : List (P × List UInt8),
    (∀ p, (log.filter (·.1 = p)).map Prod.snd = (s.proc p).begun) ∧
    s.removed.map Prod.snd <+: (log.map Prod.snd).flatten ∧
    (s.mbox.used = 0 → (∀ p, ¬ (s.proc p).PartWay) →
      s.removed.map Prod.snd = (log.map Prod.snd).flatten)

/-- The next step of the process places a byte: it is a sender that has the
lock, and there is room. -/
def Places (s : State P) (p : P) : Prop :=
  (s.proc p).pc = .inside ∧ (s.proc p).call.isSend = true ∧ s.mbox.used < MAX_MBOX_LENGTH

/-- If the process is about to place a byte, no other sender is part way
through its message. -/
def PlacesApart (s : State P) (p : P) : Prop := Places s p → ∀ q ≠ p, ¬ (s.proc q).PartWay

/-- A step in which a byte is placed only apart from the other messages. -/
inductive ApartStep (s : State P) : State P → Prop
  | send (p : P) (message : Bytes) (msg_length : ℤ) (hpc : (s.proc p).pc = .idle) :
      ApartStep s (s.begin p (.send message msg_length 0))
  | recv (p : P) (msg_length : ℤ) (hpc : (s.proc p).pc = .idle) : ApartStep s (s.begin p (.recv msg_length []))
  | run (p : P) (hpc : (s.proc p).pc ≠ .idle) (hready : (s.proc p).pc = .wait ∨ Ready s p)
      (hapart : PlacesApart s p) : ApartStep s (step s p)

theorem ApartStep.toStep {s t : State P} (h : ApartStep s t) : Step s t := by
  cases h with
  | send p message n hpc => exact .send s p message n hpc
  | recv p n hpc => exact .recv s p n hpc
  | run p hpc hready => exact .run s p hpc hready

/-! ## The invariant -/

/-- What is placed, and the rest of the message somebody is part way
through, are the messages of the log. -/
structure Logged (s : State P) (log : List (P × List UInt8)) (rest : List UInt8) : Prop where
  begun : ∀ p, (log.filter (·.1 = p)).map Prod.snd = (s.proc p).begun
  placed : s.placed.map Prod.snd ++ rest = (log.map Prod.snd).flatten
  rest : (∀ p, ¬ (s.proc p).PartWay) ∧ rest = [] ∨
    ∃ p message n sent, (s.proc p).call = .send message n sent ∧ 0 < sent ∧ (sent : ℤ) < n ∧
      (∀ q ≠ p, ¬ (s.proc q).PartWay) ∧ rest = ((List.range n.toNat).map message).drop sent

variable {pr : Proc} {s : State P} {log : List (P × List UInt8)} {rest : List UInt8} {p : P}
  {message : Bytes} {n : ℕ} {msg_length : ℤ}

omit [DecidableEq P] in
theorem Proc.partWay_congr {pr' : Proc} (h : pr'.call = pr.call) : pr'.PartWay ↔ pr.PartWay := by
  unfold Proc.PartWay
  rw [h]

variable {t : State P}

section

variable (h : Logged s log rest)
include h

/-- A step that places no byte, and leaves the calls and the finished
messages as they are. -/
theorem Logged.congr (hplaced : t.placed = s.placed)
    (hcall : ∀ p, (t.proc p).call = (s.proc p).call)
    (hsends : ∀ p, (t.proc p).sends = (s.proc p).sends) : Logged t log rest := by
  have hway : ∀ p, (t.proc p).PartWay ↔ (s.proc p).PartWay := fun p => Proc.partWay_congr (hcall p)
  refine ⟨fun p => ?_, ?_, ?_⟩
  · rw [h.begun, Proc.begun, Proc.begun, hcall, hsends]
  · rw [hplaced]
    exact h.placed
  · simp only [hway, hcall]
    exact h.rest

/-- A step that changes the process `p` only, is not about its messages
and places no byte. -/
theorem Logged.update (p : P) (hproc : t.proc = upd s.proc p pr)
    (hplaced : t.placed = s.placed) (hcall : pr.call = (s.proc p).call)
    (hsends : pr.sends = (s.proc p).sends) : Logged t log rest := by
  refine h.congr hplaced (fun q => ?_) fun q => ?_ <;> rw [hproc, upd_apply] <;> split
  · next hq => rw [hq, hcall]
  · rfl
  · next hq => rw [hq, hsends]
  · rfl

/-- A process that is not part way through a message, before and after,
and whose new messages have no bytes. -/
theorem Logged.outside {l : List (P × List UInt8)} (p : P) (hproc : t.proc = upd s.proc p pr)
    (hplaced : t.placed = s.placed) (hold : ¬ (s.proc p).PartWay) (hpr : ¬ pr.PartWay)
    (hnew : ∀ x ∈ l, x = (p, [])) (hbegun : pr.begun = (s.proc p).begun ++ l.map Prod.snd) :
    Logged t (log ++ l) rest := by
  have hself : t.proc p = pr := by rw [hproc, upd_self]
  have hother : ∀ q ≠ p, t.proc q = s.proc q := fun q hq => by rw [hproc, upd_of_ne hq]
  have hflat : (l.map Prod.snd).flatten = [] := by
    rw [flatten_eq_nil_iff]
    intro l hl
    obtain ⟨x, hx, rfl⟩ := mem_map.mp hl
    rw [hnew x hx]
  refine ⟨fun q => ?_, ?_, ?_⟩
  · rw [filter_append, map_append, h.begun]
    by_cases hq : q = p
    · rw [hq, hself, hbegun, filter_eq_self.mpr]
      intro x hx
      simp [hnew x hx]
    · rw [hother q hq, filter_eq_nil_iff.mpr, map_nil, append_nil]
      intro x hx
      simpa [hnew x hx] using fun he => hq he.symm
  · rw [hplaced, h.placed, map_append, flatten_append, hflat, append_nil]
  · have hway : ∀ q, ¬ (s.proc q).PartWay → ¬ (t.proc q).PartWay := by
      intro q hq
      by_cases he : q = p
      · rwa [he, hself]
      · rwa [hother q he]
    rcases h.rest with ⟨hnone, hrest⟩ | ⟨r, message, n, sent, hcall, hpos, hlt, hothers, hrest⟩
    · exact .inl ⟨fun q => hway q (hnone q), hrest⟩
    · have hr : r ≠ p := by
        rintro rfl
        exact hold ⟨message, n, sent, hcall, hpos, hlt⟩
      exact .inr ⟨r, message, n, sent, by rw [hother r hr, hcall], hpos, hlt,
        fun q hq => hway q (hothers q hq), hrest⟩

/-- **Placing a byte.** With no other sender part way, the byte is the
first of a new message, or the next one of the message the log ends
with. -/
theorem Logged.place {n : ℤ} {sent : ℕ} (hcall : (s.proc p).call = .send message n sent)
    (hlt : (sent : ℤ) < n) (hroom : s.mbox.used < MAX_MBOX_LENGTH)
    (hothers : ∀ q ≠ p, ¬ (s.proc q).PartWay) :
    ∃ log' rest', Logged (sendBody s p message n sent) log' rest' := by
  have hproc : ∀ q, (sendBody s p message n sent).proc q =
      upd s.proc p { s.proc p with
        pc := .signal, call := .send message n (sent + 1), signalled := false } q := by
    intro q
    rw [sendBody, if_pos hroom]
  have hplaced : (sendBody s p message n sent).placed = s.placed ++ [(p, message sent)] := by
    rw [sendBody, if_pos hroom]
  have hrange : ((List.range n.toNat).map message).drop sent =
      message sent :: ((List.range n.toNat).map message).drop (sent + 1) := by
    rw [drop_eq_getElem_cons (by simp; omega)]
    simp
  -- whoever else is part way now was so before, and the message of `p` goes on or is at its end
  have hrest : (∀ q, ¬ ((sendBody s p message n sent).proc q).PartWay) ∧
        ((List.range n.toNat).map message).drop (sent + 1) = [] ∨
      ∃ r message' n' sent', ((sendBody s p message n sent).proc r).call =
          .send message' n' sent' ∧ 0 < sent' ∧ (sent' : ℤ) < n' ∧
        (∀ q ≠ r, ¬ ((sendBody s p message n sent).proc q).PartWay) ∧
        ((List.range n.toNat).map message).drop (sent + 1) =
          ((List.range n'.toNat).map message').drop sent' := by
    have hne : ∀ q ≠ p, ¬ ((sendBody s p message n sent).proc q).PartWay := by
      intro q hq
      rw [hproc, upd_of_ne hq]
      exact hothers q hq
    by_cases hend : ((sent + 1 : ℕ) : ℤ) < n
    · exact .inr ⟨p, message, n, sent + 1, by rw [hproc, upd_self], by omega, hend, hne, rfl⟩
    · refine .inl ⟨fun q => ?_, drop_eq_nil_of_le (by simp; omega)⟩
      by_cases hq : q = p
      · rw [hq, hproc, upd_self]
        rintro ⟨_, _, _, he, -, hlt'⟩
        injection he with _ hn hk
        omega
      · exact hne q hq
  by_cases hpos : 0 < sent
  · refine ⟨log, ((List.range n.toNat).map message).drop (sent + 1), fun q => ?_, ?_, hrest⟩
    · rw [h.begun, hproc, upd_apply]
      split
      · next hq => simp [Proc.begun, hq, hcall, hpos]
      · rfl
    · rcases h.rest with ⟨hnone, -⟩ | ⟨r, message', n', sent', hcall', hpos', hlt', -, hr⟩
      · exact absurd ⟨message, n, sent, hcall, hpos, hlt⟩ (hnone p)
      · obtain rfl : r = p := by
          by_contra hne
          exact hothers r hne ⟨message', n', sent', hcall', hpos', hlt'⟩
        rw [hcall] at hcall'
        injection hcall' with hm hn hk
        rw [hplaced, ← h.placed, hr, ← hm, ← hn, ← hk, hrange, map_append, append_assoc]
        rfl
  · obtain rfl : sent = 0 := by omega
    refine ⟨log ++ [(p, (List.range n.toNat).map message)],
      ((List.range n.toNat).map message).drop 1, fun q => ?_, ?_, hrest⟩
    · rw [filter_append, map_append, h.begun, hproc, upd_apply]
      split
      · next hq => simp [Proc.begun, hq, hcall]
      · next hq =>
        have hne : ¬ p = q := fun he => hq he.symm
        simp [hne]
    · have hnil : rest = [] := by
        rcases h.rest with ⟨-, hr⟩ | ⟨r, message', n', sent', hcall', hpos', hlt', -, hr⟩
        · exact hr
        · obtain rfl : r = p := by
            by_contra hne
            exact hothers r hne ⟨message', n', sent', hcall', hpos', hlt'⟩
          rw [hcall] at hcall'
          injection hcall' with _ _ hk
          omega
      have hp := h.placed
      rw [hnil, append_nil] at hp
      rw [hplaced, map_append, hp, map_append, flatten_append, append_assoc]
      simpa using hrange.symm

/-- **One step keeps the log**, if it places its byte apart from the other
messages. -/
theorem Logged.step (hs : Streams s) (p : P) (hapart : PlacesApart s p) :
    ∃ log' rest', Logged (step s p) log' rest' := by
  unfold Mailbox.step
  split
  · exact ⟨log, rest, h⟩
  · split
    · exact ⟨log, rest, h.update p rfl rfl rfl rfl⟩
    · next hmore =>
      -- the end of a call: only a send of no bytes adds a message
      have hold : ¬ (s.proc p).PartWay := by
        rintro ⟨message, n, sent, hcall, -, hlt⟩
        rw [hcall] at hmore
        exact hmore (decide_eq_true hlt)
      have hnew : ¬ (s.proc p).finish.PartWay := by
        rintro ⟨message, n, sent, hcall, -⟩
        unfold Proc.finish at hcall
        split at hcall <;> simp at hcall
      cases hcall : (s.proc p).call with
      | recv n received =>
        refine ⟨_, rest, h.outside (l := []) p rfl rfl hold hnew (by simp) ?_⟩
        simp [Proc.begun, Proc.finish, hcall]
      | send message n sent =>
        by_cases hpos : 0 < sent
        · refine ⟨_, rest, h.outside (l := []) p rfl rfl hold hnew (by simp) ?_⟩
          simp [Proc.begun, Proc.finish, hcall, hpos]
        · have hn : n.toNat = 0 := by
            rw [hcall] at hmore
            have : ¬ (sent : ℤ) < n := fun hlt => hmore (decide_eq_true hlt)
            omega
          refine ⟨_, rest, h.outside (l := [(p, [])]) p rfl rfl hold hnew (by simp) ?_⟩
          simp [Proc.begun, Proc.finish, hcall, hpos, hn]
  · exact ⟨log, rest, h.update p rfl rfl rfl rfl⟩
  · next hpc =>
    have hmore := (hs.ok p).more (.inr (.inl hpc))
    unfold body
    cases hcall : (s.proc p).call with
    | recv n received =>
      simp only [hcall, recvBody]
      split
      · refine ⟨log ++ [], rest, h.outside p rfl rfl ?_ ?_ (by simp) ?_⟩
        · rintro ⟨_, _, _, he, -⟩
          rw [hcall] at he
          cases he
        · rintro ⟨_, _, _, he, -⟩
          cases he
        · simp [Proc.begun, hcall]
      · exact ⟨log, rest, h.update p rfl rfl hcall.symm rfl⟩
    | send message n sent =>
      rw [hcall] at hmore
      dsimp only
      by_cases hroom : s.mbox.used < MAX_MBOX_LENGTH
      · exact h.place hcall (of_decide_eq_true hmore) hroom (hapart ⟨hpc, by rw [hcall]; rfl, hroom⟩)
      · rw [sendBody, if_neg hroom]
        exact ⟨log, rest, h.update p rfl rfl rfl rfl⟩
  · refine ⟨log, rest, ?_⟩
    rcases conditionSignal_cases (!(s.proc p).call.isSend) s with ⟨-, he⟩ | ⟨q, l, -, he⟩
    · rw [he]
      exact h.update p rfl rfl rfl rfl
    · rw [he]
      have hq : Logged { s with
          mbox := s.mbox.setWaits l (!(s.proc p).call.isSend)
          proc := upd s.proc q { s.proc q with signalled := true } } log rest :=
        h.update q rfl rfl rfl rfl
      exact hq.update p rfl rfl rfl rfl
  · exact ⟨log, rest, h.update p rfl rfl rfl rfl⟩
  · exact ⟨log, rest, h.update p rfl rfl rfl rfl⟩
  · exact ⟨log, rest, h.update p rfl rfl rfl rfl⟩

/-- A call that begins has placed nothing. -/
theorem Logged.begin (hs : Streams s) (hpc : (s.proc p).pc = .idle) {c : Call}
    (hc : ∀ message n sent, c = .send message n sent → sent = 0) :
    Logged (s.begin p c) (log ++ []) rest := by
  have hidle := (hs.ok p).idle hpc
  refine h.outside p rfl rfl ?_ ?_ nofun ?_
  · rintro ⟨_, _, _, he, -⟩
    rw [hidle] at he
    cases he
  · rintro ⟨message, n, sent, he, hpos, -⟩
    have := hc message n sent he
    omega
  · cases c with
    | recv n received => simp [Proc.begun, hidle]
    | send message n sent => simp [Proc.begun, hidle, hc message n sent rfl]

/-! ## Runs -/

end

/-- **The bytes that come out are whole messages one after the other**, in
every state reached by a run in which no byte is placed while another
sender is part way through its message. -/
theorem messages_whole (s : State P) (h : Relation.ReflTransGen ApartStep (State.init P) s) :
    Whole s := by
  have hreach : Reachable s := Relation.ReflTransGen.mono (fun _ _ => ApartStep.toStep) _ _ h
  obtain ⟨log, rest, hlog⟩ : ∃ log rest, Logged s log rest := by
    clear hreach
    induction h with
    | refl =>
      refine ⟨[], [], fun p => rfl, rfl, .inl ⟨fun p => ?_, rfl⟩⟩
      rintro ⟨_, _, _, he, -⟩
      cases he
    | @tail s t hrun hst ih =>
      obtain ⟨log, rest, hlog⟩ := ih
      have hs : Streams s := Reachable.streams (Relation.ReflTransGen.mono (fun _ _ => ApartStep.toStep) _ _ hrun)
      cases hst with
      | send p message n hpc =>
        refine ⟨_, _, hlog.begin hs hpc fun _ _ _ he => ?_⟩
        injection he with _ _ hk
        exact hk.symm
      | recv p n hpc => exact ⟨_, _, hlog.begin hs hpc nofun⟩
      | run p _ _ hapart => exact hlog.step hs p hapart
  have hfifo := hreach.queue.fifo
  refine ⟨log, hlog.begun, ?_, fun hused hnone => ?_⟩
  · rw [← hlog.placed, hfifo, append_assoc]
    exact prefix_append _ _
  · rcases hlog.rest with ⟨-, hrest⟩ | ⟨p, message, n, sent, hcall, hpos, hlt, -⟩
    · rw [← hlog.placed, hrest, hfifo, hused]
      simp [ring]
    · exact absurd ⟨message, n, sent, hcall, hpos, hlt⟩ (hnone p)

instance (pr : Proc) : Decidable pr.PartWay :=
  match h : pr.call with
  | .send message n sent =>
    if hway : 0 < sent ∧ (sent : ℤ) < n then .isTrue ⟨message, n, sent, h, hway⟩
    else .isFalse (by rintro ⟨_, _, _, he, hway'⟩; rw [h] at he; cases he; exact hway hway')
  | .recv .. => .isFalse (by rintro ⟨_, _, _, he, -⟩; rw [h] at he; cases he)

/-- Along the schedule, bytes are placed apart. -/
def StaysApart (s : State P) : List P → Prop
  | [] => True
  | p :: ps => PlacesApart s p ∧ StaysApart (step s p) ps

instance [Fintype P] (s : State P) (p : P) : Decidable (PlacesApart s p) :=
  inferInstanceAs (Decidable ((_ ∧ _ ∧ _) → ∀ _, _))

instance instDecidableStaysApart [Fintype P] (s : State P) (ps : List P) :
    Decidable (StaysApart s ps) :=
  match ps with
  | [] => inferInstanceAs (Decidable True)
  | p :: ps =>
    have : Decidable (StaysApart (step s p) ps) := instDecidableStaysApart (step s p) ps
    inferInstanceAs (Decidable (_ ∧ _))

theorem StaysApart.run {ps : List P} (hapart : StaysApart s ps) (hps : Schedule s ps)
    (h : Relation.ReflTransGen ApartStep (State.init P) s) :
    Relation.ReflTransGen ApartStep (State.init P) (ps.foldl step s) := by
  induction ps generalizing s with
  | nil => exact h
  | cons p ps ih => exact ih hapart.2 hps.2.2 (h.tail (.run p hps.1 hps.2.1 hapart.1))

/-- Two processes are in their calls to send two and three bytes, and a
third takes the bytes, the first of them before the second sender begins. -/
theorem messages_whole_two :
    ∃ s : State (Fin 3), Relation.ReflTransGen ApartStep (State.init (Fin 3)) s ∧
    (s.proc 0).sends = [[1, 2]] ∧ (s.proc 1).sends = [[3, 4, 5]] ∧
    s.removed = [(2, 1), (2, 2), (2, 3), (2, 4), (2, 5)] ∧ s.mbox.used = 0 ∧ Whole s := by
  let s1 := ((State.init (Fin 3)).begin 0 (.send (fun i => .ofNat (i + 1)) 2 0)).begin 1
    (.send (fun i => .ofNat (i + 3)) 3 0)
  let s2 := (1 :: List.replicate 11 0).foldl step s1
  let s3 := s2.begin 2 (.recv 5 [])
  have h1 : Relation.ReflTransGen ApartStep _ s1 :=
    (Relation.ReflTransGen.single (.send 0 _ _ rfl)).tail (.send 1 _ _ rfl)
  have h2 : Relation.ReflTransGen ApartStep _ s2 :=
    StaysApart.run (by decide +kernel) (by decide +kernel) h1
  have h3 : Relation.ReflTransGen ApartStep _ s3 := h2.tail (.recv 2 _ (by decide +kernel))
  let ps : List (Fin 3) := List.replicate 5 2 ++ List.replicate 15 1 ++ List.replicate 21 2
  have h4 : Relation.ReflTransGen ApartStep _ (ps.foldl step s3) :=
    StaysApart.run (by decide +kernel) (by decide +kernel) h3
  exact ⟨_, h4, by decide +kernel, by decide +kernel, by decide +kernel, by decide +kernel,
    messages_whole _ h4⟩

/-! ## A message that is split

Each process below goes on until its call is over or it waits, as on one
hart. -/

/-- The process goes on for `n` steps, if it can. -/
def goOn (p : P) : ℕ → State P → Option (State P)
  | 0, s => some s
  | n + 1, s =>
    if (s.proc p).pc ≠ .idle ∧ ((s.proc p).pc = .wait ∨ Ready s p) then goOn p n (step s p) else none

theorem Reachable.goOn (h : Reachable s) (ht : goOn p n s = some t) : Reachable t := by
  induction n generalizing s with
  | zero =>
    cases ht
    exact h
  | succ n ih =>
    unfold Mailbox.goOn at ht
    split at ht
    · next hrun => exact ih (.tail h (.run s p hrun.1 hrun.2)) ht
    · cases ht

/-- The process sends a message and goes on. -/
def sendFor (p : P) (message : Bytes) (msg_length : ℤ) (n : ℕ) (s : State P) : Option (State P) :=
  if (s.proc p).pc = .idle then goOn p n (s.begin p (.send message msg_length 0)) else none

/-- The process receives a message and goes on. -/
def recvFor (p : P) (msg_length : ℤ) (n : ℕ) (s : State P) : Option (State P) :=
  if (s.proc p).pc = .idle then goOn p n (s.begin p (.recv msg_length [])) else none

theorem Reachable.sendFor (h : Reachable s) (ht : sendFor p message msg_length n s = some t) :
    Reachable t := by
  unfold Mailbox.sendFor at ht
  split at ht
  · next hpc => exact Reachable.goOn (.tail h (.send s p message msg_length hpc)) ht
  · cases ht

theorem Reachable.recvFor (h : Reachable s) (ht : recvFor p msg_length n s = some t) :
    Reachable t := by
  unfold Mailbox.recvFor at ht
  split at ht
  · next hpc => exact Reachable.goOn (.tail h (.recv s p msg_length hpc)) ht
  · cases ht

/-- The mailbox holds 255 bytes of one sender when another places the first
of its two bytes and waits for room. The receiver takes two bytes and so
wakes it, but the first sender comes before it with a message of one byte. -/
def splitRun : Option (State (Fin 3)) := do
  let s ← sendFor 0 (Bytes.fill 1) 255 1276 (State.init (Fin 3))
  let s ← sendFor 1 (Bytes.fill 2) 2 9 s
  let s ← recvFor 2 2 11 s
  let s ← sendFor 0 (Bytes.fill 3) 1 6 s
  let s ← goOn 1 8 s
  let s ← recvFor 2 64 321 s
  let s ← recvFor 2 64 321 s
  let s ← recvFor 2 64 321 s
  recvFor 2 64 321 s

theorem reachable_splitRun {s : State (Fin 3)} (hs : splitRun = some s) : Reachable s := by
  unfold splitRun at hs
  simp only [Option.bind_eq_bind, Option.bind_eq_some_iff] at hs
  obtain ⟨s1, h1, s2, h2, s3, h3, s4, h4, s5, h5, s6, h6, s7, h7, s8, h8, h9⟩ := hs
  have hr := ((((Reachable.sendFor .refl h1).sendFor h2).recvFor h3).sendFor h4).goOn h5
  exact (((hr.recvFor h6).recvFor h7).recvFor h8).recvFor h9

set_option maxRecDepth 4000 in
/-- **A message can be split.** -/
theorem message_split : ∃ s : State (Fin 3), Reachable s ∧
    (s.proc 0).sends = [List.replicate 255 1, [3]] ∧ (s.proc 1).sends = [[2, 2]] ∧
    (s.proc 2).sends = [] ∧ s.removed.map Prod.snd = List.replicate 255 1 ++ [2, 3, 2] ∧ ¬ Whole s := by
  have hrun : splitRun.any (fun s => decide ((s.proc 0).sends = [List.replicate 255 1, [3]] ∧
      (s.proc 1).sends = [[2, 2]] ∧ (s.proc 2).sends = [] ∧
      s.placed.map Prod.snd = List.replicate 255 1 ++ [2, 3, 2] ∧ s.mbox.used = 0 ∧
      ∀ p, (s.proc p).call.isSend = false)) = true := by decide +kernel
  obtain ⟨s, hs, htest⟩ := (Option.any_eq_true _ _).mp hrun
  obtain ⟨h0, h1, h2, hplaced, hused, hcall⟩ := of_decide_eq_true htest
  have hreach := reachable_splitRun hs
  have hremoved : s.removed.map Prod.snd = List.replicate 255 1 ++ [2, 3, 2] := by
    rw [← hplaced, hreach.queue.fifo, hused]
    simp [ring]
  refine ⟨s, hreach, h0, h1, h2, hremoved, ?_⟩
  rintro ⟨log, hbegun, -, hall⟩
  have hflat := hall hused fun p => by
    rintro ⟨_, _, _, he, -⟩
    exact absurd (hcall p) (by rw [he]; nofun)
  -- the message of the second sender is nowhere among the bytes
  have hlog : (log.filter (·.1 = 1)).map Prod.snd = [[2, 2]] := by
    rw [hbegun, Proc.begun]
    cases hc : (s.proc 1).call with
    | recv n received => exact h1
    | send message n sent => exact absurd (hcall 1) (by rw [hc]; nofun)
  have hmem : [2, 2] ∈ log.map Prod.snd := by
    obtain ⟨x, hx, hx2⟩ := mem_map.mp (hlog ▸ mem_singleton_self [2, 2])
    exact mem_map.mpr ⟨x, mem_of_mem_filter hx, hx2⟩
  obtain ⟨before, after, hsplit⟩ := append_of_mem hmem
  have hinfix : [2, 2] <:+: List.replicate 255 (1 : UInt8) ++ [2, 3, 2] := by
    rw [← hremoved, hflat, hsplit]
    exact ⟨before.flatten, after.flatten, by simp⟩
  exact absurd hinfix (by decide +kernel)

end OsLab.Mailbox
