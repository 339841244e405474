import OsLab.Net.Stream
/-!
# Packets from anybody

What the receiver does with packets that are no stream's. It takes the magic for
granted, the length of the data from the packet and the size of the stream from the
data. So a call is safe exactly if the packets it takes are those of a sender
that means well (`Copy.Sane`).
-/

namespace OsLab.Net

open List

/-! ## What is asked of a call, and what it takes -/

/-- A copy that stays in its bounds, from a packet of the protocol that was polled for. -/
structure Copy.Safe (capacity : ℤ) (c : Copy) : Prop where
  magic : c.hdr.magic = 0x45
  seq : c.hdr.seq = c.next_seq
  nonneg : 0 ≤ c.copy_len
  le : c.copy_len ≤ capacity - c.received_total
  reads : (RTP_HDR_OFFSET + 8 : ℕ) + c.copy_len ≤ RX_PKT_SIZE

/-- How much is to be received, as the loop sees it with this packet. -/
def Copy.goal (c : Copy) : ℤ := if c.hdr.seq = 0 then min c.want c.size else c.want

/-- A packet that the receiver can take without a check. -/
structure Copy.Sane (c : Copy) : Prop where
  magic : c.hdr.magic = 0x45
  size : c.hdr.seq = 0 → 0 ≤ c.size
  len : (RTP_HDR_OFFSET + 8 : ℕ) + min (c.hdr.len : ℤ) (c.goal - c.received_total) ≤ RX_PKT_SIZE
  nowrap : c.received_total + c.hdr.len < 2 ^ 31

/-- A call of `sys_net_recv_stream` for `nbytes` bytes is safe, up to where it has got. -/
structure Robust (nbytes : ℤ) (call : Progress × Option ℤ) : Prop where
  copies : ∀ c, .copy c ∈ call.1.recv.link.acts → c.Safe nbytes
  acks : AcksAfter (fun _ _ => True) call.1.recv.link.acts
  user : ∀ n, call.2 = some n → 0 ≤ n ∧ n ≤ nbytes

/-- The packets that a call has taken are sane, and if it has returned then it was asked for four
bytes at least, of a stream of four bytes at least. -/
structure Sane (nbytes : ℤ) (call : Progress × Option ℤ) : Prop where
  copies : ∀ c, .copy c ∈ call.1.recv.link.acts → c.Sane
  four_le : call.2 ≠ none → 4 ≤ nbytes ∧ ∀ c, .copy c ∈ call.1.recv.link.acts → c.hdr.seq = 0 →
    4 ≤ c.size

/-! ## One packet -/

theorem parse_len_lt (b : Bytes) : (parse b).len < 2 ^ 16 := by
  have h1 := (b (RTP_HDR_OFFSET + 2)).toNat_lt
  have h2 := (b (RTP_HDR_OFFSET + 2 + 1)).toNat_lt
  simp only [parse, be16ToHost]
  omega

theorem toInt_cases (n : ℤ) : toInt n = n % 2 ^ 32 ∧ n % 2 ^ 32 < 2 ^ 31 ∨
    toInt n = n % 2 ^ 32 - 2 ^ 32 ∧ 2 ^ 31 ≤ n % 2 ^ 32 := by
  rw [toInt, Int.bmod_def]
  push_cast
  split <;> omega

theorem toInt_bounds (n : ℤ) : -2 ^ 31 ≤ toInt n ∧ toInt n < 2 ^ 31 := by
  have := toInt_cases n
  omega

theorem toInt_eq_neg {n : ℤ} (h0 : -2 ^ 31 ≤ n) (h : n < 2 ^ 31) : toInt n = n := by
  have := toInt_cases n
  omega

theorem toInt_wrap {n : ℤ} (h0 : 2 ^ 31 ≤ n) (h : n < 2 ^ 32) : toInt n = n - 2 ^ 32 := by
  have := toInt_cases n
  omega

section Packet

attribute [local irreducible] toInt loadWord

/-- The copy that the loop makes from a packet. -/
def Recv.copyOf (r : Recv) (hdr : Header) : Copy :=
  let size := toInt (loadWord r.link.pkt (RTP_HDR_OFFSET + 8))
  let want := if hdr.seq = 0 then min r.want size else r.want
  ⟨hdr, r.next_seq, size, r.received_total, r.want,
    if want < toInt (r.received_total + hdr.len) then toInt (want - r.received_total) else hdr.len⟩

section

variable (r : Recv) (hdr : Header)
include r hdr

theorem Recv.copyOf_goal :
    (r.copyOf hdr).goal = if hdr.seq = 0 then min r.want (r.copyOf hdr).size else r.want := rfl

theorem Recv.copyOf_copy_len :
    (r.copyOf hdr).copy_len = if (r.copyOf hdr).goal < toInt (r.received_total + hdr.len)
      then toInt ((r.copyOf hdr).goal - r.received_total) else (hdr.len : ℤ) := rfl

theorem Recv.take_acts : (r.take hdr).link.acts = .ack r.next_seq :: .copy
    (r.copyOf hdr) :: r.link.acts := rfl

theorem Recv.take_want : (r.take hdr).want = (r.copyOf hdr).goal := rfl

theorem Recv.take_received_total :
    (r.take hdr).received_total = toInt (r.received_total + (r.copyOf hdr).copy_len) := rfl

end

/-- What holds of the variables while the packets are sane. -/
structure Steady (nbytes : ℤ) (r : Recv) : Prop where
  nonneg : 0 ≤ r.received_total
  le : r.received_total ≤ r.want
  want_le : r.want ≤ nbytes
  next : r.received_total < r.want → (r.next_seq : ℤ) = r.received_total
  sane : ∀ c, .copy c ∈ r.link.acts → c.Sane
  safe : ∀ c, .copy c ∈ r.link.acts → c.Safe nbytes
  acks : AcksAfter (fun _ _ => True) r.link.acts
  goal : 4 ≤ r.want ↔ 4 ≤ nbytes ∧ ∀ c, .copy c ∈ r.link.acts → c.hdr.seq = 0 → 4 ≤ c.size
  last : r.received_total = r.want → ∃ c, .copy c ∈ r.link.acts ∧ c.hdr.seq = r.recv_seq

variable {nbytes : ℤ} {r : Recv} {hdr : Header}

section Steady

variable (h : Steady nbytes r) (hlt : r.received_total < r.want) (hn : nbytes < 2 ^ 31)
  (hseq : hdr.seq = r.next_seq) (hlen : hdr.len < 2 ^ 16)

include h hlt

theorem Steady.goal_nonneg (hseq : hdr.seq = r.next_seq)
    (hsize : hdr.seq = 0 → 0 ≤ (r.copyOf hdr).size) :
    r.received_total ≤ (r.copyOf hdr).goal ∧ (r.copyOf hdr).goal ≤ nbytes := by
  have hnext := h.next hlt
  have hw := h.want_le
  rw [Recv.copyOf_goal]
  split
  · next hz =>
    have := hsize hz
    omega
  · omega

include hn hlen

/-- What is copied of a packet whose size is no negative number. -/
theorem Steady.copy_len_eq (hseq : hdr.seq = r.next_seq)
    (hsize : hdr.seq = 0 → 0 ≤ (r.copyOf hdr).size) (hwrap : r.received_total + hdr.len < 2 ^ 31) :
    (r.copyOf hdr).copy_len = min (hdr.len : ℤ) ((r.copyOf hdr).goal - r.received_total) := by
  have hg := h.goal_nonneg hlt hseq hsize
  have h0 := h.nonneg
  rw [Recv.copyOf_copy_len, toInt_eq (by omega) (by omega), toInt_eq (by omega) (by omega)]
  split <;> omega

include hseq

/-- **A packet is copied from safely exactly if it is sane.** -/
theorem Steady.safe_iff : (r.copyOf hdr).Safe nbytes ↔ (r.copyOf hdr).Sane := by
  have hnext := h.next hlt
  have h0 := h.nonneg
  have hw := h.want_le
  constructor
  · intro hs
    have hsize : hdr.seq = 0 → 0 ≤ (r.copyOf hdr).size := by
      intro hz
      by_contra hneg
      -- the size becomes the goal, and what is copied is less than nothing
      have hb := toInt_bounds (loadWord r.link.pkt (RTP_HDR_OFFSET + 8))
      have hgoal : (r.copyOf hdr).goal = (r.copyOf hdr).size := by
        rw [Recv.copyOf_goal, if_pos hz]
        omega
      have hcl : (r.copyOf hdr).copy_len = (r.copyOf hdr).size - r.received_total := by
        have : -2 ^ 31 ≤ (r.copyOf hdr).size := hb.1
        rw [Recv.copyOf_copy_len, hgoal, toInt_eq (by omega) (by omega), if_pos (by omega), toInt_eq_neg (by omega) (by omega)]
      have := hs.nonneg
      omega
    have hg := h.goal_nonneg hlt hseq hsize
    have hwrap : r.received_total + hdr.len < 2 ^ 31 := by
      by_contra hover
      have hcl : (r.copyOf hdr).copy_len = hdr.len := by
        rw [Recv.copyOf_copy_len, toInt_wrap (by omega) (by omega), if_neg (by omega)]
      have := hs.le
      rw [hcl] at this
      change (hdr.len : ℤ) ≤ nbytes - r.received_total at this
      omega
    refine ⟨hs.magic, hsize, ?_, hwrap⟩
    have := hs.reads
    rw [h.copy_len_eq hlt hn hlen hseq hsize hwrap] at this
    exact this
  · intro hs
    have hg := h.goal_nonneg hlt hseq hs.size
    have hcl := h.copy_len_eq hlt hn hlen hseq hs.size hs.nowrap
    refine ⟨hs.magic, hseq, ?_, ?_, ?_⟩
    · omega
    · show (r.copyOf hdr).copy_len ≤ nbytes - r.received_total
      omega
    · rw [hcl]
      exact hs.len

/-- A sane packet leaves the variables steady. -/
theorem Steady.take (hs : (r.copyOf hdr).Sane) : Steady nbytes (r.take hdr) := by
  have hnext := h.next hlt
  have h0 := h.nonneg
  have hg := h.goal_nonneg hlt hseq hs.size
  have hcl := h.copy_len_eq hlt hn hlen hseq hs.size hs.nowrap
  have htot : (r.take hdr).received_total = r.received_total + (r.copyOf hdr).copy_len := by
    rw [Recv.take_received_total, toInt_eq (by omega) (by omega)]
  have hnew : ∀ {P : Copy → Prop}, P (r.copyOf hdr) → (∀ c, .copy c ∈ r.link.acts → P c) →
      ∀ c, .copy c ∈ (r.take hdr).link.acts → P c := by
    intro P hP hold c hc
    rw [Recv.take_acts] at hc
    simp only [mem_cons, reduceCtorEq, Act.copy.injEq, false_or] at hc
    obtain rfl | hc := hc
    · exact hP
    · exact hold c hc
  constructor
  · omega
  · rw [htot, Recv.take_want]
    omega
  · rw [Recv.take_want]
    exact hg.2
  · rw [htot, Recv.take_want]
    intro hlt'
    show (((r.next_seq + hdr.len) % 2 ^ 32 : ℕ) : ℤ) = _
    omega
  · exact hnew hs h.sane
  · exact hnew ((h.safe_iff hlt hn hseq hlen).2 hs) h.safe
  · exact ⟨⟨_, mem_cons_self, hseq, trivial⟩, h.acks⟩
  · rw [Recv.take_want, Recv.copyOf_goal]
    have : (∀ c, .copy c ∈ (r.take hdr).link.acts → c.hdr.seq = 0 → 4 ≤ c.size) ↔
        (hdr.seq = 0 → 4 ≤ (r.copyOf hdr).size) ∧ ∀ c, .copy c ∈ r.link.acts → c.hdr.seq = 0 → 4 ≤ c.size := by
      rw [Recv.take_acts]
      simp only [mem_cons, reduceCtorEq, Act.copy.injEq, false_or, forall_eq_or_imp]
      rfl
    rw [this]
    have hgoal := h.goal
    split
    · next hz =>
      rw [le_min_iff, hgoal]
      tauto
    · tauto
  · intro _
    exact ⟨_, mem_cons_of_mem _ mem_cons_self, hseq⟩

end Steady

/-! ## The loop -/

theorem Steady.asked (h : Steady nbytes r) {l : Link} (ha : Asked r.link l) :
    Steady nbytes { r with link := l } := by
  have hc : ∀ c, Act.copy c ∈ l.acts ↔ .copy c ∈ r.link.acts := by
    obtain ⟨qs, hqs⟩ := ha
    intro c
    simp [hqs]
  exact
    { h with
      sane := fun c hm => h.sane c ((hc c).1 hm)
      safe := fun c hm => h.safe c ((hc c).1 hm)
      acks := ha.acksAfter h.acks
      goal := by
        simp only [hc]
        exact h.goal
      last := fun he => by
        obtain ⟨c, hm, hs⟩ := h.last he
        exact ⟨c, (hc c).2 hm, hs⟩ }

/-- What the loop has done stays done. -/
theorem mem_acts_recvLoop (fuel : ℕ) (arrivals : List Packet) (r : Recv) {a : Act}
    (ha : a ∈ r.link.acts) :
    a ∈ (recvLoop fuel arrivals r).1.link.acts := by
  induction fuel generalizing arrivals r with
  | zero => exact ha
  | succ fuel ih =>
    rw [recvLoop]
    split
    · have hpoll := poll_spec r.next_seq 0 arrivals r.link
      split
      · next l he => exact (hpoll.of_error he).mem ha
      · next hdr l rest he =>
        have ha := (hpoll.of_ok he).1.mem ha
        refine ih _ _ ?_
        split
        · exact mem_cons_of_mem _ (mem_cons_of_mem _ ha)
        · exact ha
    · exact ha

/-- **The loop** is safe exactly if the packets it takes are sane. -/
theorem steady_recvLoop (hn : nbytes < 2 ^ 31) (fuel : ℕ) (arrivals : List Packet)
    (h : Steady nbytes r) :
    ((∀ c, .copy c ∈ (recvLoop fuel arrivals r).1.link.acts → c.Safe nbytes) ∨
        (∀ c, .copy c ∈ (recvLoop fuel arrivals r).1.link.acts → c.Sane) →
      Steady nbytes (recvLoop fuel arrivals r).1 ∧ ((recvLoop fuel arrivals r).2 = true →
        (recvLoop fuel arrivals r).1.received_total = (recvLoop fuel arrivals r).1.want)) := by
  induction fuel generalizing arrivals r with
  | zero => exact fun _ => ⟨h, by rintro ⟨⟩⟩
  | succ fuel ih =>
    rw [recvLoop]
    split
    · next hlt =>
      have hpoll := poll_spec r.next_seq 0 arrivals r.link
      split
      · next l he => exact fun _ => ⟨h.asked (hpoll.of_error he), by simp⟩
      · next hdr l rest he =>
        obtain ⟨hask, hhdr, hseq, -, -, -⟩ := hpoll.of_ok he
        replace hhdr : hdr = parse l.pkt := hhdr
        have hsteady := h.asked hask
        dsimp only
        split
        · have hlen : hdr.len < 2 ^ 16 := hhdr ▸ parse_len_lt _
          have hiff := hsteady.safe_iff hlt hn hseq hlen
          intro hall
          -- the copy from this packet is among those that are safe, or sane
          have hmem := mem_acts_recvLoop fuel rest (Recv.take { r with link := l } hdr)
            (mem_cons_of_mem _ mem_cons_self)
          have hs : (Recv.copyOf { r with link := l } hdr).Sane := by
            rcases hall with hall | hall
            · exact hiff.1 (hall _ hmem)
            · exact hall _ hmem
          exact ih rest (hsteady.take hlt hn hseq hlen hs) hall
        · exact ih rest hsteady
    · next hge =>
      have := h.le
      exact fun _ => ⟨h, fun _ => by dsimp only; omega⟩

end Packet

/-- **A call is safe exactly if the packets it takes are sane**, and it was asked for four bytes at
least. -/
theorem robust_iff_sane (nbytes : ℤ) (hn : nbytes < 2 ^ 31) (arrivals : List Packet)
    (buffer : ℤ → UInt8) (pkt : Bytes) :
    Robust nbytes (sysNetRecvStream arrivals buffer nbytes pkt) ↔
      Sane nbytes (sysNetRecvStream arrivals buffer nbytes pkt) := by
  obtain ⟨r, done, hr⟩ :
      ∃ r done, recvLoop (arrivals.length + 1) arrivals (Recv.start buffer nbytes pkt) = (r, done) := ⟨_, _, rfl⟩
  by_cases hpos : 0 < nbytes
  · have h0 : Steady nbytes (Recv.start buffer nbytes pkt) :=
      { nonneg := le_refl _
        le := hpos.le
        want_le := le_refl _
        next := fun _ => rfl
        sane := by rintro _ ⟨⟩
        safe := by rintro _ ⟨⟩
        acks := trivial
        goal := ⟨fun h => ⟨h, by rintro _ ⟨⟩⟩, fun h => h.1⟩
        last := fun h => absurd h hpos.ne }
    have hloop := steady_recvLoop hn (arrivals.length + 1) arrivals h0
    rw [hr] at hloop
    cases done with
    | false =>
      have hcall : sysNetRecvStream arrivals buffer nbytes pkt = (.polling r, none) := by
        simp only [sysNetRecvStream, doNetRecvStream, hr]
      rw [hcall]
      constructor
      · intro h
        have hS := (hloop (.inl h.copies)).1
        exact ⟨hS.sane, fun h => absurd rfl h⟩
      · intro h
        have hS := (hloop (.inr h.copies)).1
        exact ⟨hS.safe, hS.acks, by simp⟩
    | true =>
      have hcall : sysNetRecvStream arrivals buffer nbytes pkt = (.returned { r with link := ack r.link r.recv_seq }
          r.received_total r.received_total, some (toInt (r.received_total - 4))) := by
        simp only [sysNetRecvStream, doNetRecvStream, hr]
      have hcopy : ∀ c, Act.copy c ∈ (ack r.link r.recv_seq).acts ↔ .copy c ∈ r.link.acts := by
        intro c
        simp [ack]
      rw [hcall]
      constructor
      · intro h
        obtain ⟨hS, hdone⟩ := hloop (.inl fun c hc => h.copies c ((hcopy c).2 hc))
        replace hdone : r.received_total = r.want := hdone rfl
        have h1 := h.user _ rfl
        change Steady nbytes r at hS
        have h2 := hS.nonneg
        have h3 := hS.want_le
        rw [toInt_eq_neg (by omega) (by omega)] at h1
        obtain ⟨h4, h5⟩ := hS.goal.1 (by omega)
        exact ⟨fun c hc => hS.sane c ((hcopy c).1 hc), fun _ => ⟨h4, fun c hc => h5 c ((hcopy c).1 hc)⟩⟩
      · intro h
        obtain ⟨hS, hdone⟩ := hloop (.inr fun c hc => h.copies c ((hcopy c).2 hc))
        replace hdone : r.received_total = r.want := hdone rfl
        change Steady nbytes r at hS
        have h2 := hS.nonneg
        have h3 := hS.want_le
        obtain ⟨h4, h5⟩ := h.four_le (by simp)
        have h6 := hS.goal.2 ⟨h4, fun c hc => h5 c ((hcopy c).2 hc)⟩
        refine ⟨fun c hc => hS.safe c ((hcopy c).1 hc), ?_, ?_⟩
        · obtain ⟨c, hc, hs⟩ := hS.last hdone
          exact ⟨⟨c, hc, hs, trivial⟩, hS.acks⟩
        · rintro n he
          obtain rfl := Option.some.inj he
          rw [toInt_eq_neg (by omega) (by omega)]
          omega
  · -- nothing is received, and four bytes less than that are copied to the user
    have hloop : recvLoop (arrivals.length + 1) arrivals (Recv.start buffer nbytes pkt) =
        (Recv.start buffer nbytes pkt, true) := by
      rw [recvLoop, if_neg]
      exact hpos
    have huser : (sysNetRecvStream arrivals buffer nbytes pkt).2 = some (-4) := by
      simp only [sysNetRecvStream, doNetRecvStream, hloop]
      rfl
    constructor
    · intro h
      have := h.user _ huser
      omega
    · intro h
      have := (h.four_le (by simp [huser])).1
      omega

/-- The two packets of a stream, out of order, for a request of ten bytes: a sane call, and so a
safe one. -/
theorem robust_iff_sane_eight :
    ∃ call, call = sysNetRecvStream disordered (fun _ => 0) 10 (Bytes.fill 0) ∧
    call.2 = some 4 ∧ Sane 10 call ∧ Robust 10 call := by
  let call := sysNetRecvStream disordered (fun _ => 0) 10 (Bytes.fill 0)
  have hacts : call.1.recv.link.acts = [.ack 4, .ack 4,
    .copy ⟨⟨0x45, 0x01, 4, 4⟩, 4, 67305985, 4, 8, 4⟩, .ack 0,
      .copy ⟨⟨0x45, 0x01, 4, 0⟩, 0, 8, 0, 10, 4⟩] := by decide +kernel
  have hcopies : ∀ c, .copy c ∈ call.1.recv.link.acts → c.Sane ∧ (c.hdr.seq = 0 → 4 ≤ c.size) := by
    intro c hc
    rw [hacts] at hc
    simp only [mem_cons, reduceCtorEq, Act.copy.injEq, not_mem_nil, or_false, false_or] at hc
    obtain rfl | rfl := hc
    · exact ⟨⟨rfl, by decide, by decide, by decide⟩, by decide⟩
    · exact ⟨⟨rfl, by decide, by decide, by decide⟩, by decide⟩
  have hsane : Sane 10 call :=
    ⟨fun c hc => (hcopies c hc).1, fun _ => ⟨by decide, fun c hc => (hcopies c hc).2⟩⟩
  exact ⟨call, rfl, by decide +kernel, hsane,
    (robust_iff_sane 10 (by decide) disordered (fun _ => 0) (Bytes.fill 0)).mpr hsane⟩

/-- A packet that announces a stream of `-1` bytes. -/
def packetNegative : Packet := packetOf 0 [255, 255, 255, 255]

/-- One packet makes the receiver copy `-1` bytes. -/
theorem not_robust :
    ¬ Robust 10 (sysNetRecvStream [packetNegative] (fun _ => 0) 10 (Bytes.fill 0)) := by
  intro h
  have hmem : Act.copy ⟨⟨0x45, 0x01, 4, 0⟩, 0, -1, 0, 10, -1⟩ ∈
      (sysNetRecvStream [packetNegative] (fun _ => 0) 10 (Bytes.fill 0)).1.recv.link.acts := by
    decide +kernel
  exact absurd (h.copies _ hmem).nonneg (by decide)

end OsLab.Net
