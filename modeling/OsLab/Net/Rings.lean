import OsLab.Net.E1000
/-!
# The descriptor rings

What the card sends is what `e1000_transmit` has accepted, and what
`e1000_poll` returns is what the card has received, in order, through any
interleaving of the driver and the card. This holds of packets that have a
byte at least. A transmit call with length 0 reports that nothing was
accepted, and the card sends a packet all the same (`not_lossless`).

Each ring has an invariant (`TxRing.Ok`, `RxRing.Ok`): the ghost lists differ
by the queue in the ring, and what the call in progress has done so far is
in place.
-/

namespace OsLab.Net

open List

theorem bytesAt_congr {b b' : Bytes} {off off' n : ℕ} (h : ∀ i < n, b (off + i) = b' (off' + i)) :
    bytesAt b off n = bytesAt b' off' n :=
  map_congr_left fun i hi => h i (mem_range.mp hi)

/-- A packet is read as it has been written. -/
theorem bytesAt_blit_list {b : Bytes} {packet : Packet} :
    bytesAt (b.blit 0 (fun i => packet.getD i 0) 0 packet.length) 0 packet.length = packet := by
  apply ext_getElem
  · simp [bytesAt]
  · intro i hi hi'
    simp [bytesAt, Bytes.blit, hi']

/-! ## The transmit ring -/

namespace TxRing

variable {s s' : TxRing}

/-- A length that the call may have. -/
def Fits (length : ℤ) : Prop := 0 < length ∧ length ≤ TX_PKT_SIZE

/-- What the call in progress has done. -/
def Doing (s : TxRing) : TxPc → Prop
  | .idle => True
  | .room _ length => Fits length ∧ s.pending < 63
  | .copied txpacket length => Fits length ∧ s.pending < 63 ∧
      bytesAt s.tx_pkt_buffer (TX_PKT_SIZE * s.tail) length.toNat = bytesAt txpacket 0 length.toNat
  | .filled txpacket length => Fits length ∧ s.pending < 63 ∧
      s.packet s.tail = bytesAt txpacket 0 length.toNat

structure Ok (s : TxRing) : Prop where
  tdh_lt : s.tdh < TXDESCS
  tail_lt : s.tail < TXDESCS
  tdt : s.tdt = s.tail
  short : ∀ k, (s.tx_desc_array k).length ≤ TX_PKT_SIZE
  sends : s.accepted = s.sent ++ s.queue
  doing : s.Doing s.pc

theorem ok_init : init.Ok where
  tdh_lt := by decide
  tail_lt := by decide
  tdt := rfl
  short _ := Nat.le_refl _
  sends := rfl
  doing := trivial

/-- The place behind the queue is `tail`. -/
theorem Ok.tail_eq (h : s.Ok) : (s.tdh + s.pending) % TXDESCS = s.tail := by
  have := h.tdh_lt
  have := h.tail_lt
  simp only [pending, h.tdt, TXDESCS] at *
  omega

/-- `tail` is no place of the queue. -/
theorem Ok.ne_tail (h : s.Ok) {i : ℕ} (hi : i < s.pending) : (s.tdh + i) % TXDESCS ≠ s.tail := by
  rw [← h.tail_eq]
  exact ring_index_ne hi (Nat.mod_lt _ (by decide))

variable {txpacket : Bytes} {length : ℤ}

theorem Ok.transmit (h : s.Ok) (hpos : 0 < length) (he : s.transmit txpacket length = some s') :
    s'.Ok := by
  unfold TxRing.transmit at he
  split at he
  case isFalse => cases he
  case isTrue hle =>
    split at he
    case isTrue => exact Option.some.inj he ▸ h
    case isFalse hfull =>
      obtain rfl := Option.some.inj he
      refine ⟨h.tdh_lt, h.tail_lt, h.tdt, h.short, h.sends, ⟨hpos, hle⟩, ?_⟩
      have := h.tdh_lt
      have := h.tail_lt
      simp only [pending, h.tdt, TXDESCS] at *
      omega

/-- The copy stays in the buffer at `tail`. -/
theorem blit_of_ne_tail (hfits : Fits length) {k j : ℕ} (hk : k ≠ s.tail) (hj : j < TX_PKT_SIZE) :
    s.tx_pkt_buffer.blit (TX_PKT_SIZE * s.tail) txpacket 0 (length % 2 ^ 32).toNat
      (TX_PKT_SIZE * k + j) = s.tx_pkt_buffer (TX_PKT_SIZE * k + j) := by
  obtain ⟨hpos, hle⟩ := hfits
  apply Bytes.blit_of_not_mem
  simp only [TX_PKT_SIZE] at *
  omega

/-- Descriptors in `[TDH, TDT)` and their buffers are as they were. -/
def Untouched (s s' : TxRing) : Prop :=
  ∀ i < s.pending, s'.tx_desc_array ((s.tdh + i) % TXDESCS) = s.tx_desc_array
    ((s.tdh + i) % TXDESCS) ∧
    ∀ j < TX_PKT_SIZE, s'.tx_pkt_buffer (TX_PKT_SIZE * ((s.tdh + i) % TXDESCS) + j) =
      s.tx_pkt_buffer (TX_PKT_SIZE * ((s.tdh + i) % TXDESCS) + j)

theorem Untouched.of_same (hd : s'.tx_desc_array = s.tx_desc_array)
    (hb : s'.tx_pkt_buffer = s.tx_pkt_buffer) : Untouched s s' := by
  intro i _
  exact ⟨by rw [hd], fun j _ => by rw [hb]⟩

theorem Ok.untouched (h : s.Ok) {e : TxEvent} (hne : e ≠ .send) (he : s.step e = some s') :
    Untouched s s' := by
  cases e with
  | send => exact absurd rfl hne
  | transmit txpacket length =>
    simp only [step] at he
    split at he
    case h_2 => cases he
    case h_1 =>
      unfold TxRing.transmit at he
      split_ifs at he
      all_goals cases he; exact .of_same rfl rfl
  | go =>
    have hdoing := h.doing
    simp only [step, go] at he
    split at he
    case h_1 => cases he
    case h_4 => cases he; exact .of_same rfl rfl
    case h_2 txpacket length hpc =>
      rw [hpc] at hdoing
      cases he
      exact fun i hi => ⟨rfl, fun j hj => blit_of_ne_tail hdoing.1 (h.ne_tail hi) hj⟩
    case h_3 txpacket length hpc =>
      cases he
      exact fun i hi => ⟨upd_of_ne (h.ne_tail hi), fun j hj => rfl⟩

/-- Packets in the queue are as they were. -/
theorem Ok.queue_eq (h : s.Ok) (hs : Untouched s s') :
    ring TXDESCS s'.packet s.tdh s.pending = s.queue := by
  refine ring_congr fun i hi => ?_
  obtain ⟨hdesc, hbuf⟩ := hs i hi
  unfold packet
  rw [hdesc]
  exact bytesAt_congr fun j hj => hbuf j (hj.trans_le (h.short _))

theorem Ok.go (h : s.Ok) (he : s.go = some s') : s'.Ok := by
  have hq := h.queue_eq (h.untouched (e := .go) nofun he)
  have hdoing := h.doing
  have htail := h.tail_lt
  unfold TxRing.go at he
  split at he
  case h_1 => cases he
  case h_2 txpacket length hpc =>
    rw [hpc] at hdoing
    obtain ⟨⟨hpos, hle⟩, hroom⟩ := hdoing
    cases he
    refine ⟨h.tdh_lt, htail, h.tdt, h.short, h.sends.trans (congrArg _ hq.symm), ⟨hpos, hle⟩, hroom,
      bytesAt_congr fun i hi => ?_⟩
    refine (Bytes.blit_of_mem (Nat.le_add_right _ i) ?_).trans (by rw [Nat.add_sub_cancel_left])
    simp only [TX_PKT_SIZE] at *
    omega
  case h_3 txpacket length hpc =>
    rw [hpc] at hdoing
    obtain ⟨⟨hpos, hle⟩, hroom, hcopy⟩ := hdoing
    have hlen : (length % 2 ^ 16).toNat = length.toNat := by simp only [TX_PKT_SIZE] at *; omega
    cases he
    refine ⟨h.tdh_lt, htail, h.tdt, fun k => ?_, h.sends.trans (congrArg _ hq.symm), ⟨hpos, hle⟩, hroom, ?_⟩
    · simp only [upd_apply]
      split
      · simp only [TX_PKT_SIZE] at *; omega
      · exact h.short k
    · rw [← hcopy]
      simp only [packet, upd_self, hlen]
  case h_4 txpacket length hpc =>
    rw [hpc] at hdoing
    obtain ⟨⟨hpos, hle⟩, hroom, hpacket⟩ := hdoing
    cases he
    refine ⟨h.tdh_lt, Nat.mod_lt _ (by decide), rfl, h.short, ?_, trivial⟩
    have hp : ((s.tail + 1) % TXDESCS + TXDESCS - s.tdh) % TXDESCS = s.pending + 1 := by
      have := h.tdh_lt
      simp only [pending, h.tdt, TXDESCS] at *
      omega
    show (if 0 < length then _ else _) =
      s.sent ++ ring TXDESCS s.packet s.tdh (((s.tail + 1) % TXDESCS + TXDESCS - s.tdh) % TXDESCS)
    rw [if_pos hpos, hp, ring_succ, h.tail_eq, hpacket, h.sends, append_assoc]
    rfl

theorem Ok.send (h : s.Ok) (he : s.send = some s') : s'.Ok := by
  unfold TxRing.send at he
  split at he
  case isTrue => cases he
  case isFalse hne =>
    cases he
    have htail := h.tail_lt
    have htdh := h.tdh_lt
    obtain ⟨n, hn⟩ : ∃ n, s.pending = n + 1 := by
      refine Nat.exists_eq_succ_of_ne_zero fun h0 => hne ?_
      simp only [pending, h.tdt, TXDESCS] at *
      omega
    have hp : (s.tdt + TXDESCS - (s.tdh + 1) % TXDESCS) % TXDESCS = n := by
      simp only [pending, h.tdt, TXDESCS] at *
      omega
    -- the status is not part of what a descriptor describes
    have hlen : ∀ k, (upd s.tx_desc_array s.tdh
        { s.tx_desc_array s.tdh with status := E1000_TXD_STAT_DD } k).length = (s.tx_desc_array k).length := by
      intro k
      rw [upd_apply]
      split
      case isTrue hk => rw [hk]
      case isFalse => rfl
    have hpacket : ∀ k, bytesAt s.tx_pkt_buffer (TX_PKT_SIZE * k) (upd s.tx_desc_array s.tdh
        { s.tx_desc_array s.tdh with status := E1000_TXD_STAT_DD } k).length = s.packet k := by
      intro k
      rw [hlen]
      rfl
    refine ⟨Nat.mod_lt _ (by decide), htail, h.tdt, fun k => (hlen k).trans_le (h.short k), ?_, ?_⟩
    · have hpop : s.queue = s.packet s.tdh :: ring TXDESCS s.packet ((s.tdh + 1) % TXDESCS) n := by
        rw [queue, hn, ring_pop, Nat.mod_eq_of_lt htdh]
      show s.accepted = (s.sent ++ [s.packet s.tdh]) ++ ring TXDESCS _ _ ((s.tdt + TXDESCS - (s.tdh + 1) % TXDESCS) % TXDESCS)
      rw [hp, h.sends, hpop, append_assoc, singleton_append]
      exact congrArg (s.sent ++ s.packet s.tdh :: ·) (ring_congr fun i _ => (hpacket _).symm)
    · have hdoing := h.doing
      have hroom : s.pending < 63 → n < 63 := by omega
      revert hdoing
      show s.Doing s.pc → Doing _ s.pc
      cases s.pc with
      | idle => exact id
      | room txpacket length =>
        rintro ⟨hfits, hlt⟩
        exact ⟨hfits, hp.trans_lt (hroom hlt)⟩
      | copied txpacket length =>
        rintro ⟨hfits, hlt, hcopy⟩
        exact ⟨hfits, hp.trans_lt (hroom hlt), hcopy⟩
      | filled txpacket length =>
        rintro ⟨hfits, hlt, hfill⟩
        exact ⟨hfits, hp.trans_lt (hroom hlt), (hpacket _).trans hfill⟩

end TxRing

/-! ## The receive ring -/

namespace RxRing

variable {s s' : RxRing}

/-- What the call in progress has done. -/
def Doing (s : RxRing) : RxPc → Prop
  | .idle => True
  | .seen => 0 < s.ready
  | .copied packet => 0 < s.ready ∧ packet = s.packet s.head
  | .cleared packet => 0 < s.ready ∧ packet = s.packet s.head

/-- The status that `e1000_poll` takes the descriptor at `i` places behind
`head` to have: that of the first is cleared before the call is over. -/
def status (s : RxRing) (i : ℕ) : ℕ :=
  match s.pc, i with
  | .cleared _, 0 => 1
  | _, i => (s.rx_desc_array ((s.head + i) % RXDESCS)).status

structure Ok (s : RxRing) : Prop where
  head_lt : s.head < RXDESCS
  rdh_lt : s.rdh < RXDESCS
  /-- `RDT` trails `head` by one. -/
  rdt : s.rdt = (s.head + 63) % RXDESCS
  polls : s.received = s.polled ++ s.queue
  nonempty : ∀ i < s.ready, 0 < (s.rx_desc_array ((s.head + i) % RXDESCS)).length
  status : ∀ i < RXDESCS, s.status i ≠ 0 ↔ i < s.ready
  cleared : ∀ packet, s.pc = .cleared packet → (s.rx_desc_array s.head).status = 0
  doing : s.Doing s.pc

theorem ok_init : init.Ok where
  head_lt := by decide
  rdh_lt := by decide
  rdt := rfl
  polls := rfl
  nonempty _ hi := absurd hi (Nat.not_lt_zero _)
  status _ _ := ⟨fun h => absurd rfl h, fun h => absurd h (Nat.not_lt_zero _)⟩
  cleared _ h := by cases h
  doing := trivial

variable {i : ℕ}

/-- Apart from that one it is the descriptor's status. -/
theorem status_eq (h : ∀ packet, s.pc = .cleared packet → i ≠ 0) :
    s.status i = (s.rx_desc_array ((s.head + i) % RXDESCS)).status := by
  unfold status
  split
  case h_1 hpc => exact absurd rfl (h _ hpc)
  case h_2 => rfl

theorem status_congr (hpc : s'.pc = s.pc)
    (hd : s'.rx_desc_array ((s'.head + i) % RXDESCS) = s.rx_desc_array ((s.head + i) % RXDESCS)) :
    s'.status i = s.status i := by
  unfold status
  rw [hpc]
  split
  case h_1 => rfl
  case h_2 => rw [hd]

theorem Ok.status_iff (h : s.Ok) (hpc : ∀ packet, s.pc ≠ .cleared packet) (hi : i < RXDESCS) :
    (s.rx_desc_array ((s.head + i) % RXDESCS)).status ≠ 0 ↔ i < s.ready := by
  rw [← status_eq fun packet hp => absurd hp (hpc packet)]
  exact h.status i hi

theorem Ok.poll (h : s.Ok) (hpc : s.pc = .idle) : s.poll.Ok := by
  unfold RxRing.poll
  split
  case isTrue => exact h
  case isFalse hne =>
    have hst : ∀ i < RXDESCS, _ := fun i => h.status_iff (by rw [hpc]; exact nofun)
    refine ⟨h.head_lt, h.rdh_lt, h.rdt, h.polls, h.nonempty, hst, nofun, (hst 0 (by decide)).mp ?_⟩
    rw [Nat.add_zero, Nat.mod_eq_of_lt h.head_lt]
    exact hne

/-- The place behind the queue is `RDH`. -/
theorem Ok.rdh_eq (h : s.Ok) : (s.head + s.ready) % RXDESCS = s.rdh := by
  have := h.head_lt
  have := h.rdh_lt
  simp only [ready, RXDESCS] at *
  omega

theorem Ok.ne_rdh (h : s.Ok) (hi : i < s.ready) : (s.head + i) % RXDESCS ≠ s.rdh := by
  rw [← h.rdh_eq]
  exact ring_index_ne hi (Nat.mod_lt _ (by decide))

/-- Packets that have not been returned are as they were. -/
def Untouched (s s' : RxRing) : Prop :=
  ∀ i < s.ready, s'.rx_pkt_buffer ((s.head + i) % RXDESCS) = s.rx_pkt_buffer
    ((s.head + i) % RXDESCS) ∧
    (s'.rx_desc_array ((s.head + i) % RXDESCS)).length = (s.rx_desc_array ((s.head + i) % RXDESCS)).length

theorem Ok.untouched (h : s.Ok) {e : RxEvent} (he : s.step e = some s') : Untouched s s' := by
  cases e with
  | poll =>
    simp only [step] at he
    split at he
    case h_2 => cases he
    case h_1 =>
      obtain rfl := Option.some.inj he
      unfold RxRing.poll
      split
      all_goals exact fun i _ => ⟨rfl, rfl⟩
  | go =>
    simp only [step, go] at he
    split at he
    case h_1 => cases he
    case h_3 =>
      cases he
      refine fun i _ => ⟨rfl, ?_⟩
      simp only [upd_apply]
      split
      case isTrue hk => rw [hk]
      case isFalse => rfl
    all_goals cases he; exact fun i _ => ⟨rfl, rfl⟩
  | receive packet status =>
    simp only [step, receive] at he
    split at he
    case isTrue => cases he
    case isFalse =>
      cases he
      exact fun i hi => ⟨upd_of_ne (h.ne_rdh hi), congrArg _ (upd_of_ne (h.ne_rdh hi))⟩

theorem Untouched.packet (h : Untouched s s') (hi : i < s.ready) :
    s'.packet ((s.head + i) % RXDESCS) = s.packet ((s.head + i) % RXDESCS) := by
  unfold RxRing.packet
  rw [(h i hi).1, (h i hi).2]

theorem Untouched.queue_eq (h : Untouched s s') : ring RXDESCS s'.packet s.head s.ready = s.queue :=
  ring_congr fun _ hi => h.packet hi

theorem Ok.go (h : s.Ok) (he : s.go = some s') : s'.Ok := by
  have hs : Untouched s s' := h.untouched (e := .go) he
  have hdoing := h.doing
  have hhead := h.head_lt
  unfold RxRing.go at he
  split at he
  case h_1 => cases he
  case h_2 hpc =>
    rw [hpc] at hdoing
    cases he
    exact ⟨hhead, h.rdh_lt, h.rdt, h.polls, h.nonempty, fun i => h.status_iff (by simp [hpc]), by simp,
      hdoing, rfl⟩
  case h_3 packet hpc =>
    rw [hpc] at hdoing
    have hhere := hs.packet hdoing.1
    rw [Nat.add_zero, Nat.mod_eq_of_lt hhead] at hhere
    have hq := hs.queue_eq
    cases he
    refine ⟨hhead, h.rdh_lt, h.rdt, h.polls.trans (congrArg _ hq.symm), fun i hi => ?_, fun i hi => ?_,
      fun _ _ => by simp, hdoing.1, hdoing.2.trans hhere.symm⟩
    · exact (hs i hi).2 ▸ h.nonempty i hi
    · cases i with
      | zero => exact ⟨fun _ => hdoing.1, fun _ => one_ne_zero⟩
      | succ i =>
        have hne : (s.head + (i + 1)) % RXDESCS ≠ s.head := by
          simp only [RXDESCS] at *
          omega
        rw [status_eq fun _ _ => Nat.succ_ne_zero i]
        show (upd s.rx_desc_array s.head _ ((s.head + (i + 1)) % RXDESCS)).status ≠ 0 ↔ _
        rw [upd_of_ne hne]
        exact h.status_iff (by simp [hpc]) hi
  case h_4 packet hpc =>
    rw [hpc] at hdoing
    obtain ⟨hpos, rfl⟩ := hdoing
    have hcleared := h.cleared _ hpc
    obtain ⟨n, hn⟩ := Nat.exists_eq_succ_of_ne_zero hpos.ne'
    cases he
    have hready : (s.rdh + RXDESCS - (s.head + 1) % RXDESCS) % RXDESCS = n := by
      have := h.rdh_lt
      simp only [ready, RXDESCS] at *
      omega
    have hplace : ∀ i, ((s.head + 1) % RXDESCS + i) % RXDESCS = (s.head + (i + 1)) % RXDESCS := by
      intro i
      rw [Nat.mod_add_mod, Nat.add_assoc, Nat.add_comm 1 i]
    have hlen : 0 < (s.packet s.head).length := by
      have := h.nonempty 0 hpos
      rw [Nat.add_zero, Nat.mod_eq_of_lt hhead] at this
      simpa [RxRing.packet, bytesAt] using this
    refine ⟨Nat.mod_lt _ (by decide), h.rdh_lt, ?_, ?_, fun i hi => ?_, fun i hi => ?_, by simp, trivial⟩
    · simp only [RXDESCS] at *
      omega
    · have hpop : s.queue = s.packet s.head :: ring RXDESCS s.packet ((s.head + 1) % RXDESCS) n := by
        rw [queue, hn, ring_pop, Nat.mod_eq_of_lt hhead]
      show s.received = (if 0 < (s.packet s.head).length then _ else _) ++
        ring RXDESCS s.packet ((s.head + 1) % RXDESCS) ((s.rdh + RXDESCS - (s.head + 1) % RXDESCS) % RXDESCS)
      rw [if_pos hlen, hready, h.polls, hpop, append_assoc, singleton_append]
    · have hi' : i < n := hready ▸ hi
      show 0 < (s.rx_desc_array (((s.head + 1) % RXDESCS + i) % RXDESCS)).length
      rw [hplace]
      exact h.nonempty _ (by omega)
    · show (s.rx_desc_array (((s.head + 1) % RXDESCS + i) % RXDESCS)).status ≠ 0 ↔
        i < (s.rdh + RXDESCS - (s.head + 1) % RXDESCS) % RXDESCS
      rw [hready, hplace]
      rcases Nat.lt_or_ge (i + 1) RXDESCS with hlt | hge
      · rw [← status_eq fun _ _ => Nat.succ_ne_zero i, h.status _ hlt]
        omega
      · -- the descriptor that has been freed is now the last
        have hlast : (s.head + (i + 1)) % RXDESCS = s.head := by
          simp only [RXDESCS] at *
          omega
        have := hready ▸ Nat.mod_lt (s.rdh + RXDESCS - (s.head + 1) % RXDESCS) (by decide : 0 < RXDESCS)
        rw [hlast, hcleared]
        simp only [ready, RXDESCS] at *
        omega

theorem Ok.receive (h : s.Ok) {packet : Packet} {status : ℕ} (hne : packet ≠ [])
    (he : s.receive packet status = some s') : s'.Ok := by
  have hs : Untouched s s' := h.untouched (e := .receive packet status) he
  unfold RxRing.receive at he
  split at he
  case isTrue => cases he
  case isFalse hcond =>
    push Not at hcond
    obtain ⟨hroom, -, hstatus⟩ := hcond
    have hhead := h.head_lt
    have hrdh := h.rdh_lt
    have hready : ((s.rdh + 1) % RXDESCS + RXDESCS - s.head) % RXDESCS = s.ready + 1 := by
      have := h.rdt
      simp only [ready, RXDESCS] at *
      omega
    have hq := hs.queue_eq
    have hpacket : s'.packet s.rdh = packet := by
      cases he
      simp only [RxRing.packet, upd_self]
      exact bytesAt_blit_list
    have hdesc : ∀ i, i ≠ s.ready → i < RXDESCS →
        s'.rx_desc_array ((s.head + i) % RXDESCS) = s.rx_desc_array ((s.head + i) % RXDESCS) := by
      intro i hi hlt
      cases he
      refine upd_of_ne ?_
      have := h.rdh_eq
      simp only [ready, RXDESCS] at *
      omega
    have hhere : s'.rx_desc_array ((s.head + s.ready) % RXDESCS) = ⟨packet.length, status⟩ := by
      cases he
      rw [h.rdh_eq]
      exact upd_self
    have hpc : s'.pc = s.pc := by cases he; rfl
    have hhead' : s'.head = s.head := by cases he; rfl
    have hrdh' : s'.rdh = (s.rdh + 1) % RXDESCS := by cases he; rfl
    have hrdt' : s'.rdt = s.rdt := by cases he; rfl
    have hrec : s'.received = s.received ++ [packet] := by cases he; rfl
    have hpol : s'.polled = s.polled := by cases he; rfl
    clear he
    have hready' : s'.ready = s.ready + 1 := by rw [RxRing.ready, hrdh', hhead', hready]
    have hpos : ∀ {p}, s.pc = .cleared p → 0 < s.ready := fun hp => by
      have hdoing := h.doing
      rw [hp] at hdoing
      exact hdoing.1
    refine ⟨hhead' ▸ hhead, hrdh' ▸ Nat.mod_lt _ (by decide), by rw [hrdt', hhead', h.rdt], ?_,
      fun i hi => ?_, fun i hi => ?_, fun p hp => ?_, ?_⟩
    · rw [hrec, hpol, queue, hhead', hready', ring_succ, hq, h.rdh_eq, hpacket, h.polls, append_assoc]
    · rw [hhead']
      by_cases hlast : i = s.ready
      · rw [hlast, hhere]
        exact length_pos_of_ne_nil hne
      · have hlt : i < s.ready := by omega
        rw [(hs i hlt).2]
        exact h.nonempty i hlt
    · by_cases hlast : i = s.ready
      · subst hlast
        rw [status_eq fun p hp => ?_, hhead', hhere, hready']
        · exact ⟨fun _ => Nat.lt_succ_self _, fun _ => hstatus⟩
        · rw [hpc] at hp
          exact (hpos hp).ne'
      · rw [status_congr hpc (by rw [hhead']; exact hdesc i hlast hi), h.status i hi, hready']
        omega
    · rw [hpc] at hp
      have := hdesc 0 (hpos hp).ne (by decide)
      rw [Nat.add_zero, Nat.mod_eq_of_lt hhead] at this
      rw [hhead', this]
      exact h.cleared p hp
    · have hdoing := h.doing
      have hfirst : 0 < s.ready → s'.packet s.head = s.packet s.head := by
        intro hpos
        simpa [Nat.mod_eq_of_lt hhead] using hs.packet hpos
      have hmore : 0 < s'.ready := hready' ▸ Nat.succ_pos _
      rw [hpc]
      revert hdoing
      cases s.pc with
      | idle => exact id
      | seen => exact fun _ => hmore
      | copied p | cleared p =>
        rintro ⟨hpos, hp⟩
        exact ⟨hmore, by rw [hp, hhead', hfirst hpos]⟩

end RxRing

/-! ## The card -/

namespace Nic

/-- The rings lose nothing. What is accepted and not sent is in the transmit
queue, what is received and not returned is in the receive queue, and
no step of the other side touches either. -/
structure Lossless (s : Nic) : Prop where
  sends : s.tx.accepted = s.tx.sent ++ s.tx.queue
  tx_untouched : ∀ e ≠ .send, ∀ tx', s.tx.step e = some tx' → s.tx.Untouched tx'
  polls : s.rx.received = s.rx.polled ++ s.rx.queue
  /-- `e1000_poll` finds a packet when there is one. -/
  finds : s.rx.pc = .idle → ((s.rx.rx_desc_array s.rx.head).status ≠ 0 ↔ s.rx.queue ≠ [])
  rx_untouched : ∀ e rx', s.rx.step e = some rx' → s.rx.Untouched rx'

/-- Every packet has a byte. A call that finds no room is free to have any length. -/
def Sized (s : Nic) : NicEvent → Prop
  | .tx (.transmit _ length) => 0 < length ∨ s.tx.tdh = (s.tx.tail + 1) % TXDESCS
  | .rx (.receive packet _) => packet ≠ []
  | _ => True

variable {s : Nic}

structure Ok (s : Nic) : Prop where
  tx : s.tx.Ok
  rx : s.rx.Ok

theorem Ok.lossless (h : s.Ok) : s.Lossless where
  sends := h.tx.sends
  tx_untouched _ hne _ he := h.tx.untouched hne he
  polls := h.rx.polls
  finds hpc := by
    have hst := h.rx.status_iff (i := 0) (by rw [hpc]; exact nofun) (by decide)
    rw [Nat.add_zero, Nat.mod_eq_of_lt h.rx.head_lt] at hst
    rw [hst, RxRing.queue, ring, Ne, map_eq_nil_iff, range_eq_nil, Nat.pos_iff_ne_zero]
  rx_untouched _ _ he := h.rx.untouched he

theorem Ok.step_tx (h : s.Ok) {e : TxEvent} {tx' : TxRing} (hp : s.Sized (.tx e))
    (he : s.tx.step e = some tx') : tx'.Ok := by
  cases e with
  | transmit txpacket length =>
    simp only [TxRing.step] at he
    split at he
    case h_2 => cases he
    case h_1 =>
      rcases hp with hpos | hfull
      · exact h.tx.transmit hpos he
      · unfold TxRing.transmit at he
        rw [if_pos hfull] at he
        split at he
        · exact Option.some.inj he ▸ h.tx
        · cases he
  | go => exact h.tx.go he
  | send => exact h.tx.send he

theorem Ok.step_rx (h : s.Ok) {e : RxEvent} {rx' : RxRing} (hp : s.Sized (.rx e))
    (he : s.rx.step e = some rx') : rx'.Ok := by
  cases e with
  | poll =>
    simp only [RxRing.step] at he
    split at he
    case h_2 => cases he
    case h_1 hpc => exact Option.some.inj he ▸ h.rx.poll hpc
  | go => exact h.rx.go he
  | receive packet status => exact h.rx.receive hp he

theorem ok_of_reach (h : Reach Sized s) : s.Ok := by
  induction h with
  | init => exact ⟨TxRing.ok_init, RxRing.ok_init⟩
  | step e _ hp he ih =>
    cases e with
    | tx e =>
      obtain ⟨tx', htx, rfl⟩ := Option.map_eq_some_iff.mp he
      exact ⟨ih.step_tx hp htx, ih.rx⟩
    | rx e =>
      obtain ⟨rx', hrx, rfl⟩ := Option.map_eq_some_iff.mp he
      exact ⟨ih.tx, ih.step_rx hp hrx⟩

/-- **The rings lose nothing**, in every run in which each packet has a byte. -/
theorem lossless_of_reach (h : Reach Sized s) : s.Lossless := (ok_of_reach h).lossless

/-- A run through all events that the card and the driver have. -/
theorem reach_sent_polled : ∃ s, Reach Sized s ∧ s.tx.sent = [[7]] ∧ s.rx.polled = [[9]] := by
  have htransmit := Reach.init.step (P := Sized) (.tx (.transmit (Bytes.fill 7) 1))
    (.inl one_pos) rfl
  have hgo := ((htransmit.step (.tx .go) trivial rfl).step (.tx .go) trivial rfl).step
    (.tx .go) trivial rfl
  have hsend := hgo.step (.tx .send) trivial rfl
  have hreceive := hsend.step (.rx (.receive [9] 1)) (cons_ne_nil _ _) rfl
  have hpoll := hreceive.step (.rx .poll) trivial rfl
  have hback := ((hpoll.step (.rx .go) trivial rfl).step (.rx .go) trivial rfl).step
    (.rx .go) trivial rfl
  exact ⟨_, hback, rfl, rfl⟩

theorem lossless_sent_polled : ∃ s : Nic, s.tx.sent = [[7]] ∧ s.rx.polled = [[9]] ∧ s.Lossless := by
  obtain ⟨s, hs, hsent, hpolled⟩ := reach_sent_polled
  exact ⟨s, hsent, hpolled, lossless_of_reach hs⟩

/-- `e1000_transmit` with length 0 returns 0, and the card sends a packet. -/
theorem not_lossless : ∃ s, Reach (fun _ _ => True) s ∧ ¬ s.Lossless := by
  have htransmit := Reach.init.step (P := fun _ _ => True)
    (.tx (.transmit (Bytes.fill 7) 0)) trivial rfl
  have hgo := ((htransmit.step (.tx .go) trivial rfl).step (.tx .go) trivial rfl).step
    (.tx .go) trivial rfl
  have hsend := hgo.step (.tx .send) trivial rfl
  exact ⟨_, hsend, fun h => absurd h.sends (by decide)⟩

end Nic

end OsLab.Net
