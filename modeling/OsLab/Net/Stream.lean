import OsLab.Common.Post
import OsLab.Net.Model
/-!
# Receiving a stream

The receiver keeps no more than the place it has got to: what is not the
next segment it drops, and it learns how long the stream is from the first
segment. The packets of a stream can come in any order, some of them never
and some of them again. What is stored is a beginning of the stream
all along, and it is all that was asked for when the call returns.
-/

namespace OsLab.Net

open List

/-! ## Packets of a stream -/

/-- A stream that begins with its length. -/
structure IsStream (S : List UInt8) : Prop where
  four_le : 4 ≤ S.length
  lt : S.length < 2 ^ 31
  head : loadWord (fun i => S.getD i 0) 0 = S.length

/-- A packet with the `n` bytes of the stream from `o` on. -/
structure IsSegment (S : List UInt8) (o n : ℕ) (p : Packet) : Prop where
  pos : 1 ≤ n
  four_le : o = 0 → 4 ≤ n
  le : o + n ≤ S.length
  length : RTP_HDR_OFFSET + 8 + n ≤ p.length
  hdr : ∃ flags, flags &&& 0x01 ≠ 0 ∧ parse (fun i => p.getD i 0) = ⟨0x45, flags, n, o⟩
  payload : ∀ i < n, p.getD (RTP_HDR_OFFSET + 8 + i) 0 = S.getD (o + i) 0

/-- A packet whose header says that it is no data. -/
def IsNonDat (p : Packet) : Prop :=
  RTP_HDR_OFFSET + 1 < p.length ∧ p.getD (RTP_HDR_OFFSET + 1) 0 &&& 0x01 = 0

/-- What `e1000_poll` can find: nothing, a segment, or a packet that is no data. -/
def IsArrival (S : List UInt8) (p : Packet) : Prop :=
  p = [] ∨ (∃ o n, IsSegment S o n p) ∨ IsNonDat p

/-- Every acknowledgement comes after a copy from the packet it names, for which `P` holds. -/
def AcksAfter (P : ℕ → Copy → Prop) : List Act → Prop
  | [] => True
  | .ack q :: acts => (∃ c, .copy c ∈ acts ∧ c.hdr.seq = q ∧ P q c) ∧ AcksAfter P acts
  | .copy _ :: acts | .rsd _ :: acts => AcksAfter P acts

/-- Every acknowledgement names the start of a segment that is stored. -/
def AcksStored : List Act → Prop := AcksAfter fun q c => c.received_total = (q : ℤ) ∧ 0 < c.copy_len

/-! ## Polling -/

variable {b src : Bytes} {p : Packet} {i n : ℕ} {r : Recv} {out : ℤ → UInt8}

theorem receive_of_lt (h : i < p.length) : receive b p i = p.getD i 0 := by
  rw [receive, Bytes.blit_of_mem (Nat.zero_le _) (by omega)]
  simp

/-- A header that a packet reaches is the packet's. -/
theorem parse_receive (h : RTP_HDR_OFFSET + 8 ≤ p.length) :
    parse (receive b p) = parse fun i => p.getD i 0 := by
  simp only [parse, be16ToHost, be32ToHost, RTP_HDR_OFFSET] at h ⊢
  rw [receive_of_lt (by omega), receive_of_lt (by omega), receive_of_lt (by omega),
    receive_of_lt (by omega),
    receive_of_lt (by omega), receive_of_lt (by omega), receive_of_lt (by omega), receive_of_lt (by omega)]

/-- Packets were asked for, and nothing else was done. -/
def Asked (l l' : Link) : Prop := ∃ qs : List ℕ, l'.acts = qs.map Act.rsd ++ l.acts

theorem Asked.refl (l : Link) : Asked l l := ⟨[], rfl⟩

theorem Asked.mem {l l' : Link} (h : Asked l l') {a : Act} (ha : a ∈ l.acts) : a ∈ l'.acts := by
  obtain ⟨qs, h⟩ := h
  rw [h]
  exact mem_append_right _ ha

theorem Asked.acksAfter {P : ℕ → Copy → Prop} {l l' : Link} (h : Asked l l')
    (ha : AcksAfter P l.acts) :
    AcksAfter P l'.acts := by
  obtain ⟨qs, h⟩ := h
  rw [h]
  clear h
  induction qs with
  | nil => exact ha
  | cons q qs ih => exact ih

/-- What a poll comes back with: a packet that has arrived, with the sequence number it
polled for. -/
theorem poll_spec (seq cnt : ℕ) (arrivals : List Packet) (l : Link) : Post (fun l' => Asked l l')
      (fun r => Asked l r.2.1 ∧ r.1 = parse r.2.1.pkt ∧ r.1.seq = seq ∧
        (∃ b, ∃ p ∈ arrivals, p ≠ [] ∧ r.2.1.pkt = receive b p) ∧ r.2.2 <:+ arrivals ∧
        r.2.2.length < arrivals.length)
      (poll seq cnt arrivals l) := by
  induction arrivals generalizing cnt l with
  | nil => exact Asked.refl l
  | cons p arrivals ih =>
    -- what the rest of the arrivals gives, from a link that nothing but requests lead to
    have rest : ∀ (cnt : ℕ) (l' : Link), Asked l l' → Post (fun l' => Asked l l')
        (fun r => Asked l r.2.1 ∧ r.1 = parse r.2.1.pkt ∧ r.1.seq = seq ∧
          (∃ b, ∃ q ∈ p :: arrivals, q ≠ [] ∧ r.2.1.pkt = receive b q) ∧ r.2.2 <:+ p :: arrivals ∧
          r.2.2.length < (p :: arrivals).length)
        (poll seq cnt arrivals l') := by
      rintro cnt l' ⟨qs, hqs⟩
      have trans : ∀ {l''}, Asked l' l'' → Asked l l'' := by
        rintro l'' ⟨qs', hqs'⟩
        exact ⟨qs' ++ qs, by rw [hqs', hqs, map_append, append_assoc]⟩
      refine ((ih cnt l').weaken fun _ => trans).mono ?_
      rintro r ⟨ha, hp, hs, ⟨b, q, hq, hne, he⟩, hsuf, hlt⟩
      refine ⟨trans ha, hp, hs, ⟨b, q, mem_cons_of_mem _ hq, hne, he⟩,
        hsuf.trans (suffix_cons _ _), ?_⟩
      rw [length_cons]
      omega
    rw [poll]
    split
    · split
      · exact rest _ _ (Asked.refl l)
      · exact rest _ _ ⟨[seq], rfl⟩
    · next hne =>
      dsimp only
      split
      · exact rest _ _ ⟨[], rfl⟩
      · next hseq =>
        exact ⟨⟨[], rfl⟩, rfl, not_not.mp hseq, ⟨l.pkt, p, mem_cons_self, hne, rfl⟩,
          suffix_cons _ _, Nat.lt_succ_self _⟩

/-! ## A segment is stored -/

theorem toInt_eq {n : ℤ} (h0 : 0 ≤ n) (h : n < 2 ^ 31) : toInt n = n := by
  rw [toInt, Int.bmod_eq_of_le] <;> omega

variable {S : List UInt8} {C : ℤ} {buffer : ℤ → UInt8}

/-- What holds of the variables while the packets of a stream come in: what is stored is
a beginning of the stream, and the packet that is polled for is the one that
goes on from there. -/
structure Upto (S : List UInt8) (C : ℤ) (buffer : ℤ → UInt8) (r : Recv) : Prop where
  nonneg : 0 ≤ r.received_total
  le : r.received_total ≤ min C S.length
  begun : r.received_total = 0 ∧ r.want = C ∨ 0 < r.received_total ∧ r.want = min C S.length
  next : r.received_total < r.want → (r.next_seq : ℤ) = r.received_total
  out : ∀ i : ℕ, (i : ℤ) < r.received_total → r.out i = S.getD i 0
  rest : ∀ i : ℤ, i < 0 ∨ r.received_total ≤ i → r.out i = buffer i
  last : 0 < r.received_total → ∃ c, .copy c ∈ r.link.acts ∧ c.hdr.seq = r.recv_seq ∧
    c.received_total = (r.recv_seq : ℤ) ∧ 0 < c.copy_len
  acks : AcksStored r.link.acts

theorem Upto.asked (h : Upto S C buffer r) {l : Link} (ha : Asked r.link l) :
    Upto S C buffer { r with link := l } :=
  { h with
    last := fun hpos => by
      obtain ⟨c, hc, hs⟩ := h.last hpos
      exact ⟨c, ha.mem hc, hs⟩
    acks := ha.acksAfter h.acks }

variable {off : ℕ}

theorem memcpy_of_not_mem {d i : ℤ} (h : i < d ∨ d + n ≤ i) : memcpy out d src off n i = out i :=
  if_neg (by omega)

theorem memcpy_of_mem {d : ℤ} (h : i < n) : memcpy out d src off n (d + i) = src (off + i) := by
  rw [memcpy, if_pos (by omega), show (d + (i : ℤ) - d).toNat = i by omega]

/-- The first segment tells the length of the stream. -/
theorem IsSegment.size (hS : IsStream S) (hp : IsSegment S 0 n p) (b : Bytes) :
    loadWord (receive b p) (RTP_HDR_OFFSET + 8) = S.length := by
  have h4 := hp.four_le rfl
  have hlen := hp.length
  rw [← hS.head]
  have byte : ∀ i < 4, receive b p (RTP_HDR_OFFSET + 8 + i) = S.getD i 0 := by
    intro i hi
    rw [receive_of_lt (by omega), hp.payload i (by omega), Nat.zero_add]
  simp only [loadWord, Nat.zero_add]
  rw [← byte 0 (by omega), ← byte 1 (by omega), ← byte 2 (by omega), ← byte 3 (by omega)]

/-- What is to be stored once a segment has come. -/
theorem Upto.want_eq (hS : IsStream S) (h : Upto S C buffer r) (hlt : r.received_total < r.want)
    (hp : IsSegment S r.next_seq n p) (hpkt : r.link.pkt = receive b p) :
    (if r.next_seq = 0 then min r.want (toInt (loadWord r.link.pkt (RTP_HDR_OFFSET + 8))) else r.want) =
      min C S.length := by
  have hnext := h.next hlt
  have := hS.lt
  split
  · next hz =>
    rw [hz] at hp
    rw [hpkt, hp.size hS, toInt_eq (by omega) (by omega)]
    rcases h.begun with ⟨-, hw⟩ | ⟨hpos, -⟩
    · rw [hw]
    · omega
  · rcases h.begun with ⟨hzero, -⟩ | ⟨-, hw⟩
    · omega
    · exact hw

/-- **The next segment is stored**, or what was asked for of it. -/
theorem Upto.take (hS : IsStream S) (hC : 4 ≤ C) (hC' : C < 2 ^ 31) (h : Upto S C buffer r)
    (hlt : r.received_total < r.want) (hp : IsSegment S r.next_seq n p)
    (hpkt : r.link.pkt = receive b p) : Upto S C buffer (r.take (parse r.link.pkt)) := by
  obtain ⟨flags, -, hhdr⟩ := hp.hdr
  have hlen := hp.length
  have hle := hp.le
  have hpos := hp.pos
  have hSlt := hS.lt
  have hS4 := hS.four_le
  have hnext := h.next hlt
  have hparse : parse r.link.pkt = ⟨0x45, flags, n, r.next_seq⟩ := by
    rw [hpkt, parse_receive (by omega), hhdr]
  have hwant := h.want_eq hS hlt hp hpkt
  have hroom : r.received_total < min C S.length := by
    rcases h.begun with ⟨hzero, -⟩ | ⟨-, hw⟩
    · omega
    · omega
  have hcopy : (if min C S.length < toInt (r.received_total + n) then toInt
    (min C S.length - r.received_total)
      else (n : ℤ)) = min (n : ℤ) (min C S.length - r.received_total) := by
    rw [toInt_eq (by omega) (by omega), toInt_eq (by omega) (by omega)]
    split <;> omega
  have hn := hp.four_le
  -- how many bytes are copied
  obtain ⟨m, hm⟩ : ∃ m : ℕ, (m : ℤ) = min (n : ℤ) (min C S.length - r.received_total) :=
    ⟨(min (n : ℤ) (min C S.length - r.received_total)).toNat, Int.toNat_of_nonneg (by omega)⟩
  have hmod : (((m : ℤ) % 2 ^ 32).toNat) = m := by omega
  have htot : toInt (r.received_total + m) = r.received_total + m := toInt_eq (by omega) (by omega)
  rw [hparse]
  simp only [Recv.take, hwant, hcopy, ← hm, hmod, htot]
  constructor
  · dsimp only
    omega
  · dsimp only
    omega
  · exact .inr ⟨by dsimp only; omega, rfl⟩
  · intro hlt'
    dsimp only at hlt' ⊢
    omega
  · intro i hi
    dsimp only at hi ⊢
    by_cases hold : (i : ℤ) < r.received_total
    · rw [memcpy_of_not_mem (.inl hold)]
      exact h.out i hold
    · obtain ⟨j, rfl⟩ : ∃ j, i = r.next_seq + j := ⟨i - r.next_seq, by omega⟩
      have hj : j < m := by omega
      rw [show ((r.next_seq + j : ℕ) : ℤ) = r.received_total + (j : ℤ) by omega, memcpy_of_mem hj, hpkt,
        receive_of_lt (by omega), hp.payload j (by omega)]
  · intro i hi
    dsimp only at hi ⊢
    rw [memcpy_of_not_mem (by omega)]
    exact h.rest i (by omega)
  · intro _
    exact ⟨_, mem_cons_of_mem _ mem_cons_self, rfl, hnext.symm, by dsimp only; omega⟩
  · exact ⟨⟨_, mem_cons_self, rfl, hnext.symm, by dsimp only; omega⟩, h.acks⟩

/-! ## The loop -/

/-- A packet that the loop gets is stored if it is the next segment, and nothing
else changes what is stored. -/
theorem Upto.packet (hS : IsStream S) (hC : 4 ≤ C) (hC' : C < 2 ^ 31) (h : Upto S C buffer r)
    (hlt : r.received_total < r.want) (hp : IsArrival S p) (hne : p ≠ [])
    (hpkt : r.link.pkt = receive b p) (hseq : (parse r.link.pkt).seq = r.next_seq) :
    Upto S C buffer (if (parse r.link.pkt).flags &&& 0x01 ≠ 0 then r.take (parse r.link.pkt) else r) := by
  rcases hp with hp | ⟨o, n, hp⟩ | ⟨hlen, hflag⟩
  · exact absurd hp hne
  · obtain ⟨flags, hflag, hhdr⟩ := hp.hdr
    have hlen := hp.length
    have hparse : parse r.link.pkt = ⟨0x45, flags, n, o⟩ := by rw [hpkt, parse_receive (by omega), hhdr]
    obtain rfl : o = r.next_seq := by rw [← hseq, hparse]
    rw [if_pos (by rw [hparse]; exact hflag)]
    exact h.take hS hC hC' hlt hp hpkt
  · rw [if_neg]
    · exact h
    · rw [hpkt, not_not]
      simp only [parse]
      rw [receive_of_lt hlen]
      exact hflag

/-- **The loop** keeps what is stored a beginning of the stream, and ends with all that was
asked for. -/
theorem upto_recvLoop (hS : IsStream S) (hC : 4 ≤ C) (hC' : C < 2 ^ 31) (fuel : ℕ)
    {arrivals : List Packet} (ha : ∀ p ∈ arrivals, IsArrival S p) (h : Upto S C buffer r) :
    Upto S C buffer (recvLoop fuel arrivals r).1 ∧
      ((recvLoop fuel arrivals r).2 = true → (recvLoop fuel arrivals r).1.received_total = min C S.length) := by
  induction fuel generalizing arrivals r with
  | zero => exact ⟨h, nofun⟩
  | succ fuel ih =>
    rw [recvLoop]
    split
    · next hlt =>
      have hpoll := poll_spec r.next_seq 0 arrivals r.link
      split
      · next l he =>
        exact ⟨h.asked (hpoll.of_error he), nofun⟩
      · next hdr l rest he =>
        obtain ⟨hask, hhdr, hseq, ⟨b, p, hp, hne, hpkt⟩, hsuf, -⟩ := hpoll.of_ok he
        replace hhdr : hdr = parse l.pkt := hhdr
        subst hhdr
        exact ih (fun q hq => ha q (hsuf.subset hq))
          ((h.asked hask).packet hS hC hC' hlt (ha p hp) hne hpkt hseq)
    · next hge =>
      refine ⟨h, fun _ => ?_⟩
      have := h.le
      have := hS.four_le
      dsimp only
      rcases h.begun with ⟨hzero, hw⟩ | ⟨-, hw⟩ <;> omega

/-- **Reliable reception.** Whatever packets have arrived so far, what is stored is a beginning of
the stream and every acknowledgement came after the copy of its segment; and a call that has
returned has stored all that was asked for. -/
theorem recv_stream_reliable (hS : IsStream S) (hC : 4 ≤ C) (hC' : C < 2 ^ 31)
    (arrivals : List Packet) (ha : ∀ p ∈ arrivals, IsArrival S p) (buffer : ℤ → UInt8)
    (pkt : Bytes) :
    let progress := doNetRecvStream arrivals buffer C pkt
    (∀ r nbytes ret, progress = .returned r nbytes ret → ret = min C S.length ∧ nbytes = min C S.length ∧
      (∀ i : ℕ, (i : ℤ) < min C S.length → r.out i = S.getD i 0) ∧
      ∀ i : ℤ, i < 0 ∨ min C S.length ≤ i → r.out i = buffer i) ∧
    0 ≤ progress.recv.received_total ∧ progress.recv.received_total ≤ S.length ∧
    (∀ i : ℕ, (i : ℤ) < progress.recv.received_total → progress.recv.out i = S.getD i 0) ∧
    AcksStored progress.recv.link.acts := by
  have hpos : 0 < min C (S.length : ℤ) := by
    have := hS.four_le
    omega
  have h₀ : Upto S C buffer (Recv.start buffer C pkt) :=
    ⟨le_refl _, by dsimp only [Recv.start]; omega, .inl ⟨rfl, rfl⟩, fun _ => rfl,
      fun i hi => absurd hi (by dsimp only [Recv.start]; omega), fun _ _ => rfl,
      fun h => absurd h (lt_irrefl _), trivial⟩
  have hloop := upto_recvLoop hS hC hC' (arrivals.length + 1) ha h₀
  intro progress
  obtain ⟨r, done, hr⟩ : ∃ r done,
    recvLoop (arrivals.length + 1) arrivals (Recv.start buffer C pkt) = (r, done) :=
    ⟨_, _, rfl⟩
  rw [hr] at hloop
  obtain ⟨hU, hdone⟩ := hloop
  replace hU : Upto S C buffer r := hU
  replace hdone : done = true → r.received_total = min C S.length := hdone
  have hle := hU.le
  cases done with
  | false =>
    have hp : progress = .polling r := by simp only [progress, doNetRecvStream, hr]
    rw [hp]
    exact ⟨nofun, hU.nonneg, by dsimp only [Progress.recv]; omega, hU.out, hU.acks⟩
  | true =>
    have hp : progress = .returned { r with link := ack r.link r.recv_seq } r.received_total r.received_total := by
      simp only [progress, doNetRecvStream, hr]
    have hall := hdone rfl
    rw [hp]
    refine ⟨?_, hU.nonneg, by dsimp only [Progress.recv]; omega, hU.out, ?_⟩
    · rintro r' nbytes ret he
      cases he
      exact ⟨hall, hall, hall ▸ hU.out, hall ▸ hU.rest⟩
    · exact ⟨hU.last (by omega), hU.acks⟩

/-- The packet with these bytes of a stream, from `o` on. -/
def packetOf (o : UInt8) (data : List UInt8) : Packet :=
  List.replicate 54 0 ++ [0x45, 0x01, 0, UInt8.ofNat data.length, 0, 0, 0, o] ++ data

/-- A stream of eight bytes in two packets. The second comes first, and again after the first. -/
def eight : List UInt8 := [8, 0, 0, 0, 1, 2, 3, 4]
def disordered : List Packet :=
  [packetOf 4 [1, 2, 3, 4], [], packetOf 0 [8, 0, 0, 0], packetOf 4 [1, 2, 3, 4]]

theorem isArrival_disordered : ∀ p ∈ disordered, IsArrival eight p := by
  have hfirst : IsSegment eight 0 4 (packetOf 0 [8, 0, 0, 0]) :=
    ⟨by decide, fun _ => by decide, by decide, by decide, ⟨0x01, by decide, by decide⟩, by decide⟩
  have hsecond : IsSegment eight 4 4 (packetOf 4 [1, 2, 3, 4]) :=
    ⟨by decide, fun _ => by decide, by decide, by decide, ⟨0x01, by decide, by decide⟩, by decide⟩
  intro p hp
  simp only [disordered, mem_cons, not_mem_nil, or_false] at hp
  obtain rfl | rfl | rfl | rfl := hp
  · exact .inr (.inl ⟨4, 4, hsecond⟩)
  · exact .inl rfl
  · exact .inr (.inl ⟨0, 4, hfirst⟩)
  · exact .inr (.inl ⟨4, 4, hsecond⟩)

def Progress.isReturned : Progress → Bool
  | .returned .. => true
  | .polling _ => false

/-- A request for ten bytes of that stream returns, with its eight bytes. -/
theorem recv_stream_reliable_eight : IsStream eight ∧ (∀ p ∈ disordered, IsArrival eight p) ∧
    ∃ r, doNetRecvStream disordered (fun _ => 0) 10 (Bytes.fill 0) = .returned r 8 8 ∧
      (∀ i : ℕ, (i : ℤ) < 8 → r.out i = eight.getD i 0) ∧ AcksStored r.link.acts := by
  have hS : IsStream eight := ⟨by decide, by decide, by decide⟩
  have hreturned : (doNetRecvStream disordered (fun _ => 0) 10 (Bytes.fill 0)).isReturned =
    true := by decide +kernel
  obtain ⟨hresult, -, -, -, hacks⟩ :=
    recv_stream_reliable (C := 10) hS (by decide) (by decide) disordered isArrival_disordered
      (fun _ => 0) (Bytes.fill 0)
  refine ⟨hS, isArrival_disordered, ?_⟩
  cases hprogress : doNetRecvStream disordered (fun _ => 0) 10 (Bytes.fill 0) with
  | polling r =>
    rw [hprogress] at hreturned
    cases hreturned
  | returned r nbytes ret =>
    obtain ⟨rfl, rfl, hout, -⟩ := hresult r nbytes ret hprogress
    rw [hprogress] at hacks
    exact ⟨r, rfl, hout, hacks⟩

end OsLab.Net
