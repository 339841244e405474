import OsLab.Net.E1000
/-!
# The stream receiver

`kernel/net/net.c`: a receiver that asks for the packets of a stream one
after the other, and `sys_net_recv_stream` above it. What `e1000_poll`
finds is the list `arrivals`, an empty packet where nothing has arrived;
a call that has used them up is still polling. Bytes that a short packet does
not reach are those of the packets before it, and the bytes of the
answers, which are built in the same buffer.

An `int` is kept as its value. Sums wrap, and a length that `memcpy` or
`memcpy_kva2uva` takes is read without its sign.
-/

namespace OsLab.Net

def RTP_HDR_OFFSET : ℕ := 54

/-- An `int`, from a number of any size. -/
def toInt (n : ℤ) : ℤ := Int.bmod n (2 ^ 32)

/-- `header_t`. -/
structure Header where
  magic : UInt8
  flags : UInt8
  len : ℕ
  seq : ℕ
  deriving DecidableEq

def be16ToHost (b : Bytes) (p : ℕ) : ℕ := (b p).toNat * 256 + (b (p + 1)).toNat

def be32ToHost (b : Bytes) (p : ℕ) : ℕ :=
  (b p).toNat * 2 ^ 24 + (b (p + 1)).toNat * 2 ^ 16 + (b (p + 2)).toNat * 2 ^ 8 + (b (p + 3)).toNat

/-- Byte `i` of `host_to_be32`. -/
def hostToBe32 (v i : ℕ) : UInt8 := UInt8.ofNat (v / 256 ^ (3 - i))

/-- `*(uint32_t*)p`. -/
def loadWord (b : Bytes) (p : ℕ) : ℕ :=
  (b p).toNat + (b (p + 1)).toNat * 2 ^ 8 + (b (p + 2)).toNat * 2 ^ 16 + (b (p + 3)).toNat * 2 ^ 24

def parse (buffer : Bytes) : Header where
  magic := buffer RTP_HDR_OFFSET
  flags := buffer (RTP_HDR_OFFSET + 1)
  len := be16ToHost buffer (RTP_HDR_OFFSET + 2)
  seq := be32ToHost buffer (RTP_HDR_OFFSET + 4)

/-- A copy into the caller's buffer, with what it was decided from. -/
structure Copy where
  hdr : Header
  /-- `next_seq`, which the packet was polled for -/
  next_seq : ℕ
  /-- the word the data begins with -/
  size : ℤ
  /-- before the packet -/
  received_total : ℤ
  /-- before the packet -/
  want : ℤ
  copy_len : ℤ
  deriving DecidableEq

/-- What a call does that can be seen. -/
inductive Act
  | copy (c : Copy)
  | ack (seq : ℕ)
  | rsd (seq : ℕ)
  deriving DecidableEq

/-- The packet buffer, and what was done, the latest first. -/
structure Link where
  pkt : Bytes
  acts : List Act

/-- The header of an answer, over the packet in the buffer. -/
def setHeader (b : Bytes) (flags : UInt8) (seq : ℕ) : Bytes :=
  b.blit RTP_HDR_OFFSET (fun i => if i = 0 then 0x45 else if i = 1 then flags
    else if i < 4 then 0 else hostToBe32 seq (i - 4)) 0 8

def ack (tx : Link) (seq : ℕ) : Link := ⟨setHeader tx.pkt 0x04 seq, .ack seq :: tx.acts⟩

def rsd (tx : Link) (seq : ℕ) : Link := ⟨setHeader tx.pkt 0x02 seq, .rsd seq :: tx.acts⟩

/-- `e1000_poll` of a packet: its bytes, over those in the buffer. -/
def receive (b : Bytes) (p : Packet) : Bytes := b.blit 0 (fun i => p.getD i 0) 0 p.length

/-- `poll`, with `cnt` tries made. A wrong magic is only logged. -/
def poll (seq : ℕ) : (cnt : ℕ) → (arrivals : List Packet) → Link →
    Except Link (Header × Link × List Packet)
  | _, [], buffer => .error buffer
  | cnt, p :: arrivals, buffer =>
    if p = [] then
      if cnt + 1 < 10 then poll seq (cnt + 1) arrivals buffer
      else poll seq 0 arrivals (rsd buffer seq)
    else
      let buffer := { buffer with pkt := receive buffer.pkt p }
      let hdr := parse buffer.pkt
      if hdr.seq ≠ seq then poll seq 0 arrivals buffer
      else .ok (hdr, buffer, arrivals)

/-- `memcpy` from the packet buffer to the caller's. -/
def memcpy (out : ℤ → UInt8) (at_ : ℤ) (src : Bytes) (off n : ℕ) : ℤ → UInt8 := fun i =>
  if at_ ≤ i ∧ i < at_ + n then src (off + (i - at_).toNat) else out i

/-- The variables of `do_net_recv_stream`. -/
structure Recv where
  out : ℤ → UInt8
  next_seq : ℕ
  recv_seq : ℕ
  received_total : ℤ
  want : ℤ
  link : Link

/-- What the loop does with a packet that has the `DAT` flag. -/
def Recv.take (r : Recv) (hdr : Header) : Recv :=
  let data_start := RTP_HDR_OFFSET + 8
  let size := toInt (loadWord r.link.pkt data_start)
  let want := if hdr.seq = 0 then min r.want size else r.want
  let copy_len := if want < toInt (r.received_total + hdr.len) then toInt
    (want - r.received_total) else hdr.len
  let c : Copy := ⟨hdr, r.next_seq, size, r.received_total, r.want, copy_len⟩
  { out := memcpy r.out r.received_total r.link.pkt data_start (copy_len % 2 ^ 32).toNat
    next_seq := (r.next_seq + hdr.len) % 2 ^ 32
    recv_seq := r.next_seq
    received_total := toInt (r.received_total + copy_len)
    want := want
    link := ack { r.link with acts := .copy c :: r.link.acts } r.next_seq }

/-- The loop of `do_net_recv_stream`, and whether it ended. Every round
takes an arrival. -/
def recvLoop : (fuel : ℕ) → List Packet → Recv → Recv × Bool
  | 0, _, r => (r, false)
  | fuel + 1, arrivals, r =>
    if r.received_total < r.want then
      match poll r.next_seq 0 arrivals r.link with
      | .error pkt => ({ r with link := pkt }, false)
      | .ok (hdr, pkt, arrivals) =>
        let r := { r with link := pkt }
        recvLoop fuel arrivals (if hdr.flags &&& 0x01 ≠ 0 then r.take hdr else r)
    else (r, true)

/-- Where a call has got to. -/
inductive Progress
  /-- it polls for a packet -/
  | polling (r : Recv)
  /-- it has returned, with `*nbytes` and its result -/
  | returned (r : Recv) (nbytes ret : ℤ)

/-- The variables of a call. -/
def Progress.recv : Progress → Recv
  | .polling r => r
  | .returned r _ _ => r

/-- The variables when the call begins; `pkt` is not initialised. -/
def Recv.start (buffer : ℤ → UInt8) (nbytes : ℤ) (pkt : Bytes) : Recv :=
  ⟨buffer, 0, 0, 0, nbytes, ⟨pkt, []⟩⟩

def doNetRecvStream (arrivals : List Packet) (buffer : ℤ → UInt8) (nbytes : ℤ) (pkt : Bytes) :
    Progress :=
  match recvLoop (arrivals.length + 1) arrivals (Recv.start buffer nbytes pkt) with
  | (r, false) => .polling r
  | (r, true) => .returned { r with link := ack r.link r.recv_seq } r.received_total r.received_total

/-- The length of the copy to the user that `sys_net_recv_stream` makes
when its call has returned. -/
def sysNetRecvStream (arrivals : List Packet) (buffer : ℤ → UInt8) (nbytes : ℤ) (pkt : Bytes) :
    Progress × Option ℤ :=
  match doNetRecvStream arrivals buffer nbytes pkt with
  | .polling r => (.polling r, none)
  | .returned r nbytes_kernel ret => (.returned r nbytes_kernel ret, some (toInt (nbytes_kernel - 4)))

end OsLab.Net
