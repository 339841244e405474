import OsLab.Common.Bytes
import OsLab.Common.Ring
/-!
# The network card

`drivers/e1000.c` and the card it drives. Both rings have 64 descriptors, and
each descriptor has a buffer of its own. The card takes transmit descriptors
from `TDH` on while `TDH` is not `TDT`, and fills receive descriptors from
`RDH` on while `RDH` is not `RDT`.

The card works while the driver does. So a call of the driver is run in the
steps in which it reads or writes what the card can see, and `pc` says where
it is. The two functions share nothing, and each ring has a `pc` of its own.
-/

namespace OsLab.Net

def TXDESCS : ℕ := 64
def RXDESCS : ℕ := 64
def TX_PKT_SIZE : ℕ := 2048
def RX_PKT_SIZE : ℕ := 2048

/-- `E1000_TXD_CMD_EOP | E1000_TXD_CMD_IFCS | E1000_TXD_CMD_RS`. -/
def TXD_CMD : ℕ := 0x0b

def E1000_TXD_STAT_DD : ℕ := 0x01

/-- The bytes of a packet. -/
abbrev Packet := List UInt8

/-- `n` bytes of a buffer, from `off` on. -/
def bytesAt (b : Bytes) (off n : ℕ) : Packet := (List.range n).map fun i => b (off + i)

/-! ## The transmit ring -/

/-- What is used of `struct e1000_tx_desc`. -/
structure TxDesc where
  length : ℕ
  status : ℕ
  cmd : ℕ

/-- Where `e1000_transmit` is. -/
inductive TxPc
  | idle
  /-- it has found room -/
  | room (txpacket : Bytes) (length : ℤ)
  /-- it has copied the packet -/
  | copied (txpacket : Bytes) (length : ℤ)
  /-- it has written the descriptor -/
  | filled (txpacket : Bytes) (length : ℤ)

structure TxRing where
  tdh : ℕ
  tdt : ℕ
  tx_desc_array : ℕ → TxDesc
  /-- The buffers, one after the other. -/
  tx_pkt_buffer : Bytes
  /-- the static variable of `e1000_transmit` -/
  tail : ℕ
  pc : TxPc
  /-- Ghost: the packets for which `e1000_transmit` has returned a positive length. -/
  accepted : List Packet
  /-- Ghost: the packets the card has sent. -/
  sent : List Packet

inductive TxEvent
  /-- `e1000_transmit` is called -/
  | transmit (txpacket : Bytes) (length : ℤ)
  /-- the call goes on -/
  | go
  /-- the card sends a packet -/
  | send

namespace TxRing

/-- After `e1000_configure_tx`. -/
def init : TxRing where
  tdh := 0
  tdt := 0
  tx_desc_array _ := ⟨TX_PKT_SIZE, 0, 0⟩
  tx_pkt_buffer := Bytes.fill 0
  tail := 0
  pc := .idle
  accepted := []
  sent := []

/-- The packet a descriptor describes. -/
def packet (s : TxRing) (i : ℕ) : Packet :=
  bytesAt s.tx_pkt_buffer (TX_PKT_SIZE * i) (s.tx_desc_array i).length

/-- How many descriptors are in `[TDH, TDT)`. -/
def pending (s : TxRing) : ℕ := (s.tdt + TXDESCS - s.tdh) % TXDESCS

/-- The packets in `[TDH, TDT)`. -/
def queue (s : TxRing) : List Packet := ring TXDESCS s.packet s.tdh s.pending

/-- `e1000_transmit` up to its test for room. A packet that is too long
fails the assertion. -/
def transmit (s : TxRing) (txpacket : Bytes) (length : ℤ) : Option TxRing :=
  if length ≤ TX_PKT_SIZE then
    if s.tdh = (s.tail + 1) % TXDESCS then some s
    else some { s with pc := .room txpacket length }
  else none

/-- What `e1000_transmit` does next. `memcpy` takes the length as a
`uint32_t`, and the descriptor takes it as a `uint16_t`. -/
def go (s : TxRing) : Option TxRing :=
  match s.pc with
  | .idle => none
  | .room txpacket length => some { s with
      tx_pkt_buffer := s.tx_pkt_buffer.blit (TX_PKT_SIZE * s.tail) txpacket 0 (length % 2 ^ 32).toNat
      pc := .copied txpacket length }
  | .copied txpacket length => some { s with
      tx_desc_array := upd s.tx_desc_array s.tail ⟨(length % 2 ^ 16).toNat, 0, TXD_CMD⟩
      pc := .filled txpacket length }
  | .filled txpacket length => some { s with
      tail := (s.tail + 1) % TXDESCS
      tdt := (s.tail + 1) % TXDESCS
      accepted := if 0 < length then s.accepted ++ [bytesAt txpacket 0 length.toNat] else s.accepted
      pc := .idle }

/-- The card sends the packet at `TDH`. -/
def send (s : TxRing) : Option TxRing :=
  if s.tdh = s.tdt then none
  else some { s with
    tdh := (s.tdh + 1) % TXDESCS
    tx_desc_array := upd s.tx_desc_array s.tdh { s.tx_desc_array s.tdh with status := E1000_TXD_STAT_DD }
    sent := s.sent ++ [s.packet s.tdh] }

def step (s : TxRing) : TxEvent → Option TxRing
  | .transmit txpacket length =>
    match s.pc with
    | .idle => s.transmit txpacket length
    | _ => none
  | .go => s.go
  | .send => s.send

end TxRing

/-! ## The receive ring -/

/-- What is used of `struct e1000_rx_desc`. -/
structure RxDesc where
  length : ℕ
  status : ℕ

/-- Where `e1000_poll` is. -/
inductive RxPc
  | idle
  /-- it has seen that there is a packet -/
  | seen
  /-- it has copied the packet -/
  | copied (packet : Packet)
  /-- it has cleared the status -/
  | cleared (packet : Packet)

structure RxRing where
  rdh : ℕ
  rdt : ℕ
  rx_desc_array : ℕ → RxDesc
  rx_pkt_buffer : ℕ → Bytes
  /-- the static variable of `e1000_poll` -/
  head : ℕ
  pc : RxPc
  /-- Ghost: the packets the card has received. -/
  received : List Packet
  /-- Ghost: the packets that `e1000_poll` has returned with a positive length. -/
  polled : List Packet

inductive RxEvent
  /-- `e1000_poll` is called -/
  | poll
  /-- the call goes on -/
  | go
  /-- the card receives a packet, and sets this status -/
  | receive (packet : Packet) (status : ℕ)

namespace RxRing

/-- After `e1000_configure_rx`. -/
def init : RxRing where
  rdh := 0
  rdt := RXDESCS - 1
  rx_desc_array _ := ⟨0, 0⟩
  rx_pkt_buffer _ := Bytes.fill 0
  head := 0
  pc := .idle
  received := []
  polled := []

/-- The packet a descriptor describes. -/
def packet (s : RxRing) (i : ℕ) : Packet := bytesAt (s.rx_pkt_buffer i) 0 (s.rx_desc_array i).length

/-- How many packets have been received and not yet returned. -/
def ready (s : RxRing) : ℕ := (s.rdh + RXDESCS - s.head) % RXDESCS

/-- The packets that have been received and not yet returned. -/
def queue (s : RxRing) : List Packet := ring RXDESCS s.packet s.head s.ready

/-- `e1000_poll` up to its test for a packet. -/
def poll (s : RxRing) : RxRing :=
  if (s.rx_desc_array s.head).status = 0 then s else { s with pc := .seen }

/-- What `e1000_poll` does next. -/
def go (s : RxRing) : Option RxRing :=
  match s.pc with
  | .idle => none
  | .seen => some { s with
      pc := .copied (bytesAt (s.rx_pkt_buffer s.head) 0 (s.rx_desc_array s.head).length) }
  | .copied packet => some { s with
      rx_desc_array := upd s.rx_desc_array s.head { s.rx_desc_array s.head with status := 0 }
      pc := .cleared packet }
  | .cleared packet => some { s with
      rdt := s.head
      head := (s.head + 1) % RXDESCS
      polled := if 0 < packet.length then s.polled ++ [packet] else s.polled
      pc := .idle }

/-- The card puts a packet in the buffer at `RDH`. -/
def receive (s : RxRing) (packet : Packet) (status : ℕ) : Option RxRing :=
  if s.rdh = s.rdt ∨ RX_PKT_SIZE < packet.length ∨ status = 0 then none
  else some { s with
    rdh := (s.rdh + 1) % RXDESCS
    rx_pkt_buffer := upd s.rx_pkt_buffer s.rdh
      ((s.rx_pkt_buffer s.rdh).blit 0 (fun i => packet.getD i 0) 0 packet.length)
    rx_desc_array := upd s.rx_desc_array s.rdh ⟨packet.length, status⟩
    received := s.received ++ [packet] }

def step (s : RxRing) : RxEvent → Option RxRing
  | .poll =>
    match s.pc with
    | .idle => some s.poll
    | _ => none
  | .go => s.go
  | .receive packet status => s.receive packet status

end RxRing

/-! ## Both -/

structure Nic where
  tx : TxRing
  rx : RxRing

inductive NicEvent
  | tx (e : TxEvent)
  | rx (e : RxEvent)

namespace Nic

/-- After `e1000_init`. -/
def init : Nic := ⟨.init, .init⟩

def step (s : Nic) : NicEvent → Option Nic
  | .tx e => (s.tx.step e).map fun tx => { s with tx }
  | .rx e => (s.rx.step e).map fun rx => { s with rx }

/-- The states that runs lead to whose steps all satisfy `P`. -/
inductive Reach (P : Nic → NicEvent → Prop) : Nic → Prop
  | init : Reach P init
  | step {s s' : Nic} (e : NicEvent) (hs : Reach P s) (hp : P s e) (h : s.step e = some s') : Reach P s'

end Nic

end OsLab.Net
