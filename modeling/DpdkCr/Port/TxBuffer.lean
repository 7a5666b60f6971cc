import DpdkCr.Packet.Pointer
import DpdkCr.Semantics.Batch

/-!
# Buffered transmission

`rte_eth_tx_buffer` and `rte_eth_tx_buffer_flush` of `inlines.cr`, which reach
into `struct rte_eth_dev_tx_buffer` by byte offsets: the error callback at 0, its
user data at 8, the size at 16, the length at 18 and the packet pointers from 24
on. The driver's result is a parameter of each call, and what the driver and the
error callback are given is recorded.

## Main definitions

* `rteEthTxBuffer`, `rteEthTxBufferFlush` — the two functions
* `txBufferSystem` — any sequence of calls on one buffer
-/

namespace DpdkCr

open Semantics

/-- An `RteMbuf*`. -/
abbrev MbufPtr := UInt64

/-- The `n` packet pointers that a callee reads from the array at `offset`. -/
def packetPtrs (buffer : Memory) (offset n : ℕ) : List MbufPtr :=
  (List.range n).map fun i => buffer.u64 (offset + 8 * i)

/-- A call of the error callback: the packets it is given and its third argument,
an address inside the buffer. -/
structure ErrorCall where
  packets : List MbufPtr
  userdata : ℕ
  deriving DecidableEq, Repr

/-- What one flush gave to the driver, the driver's result, and the call of the
error callback, if any. -/
structure Flush where
  offered : List MbufPtr
  sent : UInt16
  error : Option ErrorCall
  deriving DecidableEq, Repr

/-- The buffer after a call, the flush it led to, and the value returned. -/
structure TxBuffered where
  buffer : Memory
  flush : Option Flush
  returned : UInt16

/-- `rte_eth_tx_buffer_flush`, when `rte_eth_tx_burst` returns `sent`. -/
def rteEthTxBufferFlush (buffer : Memory) (sent : UInt16) : TxBuffered :=
  let toSend := buffer.u16 18
  if toSend = 0 then ⟨buffer, none, 0⟩
  else
    let offered := packetPtrs buffer 24 toSend.toNat
    let buffer := buffer.setU16 18 0
    let error :=
      if sent ≠ toSend then
        some ⟨packetPtrs buffer (24 + 8 * sent.toNat) (toSend - sent).toNat, 8⟩
      else none
    ⟨buffer, some ⟨offered, sent, error⟩, sent⟩

/-- `rte_eth_tx_buffer`, when a flush that it leads to has `sent` packets taken. -/
def rteEthTxBuffer (buffer : Memory) (txPkt : MbufPtr) (sent : UInt16) : TxBuffered :=
  let buffer := buffer.setU64 (24 + 8 * (buffer.u16 18).toNat) txPkt
  let buffer := buffer.setU16 18 (buffer.u16 18 + 1)
  if buffer.u16 18 < buffer.u16 16 then ⟨buffer, none, 0⟩
  else rteEthTxBufferFlush buffer sent

/-- A call of the buffering layer, with the driver's result for it. -/
inductive TxCall
  | buffer (txPkt : MbufPtr) (sent : UInt16)
  | flush (sent : UInt16)

/-- The packet that a call passes in. -/
def TxCall.packet : TxCall → List MbufPtr
  | buffer txPkt _ => [txPkt]
  | flush _ => []

def TxCall.result (buffer : Memory) : TxCall → TxBuffered
  | .buffer txPkt sent => rteEthTxBuffer buffer txPkt sent
  | .flush sent => rteEthTxBufferFlush buffer sent

/-- A buffer with its history: the packets passed in, the flushes, and the values
returned. -/
structure TxWorld where
  buffer : Memory
  passed : List MbufPtr
  flushes : List Flush
  returned : List UInt16

namespace TxWorld

def size (w : TxWorld) : ℕ := (w.buffer.u16 16).toNat

def length (w : TxWorld) : ℕ := (w.buffer.u16 18).toNat

/-- `pkts[0...length]`. -/
def buffered (w : TxWorld) : List MbufPtr := packetPtrs w.buffer 24 w.length

/-- The state after a call that led to `result`. -/
def after (w : TxWorld) (call : TxCall) (result : TxBuffered) : TxWorld where
  buffer := result.buffer
  passed := w.passed ++ call.packet
  flushes := w.flushes ++ result.flush.toList
  returned := w.returned ++ [result.returned]

/-- A call is possible with any driver result that does not exceed the offer. -/
def exec (w : TxWorld) (call : TxCall) : Option TxWorld :=
  let result := call.result w.buffer
  if ∀ flush ∈ result.flush, flush.sent.toNat ≤ flush.offered.length then
    some (w.after call result)
  else none

end TxWorld

/-- Any sequence of calls on a buffer that starts empty with room for a packet. -/
def txBufferSystem : System TxWorld TxCall where
  Init w := 1 ≤ w.size ∧ w.length = 0 ∧ w.passed = [] ∧ w.flushes = [] ∧ w.returned = []
  exec := TxWorld.exec

end DpdkCr
