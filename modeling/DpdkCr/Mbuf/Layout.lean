import DpdkCr.Math.LittleEndian

/-!
# Packet buffers

`struct rte_mbuf` as far as allocation and the readers and writers of single
segments use it, with the data room as a memory of its own. Pointers to mbufs are
elements of an arbitrary type.

## Main definitions

* `RteMbuf` and `RteMbuf.packet` — a buffer, and the packet that a consumer sees
* `RteMbuf.alloc` — the fields of a freshly allocated buffer
-/

namespace DpdkCr

/-- `struct rte_mbuf`. -/
structure RteMbuf (α : Type*) where
  /-- what `buf_addr` points to -/
  buf : Memory
  dataOff : UInt16
  nbSegs : UInt16
  port : UInt16
  olFlags : UInt64
  packetType : UInt32
  pktLen : UInt32
  dataLen : UInt16
  vlanTci : UInt16
  vlanTciOuter : UInt16
  bufLen : UInt16
  next : Option α
  txOffload : UInt64

/-- A packet of one segment: its bytes and the two lengths. -/
structure Packet where
  bytes : List UInt8
  pktLen : UInt32
  dataLen : UInt16
  deriving DecidableEq, Repr

namespace RteMbuf

variable {α : Type*} (m : RteMbuf α)

/-- `RTE_PKTMBUF_HEADROOM`. -/
def rtePktmbufHeadroom : UInt16 := 128

/-- The data of the segment, from `rte_pktmbuf_mtod` on. -/
def packet : Packet := ⟨m.buf.bytes m.dataOff.toNat m.dataLen.toNat, m.pktLen, m.dataLen⟩

/-- Write bytes from `rte_pktmbuf_mtod` on. -/
def writeData (bytes : List UInt8) : RteMbuf α :=
  { m with buf := m.buf.writeBytes m.dataOff.toNat bytes }

/-- `rte_pktmbuf_reset`. -/
def rtePktmbufReset : RteMbuf α :=
  { m with
    next := none
    pktLen := 0
    txOffload := 0
    vlanTci := 0
    vlanTciOuter := 0
    nbSegs := 1
    port := 0xffff
    olFlags := 0
    packetType := 0
    dataOff := if rtePktmbufHeadroom < m.bufLen then rtePktmbufHeadroom else m.bufLen
    dataLen := 0 }

/-- What the macro `rte_pktmbuf_alloc` makes of the mbuf that the pool gives it. -/
def alloc : RteMbuf α := { m.rtePktmbufReset with nbSegs := 1, next := none }

end RteMbuf

end DpdkCr
