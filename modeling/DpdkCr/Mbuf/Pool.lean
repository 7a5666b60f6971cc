import DpdkCr.Mbuf.Layout
import DpdkCr.Memcpy.Builds
import DpdkCr.Semantics.Iterate
import Mathlib.Logic.Function.Basic

/-!
# Buffers with references

`struct rte_mbuf` as allocation, cloning and freeing use it: buffers lie at addresses,
belong to mempools, share their data rooms by attaching to each other and count who
refers to them. Beside the buffers a state holds the objects that are in each mempool
and the memory that the data rooms are part of.

The mempools come with the DPDK build (`rte_mempool.h`); they are a parameter, with what
they do to the objects that are in them.

A loop runs with fuel, and has no result when there is too little. Loops over a packet
take one pass for each of its segments.

## Main definitions

* `RteMempool` — the mempools of the build
* `Mbuf`, `MbufHeap` — a buffer, and everything there is
* `MbufHeap.rtePktmbufClone`, `MbufHeap.rtePktmbufFree`, … — the functions of `rte_mbuf.c`
-/

namespace DpdkCr

open Semantics

/-- `struct rte_pktmbuf_pool_private`. -/
structure RtePktmbufPoolPrivate where
  mbufDataRoomSize : UInt16
  mbufPrivSize : UInt16
  deriving DecidableEq, Repr

/-- The mempools of the build. What `rte_mempool_get` gives was in the mempool, and what
`rte_mempool_put` is given is in it afterwards. -/
structure RteMempool where
  get : List ℕ → Option (ℕ × List ℕ)
  put : List ℕ → ℕ → List ℕ
  /-- `rte_mempool_get_priv` -/
  priv : ℕ → RtePktmbufPoolPrivate
  /-- `rte_mempool_from_obj` -/
  fromObj : ℕ → ℕ
  get_perm : ∀ {free m rest}, get free = some (m, rest) → free.Perm (m :: rest)
  put_perm : ∀ free m, (put free m).Perm (m :: free)

/-- `struct rte_mbuf`, a pointer to which is an address. -/
structure Mbuf where
  bufAddr : ℕ
  dataOff : UInt16
  refcnt : UInt16
  nbSegs : UInt16
  port : UInt16
  olFlags : UInt64
  packetType : UInt32
  pktLen : UInt32
  dataLen : UInt16
  vlanTci : UInt16
  hash : UInt64
  vlanTciOuter : UInt16
  bufLen : UInt16
  timestamp : UInt64
  pool : ℕ
  next : Option ℕ
  txOffload : UInt64
  privSize : UInt16
  deriving DecidableEq, Repr

/-- `sizeof(struct rte_mbuf)`: two cache lines. -/
def sizeofMbuf : ℕ := 128

/-- `IND_ATTACHED_MBUF`. -/
def indAttachedMbuf : UInt64 := 0x4000000000000000

/-- `RTE_MBUF_MAX_NB_SEGS`. -/
def rteMbufMaxNbSegs : ℕ := 65535

/-- `EOVERFLOW`. -/
def eoverflow : ℤ := 75

namespace Mbuf

variable (m : Mbuf)

/-- `RTE_MBUF_INDIRECT`. -/
def Indirect : Prop := m.olFlags &&& indAttachedMbuf ≠ 0

instance : Decidable m.Indirect := inferInstanceAs (Decidable (_ ≠ _))

/-- `rte_mbuf_from_indirect`. -/
def rteMbufFromIndirect : ℕ := m.bufAddr - (sizeofMbuf + m.privSize.toNat)

/-- `rte_pktmbuf_reset_headroom`. -/
def rtePktmbufResetHeadroom : Mbuf :=
  { m with
    dataOff := if RteMbuf.rtePktmbufHeadroom < m.bufLen then RteMbuf.rtePktmbufHeadroom
      else m.bufLen }

/-- `rte_pktmbuf_reset`. -/
def rtePktmbufReset : Mbuf :=
  { ({ m with
        next := none
        pktLen := 0
        txOffload := 0
        vlanTci := 0
        vlanTciOuter := 0
        nbSegs := 1
        port := 0xffff
        olFlags := 0
        packetType := 0 } : Mbuf).rtePktmbufResetHeadroom with
    dataLen := 0 }

/-- The fields that `rte_pktmbuf_attach` takes from the buffer `seg`. -/
def attach (seg m : Mbuf) : Mbuf :=
  { m with
    privSize := seg.privSize
    bufAddr := seg.bufAddr
    bufLen := seg.bufLen
    dataOff := seg.dataOff
    dataLen := seg.dataLen
    port := seg.port
    vlanTci := seg.vlanTci
    vlanTciOuter := seg.vlanTciOuter
    txOffload := seg.txOffload
    hash := seg.hash
    next := none
    pktLen := seg.dataLen.toUInt32
    nbSegs := 1
    olFlags := seg.olFlags ||| indAttachedMbuf
    packetType := seg.packetType
    timestamp := seg.timestamp }

/-- The fields that `rte_pktmbuf_detach` sets in the buffer at `addr`. -/
def detach (mempool : RteMempool) (addr : ℕ) (m : Mbuf) : Mbuf :=
  let priv := mempool.priv m.pool
  { ({ m with
        privSize := priv.mbufPrivSize
        bufAddr := addr + (sizeofMbuf + priv.mbufPrivSize.toNat)
        bufLen := priv.mbufDataRoomSize } : Mbuf).rtePktmbufResetHeadroom with
    dataLen := 0
    olFlags := 0 }

/-- `rte_pktmbuf_headroom`. -/
def rtePktmbufHeadroom : UInt16 := m.dataOff

/-- `rte_pktmbuf_tailroom`. -/
def rtePktmbufTailroom : UInt16 := m.bufLen - m.rtePktmbufHeadroom - m.dataLen

/-- `rte_pktmbuf_mtod`. -/
def rtePktmbufMtod : ℕ := m.bufAddr + m.dataOff.toNat

end Mbuf

/-- The buffers, the objects in each mempool, and the memory. -/
structure MbufHeap where
  mbuf : ℕ → Mbuf
  free : ℕ → List ℕ
  memory : Memory

namespace MbufHeap

variable (mempool : RteMempool) (cpuflag : Cpuflag) (h : MbufHeap)

/-- Change the buffer that a pointer points to. -/
def modify (m : ℕ) (change : Mbuf → Mbuf) : MbufHeap :=
  { h with mbuf := Function.update h.mbuf m (change (h.mbuf m)) }

/-! ### References -/

/-- `rte_mbuf_refcnt_update`: the new count, and what is left behind. A negative value is
its two's complement. -/
def rteMbufRefcntUpdate (m : ℕ) (value : UInt16) : UInt16 × MbufHeap :=
  if (h.mbuf m).refcnt = 1 then
    (1 + value, h.modify m fun seg => { seg with refcnt := 1 + value })
  else
    let refcnt := (h.mbuf m).refcnt + value
    (refcnt, h.modify m fun seg => { seg with refcnt := refcnt })

/-- `rte_mbuf_raw_free`. -/
def rteMbufRawFree (m : ℕ) : MbufHeap :=
  let pool := (h.mbuf m).pool
  { h with free := Function.update h.free pool (mempool.put (h.free pool) m) }

/-- `rte_pktmbuf_alloc`, of the C header. -/
def rtePktmbufAlloc (mp : ℕ) : Option (ℕ × MbufHeap) :=
  (mempool.get (h.free mp)).map fun (m, rest) =>
    (m, { h with free := Function.update h.free mp rest }.modify m Mbuf.rtePktmbufReset)

/-- `rte_pktmbuf_attach`. -/
def rtePktmbufAttach (mi m : ℕ) : MbufHeap :=
  let md := if (h.mbuf m).Indirect then (h.mbuf m).rteMbufFromIndirect else m
  let h := (h.rteMbufRefcntUpdate md 1).2
  h.modify mi (Mbuf.attach (h.mbuf m))

/-- `rte_pktmbuf_detach`. -/
def rtePktmbufDetach (m : ℕ) : MbufHeap :=
  let md := (h.mbuf m).rteMbufFromIndirect
  let h := h.modify m (Mbuf.detach mempool m)
  let update := h.rteMbufRefcntUpdate md 0xffff
  if update.1 = 0 then
    let h := update.2.modify md fun seg => { seg with next := none, nbSegs := 1 }
    let h := h.modify md fun seg => { seg with refcnt := 1 }
    h.rteMbufRawFree mempool md
  else update.2

/-- Both branches of `rte_pktmbuf_prefree_seg` that give the segment back do this first. -/
def unlink (m : ℕ) : MbufHeap :=
  let h := if (h.mbuf m).Indirect then h.rtePktmbufDetach mempool m else h
  if (h.mbuf m).next ≠ none then h.modify m fun seg => { seg with next := none, nbSegs := 1 } else h

/-- `rte_pktmbuf_prefree_seg`. -/
def rtePktmbufPrefreeSeg (m : ℕ) : Option ℕ × MbufHeap :=
  if (h.mbuf m).refcnt = 1 then (some m, h.unlink mempool m)
  else
    let refcnt := (h.mbuf m).refcnt + 0xffff
    let h := h.modify m fun seg => { seg with refcnt := refcnt }
    if refcnt = 0 then
      let h := h.unlink mempool m
      (some m, h.modify m fun seg => { seg with refcnt := 1 })
    else (none, h)

/-- `rte_pktmbuf_free_seg`. -/
def rtePktmbufFreeSeg (m : ℕ) : MbufHeap :=
  match h.rtePktmbufPrefreeSeg mempool m with
  | (some m, h) => h.rteMbufRawFree mempool m
  | (none, h) => h

/-- `rte_pktmbuf_free`. -/
def rtePktmbufFree (fuel : ℕ) (m : Option ℕ) : Option MbufHeap :=
  iterate (fun (h, m) =>
    match m with
    | none => some (Pass.leave h)
    | some m =>
      let mNext := (h.mbuf m).next
      some (Pass.again (h.rtePktmbufFreeSeg mempool m, mNext))) fuel (h, m)

/-- The variables of the loop of `rte_pktmbuf_clone`. The pointer `prev` points to the
field `next` of a buffer, and is that buffer here. -/
structure Cloning where
  heap : MbufHeap
  md : ℕ
  mi : ℕ
  prev : ℕ
  nseg : UInt16

/-- The loop of `rte_pktmbuf_clone`: the heap, `prev`, `nseg`, and `mi` if it is not null. -/
def cloneLoop (mp fuel : ℕ) (c : Cloning) : Option (MbufHeap × ℕ × UInt16 × Option ℕ) :=
  iterate (fun (c : Cloning) =>
    let nseg := c.nseg + 1
    let h := c.heap.rtePktmbufAttach c.mi c.md
    let h := h.modify c.prev fun seg => { seg with next := some c.mi }
    let prev := c.mi
    match (h.mbuf c.md).next with
    | none => some (Pass.leave (h, prev, nseg, some c.mi))
    | some md =>
      match h.rtePktmbufAlloc mempool mp with
      | none => some (Pass.leave (h, prev, nseg, none))
      | some (mi, h) => some (Pass.again ⟨h, md, mi, prev, nseg⟩)) fuel c

/-- `rte_pktmbuf_clone`. -/
def rtePktmbufClone (fuel md mp : ℕ) : Option (Option ℕ × MbufHeap) :=
  match h.rtePktmbufAlloc mempool mp with
  | none => some (none, h)
  | some (mc, h) =>
    let pktlen := (h.mbuf md).pktLen
    (cloneLoop mempool mp fuel ⟨h, md, mc, mc, 0⟩).bind fun (h, prev, nseg, mi) =>
      let h := h.modify prev fun seg => { seg with next := none }
      let h := h.modify mc fun seg => { seg with nbSegs := nseg }
      let h := h.modify mc fun seg => { seg with pktLen := pktlen }
      match mi with
      | none => (h.rtePktmbufFree mempool fuel (some mc)).map fun h => (none, h)
      | some _ => some (some mc, h)

/-- `rte_pktmbuf_refcnt_update`. -/
def rtePktmbufRefcntUpdate (fuel m : ℕ) (v : UInt16) : Option MbufHeap :=
  iterate (fun (h, m) =>
    let h := (h.rteMbufRefcntUpdate m v).2
    match (h.mbuf m).next with
    | none => some (Pass.leave h)
    | some m => some (Pass.again (h, m))) fuel (h, m)

/-! ### Packets -/

/-- `rte_pktmbuf_lastseg`. -/
def rtePktmbufLastseg (fuel m : ℕ) : Option ℕ :=
  iterate (fun m =>
    match (h.mbuf m).next with
    | none => some (Pass.leave m)
    | some m => some (Pass.again m)) fuel m

/-- `rte_pktmbuf_prepend`: a pointer, or null. -/
def rtePktmbufPrepend (m : ℕ) (len : UInt16) : Option ℕ × MbufHeap :=
  if (h.mbuf m).rtePktmbufHeadroom < len then (none, h)
  else
    let h := h.modify m fun seg =>
      { seg with
        dataOff := seg.dataOff - len
        dataLen := seg.dataLen + len
        pktLen := seg.pktLen + len.toUInt32 }
    (some ((h.mbuf m).bufAddr + (h.mbuf m).dataOff.toNat), h)

/-- `rte_pktmbuf_append`: a pointer, or null. -/
def rtePktmbufAppend (fuel m : ℕ) (len : UInt16) : Option (Option ℕ × MbufHeap) :=
  (h.rtePktmbufLastseg fuel m).map fun mLast =>
    if (h.mbuf mLast).rtePktmbufTailroom < len then (none, h)
    else
      let seg := h.mbuf mLast
      let tail := seg.bufAddr + seg.dataOff.toNat + seg.dataLen.toNat
      let h := h.modify mLast fun seg => { seg with dataLen := seg.dataLen + len }
      let h := h.modify m fun seg => { seg with pktLen := seg.pktLen + len.toUInt32 }
      (some tail, h)

/-- `rte_pktmbuf_adj`: a pointer, or null. -/
def rtePktmbufAdj (m : ℕ) (len : UInt16) : Option ℕ × MbufHeap :=
  if (h.mbuf m).dataLen < len then (none, h)
  else
    let h := h.modify m fun seg =>
      { seg with
        dataLen := seg.dataLen - len
        dataOff := seg.dataOff + len
        pktLen := seg.pktLen - len.toUInt32 }
    (some ((h.mbuf m).bufAddr + (h.mbuf m).dataOff.toNat), h)

/-- `rte_pktmbuf_trim`. -/
def rtePktmbufTrim (fuel m : ℕ) (len : UInt16) : Option (ℤ × MbufHeap) :=
  (h.rtePktmbufLastseg fuel m).map fun mLast =>
    if (h.mbuf mLast).dataLen < len then (-1, h)
    else
      let h := h.modify mLast fun seg => { seg with dataLen := seg.dataLen - len }
      let h := h.modify m fun seg => { seg with pktLen := seg.pktLen - len.toUInt32 }
      (0, h)

/-- `rte_pktmbuf_is_contiguous`. -/
def rtePktmbufIsContiguous (m : ℕ) : Bool := (h.mbuf m).nbSegs = 1

/-- `rte_pktmbuf_chain`. -/
def rtePktmbufChain (fuel head tail : ℕ) : Option (ℤ × MbufHeap) :=
  if (h.mbuf head).nbSegs.toNat + (h.mbuf tail).nbSegs.toNat > rteMbufMaxNbSegs then
    some (-eoverflow, h)
  else
    (h.rtePktmbufLastseg fuel head).map fun curTail =>
      let h := h.modify curTail fun seg => { seg with next := some tail }
      let h := h.modify head fun seg => { seg with nbSegs := seg.nbSegs + (h.mbuf tail).nbSegs }
      let h := h.modify head fun seg => { seg with pktLen := seg.pktLen + (h.mbuf tail).pktLen }
      let h := h.modify tail fun seg => { seg with pktLen := seg.dataLen.toUInt32 }
      (0, h)

/-- The loop of `rte_pktmbuf_linearize`. -/
def linearizeLoop (fuel buffer : ℕ) (m : Option ℕ) : Option MbufHeap :=
  iterate (fun (h, buffer, m) =>
    match m with
    | none => some (Pass.leave h)
    | some m =>
      let mNext := (h.mbuf m).next
      let segLen := (h.mbuf m).dataLen.toNat
      let copied := (rteMemcpy cpuflag h.memory buffer (h.mbuf m).rtePktmbufMtod segLen).2
      let h := { h with memory := copied }
      some (Pass.again (h.rtePktmbufFreeSeg mempool m, buffer + segLen, mNext)))
    fuel (h, buffer, m)

/-- `rte_pktmbuf_linearize`. The length that is compared with the tailroom is an `int`. -/
def rtePktmbufLinearize (fuel mbuf : ℕ) : Option (ℤ × MbufHeap) :=
  if h.rtePktmbufIsContiguous mbuf then some (0, h)
  else
    let copyLen := ((h.mbuf mbuf).pktLen - (h.mbuf mbuf).dataLen.toUInt32).toInt32.toInt
    if copyLen > (h.mbuf mbuf).rtePktmbufTailroom.toNat then some (-1, h)
    else
      let buffer := (h.mbuf mbuf).rtePktmbufMtod + (h.mbuf mbuf).dataLen.toNat
      let h := h.modify mbuf fun seg => { seg with dataLen := seg.pktLen.toUInt16 }
      (h.linearizeLoop mempool cpuflag fuel buffer (h.mbuf mbuf).next).map fun h =>
        let h := h.modify mbuf fun seg => { seg with next := none }
        let h := h.modify mbuf fun seg => { seg with nbSegs := 1 }
        (0, h)

end MbufHeap

end DpdkCr
