import DpdkCr.LoadBalancer.Buffers
import DpdkCr.LoadBalancer.Distribute
import DpdkCr.Packet.Pointer
import DpdkCr.Semantics.Transition
import Mathlib.Logic.Function.Basic

/-!
# The load balancer

I/O lcores read bursts from the NICs and distribute them to workers; workers look up where
a packet goes to and hand it to the I/O lcore that writes to this port. Between any two
lcores there is a ring, and before each ring and each port a buffer. All lcores run at the
same time.

A step is what an lcore does between two accesses to a ring or a NIC. The order in which an
lcore takes its steps is not restricted to the one of its main loop, except that a burst is
read when the one before has been handled.

## Main definitions

* `LbApp` — configuration, and what the lcores read of packets
* `LbWorld` — buffers, rings and NICs
* `loadBalancer` — the lcores at work
-/

namespace DpdkCr.LoadBalancer

open Semantics

/-- `bswap32`. -/
def bswap32 (val : UInt32) : UInt32 :=
  val <<< 24 ||| (val &&& 0xff00) <<< 8 ||| (val >>> 8 &&& (0xff00 : UInt32)) ||| val >>> 24

/-- `sizeof(EtherHdr)`, and where `dst_addr` is in an `Ipv4Hdr`. -/
def sizeofEtherHdr : ℕ := 14

def dstAddrOffset : ℕ := 16

/-- What the lcores read: the parameters, `rte_lpm_lookup` in the table of a worker, and of
an mbuf the `port` and the data. Which I/O lcore has received a packet is read by none. The
sizes are set by `app_parse_args`, none of them to zero, and the buffers have room for them.

There is a worker, and there are no more than an I/O lcore has buffers for. The ports that
packets come from and that lookups give are ports with a tx lcore, as `app_parse_args`
checks. That these are below 16 it does not check: an I/O lcore has 16 buffers for ports,
which it finds by the port. -/
structure LbApp (α : Type*) extends LbPackets α where
  rteLpmLookup : ℕ → UInt32 → Option UInt32
  port : α → UInt16
  lcoreOf : α → ℕ
  burstSizeIoRxRead : ℕ
  burstSizeIoRxWrite : ℕ
  burstSizeIoTxRead : ℕ
  burstSizeIoTxWrite : ℕ
  burstSizeWorkerRead : ℕ
  burstSizeWorkerWrite : ℕ
  ringRxSize : ℕ
  ringTxSize : ℕ
  rxWrite_pos : 0 < burstSizeIoRxWrite
  txWrite_pos : 0 < burstSizeIoTxWrite
  workerWrite_pos : 0 < burstSizeWorkerWrite
  rxRead_le : burstSizeIoRxRead ≤ appMbufArraySize
  rxWrite_le : burstSizeIoRxWrite ≤ appMbufArraySize
  tx_le : burstSizeIoTxRead + burstSizeIoTxWrite ≤ appMbufArraySize
  workerRead_le : burstSizeWorkerRead ≤ appMbufArraySize
  workerWrite_le : burstSizeWorkerWrite ≤ appMbufArraySize
  nWorkers_pos : 0 < nWorkers.toNat
  nWorkers_le : nWorkers.toNat ≤ appMaxWorkerLcores
  port_lt : ∀ m, (port m).toNat < appMaxNicTxPortsPerIoLcore
  lookup_lt : ∀ worker dst out, rteLpmLookup worker dst = some out →
    out.toNat < appMaxNicTxPortsPerIoLcore

namespace LbApp

variable {α : Type*} (app : LbApp α)

/-- The worker that a packet is for. -/
def workerOf (m : α) : ℕ := (app.worker (app.mtod m)).toNat

/-- The port that a worker sends a packet to: the one that the lookup gives, or the one
that the packet came from. -/
def portOf (worker : ℕ) (m : α) : ℕ :=
  match app.rteLpmLookup worker
      (bswap32 (Memory.u32 (app.mtod m) (sizeofEtherHdr + dstAddrOffset))) with
  | some port => port.toNat
  | none => (app.port m).toNat

end LbApp

section Rings

variable {α : Type*}

/-- `rte_ring_sp_enqueue_bulk`: all objects or none. -/
def rteRingSpEnqueueBulk (size : ℕ) (ring objs : List α) : ℕ × List α :=
  if ring.length + objs.length ≤ size - 1 then (objs.length, ring ++ objs) else (0, ring)

/-- `rte_ring_sc_dequeue_bulk`: as many objects as asked for, or none. -/
def rteRingScDequeueBulk (ring : List α) (n : ℕ) : List α × List α :=
  if n ≤ ring.length then (ring.take n, ring.drop n) else ([], ring)

end Rings

/-- The buffers and rings of I/O lcore and worker, of worker and port and of port and
worker; what an I/O lcore and a worker have still to do with the burst that they have read;
and what has been received by each lcore, sent by each port and freed. -/
structure LbWorld (α : Type*) where
  calls : ℕ → List (UInt32 × α)
  rxOut : ℕ × ℕ → AppMbufArray α
  ringsRx : ℕ × ℕ → List α
  burst : ℕ → List α
  workerOut : ℕ × ℕ → AppMbufArray α
  ringsTx : ℕ × ℕ → List α
  txOut : ℕ → AppMbufArray α
  received : ℕ → List α
  sent : ℕ → List α
  freed : List α

/-- A step: an I/O lcore reads a burst, distributes a packet of it or flushes the buffer for
a worker; a worker reads a burst, forwards a packet of it or flushes the buffer for a port;
an I/O lcore reads from a worker for a port, or flushes the buffer of a port. There are no
steps for workers and ports that the loops do not come to. -/
inductive LbStep (α : Type*)
  | rxBurst (lcore : ℕ) (array : ℕ → α) (n : UInt16)
  | distribute (lcore : ℕ)
  | rxFlush (lcore worker : ℕ)
  | dequeue (worker lcore : ℕ)
  | forward (worker : ℕ)
  | workerFlush (worker port : ℕ)
  | collect (port worker accepted : ℕ)
  | txFlush (port accepted : ℕ)

namespace LbWorld

variable {α : Type*} (app : LbApp α) (w : LbWorld α)

/-- Send packets off to a worker. If they do not fit into the ring they are freed. -/
def toWorker (lcore worker : ℕ) (objs : List α) : LbWorld α :=
  let (ret, ring) := rteRingSpEnqueueBulk app.ringRxSize (w.ringsRx (lcore, worker)) objs
  { w with
    ringsRx := Function.update w.ringsRx (lcore, worker) ring
    freed := w.freed ++ if ret = 0 then objs else [] }

/-- Send packets off to the lcore of a port. If they do not fit into the ring they are
freed. -/
def toPort (worker port : ℕ) (objs : List α) : LbWorld α :=
  let (ret, ring) := rteRingSpEnqueueBulk app.ringTxSize (w.ringsTx (port, worker)) objs
  { w with
    ringsTx := Function.update w.ringsTx (port, worker) ring
    freed := w.freed ++ if ret = 0 then objs else [] }

/-- `rte_eth_tx_burst`, which takes the first of the packets. The others are freed. -/
def toNic (port accepted : ℕ) (objs : List α) : LbWorld α :=
  { w with
    sent := Function.update w.sent port (w.sent port ++ objs.take accepted)
    freed := w.freed ++ objs.drop accepted }

/-- The packets in front of a burst that is sent off only when it is full: nothing is sent
off in between. -/
def appLcoreIoRxBufferToSend (lcore worker : ℕ) (mbuf : α) : LbWorld α :=
  let (full, out) := (w.rxOut (lcore, worker)).add app.burstSizeIoRxWrite [mbuf]
  let w := { w with rxOut := Function.update w.rxOut (lcore, worker) out }
  if full = [] then w else w.toWorker app lcore worker (full.take app.burstSizeIoRxWrite)

/-- `app_lcore_io_rx_flush` for a worker. -/
def appLcoreIoRxFlush (lcore worker : ℕ) : LbWorld α :=
  let (full, out) := (w.rxOut (lcore, worker)).flush
  let w := { w with rxOut := Function.update w.rxOut (lcore, worker) out }
  if full = [] then w else w.toWorker app lcore worker full

/-- `app_lcore_worker` for a packet of the burst. -/
def appLcoreWorker (worker : ℕ) (pkt : α) : LbWorld α :=
  let port := app.portOf worker pkt
  let (full, out) := (w.workerOut (worker, port)).add app.burstSizeWorkerWrite [pkt]
  let w := { w with workerOut := Function.update w.workerOut (worker, port) out }
  if full = [] then w else w.toPort app worker port (full.take app.burstSizeWorkerWrite)

/-- `app_lcore_worker_flush` for a port. -/
def appLcoreWorkerFlush (worker port : ℕ) : LbWorld α :=
  let (full, out) := (w.workerOut (worker, port)).flush
  let w := { w with workerOut := Function.update w.workerOut (worker, port) out }
  if full = [] then w else w.toPort app worker port full

/-- `app_lcore_io_tx` for a port and a worker. -/
def appLcoreIoTx (port worker accepted : ℕ) : LbWorld α :=
  let (objs, ring) := rteRingScDequeueBulk (w.ringsTx (port, worker)) app.burstSizeIoTxRead
  if objs = [] then w
  else
    let (full, out) := (w.txOut port).add app.burstSizeIoTxWrite objs
    let w :=
      { w with
        ringsTx := Function.update w.ringsTx (port, worker) ring
        txOut := Function.update w.txOut port out }
    if full = [] then w else w.toNic port accepted full

/-- `app_lcore_io_tx_flush` for a port. -/
def appLcoreIoTxFlush (port accepted : ℕ) : LbWorld α :=
  let (full, out) := (w.txOut port).flush
  let w := { w with txOut := Function.update w.txOut port out }
  if full = [] then w else w.toNic port accepted full

/-- A step, with what the NICs give and take. -/
def exec : LbStep α → Option (LbWorld α)
  | .rxBurst lcore array n =>
    if w.calls lcore = [] ∧ n.toNat ≤ app.burstSizeIoRxRead ∧
        ∀ i < n.toNat, app.lcoreOf (array i) = lcore then
      (LoadBalancer.distribute app.toLbPackets array n).map fun calls =>
        { w with
          calls := Function.update w.calls lcore calls
          received := Function.update w.received lcore
            (w.received lcore ++ (List.range n.toNat).map array) }
    else none
  | .distribute lcore =>
    match w.calls lcore with
    | [] => none
    | (worker, mbuf) :: calls =>
      some ({ w with calls := Function.update w.calls lcore calls }.appLcoreIoRxBufferToSend app
        lcore worker.toNat mbuf)
  | .rxFlush lcore worker =>
    if worker < app.nWorkers.toNat then some (w.appLcoreIoRxFlush app lcore worker) else none
  | .dequeue worker lcore =>
    if w.burst worker = [] then
      let (objs, ring) :=
        rteRingScDequeueBulk (w.ringsRx (lcore, worker)) app.burstSizeWorkerRead
      some
        { w with
          ringsRx := Function.update w.ringsRx (lcore, worker) ring
          burst := Function.update w.burst worker objs }
    else none
  | .forward worker =>
    match w.burst worker with
    | [] => none
    | pkt :: pkts =>
      some ({ w with burst := Function.update w.burst worker pkts }.appLcoreWorker app worker pkt)
  | .workerFlush worker port =>
    if port < appMaxNicPorts then some (w.appLcoreWorkerFlush app worker port) else none
  | .collect port worker accepted =>
    if port < appMaxNicTxPortsPerIoLcore ∧ worker < app.nWorkers.toNat then
      some (w.appLcoreIoTx app port worker accepted)
    else none
  | .txFlush port accepted =>
    if port < appMaxNicTxPortsPerIoLcore then some (w.appLcoreIoTxFlush port accepted) else none

end LbWorld

/-- The load balancer from its start. -/
def loadBalancer {α : Type*} (app : LbApp α) : System (LbWorld α) (LbStep α) where
  Init w := (∀ l, w.calls l = []) ∧ (∀ k, (w.rxOut k).array = []) ∧ (∀ k, w.ringsRx k = []) ∧
    (∀ k, w.burst k = []) ∧ (∀ k, (w.workerOut k).array = []) ∧ (∀ k, w.ringsTx k = []) ∧
    (∀ p, (w.txOut p).array = []) ∧ (∀ l, w.received l = []) ∧ (∀ p, w.sent p = []) ∧ w.freed = []
  exec w a := w.exec app a

end DpdkCr.LoadBalancer
