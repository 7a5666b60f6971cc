import Mathlib.Algebra.Order.Ring.Nat
import Mathlib.Data.List.Infix

/-!
# Output buffers of the load balancer

Each lcore collects the packets for one destination in a buffer and sends them off when
the buffer is full. So that packets do not wait for others forever, all buffers are flushed
from time to time; a flag lets a flush pass over a buffer that has been sent off since the
one before.

## Main definitions

* `AppMbufArray` — a buffer with its flag
* `AppMbufArray.add`, `AppMbufArray.flush` — what is done to it
* `AppMbufArray.run` — any number of these

## Main results

* `add_sent`, `flush_sent` — nothing is lost, doubled or overtaken in a buffer
* `array_run_between_flushes` — no packet is in a buffer when it is flushed a second time
-/

namespace DpdkCr.LoadBalancer

variable {α : Type*}

/-- `APP_MBUF_ARRAY_SIZE`, the room of a buffer. -/
def appMbufArraySize : ℕ := 512

/-- `APP_MAX_WORKER_LCORES`, the number of buffers that an I/O lcore has for workers. -/
def appMaxWorkerLcores : ℕ := 128

/-- `APP_MAX_NIC_PORTS`, the number of buffers that a worker has for ports. -/
def appMaxNicPorts : ℕ := 32

/-- `APP_MAX_NIC_TX_PORTS_PER_IO_LCORE`, the size of `nic_ports` and the number of buffers
that an I/O lcore has for ports. -/
def appMaxNicTxPortsPerIoLcore : ℕ := 16

/-- `AppMbufArray`, whose entries are `n_mbufs` packets, and its entry of
`mbuf_out_flush`. -/
structure AppMbufArray (α : Type*) where
  array : List α
  outFlush : UInt8
  deriving DecidableEq, Repr

namespace AppMbufArray

/-- Packets behind those in the buffer. What is sent off is the first of the result. -/
def add (bsz : ℕ) (pkts : List α) (out : AppMbufArray α) : List α × AppMbufArray α :=
  if (out.array ++ pkts).length < bsz then ([], { out with array := out.array ++ pkts })
  else (out.array ++ pkts, ⟨[], 0⟩)

/-- A flush. -/
def flush (out : AppMbufArray α) : List α × AppMbufArray α :=
  if out.outFlush = 0 ∨ out.array.length = 0 then ([], { out with outFlush := 1 })
  else (out.array, ⟨[], 1⟩)

/-- What is done to a buffer. -/
inductive Op (α : Type*)
  | add (pkts : List α)
  | flush

/-- The packets that an operation brings. -/
def Op.added : Op α → List α
  | .add pkts => pkts
  | .flush => []

def apply (bsz : ℕ) (out : AppMbufArray α) : Op α → List α × AppMbufArray α
  | .add pkts => out.add bsz pkts
  | .flush => out.flush

/-- The operations in a row, with everything that is sent off. -/
def run (bsz : ℕ) : AppMbufArray α → List (Op α) → List α × AppMbufArray α
  | out, [] => ([], out)
  | out, op :: ops =>
    ((out.apply bsz op).1 ++ (run bsz (out.apply bsz op).2 ops).1,
      (run bsz (out.apply bsz op).2 ops).2)

variable {bsz : ℕ} {out : AppMbufArray α} {pkts : List α} {op : Op α} {ops : List (Op α)}

theorem add_sent : (out.add bsz pkts).1 ++ (out.add bsz pkts).2.array = out.array ++ pkts := by
  rw [add]
  split
  case isTrue => rfl
  case isFalse => exact List.append_nil _

theorem flush_sent : out.flush.1 ++ out.flush.2.array = out.array := by
  rw [flush]
  split
  case isTrue => rfl
  case isFalse => exact List.append_nil _

theorem length_add (positive : 0 < bsz) : (out.add bsz pkts).2.array.length < bsz := by
  rw [add]
  split
  case isTrue short => exact short
  case isFalse => exact positive

theorem length_flush (short : out.array.length < bsz) : out.flush.2.array.length < bsz := by
  have parts : out.flush.1.length + out.flush.2.array.length = out.array.length := by
    rw [← List.length_append, flush_sent]
  omega

/-- With one packet more, a buffer that was not full is sent off as a burst of full size. -/
theorem take_add (short : out.array.length < bsz) (x : α) :
    (out.add bsz [x]).1.take bsz = (out.add bsz [x]).1 := by
  have parts : (out.add bsz [x]).1.length + (out.add bsz [x]).2.array.length =
      out.array.length + 1 := by
    rw [← List.length_append, add_sent, List.length_append, List.length_singleton]
  exact List.take_of_length_le (by omega)

/-- What a flush leaves behind, and what comes after it. -/
def Settled (added : List α) (out : AppMbufArray α) : Prop :=
  out.outFlush = 1 ∨ out.array <:+ added

theorem Settled.apply {added : List α} (settled : Settled added out) (op : Op α) :
    Settled (added ++ op.added) (out.apply bsz op).2 := by
  cases op with
  | add pkts =>
      rw [AppMbufArray.apply, add]
      split
      case isTrue =>
          rcases settled with flag | ⟨front, old⟩
          · exact .inl flag
          · exact .inr ⟨front, by simp [← old, Op.added]⟩
      case isFalse => exact .inr List.nil_suffix
  | flush =>
      rw [AppMbufArray.apply, flush]
      split
      case isTrue => exact .inl rfl
      case isFalse => exact .inl rfl

theorem Settled.run {added : List α} (settled : Settled added out) :
    Settled (added ++ ops.flatMap Op.added) (out.run bsz ops).2 := by
  induction ops generalizing out added with
  | nil => simpa [AppMbufArray.run] using settled
  | cons op ops ih => simpa [AppMbufArray.run] using ih (settled.apply op)

theorem Settled.flush {added : List α} (settled : Settled added out) :
    out.flush.2.array <:+ added := by
  rw [AppMbufArray.flush]
  split
  case isTrue skip =>
      rcases settled with flag | new
      · have empty : out.array = [] := by simpa [flag] using skip
        rw [empty]
        exact List.nil_suffix
      · exact new
  case isFalse => exact List.nil_suffix

/-- Whatever is done to the buffer between two flushes, behind the second one it holds only
packets that were added after the first one. -/
theorem array_run_between_flushes (bsz : ℕ) (out : AppMbufArray α) (ops : List (Op α)) :
    ((out.flush.2.run bsz ops).2.flush.2).array <:+ ops.flatMap Op.added := by
  have start : Settled [] out.flush.2 := by
    rw [AppMbufArray.flush]
    split
    case isTrue => exact .inl rfl
    case isFalse => exact .inl rfl
  have settled : Settled (ops.flatMap Op.added) (out.flush.2.run bsz ops).2 := start.run
  exact settled.flush

end AppMbufArray

end DpdkCr.LoadBalancer
