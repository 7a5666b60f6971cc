import DpdkCr.Mbuf.Layout
import DpdkCr.Semantics.Transition
import Mathlib.Logic.Function.Basic

/-!
# The tap reader

`tap_rx_to_ring`: the reader thread fills its one mbuf from a tap device, sets its
lengths, offers it to a ring, and allocates another mbuf only if the ring took it.
A consumer takes mbufs off the same ring, works on them and frees them. The ring
is a first-in first-out queue here, and the pool gives out free mbufs in any order.

## Main definitions

* `TapWorld` — the mbufs, where the reader is, and what has been exchanged
* `tapSystem` — all interleavings of the reader and the consumer
-/

namespace DpdkCr

open Semantics

def etherMtu : ℕ := 1600 - 18

/-- `RTE_PTYPE_L2_ETHER`. -/
def rtePtypeL2Ether : UInt32 := 1

/-- Where the reader is in `tap_rx_to_ring`, with the frame that it last read. -/
inductive ReaderPhase
  | reading
  | filled (frame : List UInt8)
  | sized (frame : List UInt8)
  | enqueued
  deriving DecidableEq

/-- The mbufs, who has them, the reader's `mbuf`, the frames whose enqueue returned
one, and the packets that the consumer obtained. -/
structure TapWorld (α : Type*) where
  heap : α → RteMbuf α
  pool : List α
  mbuf : α
  phase : ReaderPhase
  ring : List α
  held : List α
  accepted : List (List UInt8)
  obtained : List Packet

/-- One step of the reader (the first four) or of the consumer. -/
inductive TapStep (α : Type*)
  | tapRead (frame : List UInt8)
  | setLengths
  | enqueue (nbTx : ℕ)
  | alloc (m : α)
  | dequeue (n : ℕ)
  | modify (m : α) (content : RteMbuf α)
  | free (m : α)

/-- The reader's steps. -/
def TapStep.reader? {α : Type*} : TapStep α → Bool
  | tapRead _ | setLengths | enqueue _ | alloc _ => true
  | dequeue _ | modify _ _ | free _ => false

namespace TapWorld

variable {α : Type*} [DecidableEq α] (w : TapWorld α)

def write (m : α) (content : RteMbuf α) : TapWorld α :=
  { w with heap := Function.update w.heap m content }

/-- `tap_read` into the current mbuf; nothing to read goes on to the `next` iteration. -/
def tapRead (frame : List UInt8) : TapWorld α :=
  let nbRx := UInt16.ofNat frame.length
  let w := w.write w.mbuf ((w.heap w.mbuf).writeData frame)
  if nbRx = 0 then w else { w with phase := .filled frame }

def setLengths (frame : List UInt8) : TapWorld α :=
  let nbRx := UInt16.ofNat frame.length
  { w.write w.mbuf { w.heap w.mbuf with
      pktLen := nbRx.toUInt32
      dataLen := nbRx
      packetType := rtePtypeL2Ether } with
    phase := .sized frame }

/-- `rte_ring_enqueue_burst` of the one mbuf, and the test of its result. -/
def enqueue (frame : List UInt8) (nbTx : ℕ) : TapWorld α :=
  if nbTx = 1 then
    { w with phase := .enqueued, ring := w.ring ++ [w.mbuf], accepted := w.accepted ++ [frame] }
  else { w with phase := .reading }

def alloc (m : α) : TapWorld α :=
  { w.write m (w.heap m).alloc with mbuf := m, pool := w.pool.erase m, phase := .reading }

/-- The consumer takes `n` mbufs off the ring and sees their packets. -/
def dequeue (n : ℕ) : TapWorld α :=
  { w with
    ring := w.ring.drop n
    held := w.held ++ w.ring.take n
    obtained := w.obtained ++ (w.ring.take n).map fun m => (w.heap m).packet }

def free (m : α) : TapWorld α := { w with held := w.held.erase m, pool := w.pool ++ [m] }

/-- A step of the reader is enabled when the reader has come to it, and one of the
consumer when it holds the mbuf that it is about. -/
def exec (w : TapWorld α) : TapStep α → Option (TapWorld α)
  | .tapRead frame =>
    if w.phase = .reading ∧ frame.length ≤ etherMtu then some (w.tapRead frame) else none
  | .setLengths =>
    match w.phase with
    | .filled frame => some (w.setLengths frame)
    | _ => none
  | .enqueue nbTx =>
    match w.phase with
    | .sized frame => if nbTx ≤ 1 then some (w.enqueue frame nbTx) else none
    | _ => none
  | .alloc m => if w.phase = .enqueued ∧ m ∈ w.pool then some (w.alloc m) else none
  | .dequeue n => some (w.dequeue n)
  | .modify m content => if m ∈ w.held then some (w.write m content) else none
  | .free m => if m ∈ w.held then some (w.free m) else none

/-- What one step can do: each party acts only where the step expects it. -/
inductive Acts : TapStep α → TapWorld α → Prop
  | tapRead (frame : List UInt8) (phase : w.phase = .reading) (fits : frame.length ≤ etherMtu) :
      Acts (.tapRead frame) (w.tapRead frame)
  | setLengths (frame : List UInt8) (phase : w.phase = .filled frame) :
      Acts .setLengths (w.setLengths frame)
  | enqueue (frame : List UInt8) (nbTx : ℕ) (phase : w.phase = .sized frame) :
      Acts (.enqueue nbTx) (w.enqueue frame nbTx)
  | alloc (m : α) (phase : w.phase = .enqueued) (free : m ∈ w.pool) : Acts (.alloc m) (w.alloc m)
  | dequeue (n : ℕ) : Acts (.dequeue n) (w.dequeue n)
  | modify (m : α) (content : RteMbuf α) (member : m ∈ w.held) :
      Acts (.modify m content) (w.write m content)
  | free (m : α) (member : m ∈ w.held) : Acts (.free m) (w.free m)

variable {w}

theorem acts_of_exec {step : TapStep α} {v : TapWorld α} (executed : w.exec step = some v) :
    w.Acts step v := by
  cases step with
  | tapRead frame =>
      obtain ⟨⟨phase, fits⟩, ⟨⟩⟩ := Option.ite_none_right_eq_some.mp executed
      exact .tapRead frame phase fits
  | setLengths =>
      rw [exec] at executed
      split at executed <;> cases executed
      exact .setLengths _ ‹_›
  | enqueue nbTx =>
      rw [exec] at executed
      split at executed
      · obtain ⟨-, ⟨⟩⟩ := Option.ite_none_right_eq_some.mp executed
        exact .enqueue _ nbTx ‹_›
      · cases executed
  | alloc m =>
      obtain ⟨⟨phase, free⟩, ⟨⟩⟩ := Option.ite_none_right_eq_some.mp executed
      exact .alloc m phase free
  | dequeue n =>
      cases executed
      exact .dequeue n
  | modify m content =>
      obtain ⟨member, ⟨⟩⟩ := Option.ite_none_right_eq_some.mp executed
      exact .modify m content member
  | free m =>
      obtain ⟨member, ⟨⟩⟩ := Option.ite_none_right_eq_some.mp executed
      exact .free m member

/-- The mbufs that the reader has: its current one, unless the ring just took it. -/
def current (w : TapWorld α) : List α := if w.phase = .enqueued then [] else [w.mbuf]

/-- All mbufs, by where they are. -/
def owned (w : TapWorld α) : List α := w.pool ++ w.current ++ w.ring ++ w.held

end TapWorld

/-- All interleavings of the reader and a consumer over the given mbufs. The reader
starts with an mbuf, and the others are in the pool. -/
def tapSystem {α : Type*} [DecidableEq α] (mbufs : List α) : System (TapWorld α) (TapStep α) where
  Init w := mbufs.Nodup ∧ (w.pool ++ [w.mbuf]).Perm mbufs ∧ w.phase = .reading ∧
    w.ring = [] ∧ w.held = [] ∧ w.accepted = [] ∧ w.obtained = []
  exec := TapWorld.exec

end DpdkCr
