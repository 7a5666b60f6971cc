import DpdkCr.Ring.Burst
import DpdkCr.Semantics.Channel

/-!
# Producer and consumer on one ring

A single producer and a single consumer, step by step: the producer reserves
space, copies its objects in and publishes its tail; the consumer moves its head,
copies the objects out, runs a block on them, and then either commits its tail
or leaves the block early and does not. Any party may act at any time.

## Main definitions

* `RingWorld` — the ring, where both parties are, and what they have exchanged
* `ringSystem` — the interleavings
-/

namespace DpdkCr

open Semantics

/-- Where the producer is in `__rte_ring_do_enqueue`, with its locals. -/
inductive ProducerPhase (α : Type*)
  | idle
  | reserved (objTable : ℕ → α) (n prodHead prodNext : UInt32)
  | copied (objTable : ℕ → α) (n prodHead prodNext : UInt32)

/-- Where the consumer is in `rte_ring_sc_dequeue_burst`, with its locals. -/
inductive ConsumerPhase (α : Type*)
  | idle
  | moved (objTable : ℕ → α) (n consHead consNext : UInt32)
  | inBlock (objTable : ℕ → α) (n consHead consNext : UInt32)

/-- The ring with its slots, the two parties, the lists that the producer's
enqueues accepted, and the lists that the consumer's blocks were handed. -/
structure RingWorld (α : Type*) where
  ring : RteRing
  slots : ℕ → α
  producer : ProducerPhase α
  consumer : ConsumerPhase α
  accepted : List (List α)
  handed : List (List α)

/-- One step of one party. Tables are given as the caller's arrays stand. -/
inductive RingStep (α : Type*)
  | reserve (objTable : ℕ → α) (n : UInt32)
  | copyIn
  | publish
  | moveHead (objTable : ℕ → α) (n : UInt32)
  | copyOut
  | commit
  | abandon

/-- The first `n` entries of a table. -/
def tableList {α : Type*} (objTable : ℕ → α) (n : UInt32) : List α :=
  (List.range n.toNat).map objTable

namespace RingWorld

variable {α : Type*} (generic : RteRingGeneric) (w : RingWorld α)

def reserve (objTable : ℕ → α) (n : UInt32) : RingWorld α :=
  let move := generic.moveProdHead w.ring w.ring.prod.single n .queueVariable
  if move.n = 0 then { w with ring := move.ring }
  else { w with ring := move.ring, producer := .reserved objTable move.n move.oldHead move.newHead }

def copyIn (objTable : ℕ → α) (n prodHead prodNext : UInt32) : RingWorld α :=
  { w with
    slots := enqueuePtrs w.ring w.slots prodHead objTable n
    producer := .copied objTable n prodHead prodNext }

def publish (objTable : ℕ → α) (n prodHead prodNext : UInt32) : RingWorld α :=
  { w with
    ring.prod := generic.updateTail w.ring.prod prodHead prodNext w.ring.prod.single 1
    producer := .idle
    accepted := w.accepted ++ [tableList objTable n] }

/-- The head movement of a dequeue; the out-parameter `%cons_next` starts at zero. -/
def moveHead (objTable : ℕ → α) (n : UInt32) : RingWorld α :=
  let move := rteRingMoveScConsHeadBurst w.ring n 0
  if move.n = 0 then { w with ring := move.ring }
  else { w with ring := move.ring, consumer := .moved objTable move.n move.oldHead move.newHead }

def copyOut (objTable : ℕ → α) (n consHead consNext : UInt32) : RingWorld α :=
  let objTable := dequeuePtrs w.ring w.slots consHead objTable n
  { w with
    consumer := .inBlock objTable n consHead consNext
    handed := w.handed ++ [tableList objTable n] }

def commit (consNext : UInt32) : RingWorld α :=
  { w with ring.cons.tail := consNext, consumer := .idle }

def abandon : RingWorld α := { w with consumer := .idle }

/-- A step is enabled when its party has come to it. -/
def exec : RingStep α → Option (RingWorld α)
  | .reserve objTable n =>
    match w.producer with
    | .idle => some (w.reserve generic objTable n)
    | _ => none
  | .copyIn =>
    match w.producer with
    | .reserved objTable n prodHead prodNext => some (w.copyIn objTable n prodHead prodNext)
    | _ => none
  | .publish =>
    match w.producer with
    | .copied objTable n prodHead prodNext =>
      some (w.publish generic objTable n prodHead prodNext)
    | _ => none
  | .moveHead objTable n =>
    match w.consumer with
    | .idle => some (w.moveHead objTable n)
    | _ => none
  | .copyOut =>
    match w.consumer with
    | .moved objTable n consHead consNext => some (w.copyOut objTable n consHead consNext)
    | _ => none
  | .commit =>
    match w.consumer with
    | .inBlock _ _ _ consNext => some (w.commit consNext)
    | _ => none
  | .abandon =>
    match w.consumer with
    | .inBlock _ _ _ _ => some w.abandon
    | _ => none

/-- What one step can do: each party acts only where the step expects it. -/
inductive Acts : RingStep α → RingWorld α → Prop
  | reserve (objTable : ℕ → α) (n : UInt32) (phase : w.producer = .idle) :
      Acts (.reserve objTable n) (w.reserve generic objTable n)
  | copyIn (objTable : ℕ → α) (n prodHead prodNext : UInt32)
      (phase : w.producer = .reserved objTable n prodHead prodNext) :
      Acts .copyIn (w.copyIn objTable n prodHead prodNext)
  | publish (objTable : ℕ → α) (n prodHead prodNext : UInt32)
      (phase : w.producer = .copied objTable n prodHead prodNext) :
      Acts .publish (w.publish generic objTable n prodHead prodNext)
  | moveHead (objTable : ℕ → α) (n : UInt32) (phase : w.consumer = .idle) :
      Acts (.moveHead objTable n) (w.moveHead objTable n)
  | copyOut (objTable : ℕ → α) (n consHead consNext : UInt32)
      (phase : w.consumer = .moved objTable n consHead consNext) :
      Acts .copyOut (w.copyOut objTable n consHead consNext)
  | commit (objTable : ℕ → α) (n consHead consNext : UInt32)
      (phase : w.consumer = .inBlock objTable n consHead consNext) :
      Acts .commit (w.commit consNext)
  | abandon (objTable : ℕ → α) (n consHead consNext : UInt32)
      (phase : w.consumer = .inBlock objTable n consHead consNext) :
      Acts .abandon w.abandon

variable {generic} {w}

theorem acts_of_exec {step : RingStep α} {v : RingWorld α}
    (executed : w.exec generic step = some v) : w.Acts generic step v := by
  -- every step matches on the phase of its party and is refused in the others
  cases step <;> simp only [exec] at executed <;> split at executed <;> cases executed <;>
    constructor <;> assumption

/-- A ring as its creation leaves it, except that the indexes may start anywhere. -/
structure Initial (w : RingWorld α) : Prop where
  shaped : w.ring.Shaped
  single : w.ring.prod.single ≠ 0
  prodTail : w.ring.prod.tail = w.ring.prod.head
  consHead : w.ring.cons.head = w.ring.prod.head
  consTail : w.ring.cons.tail = w.ring.prod.head
  producer : w.producer = .idle
  consumer : w.consumer = .idle
  accepted : w.accepted = []
  handed : w.handed = []

end RingWorld

/-- All interleavings of a single producer and a single consumer on a ring. -/
def ringSystem (generic : RteRingGeneric) (α : Type*) : System (RingWorld α) (RingStep α) where
  Init := RingWorld.Initial
  exec := RingWorld.exec generic

end DpdkCr
