import DpdkCr.Ring.Layout

/-!
# Burst enqueue and peek dequeue

`rte_ring_enqueue_burst` of `rte_ring.c`, and the dequeue of `rte_ring_extra.c`
that moves the consumer head and copies the objects out but leaves the consumer
tail to the block macro of `inlines.cr`. The head movement and the tail update
of the enqueue come with the DPDK build (`rte_ring_generic.h`); they are a
parameter here, with what their callers rely on.

## Main definitions

* `RteRingGeneric` — the functions of the build, and `RteRingGeneric.Documented`
* `rteRingEnqueueBurst`, `rteRingScDequeueBurst` — the two ends of a ring

## Main results

* `rteRingScDequeueBurst_n` — how many objects a dequeue finds
* `rteRingScDequeueBurst_of_nothing` — a dequeue that finds none changes nothing
-/

namespace DpdkCr

/-- `enum rte_ring_queue_behavior`. -/
inductive RteRingQueueBehavior
  | queueFixed
  | queueVariable

/-- The result of `__rte_ring_move_prod_head`, its three out-parameters and the ring. -/
structure ProdMove where
  n : UInt32
  oldHead : UInt32
  newHead : UInt32
  freeEntries : UInt32
  ring : RteRing

/-- The functions that `rte_ring.c` includes from the DPDK build. -/
structure RteRingGeneric where
  /-- `__rte_ring_move_prod_head(r, is_sp, n, behavior, …)` -/
  moveProdHead : RteRing → UInt32 → UInt32 → RteRingQueueBehavior → ProdMove
  /-- `update_tail(ht, old_val, new_val, single, enqueue)` -/
  updateTail : RteRingHeadtail → UInt32 → UInt32 → UInt32 → UInt32 → RteRingHeadtail

/-- What a single producer relies on. The new head is only returned when
something was reserved, and the free space is bounded only while the indexes are
no further apart than the ring's capacity. -/
structure RteRingGeneric.Documented (generic : RteRingGeneric) : Prop where
  n_le : ∀ r isSp n behavior, (generic.moveProdHead r isSp n behavior).n ≤ n
  n_le_free : ∀ r isSp n behavior, isSp ≠ 0 → r.prod.head - r.cons.tail ≤ r.capacity →
    (generic.moveProdHead r isSp n behavior).n ≤ r.capacity - (r.prod.head - r.cons.tail)
  oldHead_eq : ∀ r isSp n behavior, isSp ≠ 0 →
    (generic.moveProdHead r isSp n behavior).oldHead = r.prod.head
  newHead_eq : ∀ r isSp n behavior, isSp ≠ 0 → (generic.moveProdHead r isSp n behavior).n ≠ 0 →
    (generic.moveProdHead r isSp n behavior).newHead =
      r.prod.head + (generic.moveProdHead r isSp n behavior).n
  ring_eq : ∀ r isSp n behavior, isSp ≠ 0 →
    (generic.moveProdHead r isSp n behavior).ring =
      { r with prod.head := r.prod.head + (generic.moveProdHead r isSp n behavior).n }
  updateTail_eq : ∀ ht oldVal newVal single enqueue, single ≠ 0 →
    generic.updateTail ht oldVal newVal single enqueue = { ht with tail := newVal }

section Functions

variable {α : Type*}

/-- What an enqueue leaves: its result, `*free_space`, the ring and the slots. -/
structure Enqueued (α : Type*) where
  n : UInt32
  freeSpace : UInt32
  ring : RteRing
  slots : ℕ → α

/-- `__rte_ring_do_enqueue`. -/
def rteRingDoEnqueue (generic : RteRingGeneric) (r : RteRing) (slots objTable : ℕ → α)
    (n : UInt32) (behavior : RteRingQueueBehavior) (isSp : UInt32) : Enqueued α :=
  let move := generic.moveProdHead r isSp n behavior
  if move.n = 0 then ⟨move.n, move.freeEntries - move.n, move.ring, slots⟩
  else
    let slots := enqueuePtrs move.ring slots move.oldHead objTable move.n
    let prod := generic.updateTail move.ring.prod move.oldHead move.newHead isSp 1
    ⟨move.n, move.freeEntries - move.n, { move.ring with prod := prod }, slots⟩

/-- `rte_ring_enqueue_burst`. -/
def rteRingEnqueueBurst (generic : RteRingGeneric) (r : RteRing) (slots objTable : ℕ → α)
    (n : UInt32) : Enqueued α :=
  rteRingDoEnqueue generic r slots objTable n .queueVariable r.prod.single

/-- The result of `__rte_ring_move_sc_cons_head_burst`, its three out-parameters
and the ring. -/
structure ConsMove where
  n : UInt32
  oldHead : UInt32
  newHead : UInt32
  entries : UInt32
  ring : RteRing

/-- `__rte_ring_move_sc_cons_head_burst`; `newHead` is what `*new_head` holds before. -/
def rteRingMoveScConsHeadBurst (r : RteRing) (n newHead : UInt32) : ConsMove :=
  let oldHead := r.cons.head
  let prodTail := r.prod.tail
  let entries := prodTail - oldHead
  let n := if n > entries then entries else n
  -- the early return of the source: `*new_head` is not written
  if n = 0 then ⟨0, oldHead, newHead, entries, r⟩
  else
    let newHead := oldHead + n
    ⟨n, oldHead, newHead, entries, { r with cons.head := newHead }⟩

/-- What a dequeue leaves: its result, `*cons_next`, the ring and the table. -/
structure Dequeued (α : Type*) where
  n : UInt32
  consNext : UInt32
  ring : RteRing
  objTable : ℕ → α

/-- `rte_ring_sc_dequeue_burst_peek`. -/
def rteRingScDequeueBurstPeek (r : RteRing) (slots objTable : ℕ → α) (n consNext : UInt32) :
    Dequeued α :=
  let move := rteRingMoveScConsHeadBurst r n consNext
  if move.n = 0 then ⟨move.n, move.newHead, move.ring, objTable⟩
  else
    let objTable := dequeuePtrs move.ring slots move.oldHead objTable move.n
    ⟨move.n, move.newHead, move.ring, objTable⟩

/-- The macro `rte_ring_sc_dequeue_burst` around a block that leaves the ring
alone. A block that is left early (`finishes` is false) skips the commit. -/
def rteRingScDequeueBurst (r : RteRing) (slots objTable : ℕ → α) (nb : UInt32)
    (finishes : Bool) : Dequeued α :=
  let peek := rteRingScDequeueBurstPeek r slots objTable nb 0
  if peek.n > 0 ∧ finishes then
    { peek with ring := { peek.ring with cons.tail := peek.consNext } }
  else peek

variable {r : RteRing} {slots objTable : ℕ → α} {n newHead : UInt32}

/-- What a dequeue of at most `n` objects finds. -/
def RteRing.found (r : RteRing) (n : UInt32) : UInt32 :=
  if n > r.prod.tail - r.cons.head then r.prod.tail - r.cons.head else n

theorem RteRing.toNat_found :
    (r.found n).toNat = min n.toNat (r.prod.tail - r.cons.head).toNat := by
  rw [RteRing.found]
  by_cases more : n > r.prod.tail - r.cons.head
  · have := UInt32.lt_iff_toNat_lt.mp more
    rw [if_pos more]
    omega
  · have := UInt32.le_iff_toNat_le.mp (UInt32.not_lt.mp more)
    rw [if_neg more]
    omega

/-- A consumer that finds nothing leaves the ring and the out-parameter alone. -/
theorem rteRingMoveScConsHeadBurst_of_nothing (nothing : r.found n = 0) :
    rteRingMoveScConsHeadBurst r n newHead =
      ⟨0, r.cons.head, newHead, r.prod.tail - r.cons.head, r⟩ := by
  rw [RteRing.found] at nothing
  simp only [rteRingMoveScConsHeadBurst, nothing, if_true]

/-- A consumer that finds something moves its head past it, and nothing else. -/
theorem rteRingMoveScConsHeadBurst_of_found (found : r.found n ≠ 0) :
    rteRingMoveScConsHeadBurst r n newHead =
      ⟨r.found n, r.cons.head, r.cons.head + r.found n, r.prod.tail - r.cons.head,
        { r with cons.head := r.cons.head + r.found n }⟩ := by
  rw [RteRing.found] at found ⊢
  simp only [rteRingMoveScConsHeadBurst, if_neg found]

theorem rteRingMoveScConsHeadBurst_n :
    (rteRingMoveScConsHeadBurst r n newHead).n = r.found n := by
  by_cases nothing : r.found n = 0
  · rw [rteRingMoveScConsHeadBurst_of_nothing nothing, nothing]
  · rw [rteRingMoveScConsHeadBurst_of_found nothing]

theorem rteRingScDequeueBurst_n {finishes : Bool} :
    (rteRingScDequeueBurst r slots objTable n finishes).n = r.found n := by
  have peek : (rteRingScDequeueBurstPeek r slots objTable n 0).n = r.found n := by
    rw [rteRingScDequeueBurstPeek]
    split <;> exact rteRingMoveScConsHeadBurst_n
  rw [rteRingScDequeueBurst]
  split <;> exact peek

/-- A dequeue that finds nothing changes no field of the ring, whether or not a
block would have run to its end. -/
theorem rteRingScDequeueBurst_of_nothing {finishes : Bool} (nothing : r.found n = 0) :
    rteRingScDequeueBurst r slots objTable n finishes = ⟨0, 0, r, objTable⟩ := by
  have peek : rteRingScDequeueBurstPeek r slots objTable n 0 = ⟨0, 0, r, objTable⟩ := by
    simp only [rteRingScDequeueBurstPeek, rteRingMoveScConsHeadBurst_of_nothing nothing, if_true]
  rw [rteRingScDequeueBurst, peek]
  exact if_neg fun run => UInt32.lt_irrefl 0 run.1

end Functions

end DpdkCr
