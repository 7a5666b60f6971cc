import DpdkCr.Ring.Fifo

/-!
# The number of objects in a ring

`rte_ring_count` masks the difference of the two tails and caps it at the capacity. On
the rings that a producer and a consumer get to, neither does anything: between the
tails are the objects that are published and not committed.

## Main definitions

* `rteRingCount`, `rteRingFreeCount` — the functions
* `committingSystem` — the interleavings, with what the consumer has committed

## Main results

* `rteRingCount_le` — no count is larger than the capacity
* `InvAt.toNat_rteRingCount` — the count is exact
* `rteRingCount_exact` — both, for reachable and for arbitrary rings
-/

namespace DpdkCr

open Semantics

/-- `rte_ring_count`. -/
def rteRingCount (r : RteRing) : UInt32 :=
  let count := (r.prod.tail - r.cons.tail) &&& r.mask
  if count > r.capacity then r.capacity else count

/-- `rte_ring_free_count`. -/
def rteRingFreeCount (r : RteRing) : UInt32 := r.capacity - rteRingCount r

/-- The lists that the consumer has committed. A commit moves the tail to the head, past
everything that blocks have been handed, also those that were left early. -/
def recordCommit {α : Type*} (w : RingWorld α) : RingStep α → List (List α) → List (List α)
  | .commit, _ => w.handed
  | _, committed => committed

/-- The interleavings of a producer and a consumer, with what is committed. -/
def committingSystem (generic : RteRingGeneric) (α : Type*) :
    System (RingWorld α × List (List α)) (RingStep α) :=
  (ringSystem generic α).withHistory [] recordCommit

theorem rteRingCount_le (r : RteRing) : rteRingCount r ≤ r.capacity := by
  rw [rteRingCount]
  split
  · exact UInt32.le_refl _
  case isFalse fits => exact UInt32.not_lt.mp fits

/-- The subtraction does not wrap. -/
theorem toNat_rteRingFreeCount (r : RteRing) :
    (rteRingFreeCount r).toNat = r.capacity.toNat - (rteRingCount r).toNat :=
  UInt32.toNat_sub_of_le _ _ (rteRingCount_le r)

namespace RingWorld

variable {α : Type*} {generic : RteRingGeneric} {w : RingWorld α} {base released : ℕ}

/-- Between the tails are the published and unreleased objects. -/
theorem InvAt.toNat_rteRingCount (inv : InvAt base released w) :
    (rteRingCount w.ring).toNat = w.published.length - released := by
  have order := inv.released_le
  have bound := inv.received_le
  have room := inv.published_le
  have limit := w.ring.capacity.toNat_lt
  have short := inv.shaped.capacity_lt
  have distance : w.ring.prod.tail - w.ring.cons.tail =
      .ofNat (w.published.length - released) := by
    have difference : (w.ring.prod.tail - w.ring.cons.tail).toNat =
        w.published.length - released := by
      rw [inv.prodTail, inv.consTail, toNat_ofNat_sub_ofNat (by omega) (by omega)]
      omega
    rw [← difference, UInt32.ofNat_toNat]
  -- at most the capacity is outstanding, which is less than the size
  have masked : ((w.ring.prod.tail - w.ring.cons.tail) &&& w.ring.mask).toNat =
      w.published.length - released := by
    rw [distance, inv.shaped.toNat_ofNat_and_mask, Nat.mod_eq_of_lt (by omega)]
  have fits : ¬ (w.ring.prod.tail - w.ring.cons.tail) &&& w.ring.mask > w.ring.capacity := by
    rw [gt_iff_lt, UInt32.not_lt, UInt32.le_iff_toNat_le, masked]
    omega
  rw [rteRingCount, if_neg fits, masked]

/-- What is released is what is committed. -/
theorem exists_invAt_of_committing {committed : List (List α)} (documented : generic.Documented)
    (reached : (committingSystem generic α).Reachable (w, committed)) :
    ∃ base, InvAt base committed.flatten.length w := by
  refine reached.invariant (P := fun s => ∃ base, InvAt base s.2.flatten.length s.1) ?_ ?_
  · rintro ⟨w, committed⟩ ⟨initial, rfl⟩
    exact ⟨_, initial.inv⟩
  · rintro ⟨w, committed⟩ step ⟨v, committed'⟩ ⟨base, inv⟩ executed
    obtain ⟨v, taken, same⟩ := Option.map_eq_some_iff.mp executed
    obtain ⟨rfl, rfl⟩ := Prod.mk.inj same
    obtain ⟨released', next, unmoved⟩ := inv.exec documented taken
    refine ⟨base, ?_⟩
    cases acts_of_exec taken with
    | commit _ _ _ _ phase => exact inv.commit phase
    | reserve | copyIn | publish | moveHead | copyOut | abandon =>
        rw [unmoved nofun] at next
        exact next

end RingWorld

open RingWorld

/-- **The count is exact.** In every state of every interleaving it is the number of
published objects without the committed ones; and whatever a ring's fields hold, it does
not exceed the capacity, so the free count does not wrap. -/
theorem rteRingCount_exact {generic : RteRingGeneric} (documented : generic.Documented)
    (α : Type*) :
    (∀ w, (ringSystem generic α).Reachable w →
      (∃ committed, (committingSystem generic α).Reachable (w, committed)) ∧
      ∀ committed, (committingSystem generic α).Reachable (w, committed) →
        committed.flatten.length ≤ w.accepted.flatten.length ∧
        (rteRingCount w.ring).toNat =
          w.accepted.flatten.length - committed.flatten.length) ∧
    ∀ r, rteRingCount r ≤ r.capacity ∧
      (rteRingFreeCount r).toNat = r.capacity.toNat - (rteRingCount r).toNat := by
  refine ⟨fun w reached => ⟨System.reachable_withHistory.mpr reached, ?_⟩, fun r =>
    ⟨rteRingCount_le r, toNat_rteRingFreeCount r⟩⟩
  intro committed along
  obtain ⟨base, inv⟩ := exists_invAt_of_committing documented along
  have order := inv.released_le.trans ((Nat.le_add_right _ _).trans inv.received_le)
  exact ⟨order, inv.toNat_rteRingCount⟩

/-- Three objects are in the ring while a block reads two of them, across the wrap. -/
theorem rteRingCount_exact_nearWrap : ∃ w,
    (committingSystem singleProducer ℕ).run (nearWrap, []) wrapSteps = some (w, []) ∧
      (rteRingCount w.ring).toNat = 3 := by
  have along : ∃ w, (committingSystem singleProducer ℕ).run (nearWrap, []) wrapSteps =
      some (w, []) ∧ (ringSystem singleProducer ℕ).run nearWrap wrapSteps = some w ∧
        w.accepted = [[1, 2, 3]] := ⟨_, rfl, rfl, rfl⟩
  obtain ⟨w, recorded, executed, accepted⟩ := along
  obtain ⟨exact_counts, -⟩ := rteRingCount_exact documented_singleProducer ℕ
  have count := ((exact_counts w ⟨nearWrap, wrapSteps, initial_nearWrap, executed⟩).2 []
    ⟨(nearWrap, []), wrapSteps, ⟨initial_nearWrap, rfl⟩, recorded⟩).2
  rw [accepted] at count
  exact ⟨w, recorded, count⟩

end DpdkCr
