import DpdkCr.Ring.Interleaving

/-!
# The order of a ring's indexes

Numbered from the ring's creation, the positions that the indexes stand for are
ordered: released by a commit, handed to a block, published, reserved. The
invariant keeps that order, keeps every published and unreleased object in its
slot, and ties each party's locals to the indexes. The released position is the
only one that the exchanged lists do not determine; only a commit moves it.

## Main results

* `InvAt.copyIn_write` — what the producer overwrites
* `InvAt.copyOut_apply` — what the consumer's block is handed
* `InvAt.exec` — one step keeps the invariant, and keeps the released position
  unless it is a commit
-/

namespace DpdkCr

open Circular

variable {α : Type*}

/-- Objects that a party has moved its head over and not yet passed on. -/
def ProducerPhase.inFlight : ProducerPhase α → ℕ
  | .idle => 0
  | .reserved _ n _ _ | .copied _ n _ _ => n.toNat

def ConsumerPhase.inFlight : ConsumerPhase α → ℕ
  | .moved _ n _ _ => n.toNat
  | .idle | .inBlock _ _ _ _ => 0

namespace RingWorld

/-- Everything accepted from the producer, in order. -/
def published (w : RingWorld α) : List α := w.accepted.flatten

/-- Everything handed to the consumer's blocks, in order. -/
def received (w : RingWorld α) : List α := w.handed.flatten

/-- The slot of the `p`-th object of the ring's life. -/
def slot (w : RingWorld α) (base p : ℕ) : α := w.slots ((base + p) % w.ring.size.toNat)

/-- The producer's locals agree with the ring. -/
def ProducerOk (base : ℕ) (w : RingWorld α) : ProducerPhase α → Prop
  | .idle => True
  | .reserved _ _ prodHead prodNext => prodHead = w.ring.prod.tail ∧ prodNext = w.ring.prod.head
  | .copied objTable n _ prodNext => prodNext = w.ring.prod.head ∧
      ∀ i < n.toNat, w.slot base (w.published.length + i) = objTable i

/-- The consumer's locals agree with the ring. A block's objects come from
positions that are still unreleased. -/
def ConsumerOk (base released : ℕ) (w : RingWorld α) : ConsumerPhase α → Prop
  | .idle => True
  | .moved _ _ consHead consNext =>
      consHead = .ofNat (base + w.received.length) ∧ consNext = w.ring.cons.head
  | .inBlock objTable n consHead consNext => consNext = w.ring.cons.head ∧
      ∃ start, released ≤ start ∧ consHead = .ofNat (base + start) ∧
        ∀ i < n.toNat, w.published[start + i]? = some (objTable i)

/-- The invariant of a ring created with its indexes at `base`, whose consumer
has released the first `released` objects. -/
structure InvAt (base released : ℕ) (w : RingWorld α) : Prop where
  shaped : w.ring.Shaped
  single : w.ring.prod.single ≠ 0
  consTail : w.ring.cons.tail = .ofNat (base + released)
  consHead : w.ring.cons.head = .ofNat (base + (w.received.length + w.consumer.inFlight))
  prodTail : w.ring.prod.tail = .ofNat (base + w.published.length)
  prodHead : w.ring.prod.head = .ofNat (base + (w.published.length + w.producer.inFlight))
  released_le : released ≤ w.received.length
  received_le : w.received.length + w.consumer.inFlight ≤ w.published.length
  published_le : w.published.length + w.producer.inFlight ≤ released + w.ring.capacity.toNat
  stored : ∀ p x, released ≤ p → w.published[p]? = some x → w.slot base p = x
  producer : w.ProducerOk base w.producer
  consumer : w.ConsumerOk base released w.consumer

theorem Initial.inv {w : RingWorld α} (initial : w.Initial) :
    InvAt w.ring.prod.head.toNat 0 w where
  shaped := initial.shaped
  single := initial.single
  consTail := by rw [initial.consTail, Nat.add_zero, UInt32.ofNat_toNat]
  consHead := by
    simp [initial.consHead, received, initial.handed, initial.consumer, ConsumerPhase.inFlight]
  prodTail := by simp [initial.prodTail, published, initial.accepted]
  prodHead := by simp [published, initial.accepted, initial.producer, ProducerPhase.inFlight]
  released_le := Nat.zero_le _
  received_le := by simp [received, initial.handed, initial.consumer, ConsumerPhase.inFlight]
  published_le := by simp [published, initial.accepted, initial.producer, ProducerPhase.inFlight]
  stored := by simp [published, initial.accepted]
  producer := by rw [initial.producer]; trivial
  consumer := by rw [initial.consumer]; trivial

/-! ### Lists and indexes -/

theorem length_tableList (objTable : ℕ → α) (n : UInt32) :
    (tableList objTable n).length = n.toNat := by
  rw [tableList, List.length_map, List.length_range]

theorem getElem?_tableList {objTable : ℕ → α} {n : UInt32} {i : ℕ} (inside : i < n.toNat) :
    (tableList objTable n)[i]? = some (objTable i) := by
  rw [tableList, List.getElem?_map, List.getElem?_range inside, Option.map_some]

theorem getElem?_of_prefix {xs ys : List α} {i : ℕ} {x : α} (more : xs <+: ys)
    (there : xs[i]? = some x) : ys[i]? = some x := by
  obtain ⟨rest, rfl⟩ := more
  rw [List.getElem?_append_left (List.getElem?_eq_some_iff.mp there).1, there]

/-- The difference of two wrapping indexes is the distance of their positions. -/
theorem toNat_ofNat_sub_ofNat {a b : ℕ} (order : a ≤ b) (near : b - a < 2 ^ 32) :
    (UInt32.ofNat b - UInt32.ofNat a).toNat = b - a := by
  have split : UInt32.ofNat b = UInt32.ofNat (b - a) + UInt32.ofNat a := by
    rw [← UInt32.ofNat_add, Nat.sub_add_cancel order]
  rw [split, UInt32.add_sub_cancel, UInt32.toNat_ofNat', Nat.mod_eq_of_lt near]

/-- Moving an index moves its position. -/
theorem ofNat_add_eq {p : ℕ} {n : UInt32} : UInt32.ofNat p + n = .ofNat (p + n.toNat) := by
  rw [UInt32.ofNat_add, UInt32.ofNat_toNat]

/-! ### The producer's steps -/

variable {generic : RteRingGeneric} {w : RingWorld α} {base released : ℕ}
variable {objTable : ℕ → α} {n prodHead prodNext consHead consNext : UInt32}

/-- What an idle producer reserves fits the free space. -/
theorem InvAt.moveProdHead_n_le (inv : InvAt base released w) (documented : generic.Documented)
    (phase : w.producer = .idle) :
    w.published.length + (generic.moveProdHead w.ring w.ring.prod.single n .queueVariable).n.toNat ≤
      released + w.ring.capacity.toNat := by
  have order := inv.released_le
  have bound := inv.received_le
  have room := inv.published_le
  have head := inv.prodHead
  rw [phase, ProducerPhase.inFlight, Nat.add_zero] at room head
  have limit := w.ring.capacity.toNat_lt
  -- indexes may have wrapped, but their difference is the distance of the positions
  have used : (w.ring.prod.head - w.ring.cons.tail).toNat = w.published.length - released := by
    rw [head, inv.consTail, toNat_ofNat_sub_ofNat (by omega) (by omega)]
    omega
  have near : w.ring.prod.head - w.ring.cons.tail ≤ w.ring.capacity := by
    rw [UInt32.le_iff_toNat_le, used]
    omega
  have free := documented.n_le_free w.ring w.ring.prod.single n .queueVariable inv.single near
  rw [UInt32.le_iff_toNat_le, UInt32.toNat_sub_of_le _ _ near, used] at free
  omega

theorem InvAt.reserve (inv : InvAt base released w) (documented : generic.Documented)
    (phase : w.producer = .idle) : InvAt base released (w.reserve generic objTable n) := by
  have room := inv.moveProdHead_n_le (n := n) documented phase
  have head := inv.prodHead
  rw [phase, ProducerPhase.inFlight, Nat.add_zero] at head
  rw [RingWorld.reserve, documented.ring_eq _ _ _ _ inv.single,
    documented.oldHead_eq _ _ _ _ inv.single]
  by_cases nothing : (generic.moveProdHead w.ring w.ring.prod.single n .queueVariable).n = 0
  · simpa only [nothing, if_true, UInt32.add_zero] using inv
  · have next := documented.newHead_eq _ _ _ _ inv.single nothing
    simp only [if_neg nothing, next]
    exact {
      shaped := ⟨inv.shaped.size_eq, inv.shaped.mask_eq, inv.shaped.capacity_le⟩
      single := inv.single
      consTail := inv.consTail
      consHead := inv.consHead
      prodTail := inv.prodTail
      prodHead := by
        rw [head, ofNat_add_eq, Nat.add_assoc]
        rfl
      released_le := inv.released_le
      received_le := inv.received_le
      published_le := room
      stored := inv.stored
      producer := ⟨head.trans inv.prodTail.symm, rfl⟩
      consumer := inv.consumer }

/-- The copy-in of a reservation writes past the published objects only. -/
theorem InvAt.copyIn_write (inv : InvAt base released w)
    (phase : w.producer = .reserved objTable n prodHead prodNext) :
    Write w.slots (w.copyIn objTable n prodHead prodNext).slots w.ring.size.toNat
      (base + w.published.length) n.toNat objTable := by
  have locals := inv.producer
  have room := inv.published_le
  have order := inv.released_le
  have bound := inv.received_le
  rw [phase] at locals room
  have fits : n ≤ w.ring.capacity := by
    rw [UInt32.le_iff_toNat_le]
    rw [ProducerPhase.inFlight] at room
    omega
  rw [RingWorld.copyIn, locals.1, inv.prodTail]
  exact enqueuePtrs_write inv.shaped fits

theorem InvAt.copyIn (inv : InvAt base released w)
    (phase : w.producer = .reserved objTable n prodHead prodNext) :
    InvAt base released (w.copyIn objTable n prodHead prodNext) := by
  have write := inv.copyIn_write phase
  have room := inv.published_le
  have head := inv.prodHead
  have locals := inv.producer
  rw [phase] at room head locals
  rw [ProducerPhase.inFlight] at room
  have short := inv.shaped.capacity_lt
  exact {
    shaped := inv.shaped
    single := inv.single
    consTail := inv.consTail
    consHead := inv.consHead
    prodTail := inv.prodTail
    prodHead := head
    released_le := inv.released_le
    received_le := inv.received_le
    published_le := room
    stored := by
      intro p x unreleased there
      have inside : p < w.published.length := (List.getElem?_eq_some_iff.mp there).1
      -- the copy-in ends below `released + size`, so it stays clear of unreleased positions
      have first : base + released ≤ base + p := Nat.add_le_add_left unreleased base
      rw [← inv.stored p x unreleased there]
      exact write.keeps first (by omega) (by omega)
    producer := ⟨locals.2, fun i inside => by
      rw [slot, ← Nat.add_assoc]
      exact write.written i inside⟩
    consumer := inv.consumer }

/-- Publishing more objects and moving nothing of the consumer's keeps its locals right. -/
theorem ConsumerOk.mono {v : RingWorld α} {phase : ConsumerPhase α}
    (locals : w.ConsumerOk base released phase) (received : v.received = w.received)
    (head : v.ring.cons.head = w.ring.cons.head) (more : w.published <+: v.published) :
    v.ConsumerOk base released phase := by
  cases phase with
  | idle => trivial
  | moved => exact ⟨received ▸ locals.1, head ▸ locals.2⟩
  | inBlock =>
      obtain ⟨next, start, unreleased, position, taken⟩ := locals
      refine ⟨head ▸ next, start, unreleased, position, ?_⟩
      intro i inside
      exact getElem?_of_prefix more (taken i inside)

/-- Publishing appends the table to what is published. -/
theorem InvAt.publish_eq (inv : InvAt base released w) (documented : generic.Documented) :
    w.publish generic objTable n prodHead prodNext =
      { w with
        ring.prod.tail := prodNext
        producer := .idle
        accepted := w.accepted ++ [tableList objTable n] } := by
  rw [RingWorld.publish, documented.updateTail_eq _ _ _ _ _ inv.single]

theorem InvAt.publish (inv : InvAt base released w) (documented : generic.Documented)
    (phase : w.producer = .copied objTable n prodHead prodNext) :
    InvAt base released (w.publish generic objTable n prodHead prodNext) := by
  have room := inv.published_le
  have head := inv.prodHead
  have locals := inv.producer
  have bound := inv.received_le
  rw [phase] at room head locals
  rw [ProducerPhase.inFlight] at room head
  rw [inv.publish_eq documented]
  have more : published { w with
      ring.prod.tail := prodNext
      producer := .idle
      accepted := w.accepted ++ [tableList objTable n] } =
      w.published ++ tableList objTable n := by
    rw [published, published, List.flatten_append, List.flatten_singleton]
  exact {
    shaped := ⟨inv.shaped.size_eq, inv.shaped.mask_eq, inv.shaped.capacity_le⟩
    single := inv.single
    consTail := inv.consTail
    consHead := inv.consHead
    prodTail := by
      rw [more, List.length_append, length_tableList, ← head]
      exact locals.1
    prodHead := by
      rw [more, List.length_append, length_tableList]
      exact head
    released_le := inv.released_le
    received_le := by
      rw [more, List.length_append]
      exact bound.trans (Nat.le_add_right _ _)
    published_le := by
      rw [more, List.length_append, length_tableList]
      exact room
    stored := by
      intro p x unreleased there
      rw [more] at there
      -- a position is among those published before, or in the table copied in
      by_cases old : p < w.published.length
      · rw [List.getElem?_append_left old] at there
        exact inv.stored p x unreleased there
      · obtain ⟨i, rfl⟩ := Nat.exists_eq_add_of_le (Nat.not_lt.mp old)
        have inside := (List.getElem?_eq_some_iff.mp there).1
        rw [List.length_append, length_tableList] at inside
        have new : i < n.toNat := by omega
        rw [List.getElem?_append_right (Nat.not_lt.mp old), Nat.add_sub_cancel_left,
          getElem?_tableList new, Option.some_inj] at there
        rw [← there]
        exact locals.2 i new
    producer := trivial
    consumer := inv.consumer.mono rfl rfl (more ▸ List.prefix_append _ _) }

/-! ### The consumer's steps -/

/-- An idle consumer finds published objects only. -/
theorem InvAt.found_le (inv : InvAt base released w) (phase : w.consumer = .idle) :
    w.received.length + (w.ring.found n).toNat ≤ w.published.length := by
  have order := inv.released_le
  have bound := inv.received_le
  have room := inv.published_le
  have limit := w.ring.capacity.toNat_lt
  have head := inv.consHead
  rw [phase, ConsumerPhase.inFlight, Nat.add_zero] at bound head
  -- again a difference of indexes that may have wrapped
  have entries : (w.ring.prod.tail - w.ring.cons.head).toNat =
      w.published.length - w.received.length := by
    rw [head, inv.prodTail, toNat_ofNat_sub_ofNat (by omega) (by omega)]
    omega
  rw [RteRing.toNat_found, entries]
  omega

theorem InvAt.moveHead (inv : InvAt base released w) (phase : w.consumer = .idle) :
    InvAt base released (w.moveHead objTable n) := by
  have bound := inv.found_le (n := n) phase
  have head := inv.consHead
  rw [phase, ConsumerPhase.inFlight, Nat.add_zero] at head
  rw [RingWorld.moveHead]
  by_cases nothing : w.ring.found n = 0
  · rw [rteRingMoveScConsHeadBurst_of_nothing nothing]
    exact inv
  · -- the head alone moves, over objects that are published
    rw [rteRingMoveScConsHeadBurst_of_found nothing]
    simp only [if_neg nothing]
    exact {
      shaped := ⟨inv.shaped.size_eq, inv.shaped.mask_eq, inv.shaped.capacity_le⟩
      single := inv.single
      consTail := inv.consTail
      consHead := by
        rw [head, ofNat_add_eq, Nat.add_assoc]
        rfl
      prodTail := inv.prodTail
      prodHead := inv.prodHead
      released_le := inv.released_le
      received_le := bound
      published_le := inv.published_le
      stored := inv.stored
      producer := inv.producer
      consumer := ⟨head, rfl⟩ }

/-- The copy-out delivers the oldest objects that no block was handed yet. -/
theorem InvAt.copyOut_apply (inv : InvAt base released w)
    (phase : w.consumer = .moved objTable n consHead consNext) {i : ℕ} (inside : i < n.toNat) :
    w.published[w.received.length + i]? =
      some (dequeuePtrs w.ring w.slots consHead objTable n i) := by
  have order := inv.released_le
  have bound := inv.received_le
  have room := inv.published_le
  have locals := inv.consumer
  rw [phase] at bound locals
  rw [ConsumerPhase.inFlight] at bound
  have fits : n ≤ w.ring.capacity := by
    rw [UInt32.le_iff_toNat_le]
    omega
  have there : w.received.length + i < w.published.length := by omega
  rw [locals.1, dequeuePtrs_apply inv.shaped fits inside, Nat.add_assoc]
  rw [List.getElem?_eq_getElem there, Option.some_inj]
  exact (inv.stored _ _ (by omega) (List.getElem?_eq_getElem there)).symm

theorem InvAt.copyOut (inv : InvAt base released w)
    (phase : w.consumer = .moved objTable n consHead consNext) :
    InvAt base released (w.copyOut objTable n consHead consNext) := by
  have order := inv.released_le
  have bound := inv.received_le
  have head := inv.consHead
  have locals := inv.consumer
  rw [phase] at bound head locals
  rw [ConsumerPhase.inFlight] at bound head
  have taken {i : ℕ} := inv.copyOut_apply phase (i := i)
  have more : ((w.copyOut objTable n consHead consNext).received).length =
      w.received.length + n.toNat := by
    rw [RingWorld.copyOut, received, received, List.flatten_append, List.flatten_singleton,
      List.length_append, length_tableList]
  exact {
    shaped := inv.shaped
    single := inv.single
    consTail := inv.consTail
    consHead := by
      rw [more]
      exact head
    prodTail := inv.prodTail
    prodHead := inv.prodHead
    released_le := by
      rw [more]
      omega
    received_le := by
      rw [more]
      exact bound
    published_le := inv.published_le
    stored := inv.stored
    producer := inv.producer
    consumer := ⟨locals.2, w.received.length, order, locals.1, fun _ inside => taken inside⟩ }

theorem InvAt.commit (inv : InvAt base released w)
    (phase : w.consumer = .inBlock objTable n consHead consNext) :
    InvAt base w.received.length (w.commit consNext) := by
  have order := inv.released_le
  have bound := inv.received_le
  have room := inv.published_le
  have head := inv.consHead
  have locals := inv.consumer
  rw [phase] at bound head locals
  rw [ConsumerPhase.inFlight, Nat.add_zero] at bound head
  exact {
    shaped := ⟨inv.shaped.size_eq, inv.shaped.mask_eq, inv.shaped.capacity_le⟩
    single := inv.single
    -- the tail catches up with the head, behind everything handed to a block
    consTail := locals.1.trans head
    consHead := head
    prodTail := inv.prodTail
    prodHead := inv.prodHead
    released_le := le_refl _
    received_le := bound
    published_le := room.trans (Nat.add_le_add_right order _)
    stored := fun p x unreleased => inv.stored p x (order.trans unreleased)
    producer := inv.producer
    consumer := trivial }

theorem InvAt.abandon (inv : InvAt base released w)
    (phase : w.consumer = .inBlock objTable n consHead consNext) :
    InvAt base released w.abandon := by
  have bound := inv.received_le
  have head := inv.consHead
  rw [phase] at bound head
  -- leaving the block early ends its phase and releases nothing
  exact { inv with consHead := head, received_le := bound, consumer := trivial }

/-! ### All steps and all runs -/

variable {v : RingWorld α} {step : RingStep α}

/-- One step keeps the invariant, and only a commit releases objects. -/
theorem InvAt.exec (inv : InvAt base released w) (documented : generic.Documented)
    (executed : w.exec generic step = some v) :
    ∃ released', InvAt base released' v ∧ (step ≠ .commit → released' = released) := by
  cases acts_of_exec executed with
  | reserve _ _ phase => exact ⟨released, inv.reserve documented phase, fun _ => rfl⟩
  | copyIn _ _ _ _ phase => exact ⟨released, inv.copyIn phase, fun _ => rfl⟩
  | publish _ _ _ _ phase => exact ⟨released, inv.publish documented phase, fun _ => rfl⟩
  | moveHead _ _ phase => exact ⟨released, inv.moveHead phase, fun _ => rfl⟩
  | copyOut _ _ _ _ phase => exact ⟨released, inv.copyOut phase, fun _ => rfl⟩
  | commit _ _ _ _ phase => exact ⟨_, inv.commit phase, fun other => absurd rfl other⟩
  | abandon _ _ _ _ phase => exact ⟨released, inv.abandon phase, fun _ => rfl⟩

end RingWorld

end DpdkCr
