import DpdkCr.Ring.Invariant

/-!
# A ring is a channel

Forgetting indexes and slots, the producer's publications send to a channel and
the consumer's copies receive from it. A commit is invisible to the channel: it
only lets the producer use the slots again, so until then a block's objects stay
where it found them.

## Main results

* `ringSimulation` — the interleavings simulate a channel
* `peekDequeue_fifo` — blocks are handed what was accepted, first in first out
* `stepsAreFunctions` — undisturbed steps are the functions
-/

namespace DpdkCr

open Semantics

namespace RingWorld

variable {α : Type*} {generic : RteRingGeneric} {w v : RingWorld α} {step : RingStep α}
variable {base released : ℕ} {objTable : ℕ → α} {n prodHead prodNext consHead consNext : UInt32}

theorem InvAt.tableList_copyOut (inv : InvAt base released w)
    (phase : w.consumer = .moved objTable n consHead consNext) :
    tableList (dequeuePtrs w.ring w.slots consHead objTable n) n =
      (w.published.drop w.received.length).take n.toNat := by
  -- both lists end after `n`
  apply List.ext_getElem?
  intro i
  by_cases inside : i < n.toNat
  · rw [getElem?_tableList inside, List.getElem?_take_of_lt inside, List.getElem?_drop,
      inv.copyOut_apply phase inside]
  · rw [List.getElem?_eq_none (by rw [length_tableList]; omega),
      List.getElem?_eq_none (by rw [List.length_take]; omega)]

theorem published_reserve : (w.reserve generic objTable n).published = w.published := by
  rw [reserve]
  split <;> rfl

theorem received_reserve : (w.reserve generic objTable n).received = w.received := by
  rw [reserve]
  split <;> rfl

theorem published_moveHead : (w.moveHead objTable n).published = w.published := by
  rw [moveHead]
  split <;> rfl

theorem received_moveHead : (w.moveHead objTable n).received = w.received := by
  rw [moveHead]
  split <;> rfl

theorem size_moveHead : (w.moveHead objTable n).ring.size = w.ring.size := by
  rw [moveHead]
  by_cases nothing : w.ring.found n = 0
  · rw [rteRingMoveScConsHeadBurst_of_nothing nothing]
    rfl
  · rw [rteRingMoveScConsHeadBurst_of_found nothing]
    simp only [if_neg nothing]

theorem published_publish :
    (w.publish generic objTable n prodHead prodNext).published =
      w.published ++ tableList objTable n := by
  rw [published, publish, List.flatten_append, List.flatten_singleton, published]

theorem received_copyOut :
    (w.copyOut objTable n consHead consNext).received =
      w.received ++ tableList (dequeuePtrs w.ring w.slots consHead objTable n) n := by
  rw [received, copyOut, List.flatten_append, List.flatten_singleton, received]

/-- No step takes a publication back or resizes the ring. -/
theorem InvAt.exec_grows (inv : InvAt base released w) (documented : generic.Documented)
    (executed : w.exec generic step = some v) :
    w.published <+: v.published ∧ v.ring.size = w.ring.size := by
  cases acts_of_exec executed with
  | reserve =>
      rw [published_reserve, RingWorld.reserve, documented.ring_eq _ _ _ _ inv.single]
      refine ⟨List.prefix_rfl, ?_⟩
      split <;> rfl
  | publish =>
      rw [published_publish]
      exact ⟨List.prefix_append _ _, rfl⟩
  | moveHead =>
      rw [published_moveHead]
      exact ⟨List.prefix_rfl, size_moveHead⟩
  | copyIn | copyOut | commit | abandon => exact ⟨List.prefix_rfl, rfl⟩

end RingWorld

open RingWorld

variable {α : Type*} {generic : RteRingGeneric}

/-- **A ring simulates a channel.** Publishing sends, copying out receives, and no
other step shows. -/
def ringSimulation (documented : generic.Documented) (α : Type*) :
    System.Simulation (ringSystem generic α) (Channel.system (α := α)) where
  Rel w c := (∃ base released, InvAt base released w) ∧ c.sent = w.published ∧
    c.received = w.received
  init w initial := by
    refine ⟨Channel.empty, rfl, ⟨_, _, initial.inv⟩, ?_, ?_⟩
    · rw [published, initial.accepted]
      rfl
    · rw [received, initial.handed]
      rfl
  step w step v c := by
    rintro ⟨⟨base, released, inv⟩, sent, received⟩ executed
    obtain ⟨released', next, -⟩ := inv.exec documented executed
    cases acts_of_exec executed with
    | reserve =>
        exact ⟨[], c, rfl, ⟨_, _, next⟩, sent.trans published_reserve.symm,
          received.trans received_reserve.symm⟩
    | copyIn => exact ⟨[], c, rfl, ⟨_, _, next⟩, sent, received⟩
    | publish objTable n _ _ phase =>
        refine ⟨[.send (tableList objTable n)], c.send (tableList objTable n), rfl,
          ⟨_, _, next⟩, ?_, received⟩
        rw [Channel.sent_send, sent, published_publish]
    | moveHead =>
        exact ⟨[], c, rfl, ⟨_, _, next⟩, sent.trans published_moveHead.symm,
          received.trans received_moveHead.symm⟩
    | copyOut objTable n _ _ phase =>
        -- what is copied out is the front of what is published and not yet received
        refine ⟨[.receive n.toNat], c.receive n.toNat, rfl, ⟨_, _, next⟩, sent, ?_⟩
        rw [Channel.received_receive, Channel.pending, received_copyOut,
          inv.tableList_copyOut phase, sent, received]
    | commit => exact ⟨[], c, rfl, ⟨_, _, next⟩, sent, received⟩
    | abandon => exact ⟨[], c, rfl, ⟨_, _, next⟩, sent, received⟩

/-! ### Undisturbed steps -/

/-- The three steps of an enqueue that no other party disturbs are the function. -/
theorem run_enqueueBurst (documented : generic.Documented) {w : RingWorld α} {objTable : ℕ → α}
    {n : UInt32} (idle : w.producer = .idle) (single : w.ring.prod.single ≠ 0)
    (room : (rteRingEnqueueBurst generic w.ring w.slots objTable n).n ≠ 0) :
    (ringSystem generic α).run w [.reserve objTable n, .copyIn, .publish] =
      some { w with
        ring := (rteRingEnqueueBurst generic w.ring w.slots objTable n).ring
        slots := (rteRingEnqueueBurst generic w.ring w.slots objTable n).slots
        accepted := w.accepted ++
          [tableList objTable (rteRingEnqueueBurst generic w.ring w.slots objTable n).n] } := by
  have moved := documented.ring_eq w.ring w.ring.prod.single n .queueVariable single
  by_cases nothing : (generic.moveProdHead w.ring w.ring.prod.single n .queueVariable).n = 0
  · simp [rteRingEnqueueBurst, rteRingDoEnqueue, nothing] at room
  · simp [System.run, ringSystem, exec, idle, reserve, copyIn, publish, rteRingEnqueueBurst,
      rteRingDoEnqueue, nothing, moved]

/-- The steps of a dequeue that no other party disturbs are the macro. -/
theorem run_dequeueBurst {w : RingWorld α} {objTable : ℕ → α} {n : UInt32} {finishes : Bool}
    (idle : w.consumer = .idle) (found : w.ring.found n ≠ 0) :
    (ringSystem generic α).run w
        [.moveHead objTable n, .copyOut, if finishes then .commit else .abandon] =
      some { w with
        ring := (rteRingScDequeueBurst w.ring w.slots objTable n finishes).ring
        handed := w.handed ++
          [tableList (rteRingScDequeueBurst w.ring w.slots objTable n finishes).objTable
            (rteRingScDequeueBurst w.ring w.slots objTable n finishes).n] } := by
  have positive : 0 < w.ring.found n := UInt32.pos_iff_ne_zero.mpr found
  cases finishes <;>
    simp [System.run, ringSystem, exec, idle, moveHead, copyOut, commit, abandon,
      rteRingScDequeueBurst, rteRingScDequeueBurstPeek, rteRingMoveScConsHeadBurst_of_found
        found, found, positive]

/-- When no other party disturbs them, the steps of an enqueue and of a dequeue are the
functions that they are the steps of. -/
structure StepsAreFunctions (generic : RteRingGeneric) (α : Type*) : Prop where
  enqueue : ∀ (w : RingWorld α) objTable n, w.producer = .idle → w.ring.prod.single ≠ 0 →
    (rteRingEnqueueBurst generic w.ring w.slots objTable n).n ≠ 0 →
    (ringSystem generic α).run w [.reserve objTable n, .copyIn, .publish] =
      some { w with
        ring := (rteRingEnqueueBurst generic w.ring w.slots objTable n).ring
        slots := (rteRingEnqueueBurst generic w.ring w.slots objTable n).slots
        accepted := w.accepted ++
          [tableList objTable (rteRingEnqueueBurst generic w.ring w.slots objTable n).n] }
  dequeue : ∀ (w : RingWorld α) objTable n finishes, w.consumer = .idle →
    (rteRingScDequeueBurst w.ring w.slots objTable n finishes).n ≠ 0 →
    (ringSystem generic α).run w
        [.moveHead objTable n, .copyOut, if finishes then .commit else .abandon] =
      some { w with
        ring := (rteRingScDequeueBurst w.ring w.slots objTable n finishes).ring
        handed := w.handed ++
          [tableList (rteRingScDequeueBurst w.ring w.slots objTable n finishes).objTable
            (rteRingScDequeueBurst w.ring w.slots objTable n finishes).n] }

theorem stepsAreFunctions (documented : generic.Documented) : StepsAreFunctions generic α := by
  refine ⟨?_, ?_⟩
  · intro w objTable n idle single room
    exact run_enqueueBurst documented idle single room
  · intro w objTable n finishes idle found
    rw [rteRingScDequeueBurst_n] at found
    exact run_dequeueBurst idle found

/-! ### Slots while a block runs -/

/-- Without a commit the released position stays, and publications only add. -/
private theorem run_uncommitted (documented : generic.Documented) {base released : ℕ}
    {w v : RingWorld α} {steps : List (RingStep α)} (inv : InvAt base released w)
    (executed : (ringSystem generic α).run w steps = some v) (uncommitted : .commit ∉ steps) :
    InvAt base released v ∧ w.published <+: v.published ∧ v.ring.size = w.ring.size := by
  refine System.run_relates (P := fun step => step ≠ .commit)
    (R := fun w v => InvAt base released v ∧ w.published <+: v.published ∧
      v.ring.size = w.ring.size) ⟨inv, List.prefix_rfl, rfl⟩ ?_ ?_ executed
  · rintro u step t ⟨before, more, size⟩ other next
    obtain ⟨released', after, unmoved⟩ := before.exec documented next
    obtain ⟨grown, resized⟩ := before.exec_grows documented next
    rw [unmoved other] at after
    exact ⟨after, more.trans grown, resized.trans size⟩
  · rintro step member rfl
    exact uncommitted member

/-- What a block was handed stays in the slots it was copied from until a commit. -/
theorem slots_of_uncommitted (documented : generic.Documented) {w v : RingWorld α}
    {steps : List (RingStep α)} {objTable : ℕ → α} {n consHead consNext : UInt32}
    (reached : (ringSystem generic α).Reachable w)
    (running : w.consumer = .inBlock objTable n consHead consNext)
    (executed : (ringSystem generic α).run w steps = some v) (uncommitted : .commit ∉ steps)
    {i : ℕ} (inside : i < n.toNat) :
    v.slots ((consHead + .ofNat i) &&& w.ring.mask).toNat = objTable i := by
  obtain ⟨c, -, ⟨base, released, inv⟩, -, -⟩ := (ringSimulation documented α).reachable reached
  obtain ⟨later, more, size⟩ := run_uncommitted documented inv executed uncommitted
  have locals := inv.consumer
  rw [running] at locals
  obtain ⟨-, start, unreleased, position, taken⟩ := locals
  -- the object was published when the block got it, and publications are not taken back
  have there := getElem?_of_prefix more (taken i inside)
  -- no commit since, so its position is still unreleased and its slot still holds it
  have kept := later.stored _ _ (by omega) there
  rw [slot, size, ← Nat.add_assoc] at kept
  rw [position, ← UInt32.ofNat_add, inv.shaped.toNat_ofNat_and_mask, kept]

/-- **Peek and commit is a lossless queue.** In every interleaving the lists
handed to the blocks make a prefix of what the producer's enqueues accepted;
while a block runs and until a commit, every slot it was handed an object from
still holds that object; and a dequeue that finds nothing changes no field of the
ring. The steps that are interleaved are those of the functions. -/
theorem peekDequeue_fifo (documented : generic.Documented) :
    (∀ w, (ringSystem generic α).Reachable w → w.handed.flatten <+: w.accepted.flatten) ∧
    (∀ w steps v objTable n consHead consNext, (ringSystem generic α).Reachable w →
      w.consumer = .inBlock objTable n consHead consNext →
      (ringSystem generic α).run w steps = some v → .commit ∉ steps →
      ∀ i < n.toNat, v.slots ((consHead + .ofNat i) &&& w.ring.mask).toNat = objTable i) ∧
    (∀ r (slots objTable : ℕ → α) nb finishes,
      (rteRingScDequeueBurst r slots objTable nb finishes).n = 0 →
      (rteRingScDequeueBurst r slots objTable nb finishes).ring = r) ∧
    StepsAreFunctions generic α := by
  refine ⟨?_, ?_, ?_, stepsAreFunctions documented⟩
  · intro w reached
    obtain ⟨c, -, -, sent, received⟩ := (ringSimulation documented α).reachable reached
    have order := c.inOrder
    rwa [sent, received] at order
  · intro w steps v objTable n consHead consNext reached running executed uncommitted i inside
    exact slots_of_uncommitted documented reached running executed uncommitted inside
  · intro r slots objTable nb finishes nothing
    rw [rteRingScDequeueBurst_n] at nothing
    rw [rteRingScDequeueBurst_of_nothing nothing]

/-! ### A build -/

/-- How far a producer moves that asks for `n` of the free entries. -/
def granted (freeEntries n : UInt32) : RteRingQueueBehavior → UInt32
  | .queueFixed => if n > freeEntries then 0 else n
  | .queueVariable => if n > freeEntries then freeEntries else n

/-- The head movement and the tail update of a single producer, without contention. -/
def singleProducer : RteRingGeneric where
  moveProdHead r _ n behavior :=
    let oldHead := r.prod.head
    let freeEntries := r.capacity + r.cons.tail - oldHead
    let n := granted freeEntries n behavior
    if n = 0 then ⟨0, oldHead, 0, freeEntries, r⟩
    else ⟨n, oldHead, oldHead + n, freeEntries, { r with prod.head := oldHead + n }⟩
  updateTail ht _ newVal _ _ := { ht with tail := newVal }

theorem granted_le {freeEntries n : UInt32} {behavior : RteRingQueueBehavior} :
    granted freeEntries n behavior ≤ n ∧ granted freeEntries n behavior ≤ freeEntries := by
  by_cases more : n > freeEntries
  · cases behavior with
    | queueFixed =>
        rw [granted, if_pos more]
        exact ⟨UInt32.zero_le, UInt32.zero_le⟩
    | queueVariable =>
        rw [granted, if_pos more]
        exact ⟨UInt32.le_of_lt more, UInt32.le_refl _⟩
  · cases behavior <;> rw [granted, if_neg more] <;>
      exact ⟨UInt32.le_refl _, UInt32.not_lt.mp more⟩

theorem singleProducer_n (r : RteRing) (isSp n : UInt32) (behavior : RteRingQueueBehavior) :
    (singleProducer.moveProdHead r isSp n behavior).n =
      granted (r.capacity + r.cons.tail - r.prod.head) n behavior := by
  simp only [singleProducer]
  split <;> simp_all

theorem documented_singleProducer : singleProducer.Documented where
  n_le r isSp n behavior := by
    rw [singleProducer_n]
    exact granted_le.1
  n_le_free r isSp n behavior _ near := by
    have free : r.capacity + r.cons.tail - r.prod.head =
        r.capacity - (r.prod.head - r.cons.tail) := by grind
    rw [singleProducer_n, ← free]
    exact granted_le.2
  oldHead_eq r isSp n behavior _ := by
    simp only [singleProducer]
    split <;> rfl
  newHead_eq r isSp n behavior _ moved := by
    rw [singleProducer_n] at moved ⊢
    simp only [singleProducer, if_neg moved]
  ring_eq r isSp n behavior _ := by
    rw [singleProducer_n]
    simp only [singleProducer]
    split <;> simp_all
  updateTail_eq _ _ _ _ _ _ := rfl

/-- A ring of four slots of which three are used, its indexes two short of wrapping. -/
def nearWrap : RingWorld ℕ where
  ring := ⟨4, 3, 3, ⟨0xfffffffe, 0xfffffffe, 1⟩, ⟨0xfffffffe, 0xfffffffe, 1⟩⟩
  slots := fun _ => 0
  producer := .idle
  consumer := .idle
  accepted := []
  handed := []

theorem initial_nearWrap : nearWrap.Initial where
  shaped := ⟨⟨2, rfl⟩, rfl, by decide⟩
  single := by decide
  prodTail := rfl
  consHead := rfl
  consTail := rfl
  producer := rfl
  consumer := rfl
  accepted := rfl
  handed := rfl

/-- The producer fills the ring, and a block reads two of the three objects. -/
def wrapSteps : List (RingStep ℕ) :=
  [.reserve (fun i => i + 1) 3, .copyIn, .publish, .moveHead (fun _ => 0) 2, .copyOut]

/-- The block is left early, another one reads the rest, and the ring is still full. -/
def laterSteps : List (RingStep ℕ) :=
  [.abandon, .moveHead (fun _ => 0) 2, .copyOut, .reserve (fun i => i + 8) 1]

private theorem run_nearWrap : ∃ w v objTable,
    (ringSystem singleProducer ℕ).run nearWrap wrapSteps = some w ∧
    (ringSystem singleProducer ℕ).run w laterSteps = some v ∧
    w.consumer = .inBlock objTable 2 0xfffffffe 0 ∧ w.ring.mask = 3 ∧
    objTable 0 = 1 ∧ objTable 1 = 2 ∧
    v.handed = [[1, 2], [3]] ∧ v.accepted = [[1, 2, 3]] ∧
    (rteRingScDequeueBurst v.ring v.slots id 4 true).n = 0 :=
  ⟨_, _, _, rfl, rfl, rfl, rfl, rfl, rfl, rfl, rfl, rfl⟩

/-- The theorem at a run across the end of the slots and of the indexes. -/
theorem peekDequeue_fifo_nearWrap : ∃ w v,
    (ringSystem singleProducer ℕ).run nearWrap wrapSteps = some w ∧
    (ringSystem singleProducer ℕ).run w laterSteps = some v ∧
    v.handed = [[1, 2], [3]] ∧ v.handed.flatten <+: v.accepted.flatten ∧
    v.slots 2 = 1 ∧ v.slots 3 = 2 ∧
    (rteRingScDequeueBurst v.ring v.slots id 4 true).ring = v.ring := by
  obtain ⟨w, v, objTable, first, later, running, mask, one, two, handed, -, nothing⟩ := run_nearWrap
  obtain ⟨fifo, kept, unchanged, -⟩ := peekDequeue_fifo (α := ℕ) documented_singleProducer
  have reached : (ringSystem singleProducer ℕ).Reachable w :=
    ⟨nearWrap, wrapSteps, initial_nearWrap, first⟩
  have still := kept w laterSteps v objTable 2 _ _ reached running later (by simp [laterSteps])
  rw [mask] at still
  refine ⟨w, v, first, later, handed, fifo v (reached.run later), ?_, ?_,
    unchanged _ _ _ _ _ nothing⟩
  · exact (still 0 (by decide)).trans one
  · exact (still 1 (by decide)).trans two

end DpdkCr
