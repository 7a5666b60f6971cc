import DpdkCr.LoadBalancer.Pipeline
import DpdkCr.Ring.Fifo

/-!
# Bulk operations on rings

The load balancer enqueues and dequeues in bulk: all objects of a table, or none. Between
the operations of a single producer and a single consumer a ring holds a list, wherever its
indexes stand and however the list is laid over the end of the slots, and the operations do
to the list what the steps of the load balancer assume.

## Main definitions

* `RteRingBuild` — the functions of the DPDK build, with the one of the consumer
* `rteRingSpEnqueueBulk`, `rteRingScDequeueBulk` — the operations
* `RteRing.HoldsAt` — a ring at rest, and what it holds

## Main results

* `rteRingSpEnqueueBulk_holds`, `rteRingScDequeueBulk_holds` — the operations on lists
-/

namespace DpdkCr

open Circular RingWorld

/-- The functions that `rte_ring.c` includes, with
`__rte_ring_move_cons_head(r, is_sc, n, behavior, …)`. -/
structure RteRingBuild extends RteRingGeneric where
  moveConsHead : RteRing → UInt32 → UInt32 → RteRingQueueBehavior → ConsMove

/-- What a single producer and a single consumer rely on when they move by a fixed number of
objects. -/
structure RteRingBuild.Documented (build : RteRingBuild) : Prop extends
    build.toRteRingGeneric.Documented where
  prod_n : ∀ r n, r.prod.head - r.cons.tail ≤ r.capacity →
    (build.moveProdHead r 1 n .queueFixed).n =
      if n ≤ r.capacity - (r.prod.head - r.cons.tail) then n else 0
  cons_n : ∀ r n, (build.moveConsHead r 1 n .queueFixed).n =
    if n ≤ r.prod.tail - r.cons.head then n else 0
  cons_oldHead : ∀ r n, (build.moveConsHead r 1 n .queueFixed).oldHead = r.cons.head
  cons_newHead : ∀ r n, (build.moveConsHead r 1 n .queueFixed).n ≠ 0 →
    (build.moveConsHead r 1 n .queueFixed).newHead =
      r.cons.head + (build.moveConsHead r 1 n .queueFixed).n
  cons_ring : ∀ r n, (build.moveConsHead r 1 n .queueFixed).ring =
    { r with cons.head := r.cons.head + (build.moveConsHead r 1 n .queueFixed).n }

variable {α : Type*}

/-- What a dequeue leaves: its result, `*available`, the ring and the table. -/
structure BulkDequeued (α : Type*) where
  n : UInt32
  available : UInt32
  ring : RteRing
  objTable : ℕ → α

/-- `__rte_ring_do_dequeue`. -/
def rteRingDoDequeue (build : RteRingBuild) (r : RteRing) (slots objTable : ℕ → α) (n : UInt32)
    (behavior : RteRingQueueBehavior) (isSc : UInt32) : BulkDequeued α :=
  let move := build.moveConsHead r isSc n behavior
  if move.n = 0 then ⟨move.n, move.entries - move.n, move.ring, objTable⟩
  else
    let objTable := dequeuePtrs move.ring slots move.oldHead objTable move.n
    let cons := build.updateTail move.ring.cons move.oldHead move.newHead isSc 0
    ⟨move.n, move.entries - move.n, { move.ring with cons := cons }, objTable⟩

/-- `rte_ring_sp_enqueue_bulk`. -/
def rteRingSpEnqueueBulk (build : RteRingBuild) (r : RteRing) (slots objTable : ℕ → α)
    (n : UInt32) : Enqueued α :=
  rteRingDoEnqueue build.toRteRingGeneric r slots objTable n .queueFixed 1

/-- `rte_ring_sc_dequeue_bulk`. -/
def rteRingScDequeueBulk (build : RteRingBuild) (r : RteRing) (slots objTable : ℕ → α)
    (n : UInt32) : BulkDequeued α :=
  rteRingDoDequeue build r slots objTable n .queueFixed 1

/-- No operation is under way, and the ring holds the objects from position `c` of its life
on. -/
structure RteRing.HoldsAt (c : ℕ) (r : RteRing) (slots : ℕ → α) (objs : List α) : Prop where
  shaped : r.Shaped
  prodHead : r.prod.head = .ofNat (c + objs.length)
  prodTail : r.prod.tail = .ofNat (c + objs.length)
  consHead : r.cons.head = .ofNat c
  consTail : r.cons.tail = .ofNat c
  fits : objs.length ≤ r.capacity.toNat
  stored : ∀ i x, objs[i]? = some x → slots ((c + i) % r.size.toNat) = x

variable {build : RteRingBuild} {r : RteRing} {slots objTable : ℕ → α} {objs : List α} {c : ℕ}
variable {n : UInt32}

theorem RteRing.HoldsAt.toNat_used (holds : r.HoldsAt c slots objs) :
    (UInt32.ofNat (c + objs.length) - UInt32.ofNat c).toNat = objs.length := by
  have limit := r.capacity.toNat_lt
  have fits := holds.fits
  rw [toNat_ofNat_sub_ofNat (by omega) (by omega)]
  omega

theorem RteRing.HoldsAt.used_le (holds : r.HoldsAt c slots objs) :
    r.prod.head - r.cons.tail ≤ r.capacity := by
  rw [holds.prodHead, holds.consTail, UInt32.le_iff_toNat_le, holds.toNat_used]
  exact holds.fits

/-- There is room exactly for what the capacity leaves. -/
theorem RteRing.HoldsAt.room_iff (holds : r.HoldsAt c slots objs) (n : UInt32) :
    n ≤ r.capacity - (r.prod.head - r.cons.tail) ↔ objs.length + n.toNat ≤ r.capacity.toNat := by
  have fits := holds.fits
  rw [UInt32.le_iff_toNat_le, UInt32.toNat_sub_of_le _ _ holds.used_le, holds.prodHead,
    holds.consTail, holds.toNat_used]
  omega

theorem RteRing.HoldsAt.found_iff (holds : r.HoldsAt c slots objs) (n : UInt32) :
    n ≤ r.prod.tail - r.cons.head ↔ n.toNat ≤ objs.length := by
  rw [UInt32.le_iff_toNat_le, holds.prodTail, holds.consHead, holds.toNat_used]

/-- Nothing is enqueued without room. -/
theorem rteRingSpEnqueueBulk_of_full (documented : build.Documented) (slots objTable : ℕ → α)
    (moved : (build.moveProdHead r 1 n .queueFixed).n = 0) :
    (rteRingSpEnqueueBulk build r slots objTable n).n = 0 ∧
      (rteRingSpEnqueueBulk build r slots objTable n).ring = r ∧
      (rteRingSpEnqueueBulk build r slots objTable n).slots = slots := by
  have ring := documented.ring_eq r 1 n .queueFixed (by decide)
  rw [moved, UInt32.add_zero] at ring
  rw [rteRingSpEnqueueBulk, rteRingDoEnqueue]
  dsimp only
  rw [if_pos moved]
  exact ⟨moved, ring, rfl⟩

/-- With room, the objects are written and both indexes of the producer move past them. -/
theorem rteRingSpEnqueueBulk_of_room (documented : build.Documented) (slots objTable : ℕ → α)
    (some' : n ≠ 0) (moved : (build.moveProdHead r 1 n .queueFixed).n = n) :
    (rteRingSpEnqueueBulk build r slots objTable n).n = n ∧
      (rteRingSpEnqueueBulk build r slots objTable n).ring =
        { r with prod := { r.prod with head := r.prod.head + n, tail := r.prod.head + n } } ∧
      (rteRingSpEnqueueBulk build r slots objTable n).slots =
        enqueuePtrs { r with prod.head := r.prod.head + n } slots r.prod.head objTable n := by
  have ring := documented.ring_eq r 1 n .queueFixed (by decide)
  have oldHead := documented.oldHead_eq r 1 n .queueFixed (by decide)
  have newHead := documented.newHead_eq r 1 n .queueFixed (by decide)
    fun none' => some' (moved.symm.trans none')
  have tail := fun ht old new => documented.updateTail_eq ht old new 1 1 (by decide)
  rw [moved] at ring newHead
  rw [rteRingSpEnqueueBulk, rteRingDoEnqueue]
  dsimp only
  rw [moved, if_neg some', ring, oldHead, newHead, tail]
  exact ⟨rfl, rfl, rfl⟩

/-- Behind a list that is stored, a table can be written as long as both fit. -/
theorem stored_enqueuePtrs (shaped : r.Shaped)
    (stored : ∀ i x, objs[i]? = some x → slots ((c + i) % r.size.toNat) = x)
    (room : objs.length + n.toNat ≤ r.capacity.toNat) {i : ℕ} {x : α}
    (there : (objs ++ tableList objTable n)[i]? = some x) :
    enqueuePtrs r slots (.ofNat (c + objs.length)) objTable n ((c + i) % r.size.toNat) = x := by
  have fits : n ≤ r.capacity := UInt32.le_iff_toNat_le.mpr (by omega)
  have short := shaped.capacity_lt
  have write : Write slots (enqueuePtrs r slots (.ofNat (c + objs.length)) objTable n)
      r.size.toNat (c + objs.length) n.toNat objTable := enqueuePtrs_write shaped fits
  rcases Nat.lt_or_ge i objs.length with old | new
  · rw [List.getElem?_append_left old] at there
    rw [write.keeps (Nat.le_add_right c i) (by omega) (by omega)]
    exact stored i x there
  · rw [List.getElem?_append_right new] at there
    have inside : i - objs.length < n.toNat := by
      have bound := (List.getElem?_eq_some_iff.mp there).1
      rwa [length_tableList] at bound
    rw [getElem?_tableList inside, Option.some_inj] at there
    rw [show c + i = c + objs.length + (i - objs.length) by omega, write.written _ inside, there]

/-- A bulk enqueue puts the whole table behind what the ring holds, or leaves the ring and its
slots alone when there is no room for it. -/
theorem rteRingSpEnqueueBulk_holds (documented : build.Documented)
    (holds : r.HoldsAt c slots objs) (objTable : ℕ → α) (n : UInt32) :
    (rteRingSpEnqueueBulk build r slots objTable n).n.toNat =
        (LoadBalancer.rteRingSpEnqueueBulk (r.capacity.toNat + 1) objs (tableList objTable n)).1 ∧
      (rteRingSpEnqueueBulk build r slots objTable n).ring.HoldsAt c
        (rteRingSpEnqueueBulk build r slots objTable n).slots
        (LoadBalancer.rteRingSpEnqueueBulk (r.capacity.toNat + 1) objs
          (tableList objTable n)).2 ∧
      (r.capacity.toNat < objs.length + n.toNat →
        (rteRingSpEnqueueBulk build r slots objTable n).ring = r ∧
          (rteRingSpEnqueueBulk build r slots objTable n).slots = slots) := by
  have moved := documented.prod_n r n holds.used_le
  rw [LoadBalancer.rteRingSpEnqueueBulk, Nat.add_sub_cancel, length_tableList]
  by_cases room : objs.length + n.toNat ≤ r.capacity.toNat
  · rw [if_pos ((holds.room_iff n).mpr room)] at moved
    rw [if_pos room]
    by_cases none' : n = 0
    · obtain ⟨count, ring, same⟩ :=
        rteRingSpEnqueueBulk_of_full documented slots objTable (moved.trans none')
      rw [count, ring, same, none']
      exact ⟨rfl, by simpa [tableList] using holds, fun _ => ⟨rfl, rfl⟩⟩
    · obtain ⟨count, ring, written⟩ :=
        rteRingSpEnqueueBulk_of_room documented slots objTable none' moved
      rw [count, ring, written]
      refine ⟨rfl, ⟨⟨holds.shaped.1, holds.shaped.2, holds.shaped.3⟩, ?_, ?_, holds.consHead,
        holds.consTail, ?_, ?_⟩, fun full => absurd room full.not_ge⟩
      · rw [holds.prodHead, ofNat_add_eq, List.length_append, length_tableList, Nat.add_assoc]
      · rw [holds.prodHead, ofNat_add_eq, List.length_append, length_tableList, Nat.add_assoc]
      · rwa [List.length_append, length_tableList]
      · intro i x there
        rw [holds.prodHead]
        exact stored_enqueuePtrs ⟨holds.shaped.1, holds.shaped.2, holds.shaped.3⟩ holds.stored room
          there
  · rw [if_neg ((holds.room_iff n).not.mpr room)] at moved
    rw [if_neg room]
    obtain ⟨count, ring, same⟩ := rteRingSpEnqueueBulk_of_full documented slots objTable moved
    rw [count, ring, same]
    exact ⟨rfl, holds, fun _ => ⟨rfl, rfl⟩⟩

/-- Nothing is dequeued when there are not enough objects. -/
theorem rteRingScDequeueBulk_of_few (documented : build.Documented) (slots objTable : ℕ → α)
    (moved : (build.moveConsHead r 1 n .queueFixed).n = 0) :
    (rteRingScDequeueBulk build r slots objTable n).n = 0 ∧
      (rteRingScDequeueBulk build r slots objTable n).ring = r ∧
      (rteRingScDequeueBulk build r slots objTable n).objTable = objTable := by
  have ring := documented.cons_ring r n
  rw [moved, UInt32.add_zero] at ring
  rw [rteRingScDequeueBulk, rteRingDoDequeue]
  dsimp only
  rw [if_pos moved]
  exact ⟨moved, ring, rfl⟩

/-- With enough objects, they are read and both indexes of the consumer move past them. -/
theorem rteRingScDequeueBulk_of_found (documented : build.Documented) (slots objTable : ℕ → α)
    (some' : n ≠ 0) (moved : (build.moveConsHead r 1 n .queueFixed).n = n) :
    (rteRingScDequeueBulk build r slots objTable n).n = n ∧
      (rteRingScDequeueBulk build r slots objTable n).ring =
        { r with cons := { r.cons with head := r.cons.head + n, tail := r.cons.head + n } } ∧
      (rteRingScDequeueBulk build r slots objTable n).objTable =
        dequeuePtrs { r with cons.head := r.cons.head + n } slots r.cons.head objTable n := by
  have ring := documented.cons_ring r n
  have oldHead := documented.cons_oldHead r n
  have newHead := documented.cons_newHead r n fun none' => some' (moved.symm.trans none')
  have tail := fun ht old new => documented.updateTail_eq ht old new 1 0 (by decide)
  rw [moved] at ring newHead
  rw [rteRingScDequeueBulk, rteRingDoDequeue]
  dsimp only
  rw [moved, if_neg some', ring, oldHead, newHead, tail]
  exact ⟨rfl, rfl, rfl⟩

/-- What is read from the slots of a list is the front of the list. -/
theorem tableList_dequeuePtrs (shaped : r.Shaped)
    (stored : ∀ i x, objs[i]? = some x → slots ((c + i) % r.size.toNat) = x)
    (found : n.toNat ≤ objs.length) (fits : objs.length ≤ r.capacity.toNat) :
    tableList (dequeuePtrs r slots (.ofNat c) objTable n) n = objs.take n.toNat := by
  have few : n ≤ r.capacity := UInt32.le_iff_toNat_le.mpr (by omega)
  refine List.ext_getElem? fun i => ?_
  rcases Nat.lt_or_ge i n.toNat with inside | outside
  · have bound : i < objs.length := by omega
    rw [getElem?_tableList inside, dequeuePtrs_apply shaped few inside,
      stored i _ (List.getElem?_eq_getElem bound), List.getElem?_take_of_lt inside,
      List.getElem?_eq_getElem bound]
  · rw [List.getElem?_eq_none (by rwa [length_tableList]),
      List.getElem?_eq_none (by rw [List.length_take]; omega)]

/-- A bulk dequeue takes as many objects as asked for from the front of what the ring holds,
or leaves the ring and the table alone when there are fewer. -/
theorem rteRingScDequeueBulk_holds (documented : build.Documented)
    (holds : r.HoldsAt c slots objs) (objTable : ℕ → α) (n : UInt32) :
    tableList (rteRingScDequeueBulk build r slots objTable n).objTable
        (rteRingScDequeueBulk build r slots objTable n).n =
          (LoadBalancer.rteRingScDequeueBulk objs n.toNat).1 ∧
      (rteRingScDequeueBulk build r slots objTable n).ring.HoldsAt
        (c + (rteRingScDequeueBulk build r slots objTable n).n.toNat) slots
        (LoadBalancer.rteRingScDequeueBulk objs n.toNat).2 ∧
      (objs.length < n.toNat →
        (rteRingScDequeueBulk build r slots objTable n).ring = r ∧
          (rteRingScDequeueBulk build r slots objTable n).objTable = objTable) := by
  have moved := documented.cons_n r n
  rw [LoadBalancer.rteRingScDequeueBulk]
  by_cases found : n.toNat ≤ objs.length
  · rw [if_pos ((holds.found_iff n).mpr found)] at moved
    rw [if_pos found]
    by_cases none' : n = 0
    · obtain ⟨count, ring, same⟩ :=
        rteRingScDequeueBulk_of_few documented slots objTable (moved.trans none')
      rw [count, ring, same, none']
      exact ⟨rfl, by simpa using holds, fun _ => ⟨rfl, rfl⟩⟩
    · obtain ⟨count, ring, read⟩ :=
        rteRingScDequeueBulk_of_found documented slots objTable none' moved
      have fits := holds.fits
      have shaped (cons : RteRingHeadtail) : RteRing.Shaped { r with cons := cons } :=
        ⟨holds.shaped.1, holds.shaped.2, holds.shaped.3⟩
      rw [count, ring, read, holds.consHead]
      refine ⟨?_, ⟨shaped _, ?_, ?_, ofNat_add_eq, ofNat_add_eq, ?_, ?_⟩,
        fun few => absurd found few.not_ge⟩
      · exact tableList_dequeuePtrs (shaped _) holds.stored found fits
      · rw [holds.prodHead, List.length_drop]
        congr 1
        omega
      · rw [holds.prodTail, List.length_drop]
        congr 1
        omega
      · rw [List.length_drop]
        exact (Nat.sub_le _ _).trans fits
      · intro i x there
        rw [List.getElem?_drop] at there
        rw [Nat.add_assoc]
        exact holds.stored _ x there
  · rw [if_neg ((holds.found_iff n).not.mpr found)] at moved
    rw [if_neg found]
    obtain ⟨count, ring, same⟩ := rteRingScDequeueBulk_of_few documented slots objTable moved
    rw [count, ring, same]
    exact ⟨rfl, holds, fun _ => ⟨rfl, rfl⟩⟩

/-! ### A build -/

/-- The head movements and the tail update of a single producer and a single consumer. -/
def singleBuild : RteRingBuild where
  toRteRingGeneric := singleProducer
  moveConsHead r _ n behavior :=
    let oldHead := r.cons.head
    let entries := r.prod.tail - oldHead
    let n := granted entries n behavior
    if n = 0 then ⟨0, oldHead, 0, entries, r⟩
    else ⟨n, oldHead, oldHead + n, entries, { r with cons.head := oldHead + n }⟩

theorem singleBuild_n (r : RteRing) (n : UInt32) :
    (singleBuild.moveConsHead r 1 n .queueFixed).n =
      granted (r.prod.tail - r.cons.head) n .queueFixed := by
  simp only [singleBuild]
  split <;> simp_all

theorem granted_fixed (entries n : UInt32) :
    granted entries n .queueFixed = if n ≤ entries then n else 0 := by
  rw [granted]
  by_cases more : n > entries
  · rw [if_pos more, if_neg (UInt32.not_le.mpr more)]
  · rw [if_neg more, if_pos (UInt32.not_lt.mp more)]

theorem documented_singleBuild : singleBuild.Documented where
  toDocumented := documented_singleProducer
  prod_n r n _ := by
    have free : r.capacity + r.cons.tail - r.prod.head =
        r.capacity - (r.prod.head - r.cons.tail) := by grind
    exact (singleProducer_n r 1 n .queueFixed).trans (free ▸ granted_fixed _ _)
  cons_n r n := (singleBuild_n r n).trans (granted_fixed _ _)
  cons_oldHead r n := by
    simp only [singleBuild]
    split <;> rfl
  cons_newHead r n moved := by
    rw [singleBuild_n] at moved ⊢
    simp only [singleBuild, if_neg moved]
  cons_ring r n := by
    rw [singleBuild_n]
    simp only [singleBuild]
    split <;> simp_all

/-- Two objects before the end of the slots and of the indexes. -/
def beforeWrap : RteRing := ⟨4, 3, 3, ⟨0, 0, 1⟩, ⟨0xfffffffe, 0xfffffffe, 1⟩⟩

theorem holdsAt_beforeWrap : beforeWrap.HoldsAt 0xfffffffe (fun i => i + 5) [7, 8] where
  shaped := ⟨⟨2, rfl⟩, rfl, by decide⟩
  prodHead := rfl
  prodTail := rfl
  consHead := rfl
  consTail := rfl
  fits := by decide
  stored i x there := by
    rcases i with _ | _ | i
    · exact Option.some_inj.mp there
    · exact Option.some_inj.mp there
    · simp at there

theorem rteRingSpEnqueueBulk_holds_beforeWrap :
    ((rteRingSpEnqueueBulk singleBuild beforeWrap (fun i => i + 5) (fun _ => 9) 1).n.toNat = 1 ∧
      (rteRingSpEnqueueBulk singleBuild beforeWrap (fun i => i + 5) (fun _ => 9) 1).ring.HoldsAt
        0xfffffffe
        (rteRingSpEnqueueBulk singleBuild beforeWrap (fun i => i + 5) (fun _ => 9) 1).slots
        [7, 8, 9]) ∧
    (rteRingSpEnqueueBulk singleBuild beforeWrap (fun i => i + 5) (fun _ => 9) 2).n.toNat = 0 ∧
      (rteRingSpEnqueueBulk singleBuild beforeWrap (fun i => i + 5) (fun _ => 9) 2).ring =
        beforeWrap :=
  have one := rteRingSpEnqueueBulk_holds documented_singleBuild holdsAt_beforeWrap (fun _ => 9) 1
  have two := rteRingSpEnqueueBulk_holds documented_singleBuild holdsAt_beforeWrap (fun _ => 9) 2
  ⟨⟨one.1, one.2.1⟩, two.1, (two.2.2 (by decide)).1⟩

theorem rteRingScDequeueBulk_holds_beforeWrap :
    (tableList (rteRingScDequeueBulk singleBuild beforeWrap (fun i => i + 5)
        (fun _ => 0) 2).objTable 2 = [7, 8] ∧
      (rteRingScDequeueBulk singleBuild beforeWrap (fun i => i + 5) (fun _ => 0) 2).ring.HoldsAt
        0x100000000 (fun i => i + 5) []) ∧
    (rteRingScDequeueBulk singleBuild beforeWrap (fun i => i + 5) (fun _ => 0) 3).ring =
      beforeWrap :=
  have two := rteRingScDequeueBulk_holds documented_singleBuild holdsAt_beforeWrap (fun _ => 0) 2
  have three := rteRingScDequeueBulk_holds documented_singleBuild holdsAt_beforeWrap (fun _ => 0) 3
  ⟨⟨two.1, two.2.1⟩, (three.2.2 (by decide)).1⟩

end DpdkCr
