import DpdkCr.Port.TxBuffer

/-!
# The transmit buffer is a batch

Each call either keeps the packet it passes in or flushes everything that waits,
so the memory-level buffer simulates a batch whose pending elements are
`pkts[0...length]`. The accounting of packets is the batch's; what remains to be
shown of the code is that its byte offsets address what they mean to.

## Main results

* `TxEffect.of_result` — what one call does
* `txBufferSimulation` — calls simulate a batch
* `txBuffer_conserves` — packets are conserved, in order, and counted
-/

namespace DpdkCr

open Semantics

namespace Flush

/-- What the driver took. -/
def accepted (flush : Flush) : List MbufPtr := flush.offered.take flush.sent.toNat

/-- What the error callback was handed. -/
def refused (flush : Flush) : List MbufPtr := (flush.error.map ErrorCall.packets).getD []

/-- The callback is called on the unsent suffix, and only if there is one. -/
structure Exact (flush : Flush) : Prop where
  sent_le : flush.sent.toNat ≤ flush.offered.length
  refused_eq : flush.refused = flush.offered.drop flush.sent.toNat
  error_eq_none : flush.error = none ↔ flush.sent.toNat = flush.offered.length

end Flush

section Pointers

variable {buffer other : Memory} {offset m n : ℕ}

@[simp] theorem length_packetPtrs : (packetPtrs buffer offset n).length = n := by
  rw [packetPtrs, List.length_map, List.length_range]

theorem packetPtrs_congr
    (same : ∀ i < n, buffer.u64 (offset + 8 * i) = other.u64 (offset + 8 * i)) :
    packetPtrs buffer offset n = packetPtrs other offset n :=
  List.map_congr_left fun i member => same i (List.mem_range.mp member)

theorem packetPtrs_succ :
    packetPtrs buffer offset (n + 1) =
      packetPtrs buffer offset n ++ [buffer.u64 (offset + 8 * n)] := by
  rw [packetPtrs, List.range_succ, List.map_append, List.map_singleton, packetPtrs]

/-- Advancing the array pointer drops packets from the front. -/
theorem packetPtrs_drop :
    packetPtrs buffer (offset + 8 * m) (n - m) = (packetPtrs buffer offset n).drop m := by
  apply List.ext_getElem (by simp)
  intro i _ _
  simp only [packetPtrs, List.getElem_map, List.getElem_range, List.getElem_drop]
  congr 1
  omega

end Pointers

/-- The length field is disjoint from the array. -/
theorem packetPtrs_setLength {buffer : Memory} {value : UInt16} {n : ℕ} :
    packetPtrs (buffer.setU16 18 value) 24 n = packetPtrs buffer 24 n :=
  packetPtrs_congr fun _ _ => Memory.u64_setU16_disjoint (Or.inr (by omega))

/-- What a call leaves, given everything that waits once it has passed its packet
in: all of it still waits, or all of it was offered. -/
inductive TxEffect (size : ℕ) (waiting : List MbufPtr) : TxBuffered → Prop
  | kept (buffer : Memory) (below : waiting.length < size)
      (length : (buffer.u16 18).toNat = waiting.length)
      (holds : packetPtrs buffer 24 waiting.length = waiting) :
      TxEffect size waiting ⟨buffer, none, 0⟩
  | flushed (buffer : Memory) (flush : Flush) (offered : flush.offered = waiting)
      (exact : flush.Exact) (length : (buffer.u16 18).toNat = 0) :
      TxEffect size waiting ⟨buffer, some flush, flush.sent⟩

namespace TxEffect

variable {buffer : Memory} {sent : UInt16} {txPkt : MbufPtr}

/-- A flush of waiting packets offers them all, and refuses what was not sent. -/
theorem rteEthTxBufferFlush_of_pos (waiting : buffer.u16 18 ≠ 0) (allowed : sent ≤ buffer.u16 18) :
    rteEthTxBufferFlush buffer sent =
      let offered := packetPtrs buffer 24 (buffer.u16 18).toNat
      ⟨buffer.setU16 18 0,
        some ⟨offered, sent, if sent ≠ buffer.u16 18 then some ⟨offered.drop sent.toNat, 8⟩
          else none⟩, sent⟩ := by
  -- the length is reset before the callback reads the array, which it does not touch
  simp only [rteEthTxBufferFlush, if_neg waiting]
  rw [UInt16.toNat_sub_of_le _ _ allowed, packetPtrs_drop, packetPtrs_setLength]

theorem of_flush (positive : 0 < (buffer.u16 16).toNat)
    (allowed : ∀ flush ∈ (rteEthTxBufferFlush buffer sent).flush,
      flush.sent.toNat ≤ flush.offered.length) :
    TxEffect (buffer.u16 16).toNat (packetPtrs buffer 24 (buffer.u16 18).toNat)
      (rteEthTxBufferFlush buffer sent) := by
  by_cases empty : buffer.u16 18 = 0
  · have result : rteEthTxBufferFlush buffer sent = ⟨buffer, none, 0⟩ := if_pos empty
    rw [result, empty]
    exact kept buffer positive (by rw [empty]; rfl) rfl
  -- the driver takes no more than it is offered, so `to_send - sent` does not wrap
  · have within : sent.toNat ≤ (packetPtrs buffer 24 (buffer.u16 18).toNat).length :=
      allowed ⟨_, sent, _⟩ (by simp only [rteEthTxBufferFlush, if_neg empty]; rfl)
    rw [length_packetPtrs] at within
    rw [rteEthTxBufferFlush_of_pos empty (UInt16.le_iff_toNat_le.mpr within)]
    refine flushed _ _ rfl ⟨?_, ?_, ?_⟩ (by rw [Memory.u16_setU16_self]; rfl)
    · rwa [length_packetPtrs]
    · by_cases all : sent = buffer.u16 18
      · simp [Flush.refused, all]
      · simp [Flush.refused, all]
    · simp [← UInt16.toNat_inj]

/-- The two stores of `rte_eth_tx_buffer`. -/
def stored (buffer : Memory) (txPkt : MbufPtr) : Memory :=
  (buffer.setU64 (24 + 8 * (buffer.u16 18).toNat) txPkt).setU16 18 (buffer.u16 18 + 1)

theorem rteEthTxBuffer_eq :
    rteEthTxBuffer buffer txPkt sent =
      if (stored buffer txPkt).u16 18 < (stored buffer txPkt).u16 16 then
        ⟨stored buffer txPkt, none, 0⟩
      else rteEthTxBufferFlush (stored buffer txPkt) sent := by
  have length : (buffer.setU64 (24 + 8 * (buffer.u16 18).toNat) txPkt).u16 18 = buffer.u16 18 :=
    Memory.u16_setU64_disjoint (Or.inl (by omega))
  simp only [rteEthTxBuffer, length]
  rfl

theorem stored_size : (stored buffer txPkt).u16 16 = buffer.u16 16 := by
  rw [stored, Memory.u16_setU16_disjoint (Or.inl (by omega)),
    Memory.u16_setU64_disjoint (Or.inl (by omega))]

theorem stored_length (below : (buffer.u16 18).toNat < (buffer.u16 16).toNat) :
    ((stored buffer txPkt).u16 18).toNat = (buffer.u16 18).toNat + 1 := by
  have limit := (buffer.u16 16).toNat_lt
  rw [stored, Memory.u16_setU16_self, UInt16.toNat_add, UInt16.toNat_one]
  exact Nat.mod_eq_of_lt (by omega)

theorem packetPtrs_stored :
    packetPtrs (stored buffer txPkt) 24 ((buffer.u16 18).toNat + 1) =
      packetPtrs buffer 24 (buffer.u16 18).toNat ++ [txPkt] := by
  have before : packetPtrs (buffer.setU64 (24 + 8 * (buffer.u16 18).toNat) txPkt) 24
      (buffer.u16 18).toNat = packetPtrs buffer 24 (buffer.u16 18).toNat :=
    packetPtrs_congr fun i inside => Memory.u64_setU64_disjoint (Or.inl (by omega))
  rw [stored, packetPtrs_setLength, packetPtrs_succ, Memory.u64_setU64_self, before]

theorem of_buffer (below : (buffer.u16 18).toNat < (buffer.u16 16).toNat)
    (allowed : ∀ flush ∈ (rteEthTxBuffer buffer txPkt sent).flush,
      flush.sent.toNat ≤ flush.offered.length) :
    TxEffect (buffer.u16 16).toNat (packetPtrs buffer 24 (buffer.u16 18).toNat ++ [txPkt])
      (rteEthTxBuffer buffer txPkt sent) := by
  rw [rteEthTxBuffer_eq] at allowed ⊢
  by_cases room : (stored buffer txPkt).u16 18 < (stored buffer txPkt).u16 16
  · rw [if_pos room]
    rw [UInt16.lt_iff_toNat_lt, stored_size, stored_length below] at room
    have count : (packetPtrs buffer 24 (buffer.u16 18).toNat ++ [txPkt]).length =
        (buffer.u16 18).toNat + 1 := by
      rw [List.length_append, length_packetPtrs, List.length_singleton]
    refine kept _ ?_ ?_ ?_ <;> rw [count]
    · exact room
    · exact stored_length below
    · exact packetPtrs_stored
  · rw [if_neg room] at allowed ⊢
    have effect := of_flush (by rw [stored_size]; omega) allowed
    rwa [stored_size, stored_length below, packetPtrs_stored] at effect

theorem of_result {w : TxWorld} {call : TxCall} (below : w.length < w.size)
    (allowed : ∀ flush ∈ (call.result w.buffer).flush,
      flush.sent.toNat ≤ flush.offered.length) :
    TxEffect w.size (w.buffered ++ call.packet) (call.result w.buffer) := by
  cases call with
  | buffer txPkt sent => exact of_buffer below allowed
  | flush sent =>
      rw [TxCall.packet, List.append_nil]
      exact of_flush (Nat.zero_lt_of_lt below) allowed

end TxEffect

/-! ### What a call writes -/

section Frame

variable {buffer : Memory} {sent : UInt16} {txPkt : MbufPtr} {i : ℕ}

theorem rteEthTxBufferFlush_outside (field : i < 18 ∨ 20 ≤ i) :
    (rteEthTxBufferFlush buffer sent).buffer i = buffer i := by
  rw [rteEthTxBufferFlush]
  split
  · rfl
  · exact Memory.setU16_outside field

/-- A call writes the length and the array below the size, and nothing else. -/
theorem TxCall.result_outside {call : TxCall}
    (below : (buffer.u16 18).toNat < (buffer.u16 16).toNat) (field : i < 18 ∨ 20 ≤ i)
    (array : i < 24 ∨ 24 + 8 * (buffer.u16 16).toNat ≤ i) :
    (call.result buffer).buffer i = buffer i := by
  cases call with
  | flush sent => exact rteEthTxBufferFlush_outside field
  | buffer txPkt sent =>
      have stores : TxEffect.stored buffer txPkt i = buffer i := by
        rw [TxEffect.stored, Memory.setU16_outside field, Memory.setU64_outside (by omega)]
      rw [TxCall.result, TxEffect.rteEthTxBuffer_eq]
      split
      · exact stores
      · rw [rteEthTxBufferFlush_outside field, stores]

end Frame

namespace TxWorld

variable {w v : TxWorld} {call : TxCall}

theorem exec_eq_some (executed : w.exec call = some v) :
    (∀ flush ∈ (call.result w.buffer).flush, flush.sent.toNat ≤ flush.offered.length) ∧
      v = w.after call (call.result w.buffer) := by
  rw [exec] at executed
  simp only [Option.ite_none_right_eq_some, Option.some_inj] at executed
  exact ⟨executed.1, executed.2.symm⟩

theorem size_after (call : TxCall) (below : w.length < w.size) :
    (w.after call (call.result w.buffer)).size = w.size := by
  rw [size, size, after]
  apply congrArg UInt16.toNat
  apply Memory.u16_congr
  intro i inside
  exact TxCall.result_outside below (Or.inl (by omega)) (Or.inl (by omega))

/-- A batch that a buffer and its history stand for. -/
structure Abstracts (w : TxWorld) (b : Batch MbufPtr) : Prop where
  size : b.size = w.size
  passed : b.passed = w.passed
  outcomes : b.outcomes = w.flushes.map fun f => ⟨f.accepted, f.refused⟩
  pending : b.pending = w.buffered
  exact : ∀ f ∈ w.flushes, f.Exact
  counted : (w.returned.map UInt16.toNat).sum = (w.flushes.map fun f => f.sent.toNat).sum

theorem Abstracts.below {b : Batch MbufPtr} (abstracts : w.Abstracts b) : w.length < w.size := by
  have := b.below
  rwa [abstracts.size, abstracts.pending, buffered, length_packetPtrs] at this

end TxWorld

/-- **The buffer simulates a batch**: a call keeps the packet, offers everything, or
flushes nothing. -/
def txBufferSimulation : System.Simulation txBufferSystem (Batch.system (α := MbufPtr)) where
  Rel := TxWorld.Abstracts
  init w := by
    rintro ⟨positive, empty, passed, flushes, returned⟩
    refine ⟨Batch.empty w.size positive, ⟨rfl, rfl⟩, rfl, passed.symm, ?_, ?_, ?_, ?_⟩
    · rw [flushes]
      rfl
    · rw [TxWorld.buffered, empty]
      rfl
    · simp [flushes]
    · rw [flushes, returned]
      rfl
  step w call v b abstracts executed := by
    obtain ⟨allowed, rfl⟩ := TxWorld.exec_eq_some executed
    have below := abstracts.below
    have size := TxWorld.size_after call below
    have effect := TxEffect.of_result below allowed
    generalize call.result w.buffer = result at effect size
    cases effect with
    | kept buffer room length holds =>
        have buffered : packetPtrs buffer 24 (buffer.u16 18).toNat =
            w.buffered ++ call.packet := by
          rw [length, holds]
        have sum : ((w.returned ++ [0]).map UInt16.toNat).sum =
            (w.flushes.map fun f => f.sent.toNat).sum := by
          rw [List.map_append, List.sum_append, abstracts.counted]
          rfl
        cases call with
        | flush sent =>
            -- nothing waits and nothing is passed in: the batch stays as it is
            refine ⟨[], b, rfl, abstracts.size.trans size.symm, ?_, ?_, ?_, ?_, ?_⟩
            · rw [abstracts.passed, TxWorld.after, TxCall.packet, List.append_nil]
            · rw [abstracts.outcomes, TxWorld.after, Option.toList_none, List.append_nil]
            · rw [abstracts.pending]
              exact (buffered.trans (List.append_nil _)).symm
            · simpa [TxWorld.after] using abstracts.exact
            · simpa [TxWorld.after] using sum
        | buffer txPkt sent =>
            -- the packet waits only if one more would still fit
            have room' : b.pending.length + 1 < b.size := by
              rw [abstracts.pending, abstracts.size]
              rwa [List.length_append] at room
            refine ⟨[.keep txPkt], b.keep txPkt room', ?_, abstracts.size.trans size.symm,
              ?_, ?_, ?_, ?_, ?_⟩
            · rw [System.run, Batch.exec_keep room']
              rfl
            · exact congrArg (· ++ [txPkt]) abstracts.passed
            · rw [TxWorld.after, Option.toList_none, List.append_nil]
              exact abstracts.outcomes
            · exact (congrArg (· ++ [txPkt]) abstracts.pending).trans buffered.symm
            · simpa [TxWorld.after] using abstracts.exact
            · simpa [TxWorld.after] using sum
    | flushed buffer flush offered exact length =>
        -- whatever the driver leaves goes to the callback, so nothing waits any more
        refine ⟨[.offer call.packet flush.sent.toNat], b.offer call.packet flush.sent.toNat, rfl,
          abstracts.size.trans size.symm, ?_, ?_, ?_, ?_, ?_⟩
        · exact congrArg (· ++ call.packet) abstracts.passed
        · rw [TxWorld.after, Option.toList_some, List.map_append, ← abstracts.outcomes,
            List.map_singleton, exact.refused_eq, Flush.accepted, offered, ← abstracts.pending]
          rfl
        · rw [TxWorld.buffered, TxWorld.length, TxWorld.after, length]
          rfl
        · intro f member
          rw [TxWorld.after, Option.toList_some, List.mem_append, List.mem_singleton] at member
          rcases member with old | rfl
          · exact abstracts.exact f old
          · exact exact
        · simp [TxWorld.after, abstracts.counted]

/-- **Buffered packets are conserved.** In every state that calls lead to, the
buffer has room for one more packet; the packets passed in are, in order, those
that the driver took, those that the callback was handed, and those that wait;
each flush handed the callback the unsent suffix, if any, and offered everything
that waited; and the values returned count the packets taken. No call writes
outside the length field and the array. -/
theorem txBuffer_conserves {w : TxWorld} (reached : txBufferSystem.Reachable w) :
    w.length < w.size ∧
    w.passed = (w.flushes.flatMap fun f => f.accepted ++ f.refused) ++ w.buffered ∧
    (∀ f ∈ w.flushes, f.Exact) ∧
    (w.returned.map UInt16.toNat).sum = (w.flushes.flatMap Flush.accepted).length ∧
    ∀ call v, txBufferSystem.exec w call = some v →
      (∀ f, v.flushes = w.flushes ++ [f] → f.offered = w.buffered ++ call.packet) ∧
      ∀ i, (i < 18 ∨ 20 ≤ i) → (i < 24 ∨ 24 + 8 * w.size ≤ i) → v.buffer i = w.buffer i := by
  obtain ⟨b, -, abstracts⟩ := txBufferSimulation.reachable reached
  have below := abstracts.below
  refine ⟨below, ?_, abstracts.exact, ?_, ?_⟩
  · have conserved := b.conserved
    rwa [abstracts.passed, abstracts.outcomes, abstracts.pending, List.flatMap_map] at conserved
  · rw [abstracts.counted, List.length_flatMap]
    apply congrArg List.sum
    apply List.map_congr_left
    intro f member
    rw [Flush.accepted, List.length_take, Nat.min_eq_left (abstracts.exact f member).sent_le]
  · intro call v executed
    obtain ⟨allowed, rfl⟩ := TxWorld.exec_eq_some executed
    constructor
    · intro f added
      have effect := TxEffect.of_result below allowed
      have flush : (call.result w.buffer).flush.toList = [f] := List.append_cancel_left added
      generalize call.result w.buffer = result at effect flush
      cases effect with
      | kept => simp at flush
      | flushed _ g offered =>
          rw [Option.toList_some, List.singleton_inj] at flush
          exact flush ▸ offered
    · intro i field array
      exact TxCall.result_outside below field array

/-- A buffer for two packets, empty. -/
def twoPackets : TxWorld := ⟨fun i => if i = 16 then 2 else 0, [], [], []⟩

/-- The second packet fills the buffer and the driver refuses it; the third one is
flushed by hand. -/
def threeCalls : List TxCall := [.buffer 7 0, .buffer 8 1, .buffer 9 0, .flush 1]

theorem txBuffer_conserves_twoPackets : ∃ w, txBufferSystem.run twoPackets threeCalls = some w ∧
    w.flushes = [⟨[7, 8], 1, some ⟨[8], 8⟩⟩, ⟨[9], 1, none⟩] ∧ w.length < w.size ∧
    w.passed = (w.flushes.flatMap fun f => f.accepted ++ f.refused) ++ w.buffered := by
  obtain ⟨w, executed, flushes⟩ : ∃ w, txBufferSystem.run twoPackets threeCalls = some w ∧
      w.flushes = [⟨[7, 8], 1, some ⟨[8], 8⟩⟩, ⟨[9], 1, none⟩] := ⟨_, rfl, rfl⟩
  have reached : txBufferSystem.Reachable w :=
    ⟨twoPackets, threeCalls, ⟨by decide, rfl, rfl, rfl, rfl⟩, executed⟩
  obtain ⟨below, conserved, -⟩ := txBuffer_conserves reached
  exact ⟨w, executed, flushes, below, conserved⟩

end DpdkCr
