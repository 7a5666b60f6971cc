import DpdkCr.Mbuf.Layout
import Mathlib.Logic.Function.Basic

/-!
# Copies of packets

`rte_pktmbuf_copy` allocates one buffer and copies as many bytes as the packet has from
where the data of the first segment begins. A packet can have further segments, which
are chained to the first and hold the rest of its bytes.

## Main definitions

* `rtePktmbufCopy` — the macro, with the addresses that it reads
* `SegmentChain` — the segments of a packet
* `CopiesWhole` — a copy of the packet in one segment

## Main results

* `rtePktmbufCopy_whole_iff` — when exactly the packet is copied
-/

namespace DpdkCr

variable {α : Type*} [DecidableEq α]

/-! ### The macro -/

/-- Change the buffer that a pointer points to. -/
def modifyMbuf (heap : α → RteMbuf α) (m : α) (change : RteMbuf α → RteMbuf α) : α → RteMbuf α :=
  Function.update heap m (change (heap m))

/-- The macro `rte_pktmbuf_alloc`, when the pool has a buffer to give. -/
def rtePktmbufAlloc (heap : α → RteMbuf α) (given : Option α) : Option (α × (α → RteMbuf α)) :=
  given.map fun m => (m, modifyMbuf heap m RteMbuf.alloc)

/-- The addresses of the bytes from `rte_pktmbuf_mtod` on: a buffer and an offset in it. -/
def dataAddresses (heap : α → RteMbuf α) (m : α) (n : ℕ) : List (α × ℕ) :=
  (List.range n).map fun i => (m, (heap m).dataOff.toNat + i)

/-- What `rte_pktmbuf_copy` leaves and returns, and what its `memcpy` has read. -/
structure Copied (α : Type*) where
  heap : α → RteMbuf α
  mbuf : α
  reads : List (α × ℕ)

/-- `rte_pktmbuf_copy`. Without a buffer it fails. -/
def rtePktmbufCopy (heap : α → RteMbuf α) (mbufOld : α) (given : Option α) : Option (Copied α) :=
  (rtePktmbufAlloc heap given).map fun (mbuf, heap) =>
    let n := (heap mbufOld).pktLen.toNat
    let reads := dataAddresses heap mbufOld n
    let bytes := (heap mbufOld).buf.bytes (heap mbufOld).dataOff.toNat n
    let heap := modifyMbuf heap mbuf fun m => m.writeData bytes
    let heap := modifyMbuf heap mbuf fun m => { m with pktLen := (heap mbufOld).pktLen }
    let heap := modifyMbuf heap mbuf fun m => { m with dataLen := (heap mbufOld).dataLen }
    let heap := modifyMbuf heap mbuf fun m => { m with packetType := (heap mbufOld).packetType }
    ⟨heap, mbuf, reads⟩

/-! ### Packets of several segments -/

/-- The buffers that are chained from a first one on. -/
inductive SegmentChain (heap : α → RteMbuf α) : α → List α → Prop
  | last {m : α} (ends : (heap m).next = none) : SegmentChain heap m [m]
  | cons {m n : α} {rest : List α} (linked : (heap m).next = some n)
      (chain : SegmentChain heap n rest) : SegmentChain heap m (m :: rest)

/-- The copy is the packet, in one segment; nothing but its data is read, and it is left
as it was. -/
structure CopiesWhole (heap : α → RteMbuf α) (mbufOld : α) (segments : List α)
    (copied : Copied α) : Prop where
  nbSegs : (copied.heap copied.mbuf).nbSegs = 1
  next : (copied.heap copied.mbuf).next = none
  pktLen : (copied.heap copied.mbuf).pktLen = (heap mbufOld).pktLen
  dataLen : (copied.heap copied.mbuf).dataLen.toNat = (heap mbufOld).pktLen.toNat
  bytes : (copied.heap copied.mbuf).packet.bytes =
    segments.flatMap fun m => (heap m).packet.bytes
  reads : ∀ address ∈ copied.reads,
    ∃ m ∈ segments, address ∈ dataAddresses heap m (heap m).dataLen.toNat
  unchanged : ∀ m ∈ segments, copied.heap m = heap m

section Copy

variable {heap : α → RteMbuf α} {mbufOld mbuf : α} {segments : List α}

omit [DecidableEq α] in
theorem SegmentChain.eq_cons (chain : SegmentChain heap mbufOld segments) :
    ∃ rest, segments = mbufOld :: rest := by
  cases chain with
  | last => exact ⟨[], rfl⟩
  | cons => exact ⟨_, rfl⟩

/-- The buffer that is returned. -/
def copyOf (old new : RteMbuf α) : RteMbuf α :=
  { new.alloc.writeData (old.buf.bytes old.dataOff.toNat old.pktLen.toNat) with
    pktLen := old.pktLen
    dataLen := old.dataLen
    packetType := old.packetType }

/-- Only the new buffer is written, and only the old one is read. -/
theorem rtePktmbufCopy_some (heap : α → RteMbuf α) (other : mbufOld ≠ mbuf) :
    ∃ copied, rtePktmbufCopy heap mbufOld (some mbuf) = some copied ∧
      copied.heap copied.mbuf = copyOf (heap mbufOld) (heap mbuf) ∧
      (∀ m ≠ mbuf, copied.heap m = heap m) ∧
      copied.reads = dataAddresses heap mbufOld (heap mbufOld).pktLen.toNat := by
  refine ⟨⟨Function.update heap mbuf (copyOf (heap mbufOld) (heap mbuf)), mbuf, _⟩, ?_,
    Function.update_self .., fun m unwritten => Function.update_of_ne unwritten .., rfl⟩
  simp only [rtePktmbufCopy, rtePktmbufAlloc, modifyMbuf, Option.map_some, Function.update_idem,
    Function.update_self, Function.update_of_ne other, dataAddresses]
  rfl

omit [DecidableEq α] in
/-- What is read back of the new buffer is what was written to it. -/
theorem packet_copyOf {old new : RteMbuf α} (length : old.dataLen.toNat = old.pktLen.toNat) :
    (copyOf old new).packet.bytes = old.packet.bytes := by
  have written := Memory.bytes_writeBytes (m := new.alloc.buf) (a := new.alloc.dataOff.toNat)
    (old.buf.bytes old.dataOff.toNat old.dataLen.toNat)
  rw [Memory.length_bytes] at written
  rw [RteMbuf.packet, RteMbuf.packet, copyOf, ← length]
  exact written

omit [DecidableEq α] in
theorem sum_dataLen_eq_zero_iff :
    (segments.map fun m => (heap m).dataLen.toNat).sum = 0 ↔
      ∀ m ∈ segments, (heap m).dataLen = 0 := by
  rw [List.sum_eq_zero_iff_forall_eq_nat, List.forall_mem_map]
  exact forall₂_congr fun m _ => UInt16.toNat_inj (b := 0)

omit [DecidableEq α] in
/-- Empty segments have no bytes. -/
theorem flatMap_bytes_of_empty (empty : ∀ m ∈ segments, (heap m).dataLen = 0) :
    (segments.flatMap fun m => (heap m).packet.bytes) = [] := by
  rw [List.flatMap_eq_nil_iff]
  intro m member
  rw [RteMbuf.packet, empty m member]
  rfl

/-- **A packet is copied as far as its first segment goes.** With the lengths of the
segments adding up to that of the packet, the copy is whole if and only if every segment
but the first is empty. -/
theorem rtePktmbufCopy_whole_iff (chain : SegmentChain heap mbufOld segments)
    (total : (segments.map fun m => (heap m).dataLen.toNat).sum = (heap mbufOld).pktLen.toNat)
    (fresh : mbuf ∉ segments) :
    (∃ copied, rtePktmbufCopy heap mbufOld (some mbuf) = some copied ∧
      CopiesWhole heap mbufOld segments copied) ↔
        ∀ m ∈ segments.tail, (heap m).dataLen = 0 := by
  obtain ⟨rest, rfl⟩ := chain.eq_cons
  have other : mbufOld ≠ mbuf := fun same => fresh (same ▸ List.mem_cons_self)
  obtain ⟨copied, done, written, kept, reads⟩ := rtePktmbufCopy_some heap other
  rw [List.map_cons, List.sum_cons] at total
  simp only [done, Option.some.injEq, exists_eq_left', List.tail_cons]
  constructor
  · intro whole m member
    have length := whole.dataLen
    rw [written] at length
    -- the copy has the length of the first segment, so nothing is left for the others
    exact sum_dataLen_eq_zero_iff.mp (Nat.add_left_cancel (total.trans length.symm)) m member
  · intro empty
    rw [sum_dataLen_eq_zero_iff.mpr empty, Nat.add_zero] at total
    refine ⟨by rw [written]; rfl, by rw [written]; rfl, by rw [written]; rfl, ?_, ?_, ?_, ?_⟩
    · rw [written]
      exact total
    · rw [written, packet_copyOf total, List.flatMap_cons, flatMap_bytes_of_empty empty,
        List.append_nil]
    · intro address member
      rw [reads, ← total] at member
      exact ⟨mbufOld, List.mem_cons_self, member⟩
    · intro m member
      refine kept m ?_
      rintro rfl
      exact fresh member

end Copy

/-! ### Buffers -/

/-- A segment of a packet, with data behind the headroom. -/
def segment (pktLen : UInt32) (dataLen : UInt16) (next : Option ℕ) : RteMbuf ℕ where
  buf := fun i => .ofNat (i + 1)
  dataOff := 128
  nbSegs := if next.isSome then 2 else 1
  port := 0
  olFlags := 0
  packetType := 0
  pktLen := pktLen
  dataLen := dataLen
  vlanTci := 0
  vlanTciOuter := 0
  bufLen := 2176
  next := next
  txOffload := 0

/-- A packet of one segment is copied. -/
theorem rtePktmbufCopy_whole_single :
    ∃ copied, rtePktmbufCopy (fun _ => segment 3 3 none) 0 (some 1) = some copied ∧
      CopiesWhole (fun _ => segment 3 3 none) 0 [0] copied :=
  (rtePktmbufCopy_whole_iff (.last rfl) rfl (by decide)).mpr nofun

/-- A packet of two segments, of two bytes and one. -/
def scattered (m : ℕ) : RteMbuf ℕ := if m = 0 then segment 3 2 (some 1) else segment 0 1 none

/-- The new buffer has room for it, and yet it is not copied. -/
theorem not_rtePktmbufCopy_scattered :
    SegmentChain scattered 0 [0, 1] ∧
    ([0, 1].map fun m => (scattered m).dataLen.toNat).sum = (scattered 0).pktLen.toNat ∧
    (scattered 0).pktLen.toNat + (scattered 2).alloc.dataOff.toNat ≤
      (scattered 2).bufLen.toNat ∧
    ¬ ∃ copied, rtePktmbufCopy scattered 0 (some 2) = some copied ∧
      CopiesWhole scattered 0 [0, 1] copied := by
  refine ⟨.cons rfl (.last rfl), rfl, by decide, ?_⟩
  rintro ⟨copied, done, whole⟩
  have other : 0 ≠ 2 := by decide
  obtain ⟨same, copy, written, -⟩ := rtePktmbufCopy_some scattered other
  obtain rfl := Option.some.inj (done.symm.trans copy)
  have length := whole.dataLen
  rw [written] at length
  exact absurd length (by decide)

end DpdkCr

