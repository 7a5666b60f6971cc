import DpdkCr.Mbuf.Cloning
import DpdkCr.Math.BlockCopy
import Mathlib.Algebra.Order.BigOperators.Group.List

/-!
# What packets hold

The data of a segment lie in the data room of one buffer, and those of a packet are the
data of its segments in order. Data rooms do not overlap, so a buffer with one reference
can be written to without any other packet noticing. The functions that make packets
longer or shorter edit one segment of a packet.

## Main definitions

* `RoomsApart` — data rooms do not overlap
* `MbufHeap.contents` — the bytes of segments
* `MbufHeap.Leaves` — packets that hold what they held
* `MbufHeap.edit` — other data in one segment, and another packet length

## Main results

* `Accounted.edited` — a packet with an edited segment
* `Accounted.prepended`, `Accounted.appended`, `Accounted.adjusted`, `Accounted.trimmed`
-/

namespace DpdkCr

open Memory Semantics

/-- Where the data room of a buffer begins. -/
def RteMempool.room (mempool : RteMempool) (m : ℕ) : ℕ :=
  m + (sizeofMbuf + (mempool.priv (mempool.fromObj m)).mbufPrivSize.toNat)

/-- How long the data room of a buffer is. -/
def RteMempool.roomSize (mempool : RteMempool) (m : ℕ) : ℕ :=
  (mempool.priv (mempool.fromObj m)).mbufDataRoomSize.toNat

/-- The data rooms of the buffers do not overlap. -/
def RoomsApart (mempool : RteMempool) (mbufs : Finset ℕ) : Prop :=
  ∀ a ∈ mbufs, ∀ b ∈ mbufs, a ≠ b → mempool.room a + mempool.roomSize a ≤ mempool.room b ∨
    mempool.room b + mempool.roomSize b ≤ mempool.room a

/-- The segment with other data. -/
def Mbuf.withData (dataOff dataLen : UInt16) (seg : Mbuf) : Mbuf :=
  { seg with dataOff := dataOff, dataLen := dataLen }

/-- The segment as the first of a packet of this length. -/
def Mbuf.withPktLen (pktLen : UInt32) (seg : Mbuf) : Mbuf := { seg with pktLen := pktLen }

namespace MbufHeap

variable {mempool : RteMempool} {mbufs : Finset ℕ} {h h' h'' : MbufHeap}
variable {held as front back : List ℕ}
variable {m x y a fuel : ℕ} {mem : Memory}

/-! ### Data -/

/-- The data of a segment. -/
def data (h : MbufHeap) (m : ℕ) : List UInt8 := h.memory.bytes (h.view m).1 (h.view m).2

/-- The data of segments one after the other. -/
def contents (h : MbufHeap) (as : List ℕ) : List UInt8 := as.flatMap h.data

@[simp] theorem contents_nil : h.contents [] = [] := rfl

@[simp] theorem contents_cons : h.contents (x :: as) = h.data x ++ h.contents as :=
  List.flatMap_cons

theorem contents_append : h.contents (as ++ back) = h.contents as ++ h.contents back :=
  List.flatMap_append

theorem length_contents : (h.contents as).length = (as.map fun a => (h.view a).2).sum := by
  rw [contents, List.length_flatMap]
  simp only [data, length_bytes]

theorem contents_congr (same : ∀ x ∈ as, h'.data x = h.data x) : h'.contents as = h.contents as :=
  List.flatMap_congr same

/-- Packets that are made of these segments are as they were and hold what they held. -/
structure Leaves (h h' : MbufHeap) (held : List ℕ) : Prop where
  kept : ∀ x ∈ held, Kept h h' x
  data : ∀ x ∈ held, h'.data x = h.data x

theorem Spares.leaves (spares : Spares h h' held) : Leaves h h' held := by
  refine ⟨spares.kept, fun x member => ?_⟩
  rw [MbufHeap.data, MbufHeap.data, spares.memory, (spares.kept x member).view_eq]

theorem Leaves.subset (leaves : Leaves h h' held) (fewer : as ⊆ held) : Leaves h h' as :=
  ⟨fun x member => leaves.kept x (fewer member), fun x member => leaves.data x (fewer member)⟩

theorem Leaves.packet (leaves : Leaves h h' as) (packet : h.Packet m as) : h'.Packet m as := by
  -- the memory plays no part in what makes a packet
  have spares : Spares h { h' with memory := h.memory } as := ⟨rfl, leaves.kept⟩
  have same := spares.packet packet
  exact ⟨same.chained, same.nbSegs, same.pktLen⟩

theorem Leaves.contents (leaves : Leaves h h' as) : h'.contents as = h.contents as :=
  contents_congr leaves.data

/-- What is attached is looked at in the data room of the buffer that has the data. -/
theorem Accounted.inside (accounted : Accounted mempool mbufs h held) (member : m ∈ held) :
    mempool.room (h.embeds m) ≤ (h.view m).1 ∧ (h.view m).1 + (h.view m).2 ≤
      mempool.room (h.embeds m) + mempool.roomSize (h.embeds m) := by
  obtain ⟨known, direct, -, serves⟩ := accounted.embeds_mem member
  have owner := accounted.sound _ known
  have own := owner.direct direct
  have there := accounted.known m member
  have same : (h.mbuf m).bufAddr = (h.mbuf (h.embeds m)).bufAddr ∧
      (h.mbuf m).bufLen = (h.mbuf (h.embeds m)).bufLen := by
    rcases serves with self | owned
    · rw [← self]
      exact ⟨rfl, rfl⟩
    · exact ((accounted.sound m there).indirect _ owned).2.2
  have room := (accounted.sound m there).room
  have addr : mempool.room (h.embeds m) = (h.mbuf m).bufAddr := by
    rw [same.1, own.bufAddr, own.privSize, owner.pool, RteMempool.room]
  have size : mempool.roomSize (h.embeds m) = (h.mbuf m).bufLen.toNat := by
    rw [same.2, own.bufLen, owner.pool, RteMempool.roomSize]
  rw [addr, size, view, Mbuf.rtePktmbufMtod]
  dsimp only
  omega

/-- Memory that differs at most in the data room of a buffer. -/
def DiffersIn (mempool : RteMempool) (m m' : Memory) (x : ℕ) : Prop :=
  ∀ a, a < mempool.room x ∨ mempool.room x + mempool.roomSize x ≤ a → m' a = m a

/-- What is written to the data room of a buffer with a single reference is not seen in
any other. -/
theorem Accounted.bytes_eq (accounted : Accounted mempool mbufs h held)
    (apart : RoomsApart mempool mbufs) (alone : h.references mbufs held x = 1) (there : x ∈ held)
    (member : y ∈ held) (other : y ≠ x) (differs : DiffersIn mempool h.memory mem x) :
    mem.bytes (h.view y).1 (h.view y).2 = h.data y := by
  have ne := accounted.embeds_ne alone there member other
  obtain ⟨lower, upper⟩ := accounted.inside member
  have rooms := apart _ (accounted.embeds_mem member).1 x (accounted.known x there) ne
  refine bytes_congr fun i inside => differs _ ?_
  omega

/-! ### Editing a segment -/

/-- The account is not about the memory. -/
theorem Accounted.of_memory (accounted : Accounted mempool mbufs h held) (mem : Memory) :
    Accounted mempool mbufs { h with memory := mem } held := by
  refine ⟨accounted.known, fun x member => ?_, accounted.free, accounted.nodup⟩
  have before := accounted.sound x member
  exact ⟨before.pool, before.refcnt, before.unused, before.direct, before.indirect, before.single,
    before.room⟩

/-- Give the segment `x` of the packet `m` other data, and the packet another length. -/
def edit (h : MbufHeap) (m x : ℕ) (dataOff dataLen : UInt16) (pktLen : UInt32) (mem : Memory) :
    MbufHeap :=
  { (h.modify x (Mbuf.withData dataOff dataLen)).modify m (Mbuf.withPktLen pktLen) with
    memory := mem }

section Edit

variable {dataOff dataLen : UInt16} {pktLen : UInt32}

theorem mbuf_edit : (h.edit m x dataOff dataLen pktLen mem).mbuf =
    ((h.modify x (Mbuf.withData dataOff dataLen)).modify m (Mbuf.withPktLen pktLen)).mbuf := rfl

theorem view_edit : (h.edit m x dataOff dataLen pktLen mem).view y =
    (h.modify x (Mbuf.withData dataOff dataLen)).view y := by
  rw [view, mbuf_edit]
  exact view_modify rfl rfl rfl y

theorem view_edit_self : (h.edit m x dataOff dataLen pktLen mem).view x =
    ((h.mbuf x).bufAddr + dataOff.toNat, dataLen.toNat) := by
  rw [view_edit, view, mbuf_modify_self]
  rfl

theorem view_edit_of_ne (other : y ≠ x) :
    (h.edit m x dataOff dataLen pktLen mem).view y = h.view y := by
  rw [view_edit, view, mbuf_modify_of_ne other, view]

theorem next_edit : ((h.edit m x dataOff dataLen pktLen mem).mbuf y).next = (h.mbuf y).next := by
  rw [mbuf_edit, modify_field Mbuf.next rfl, modify_field Mbuf.next rfl]

theorem nbSegs_edit :
    ((h.edit m x dataOff dataLen pktLen mem).mbuf y).nbSegs = (h.mbuf y).nbSegs := by
  rw [mbuf_edit, modify_field Mbuf.nbSegs rfl, modify_field Mbuf.nbSegs rfl]

theorem pktLen_edit : ((h.edit m x dataOff dataLen pktLen mem).mbuf m).pktLen = pktLen := by
  rw [mbuf_edit, mbuf_modify_self]
  rfl

theorem mbuf_edit_of_ne (other : y ≠ x) (away : y ≠ m) :
    (h.edit m x dataOff dataLen pktLen mem).mbuf y = h.mbuf y := by
  rw [mbuf_edit, mbuf_modify_of_ne away, mbuf_modify_of_ne other]

/-- The packet `m` holds these bytes now, and other packets what they held. -/
structure Becomes (mempool : RteMempool) (mbufs : Finset ℕ) (h h' : MbufHeap) (m : ℕ)
    (as held : List ℕ) (bytes : List UInt8) : Prop where
  accounted : Accounted mempool mbufs h' (as ++ held)
  packet : h'.Packet m as
  leaves : Leaves h h' held
  contents : h'.contents as = bytes

theorem Becomes.refl (accounted : Accounted mempool mbufs h (as ++ held))
    (packet : h.Packet m as) : Becomes mempool mbufs h h m as held (h.contents as) :=
  ⟨accounted, packet, (Spares.refl h held).leaves, rfl⟩

/-- A new packet is empty. -/
theorem Accounted.allocated {p : ℕ} (accounted : Accounted mempool mbufs h held)
    (alloc : h.rtePktmbufAlloc mempool p = some (m, h')) :
    Becomes mempool mbufs h h' m [m] held [] := by
  obtain ⟨account, unreferenced, -, others, -⟩ := accounted.alloc alloc
  obtain ⟨rest, -, rfl⟩ := alloc_eq_some alloc
  have self : ({ h with free := Function.update h.free p rest }.modify m
      Mbuf.rtePktmbufReset).mbuf m = (h.mbuf m).rtePktmbufReset := mbuf_modify_self
  have spares : Spares h ({ h with free := Function.update h.free p rest }.modify m
      Mbuf.rtePktmbufReset) held := by
    refine ⟨rfl, fun x kept => .of_eq (others x ?_)⟩
    rintro rfl
    exact (references_pos kept).ne' unreferenced
  refine ⟨account, ⟨⟨rfl, ?_⟩, ?_, ?_⟩, spares.leaves, ?_⟩
  · exact congrArg Mbuf.next self
  · rw [self]
    rfl
  · rw [List.map_singleton, List.sum_singleton, view, self]
    rfl
  · rw [contents_cons, contents_nil, List.append_nil, data, view, self]
    rfl

/-- A packet with an edited segment. -/
theorem Accounted.edited (dataOff dataLen : UInt16)
    (accounted : Accounted mempool mbufs h (as ++ held)) (apart : RoomsApart mempool mbufs)
    (packet : h.Packet m as) (split : as = front ++ x :: back)
    (head : h.references mbufs (as ++ held) m = 1) (alone : h.references mbufs (as ++ held) x = 1)
    (room : dataOff.toNat + dataLen.toNat ≤ (h.mbuf x).bufLen.toNat)
    (length : pktLen.toNat + (h.mbuf x).dataLen.toNat = (h.mbuf m).pktLen.toNat + dataLen.toNat)
    (differs : DiffersIn mempool h.memory mem x) {bytes : List UInt8}
    (now : mem.bytes ((h.mbuf x).bufAddr + dataOff.toNat) dataLen.toNat = bytes) :
    Becomes mempool mbufs h (h.edit m x dataOff dataLen pktLen mem) m as held
      (h.contents front ++ bytes ++ h.contents back) := by
  have there : x ∈ as := split ▸ List.mem_append_right front List.mem_cons_self
  have once := packet.chained.nodup
  have account : Accounted mempool mbufs (h.edit m x dataOff dataLen pktLen mem) (as ++ held) := by
    have atX := accounted.sound x (accounted.known x (List.mem_append_left held there))
    have first :
        Accounted mempool mbufs (h.modify x (Mbuf.withData dataOff dataLen)) (as ++ held) :=
      accounted.local ⟨rfl, rfl, rfl, rfl, rfl⟩ (List.mem_append_left held there) rfl atX.single
        room
    have atM := first.sound m (first.known m (List.mem_append_left held packet.mem))
    exact (first.local ⟨rfl, rfl, rfl, rfl, rfl⟩ (List.mem_append_left held packet.mem) rfl
      atM.single atM.room).of_memory mem
  have data (y : ℕ) (member : y ∈ as ++ held) (other : y ≠ x) :
      (h.edit m x dataOff dataLen pktLen mem).data y = h.data y := by
    rw [MbufHeap.data, view_edit_of_ne other]
    exact accounted.bytes_eq apart alone (List.mem_append_left held there) member other differs
  rw [split] at once
  obtain ⟨-, -, disjoint⟩ := List.nodup_append.mp once
  have inFront (y : ℕ) (member : y ∈ front) : y ∈ as ++ held ∧ y ≠ x :=
    ⟨List.mem_append_left held (split ▸ List.mem_append_left _ member),
      disjoint y member x List.mem_cons_self⟩
  have inBack (y : ℕ) (member : y ∈ back) : y ∈ as ++ held ∧ y ≠ x := by
    refine ⟨List.mem_append_left held (split ▸ List.mem_append_right front
      (List.mem_cons_of_mem x member)), ?_⟩
    rintro rfl
    exact (List.nodup_cons.mp (List.nodup_append.mp once).2.1).1 member
  refine ⟨account, ⟨packet.chained.congr fun y _ => next_edit, ?_, ?_⟩, ⟨fun y member => ?_,
    fun y member => ?_⟩, ?_⟩
  · rw [nbSegs_edit, packet.nbSegs]
  · have before := packet.pktLen
    have sizes (l : List ℕ) (apart' : ∀ y ∈ l, y ≠ x) :
        (l.map fun y => ((h.edit m x dataOff dataLen pktLen mem).view y).2) =
          l.map fun y => (h.view y).2 :=
      List.map_congr_left fun y member => by rw [view_edit_of_ne (apart' y member)]
    have old : (h.view x).2 = (h.mbuf x).dataLen.toNat := rfl
    rw [pktLen_edit, split, List.map_append, List.map_cons, List.sum_append, List.sum_cons,
      sizes front fun y member => (inFront y member).2, view_edit_self,
      sizes back fun y member => (inBack y member).2]
    rw [split, List.map_append, List.map_cons, List.sum_append, List.sum_cons] at before
    dsimp only at before ⊢
    omega
  · refine .of_eq (mbuf_edit_of_ne ?_ ?_)
    · exact fun same => not_mem_of_alone _ alone there (same ▸ member)
    · exact fun same => not_mem_of_alone _ head packet.mem (same ▸ member)
  · exact data y (List.mem_append_right as member) fun same =>
      not_mem_of_alone _ alone there (same ▸ member)
  · rw [split, contents, List.flatMap_append, List.flatMap_cons, MbufHeap.data, view_edit_self,
      List.append_assoc, ← now]
    refine congrArg₂ _ (contents_congr fun y member => ?_) (congrArg₂ _ rfl
      (contents_congr fun y member => ?_))
    · exact data y (inFront y member).1 (inFront y member).2
    · exact data y (inBack y member).1 (inBack y member).2

end Edit

/-! ### Longer and shorter packets -/

/-- `rte_pktmbuf_prepend`, and the bytes that the caller puts there. -/
def prependData (h : MbufHeap) (m : ℕ) (bytes : List UInt8) : Bool × MbufHeap :=
  match h.rtePktmbufPrepend m (UInt16.ofNat bytes.length) with
  | (none, h) => (false, h)
  | (some p, h) => (true, { h with memory := h.memory.writeBytes p bytes })

/-- `rte_pktmbuf_append`, and the bytes that the caller puts there. -/
def appendData (h : MbufHeap) (fuel m : ℕ) (bytes : List UInt8) : Option (Bool × MbufHeap) :=
  (h.rtePktmbufAppend fuel m (UInt16.ofNat bytes.length)).map fun
    | (none, h) => (false, h)
    | (some p, h) => (true, { h with memory := h.memory.writeBytes p bytes })

theorem rtePktmbufLastseg_eq (chain : h.chained (some m) (front ++ [x]))
    (enough : front.length < fuel) : h.rtePktmbufLastseg fuel m = some x := by
  obtain ⟨fuel, rfl⟩ := Nat.exists_eq_add_one.mpr (Nat.zero_lt_of_lt enough)
  rw [rtePktmbufLastseg]
  induction front generalizing m fuel with
  | nil =>
      obtain ⟨self, last⟩ := chain
      obtain rfl := Option.some.inj self
      have ends : (h.mbuf m).next = none := last
      exact iterate_succ_leave (by rw [ends]) fuel
  | cons a front ih =>
      obtain ⟨self, rest⟩ := chain
      obtain rfl := Option.some.inj self
      have chain : h.chained (h.mbuf m).next (front ++ [x]) := rest
      obtain ⟨fuel, rfl⟩ := Nat.exists_eq_add_one.mpr
        (Nat.zero_lt_of_lt (Nat.lt_of_succ_lt_succ enough))
      cases next : (h.mbuf m).next with
      | none =>
          rw [next] at chain
          cases front <;> exact absurd chain.1 nofun
      | some m' =>
          rw [next] at chain
          rw [iterate_succ_again (t := m') (by rw [next])]
          exact ih chain fuel (Nat.lt_of_succ_lt_succ enough)

theorem lastseg_of_packet (packet : h.Packet m as) (split : as = front ++ [x])
    (enough : as.length ≤ fuel) : h.rtePktmbufLastseg fuel m = some x := by
  refine rtePktmbufLastseg_eq (split ▸ packet.chained) (Nat.lt_of_lt_of_le ?_ enough)
  rw [split, List.length_append, List.length_singleton]
  exact Nat.lt_succ_self _

/-- Packets of at most 65535 segments are shorter than what their length has room for. -/
theorem Packet.pktLen_le (packet : h.Packet m as) :
    (h.mbuf m).pktLen.toNat ≤ as.length * 65535 := by
  have each : ∀ n ∈ as.map fun a => (h.view a).2, n ≤ 65535 := by
    intro n member
    obtain ⟨a, -, rfl⟩ := List.mem_map.mp member
    exact Nat.le_of_lt_succ (h.mbuf a).dataLen.toNat_lt
  have sum := List.sum_le_card_nsmul _ _ each
  rw [List.length_map, Nat.nsmul_eq_mul] at sum
  exact packet.pktLen.trans_le sum

theorem Packet.length_lt (packet : h.Packet m as) : as.length < 65536 :=
  packet.nbSegs ▸ (h.mbuf m).nbSegs.toNat_lt

/-- A direct buffer has its data in its own data room. -/
theorem Accounted.own (accounted : Accounted mempool mbufs h held) (member : m ∈ held)
    (direct : ¬ (h.mbuf m).Indirect) :
    (h.mbuf m).bufAddr = mempool.room m ∧ (h.mbuf m).bufLen.toNat = mempool.roomSize m ∧
      (h.mbuf m).dataOff.toNat + (h.mbuf m).dataLen.toNat ≤ (h.mbuf m).bufLen.toNat := by
  have before := accounted.sound m (accounted.known m member)
  have own := before.direct (Mbuf.owner_eq_none.mpr direct)
  refine ⟨?_, ?_, before.room⟩
  · rw [own.bufAddr, own.privSize, before.pool, RteMempool.room]
  · rw [own.bufLen, before.pool, RteMempool.roomSize]

theorem DiffersIn.refl (m : Memory) (x : ℕ) : DiffersIn mempool m m x := fun _ _ => rfl

theorem Accounted.differs_writeBytes (accounted : Accounted mempool mbufs h held)
    (member : m ∈ held)
    (direct : ¬ (h.mbuf m).Indirect) (off : ℕ) (bytes : List UInt8)
    (fits : off + bytes.length ≤ (h.mbuf m).bufLen.toNat) :
    DiffersIn mempool h.memory (h.memory.writeBytes ((h.mbuf m).bufAddr + off) bytes) m := by
  obtain ⟨addr, len, -⟩ := accounted.own member direct
  intro a outside
  refine writeBytes_outside ?_
  rw [addr]
  omega

theorem toNat_dataLen_add (seg : Mbuf) (size : UInt16)
    (fits : seg.dataLen.toNat + size.toNat < 65536) :
    (seg.dataLen + size).toNat = seg.dataLen.toNat + size.toNat :=
  (UInt16.toNat_add ..).trans (Nat.mod_eq_of_lt fits)

theorem toNat_tailroom {seg : Mbuf}
    (room : seg.dataOff.toNat + seg.dataLen.toNat ≤ seg.bufLen.toNat) :
    seg.rtePktmbufTailroom.toNat = seg.bufLen.toNat - seg.dataOff.toNat - seg.dataLen.toNat := by
  have behind : (seg.bufLen - seg.dataOff).toNat = seg.bufLen.toNat - seg.dataOff.toNat :=
    UInt16.toNat_sub_of_le _ _ (UInt16.le_iff_toNat_le.mpr (by omega))
  rw [Mbuf.rtePktmbufTailroom, Mbuf.rtePktmbufHeadroom,
    UInt16.toNat_sub_of_le _ _ (UInt16.le_iff_toNat_le.mpr (by omega)), behind]

/-- The length of a packet has room for one more segment. -/
theorem Packet.toNat_pktLen_add (packet : h.Packet m as) {size dataLen dataLen' : UInt16}
    (longer : dataLen'.toNat = dataLen.toNat + size.toNat) :
    ((h.mbuf m).pktLen + size.toUInt32).toNat + dataLen.toNat =
      (h.mbuf m).pktLen.toNat + dataLen'.toNat := by
  have bound := packet.pktLen_le
  have segs := packet.length_lt
  have small := size.toNat_lt
  rw [UInt32.toNat_add, UInt16.toNat_toUInt32, longer, Nat.mod_eq_of_lt (by omega)]
  omega

/-- What `rte_pktmbuf_prepend` makes of a packet. -/
theorem Accounted.prepended {bytes : List UInt8}
    (accounted : Accounted mempool mbufs h (as ++ held)) (apart : RoomsApart mempool mbufs)
    (packet : h.Packet m as) (head : h.references mbufs (as ++ held) m = 1)
    (direct : ¬ (h.mbuf m).Indirect) (short : bytes.length < 65536) :
    Becomes mempool mbufs h (h.prependData m bytes).2 m as held
      (if (h.prependData m bytes).1 then bytes ++ h.contents as else h.contents as) := by
  have member : m ∈ as ++ held := List.mem_append_left held packet.mem
  obtain ⟨-, -, room⟩ := accounted.own member direct
  have len : (UInt16.ofNat bytes.length).toNat = bytes.length := Nat.mod_eq_of_lt short
  rw [prependData, rtePktmbufPrepend, Mbuf.rtePktmbufHeadroom]
  by_cases much : (h.mbuf m).dataOff < UInt16.ofNat bytes.length
  · rw [if_pos much]
    exact .refl accounted packet
  rw [if_neg much]
  dsimp only
  generalize UInt16.ofNat bytes.length = size at *
  have enough : size.toNat ≤ (h.mbuf m).dataOff.toNat := UInt16.not_lt.mp much
  have off : ((h.mbuf m).dataOff - size).toNat = (h.mbuf m).dataOff.toNat - size.toNat :=
    UInt16.toNat_sub_of_le _ _ enough
  have bound := (h.mbuf m).bufLen.toNat_lt
  have longer := toNat_dataLen_add (h.mbuf m) size (by omega)
  have edited : h.modify m (fun seg =>
      { seg with
        dataOff := seg.dataOff - size
        dataLen := seg.dataLen + size
        pktLen := seg.pktLen + size.toUInt32 }) =
      (h.modify m (Mbuf.withData ((h.mbuf m).dataOff - size) ((h.mbuf m).dataLen + size))).modify m
        (Mbuf.withPktLen ((h.mbuf m).pktLen + size.toUInt32)) := by
    rw [modify_modify]
    exact modify_congr rfl
  obtain ⟨back, split⟩ := packet.chained.head_eq
  have behind : (h.mbuf m).bufAddr + ((h.mbuf m).dataOff - size).toNat + bytes.length =
      (h.mbuf m).rtePktmbufMtod := by
    rw [Mbuf.rtePktmbufMtod]
    omega
  have kept : (h.memory.writeBytes ((h.mbuf m).bufAddr + ((h.mbuf m).dataOff - size).toNat)
      bytes).bytes (h.mbuf m).rtePktmbufMtod (h.mbuf m).dataLen.toNat = h.data m :=
    bytes_congr fun i _ => writeBytes_outside (.inr (by omega))
  have becomes := accounted.edited (x := m) ((h.mbuf m).dataOff - size) ((h.mbuf m).dataLen + size)
    apart packet (show as = [] ++ m :: back from split) head head (by omega)
    (packet.toNat_pktLen_add longer)
    (accounted.differs_writeBytes member direct ((h.mbuf m).dataOff - size).toNat bytes (by omega))
    (by rw [longer, len, Nat.add_comm (h.mbuf m).dataLen.toNat, bytes_add, bytes_writeBytes, behind,
      kept])
  rw [contents_nil, List.nil_append, List.append_assoc, ← contents_cons, ← split] at becomes
  rw [edited, if_pos rfl, mbuf_modify_self, mbuf_modify_self]
  exact becomes

/-- A change of the packet length behind an edited segment. -/
theorem modify_pktLen {dataOff dataLen : UInt16} (change : UInt32 → UInt32) :
    ((h.modify x (Mbuf.withData dataOff dataLen)).modify m fun seg =>
        { seg with pktLen := change seg.pktLen }) =
      (h.modify x (Mbuf.withData dataOff dataLen)).modify m
        (Mbuf.withPktLen (change (h.mbuf m).pktLen)) := by
  refine modify_congr ?_
  have same : ((h.modify x (Mbuf.withData dataOff dataLen)).mbuf m).pktLen = (h.mbuf m).pktLen :=
    modify_field Mbuf.pktLen rfl m
  rw [Mbuf.withPktLen, same]

/-- What `rte_pktmbuf_append` makes of a packet. -/
theorem Accounted.appended {bytes : List UInt8}
    (accounted : Accounted mempool mbufs h (as ++ held)) (apart : RoomsApart mempool mbufs)
    (packet : h.Packet m as) (split : as = front ++ [x])
    (head : h.references mbufs (as ++ held) m = 1) (alone : h.references mbufs (as ++ held) x = 1)
    (direct : ¬ (h.mbuf x).Indirect) (short : bytes.length < 65536) (enough : as.length ≤ fuel) :
    ∃ done h', h.appendData fuel m bytes = some (done, h') ∧
      Becomes mempool mbufs h h' m as held
        (if done then h.contents as ++ bytes else h.contents as) := by
  have there : x ∈ as := split ▸ List.mem_append_right front List.mem_cons_self
  have member : x ∈ as ++ held := List.mem_append_left held there
  obtain ⟨-, -, room⟩ := accounted.own member direct
  have len : (UInt16.ofNat bytes.length).toNat = bytes.length := Nat.mod_eq_of_lt short
  rw [appendData, rtePktmbufAppend, lastseg_of_packet packet split enough, Option.map_some,
    Option.map_some]
  by_cases much : (h.mbuf x).rtePktmbufTailroom < UInt16.ofNat bytes.length
  · rw [if_pos much]
    exact ⟨false, h, rfl, .refl accounted packet⟩
  rw [if_neg much]
  generalize UInt16.ofNat bytes.length = size at *
  have bound := (h.mbuf x).bufLen.toNat_lt
  have fits : (h.mbuf x).dataOff.toNat + (h.mbuf x).dataLen.toNat + size.toNat ≤
      (h.mbuf x).bufLen.toNat := by
    have tailroom := toNat_tailroom room
    have enough := UInt16.le_iff_toNat_le.mp (UInt16.not_lt.mp much)
    omega
  have longer := toNat_dataLen_add (h.mbuf x) size (by omega)
  have kept : (h.memory.writeBytes ((h.mbuf x).bufAddr +
      ((h.mbuf x).dataOff.toNat + (h.mbuf x).dataLen.toNat)) bytes).bytes
      ((h.mbuf x).bufAddr + (h.mbuf x).dataOff.toNat) (h.mbuf x).dataLen.toNat = h.data x :=
    bytes_congr fun i inside => writeBytes_outside (.inl (by omega))
  have becomes := accounted.edited (h.mbuf x).dataOff ((h.mbuf x).dataLen + size) apart packet split
    head alone (by omega) (packet.toNat_pktLen_add longer)
    (accounted.differs_writeBytes member direct
      ((h.mbuf x).dataOff.toNat + (h.mbuf x).dataLen.toNat)
      bytes (by omega))
    (by rw [longer, len, bytes_add, kept, Nat.add_assoc, bytes_writeBytes])
  have whole :
      h.contents front ++ (h.data x ++ bytes) ++ h.contents [] = h.contents as ++ bytes := by
    rw [split, contents_append, contents_cons, contents_nil, List.append_nil, List.append_nil,
      List.append_assoc]
  rw [whole] at becomes
  refine ⟨true, _, rfl, ?_⟩
  have edited : (h.modify x fun seg => { seg with dataLen := seg.dataLen + size }) =
      h.modify x (Mbuf.withData (h.mbuf x).dataOff ((h.mbuf x).dataLen + size)) := modify_congr rfl
  rw [edited, modify_pktLen fun pktLen => pktLen + size.toUInt32, if_pos rfl, Nat.add_assoc]
  exact becomes

theorem bytes_drop {mem : Memory} {n k : ℕ} (short : k ≤ n) :
    mem.bytes (a + k) (n - k) = (mem.bytes a n).drop k := by
  have whole : mem.bytes a n = mem.bytes a k ++ mem.bytes (a + k) (n - k) := by
    rw [← bytes_add, Nat.add_sub_cancel' short]
  rw [whole, List.drop_left' length_bytes]

theorem bytes_take {mem : Memory} {n k : ℕ} (short : k ≤ n) :
    mem.bytes a (n - k) = (mem.bytes a n).take (n - k) := by
  have whole : mem.bytes a n = mem.bytes a (n - k) ++ mem.bytes (a + (n - k)) k := by
    rw [← bytes_add, Nat.sub_add_cancel short]
  rw [whole, List.take_left' length_bytes]

@[simp] theorem length_data : (h.data x).length = (h.mbuf x).dataLen.toNat := length_bytes

/-- What is taken from the data of a segment can be taken from the length of its packet. -/
theorem Packet.toNat_pktLen_sub (packet : h.Packet m as) (there : x ∈ as) {size dataLen' : UInt16}
    (enough : size.toNat ≤ (h.mbuf x).dataLen.toNat)
    (shorter : dataLen'.toNat = (h.mbuf x).dataLen.toNat - size.toNat) :
    ((h.mbuf m).pktLen - size.toUInt32).toNat + (h.mbuf x).dataLen.toNat =
      (h.mbuf m).pktLen.toNat + dataLen'.toNat := by
  have within : (h.mbuf x).dataLen.toNat ≤ (h.mbuf m).pktLen.toNat := by
    rw [packet.pktLen]
    exact List.le_sum_of_mem (List.mem_map.mpr ⟨x, there, rfl⟩)
  have small : size.toUInt32 ≤ (h.mbuf m).pktLen := by
    rw [UInt32.le_iff_toNat_le, UInt16.toNat_toUInt32]
    exact enough.trans within
  rw [UInt32.toNat_sub_of_le _ _ small, UInt16.toNat_toUInt32, shorter]
  omega

/-- What `rte_pktmbuf_adj` makes of a packet. -/
theorem Accounted.adjusted (accounted : Accounted mempool mbufs h (as ++ held))
    (apart : RoomsApart mempool mbufs) (packet : h.Packet m as)
    (head : h.references mbufs (as ++ held) m = 1) (len : UInt16) :
    Becomes mempool mbufs h (h.rtePktmbufAdj m len).2 m as held
      (if (h.rtePktmbufAdj m len).1 ≠ none then (h.contents as).drop len.toNat
        else h.contents as) := by
  have room := (accounted.sound m (accounted.known m (List.mem_append_left held packet.mem))).room
  rw [rtePktmbufAdj]
  by_cases much : (h.mbuf m).dataLen < len
  · rw [if_pos much]
    exact .refl accounted packet
  rw [if_neg much, if_pos nofun]
  have bound := (h.mbuf m).bufLen.toNat_lt
  have enough : len.toNat ≤ (h.mbuf m).dataLen.toNat := UInt16.not_lt.mp much
  have shorter : ((h.mbuf m).dataLen - len).toNat = (h.mbuf m).dataLen.toNat - len.toNat :=
    UInt16.toNat_sub_of_le _ _ enough
  have off : ((h.mbuf m).dataOff + len).toNat = (h.mbuf m).dataOff.toNat + len.toNat :=
    (UInt16.toNat_add ..).trans (Nat.mod_eq_of_lt (by omega))
  obtain ⟨back, split⟩ := packet.chained.head_eq
  have becomes := accounted.edited (x := m) ((h.mbuf m).dataOff + len) ((h.mbuf m).dataLen - len)
    apart packet (show as = [] ++ m :: back from split) head head (by omega)
    (packet.toNat_pktLen_sub packet.mem enough shorter) (DiffersIn.refl h.memory m)
    (by rw [shorter, off, ← Nat.add_assoc, bytes_drop enough])
  have whole : h.contents [] ++ (h.data m).drop len.toNat ++ h.contents back =
      (h.contents as).drop len.toNat := by
    rw [split, contents_nil, contents_cons, List.nil_append,
      List.drop_append_of_le_length (length_data ▸ enough)]
  have edited : h.modify m (fun seg =>
      { seg with
        dataLen := seg.dataLen - len
        dataOff := seg.dataOff + len
        pktLen := seg.pktLen - len.toUInt32 }) =
      (h.modify m (Mbuf.withData ((h.mbuf m).dataOff + len) ((h.mbuf m).dataLen - len))).modify m
        (Mbuf.withPktLen ((h.mbuf m).pktLen - len.toUInt32)) := by
    rw [modify_modify]
    exact modify_congr rfl
  rw [edited, ← whole]
  exact becomes

/-- What `rte_pktmbuf_trim` makes of a packet. -/
theorem Accounted.trimmed (accounted : Accounted mempool mbufs h (as ++ held))
    (apart : RoomsApart mempool mbufs) (packet : h.Packet m as) (split : as = front ++ [x])
    (head : h.references mbufs (as ++ held) m = 1) (alone : h.references mbufs (as ++ held) x = 1)
    (enough : as.length ≤ fuel) (len : UInt16) :
    ∃ result h', h.rtePktmbufTrim fuel m len = some (result, h') ∧
      Becomes mempool mbufs h h' m as held
        (if result = 0 then (h.contents as).take ((h.contents as).length - len.toNat)
          else h.contents as) := by
  have there : x ∈ as := split ▸ List.mem_append_right front List.mem_cons_self
  have room := (accounted.sound x (accounted.known x (List.mem_append_left held there))).room
  rw [rtePktmbufTrim, lastseg_of_packet packet split enough, Option.map_some]
  by_cases much : (h.mbuf x).dataLen < len
  · rw [if_pos much]
    exact ⟨-1, h, rfl, .refl accounted packet⟩
  rw [if_neg much]
  have fits : len.toNat ≤ (h.mbuf x).dataLen.toNat := UInt16.not_lt.mp much
  have shorter : ((h.mbuf x).dataLen - len).toNat = (h.mbuf x).dataLen.toNat - len.toNat :=
    UInt16.toNat_sub_of_le _ _ fits
  have becomes := accounted.edited (h.mbuf x).dataOff ((h.mbuf x).dataLen - len)
    apart packet split head alone (by omega)
    (packet.toNat_pktLen_sub there fits shorter) (DiffersIn.refl h.memory x)
    (by rw [shorter, bytes_take fits])
  have whole : h.contents front ++ (h.data x).take ((h.mbuf x).dataLen.toNat - len.toNat) ++
      h.contents [] = (h.contents as).take ((h.contents as).length - len.toNat) := by
    have total : (h.contents as).length = (h.contents front).length + (h.mbuf x).dataLen.toNat := by
      rw [split, contents_append, contents_cons, contents_nil, List.append_nil, List.length_append,
        length_data]
    rw [total, Nat.add_sub_assoc fits, split, contents_append, contents_cons, contents_nil,
      List.append_nil, List.append_nil, List.take_length_add_append]
  have edited : (h.modify x fun seg => { seg with dataLen := seg.dataLen - len }) =
      h.modify x (Mbuf.withData (h.mbuf x).dataOff ((h.mbuf x).dataLen - len)) := modify_congr rfl
  refine ⟨0, _, rfl, ?_⟩
  rw [edited, modify_pktLen fun pktLen => pktLen - len.toUInt32, if_pos rfl, ← whole]
  exact becomes

end MbufHeap

end DpdkCr
