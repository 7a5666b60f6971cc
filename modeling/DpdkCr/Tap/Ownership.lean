import DpdkCr.Tap.Reader

/-!
# The reader writes only into its own mbuf

Every mbuf is in exactly one place: free, with the reader, in the ring, or with the
consumer. The reader writes into its current mbuf, and into a mbuf that the pool
just gave it, so it never changes one that it gave away; and what the consumer
obtains is what was read.

## Main results

* `Inv.exec` — one step keeps the partition and the order of the frames
* `reader_keeps` — no reader step changes an mbuf in the ring or with the consumer
* `tapReader_owns` — ownership and delivery in every reachable state
-/

namespace DpdkCr

open Semantics

/-- The packet that a frame read from the tap becomes. -/
def Packet.ofFrame (frame : List UInt8) : Packet :=
  ⟨frame, UInt32.ofNat frame.length, UInt16.ofNat frame.length⟩

namespace TapWorld

variable {α : Type*} {mbufs : List α} {w v : TapWorld α} {m : α}
variable {frame : List UInt8} {step : TapStep α} {content : RteMbuf α}

/-- What the reader's mbuf holds when the reader is in a phase. -/
def InHand (mbuf : RteMbuf α) : ReaderPhase → Prop
  | .filled frame => frame.length ≤ etherMtu ∧
      mbuf.buf.bytes mbuf.dataOff.toNat frame.length = frame
  | .sized frame => frame.length ≤ etherMtu ∧ mbuf.packet = .ofFrame frame
  | .reading | .enqueued => True

/-- Every mbuf is in one place, and the packets obtained and those in the ring are,
in order, the frames that the ring took. -/
structure Inv (mbufs : List α) (w : TapWorld α) : Prop where
  distinct : mbufs.Nodup
  partition : w.owned.Perm mbufs
  bounded : ∀ frame ∈ w.accepted, frame.length ≤ etherMtu
  inHand : InHand (w.heap w.mbuf) w.phase
  queued : w.obtained ++ (w.ring.map fun m => (w.heap m).packet) = w.accepted.map .ofFrame

/-! ### Who has what -/

theorem Inv.nodup (inv : Inv mbufs w) : w.owned.Nodup :=
  inv.partition.nodup_iff.mpr inv.distinct

theorem current_eq (own : w.phase ≠ .enqueued) : w.current = [w.mbuf] := if_neg own

/-- Until its mbuf is accepted, the reader has it. -/
theorem Inv.partition_own (inv : Inv mbufs w) (own : w.phase ≠ .enqueued) :
    (w.pool ++ [w.mbuf] ++ w.ring ++ w.held).Perm mbufs := by
  have partition := inv.partition
  rwa [owned, current_eq own] at partition

theorem Inv.current_apart (inv : Inv mbufs w) (own : w.phase ≠ .enqueued) :
    w.mbuf ∉ w.ring ∧ w.mbuf ∉ w.held := by
  have nodup := inv.nodup
  rw [owned, current_eq own] at nodup
  simp only [List.nodup_append, List.mem_append] at nodup
  grind

theorem Inv.pool_apart (inv : Inv mbufs w) (free : m ∈ w.pool) : m ∉ w.ring ∧ m ∉ w.held := by
  have nodup := inv.nodup
  rw [owned] at nodup
  simp only [List.nodup_append, List.mem_append] at nodup
  grind

theorem Inv.held_apart (inv : Inv mbufs w) (member : m ∈ w.held) :
    m ∉ w.ring ∧ m ∉ w.current := by
  have nodup := inv.nodup
  rw [owned] at nodup
  simp only [List.nodup_append, List.mem_append] at nodup
  grind

variable [DecidableEq α]

@[simp] theorem heap_write_self : (w.write m content).heap m = content :=
  Function.update_self ..

theorem heap_write_of_ne {x : α} (other : x ≠ m) : (w.write m content).heap x = w.heap x :=
  Function.update_of_ne other ..

/-- Writing outside the ring changes no packet in it. -/
theorem map_packet_write (content : RteMbuf α) (outside : m ∉ w.ring) :
    (w.ring.map fun x => ((w.write m content).heap x).packet) =
      w.ring.map fun x => (w.heap x).packet := by
  apply List.map_congr_left
  intro x member
  have other : x ≠ m := fun same => outside (same ▸ member)
  rw [heap_write_of_ne other]

/-! ### The reader's steps -/

theorem Inv.tapRead (inv : Inv mbufs w) (phase : w.phase = .reading)
    (fits : frame.length ≤ etherMtu) : Inv mbufs (w.tapRead frame) := by
  have own : w.phase ≠ .enqueued := by rw [phase]; decide
  have queued := inv.queued
  rw [← map_packet_write ((w.heap w.mbuf).writeData frame) (inv.current_apart own).1] at queued
  rw [TapWorld.tapRead]
  split
  · exact ⟨inv.distinct, inv.partition, inv.bounded, by rw [write]; simp [phase, InHand], queued⟩
  · refine ⟨inv.distinct, inv.partition_own own, inv.bounded, ⟨fits, ?_⟩, queued⟩
    · change ((w.write w.mbuf _).heap w.mbuf).buf.bytes
        ((w.write w.mbuf _).heap w.mbuf).dataOff.toNat _ = _
      rw [heap_write_self]
      exact Memory.bytes_writeBytes frame

theorem Inv.setLengths (inv : Inv mbufs w) (phase : w.phase = .filled frame) :
    Inv mbufs (w.setLengths frame) := by
  have own : w.phase ≠ .enqueued := by rw [phase]; simp
  have inHand := inv.inHand
  rw [phase] at inHand
  obtain ⟨fits, bytes⟩ := inHand
  have small : frame.length < 2 ^ 16 := fits.trans_lt (by decide)
  refine ⟨inv.distinct, inv.partition_own own, inv.bounded, ⟨fits, ?_⟩, ?_⟩
  · -- a frame is short enough for both length fields
    have count : (UInt16.ofNat frame.length).toNat = frame.length :=
      UInt16.toNat_ofNat_of_lt' small
    have widened : (UInt16.ofNat frame.length).toUInt32 = UInt32.ofNat frame.length := by
      rw [← UInt32.toNat_inj, UInt16.toNat_toUInt32, count,
        UInt32.toNat_ofNat_of_lt' (small.trans (by decide))]
    change ((w.write w.mbuf _).heap w.mbuf).packet = _
    rw [heap_write_self, RteMbuf.packet, count, bytes, widened, Packet.ofFrame]
  · have queued := inv.queued
    rwa [← map_packet_write _ (inv.current_apart own).1] at queued

theorem Inv.enqueue {nbTx : ℕ} (inv : Inv mbufs w) (phase : w.phase = .sized frame) :
    Inv mbufs (w.enqueue frame nbTx) := by
  have own : w.phase ≠ .enqueued := by rw [phase]; simp
  have inHand := inv.inHand
  have partition := inv.partition_own own
  rw [phase] at inHand
  obtain ⟨fits, packet⟩ := inHand
  rw [TapWorld.enqueue]
  split
  · refine ⟨inv.distinct, ?_, ?_, trivial, ?_⟩
    · -- the mbuf moves from the reader to the ring
      refine List.Perm.trans (List.perm_iff_count.mpr fun x => ?_) partition
      simp only [owned, current, if_true, List.count_append, List.count_nil]
      omega
    · intro other member
      rcases List.mem_append.mp member with old | new
      · exact inv.bounded other old
      · rwa [List.mem_singleton.mp new]
    · rw [List.map_append, List.map_append, ← List.append_assoc, inv.queued, List.map_singleton,
        List.map_singleton, packet]
  · exact ⟨inv.distinct, partition, inv.bounded, trivial, inv.queued⟩

theorem Inv.alloc (inv : Inv mbufs w) (phase : w.phase = .enqueued) (free : m ∈ w.pool) :
    Inv mbufs (w.alloc m) := by
  refine ⟨inv.distinct, ?_, inv.bounded, trivial, ?_⟩
  · have after : (w.alloc m).owned = w.pool.erase m ++ [m] ++ w.ring ++ w.held := rfl
    have before : w.current = [] := if_pos phase
    refine List.Perm.trans (List.perm_iff_count.mpr fun x => ?_) inv.partition
    -- the mbuf moves from the pool to the reader
    have taken := (List.perm_cons_erase free).count_eq x
    rw [after, owned, before]
    simp only [List.count_append, List.count_cons, List.count_nil] at taken ⊢
    omega
  · have queued := inv.queued
    rwa [← map_packet_write _ (inv.pool_apart free).1] at queued

/-! ### The consumer's steps -/

theorem Inv.dequeue (inv : Inv mbufs w) (n : ℕ) : Inv mbufs (w.dequeue n) := by
  refine ⟨inv.distinct, ?_, inv.bounded, inv.inHand, ?_⟩
  · have after : (w.dequeue n).owned =
        w.pool ++ w.current ++ w.ring.drop n ++ (w.held ++ w.ring.take n) := rfl
    refine List.Perm.trans (List.perm_iff_count.mpr fun x => ?_) inv.partition
    -- a prefix of the ring moves to the consumer
    have halves := congrArg (List.count x) (List.take_append_drop n w.ring)
    rw [after, owned]
    simp only [List.count_append] at halves ⊢
    omega
  · refine Eq.trans ?_ inv.queued
    change (w.obtained ++ (w.ring.take n).map fun m => (w.heap m).packet) ++
      (w.ring.drop n).map (fun m => (w.heap m).packet) = _
    rw [List.append_assoc, ← List.map_append, List.take_append_drop]

theorem Inv.modify (inv : Inv mbufs w) (member : m ∈ w.held) : Inv mbufs (w.write m content) := by
  obtain ⟨ring, current⟩ := inv.held_apart member
  refine ⟨inv.distinct, inv.partition, inv.bounded, ?_, ?_⟩
  -- right after an accepted enqueue the consumer may hold the mbuf that `mbuf` still names
  · by_cases own : w.phase = .enqueued
    · change InHand _ w.phase
      rw [own]
      trivial
    · rw [current_eq own, List.mem_singleton] at current
      change InHand ((w.write m content).heap w.mbuf) w.phase
      rw [heap_write_of_ne (Ne.symm current)]
      exact inv.inHand
  · have queued := inv.queued
    rwa [← map_packet_write _ ring] at queued

theorem Inv.free (inv : Inv mbufs w) (member : m ∈ w.held) : Inv mbufs (w.free m) := by
  refine ⟨inv.distinct, ?_, inv.bounded, inv.inHand, inv.queued⟩
  have after : (w.free m).owned = w.pool ++ [m] ++ w.current ++ w.ring ++ w.held.erase m := rfl
  refine List.Perm.trans (List.perm_iff_count.mpr fun x => ?_) inv.partition
  -- the mbuf moves from the consumer to the pool
  have freed := (List.perm_cons_erase member).count_eq x
  rw [after, owned]
  simp only [List.count_append, List.count_cons, List.count_nil] at freed ⊢
  omega

/-! ### All steps and all runs -/

/-- One step keeps the invariant, whoever acts. -/
theorem Inv.exec (inv : Inv mbufs w) (executed : w.exec step = some v) : Inv mbufs v := by
  cases acts_of_exec executed with
  | tapRead _ phase fits => exact inv.tapRead phase fits
  | setLengths _ phase => exact inv.setLengths phase
  | enqueue _ _ phase => exact inv.enqueue phase
  | alloc _ phase free => exact inv.alloc phase free
  | dequeue n => exact inv.dequeue n
  | modify _ _ member => exact inv.modify member
  | free _ member => exact inv.free member

/-- No step of the reader changes an mbuf in the ring or with the consumer. -/
theorem Inv.reader_keeps (inv : Inv mbufs w) (executed : w.exec step = some v)
    (reader : step.reader?) (given : m ∈ w.ring ∨ m ∈ w.held) : v.heap m = w.heap m := by
  -- what the ring or the consumer has is not what the reader works on
  have mine (own : w.phase ≠ .enqueued) : m ≠ w.mbuf := by
    rintro rfl
    exact given.elim (inv.current_apart own).1 (inv.current_apart own).2
  cases acts_of_exec executed with
  | tapRead frame phase =>
      have other := mine (by rw [phase]; simp)
      rw [TapWorld.tapRead]
      split <;> exact heap_write_of_ne other
  | setLengths frame phase => exact heap_write_of_ne (mine (by rw [phase]; simp))
  | enqueue =>
      rw [TapWorld.enqueue]
      split <;> rfl
  | alloc fresh phase free =>
      have other : m ≠ fresh := by
        rintro rfl
        exact given.elim (inv.pool_apart free).1 (inv.pool_apart free).2
      exact heap_write_of_ne other
  | dequeue | modify | free => cases reader

theorem reachable_inv (reached : (tapSystem mbufs).Reachable w) : Inv mbufs w := by
  refine reached.invariant ?_ fun _ _ _ inv executed => inv.exec executed
  rintro w ⟨distinct, partition, phase, ring, held, accepted, obtained⟩
  refine ⟨distinct, ?_, ?_, ?_, ?_⟩
  · have own : w.current = [w.mbuf] := current_eq (by rw [phase]; decide)
    rwa [owned, own, ring, held, List.append_nil, List.append_nil]
  · rw [accepted]
    intro frame absent
    exact absurd absent List.not_mem_nil
  · rw [phase]
    trivial
  · rw [obtained, ring, accepted]
    rfl

end TapWorld

section Runs

variable {α : Type*} [DecidableEq α] {mbufs : List α} {w : TapWorld α}

/-- **The tap reader never writes into a buffer it has given away.** In every
interleaving each mbuf is in exactly one place; the packets obtained and those
still in the ring are, in order, the frames that the ring took, with both lengths
as read; no reader step changes an mbuf in the ring or with the consumer; and a
frame that the ring did not take leaves everything but the reader's place as it was. -/
theorem tapReader_owns (reached : (tapSystem mbufs).Reachable w) :
    (w.pool ++ w.current ++ w.ring ++ w.held).Perm mbufs ∧
    (w.pool ++ w.current ++ w.ring ++ w.held).Nodup ∧
    w.obtained ++ (w.ring.map fun m => (w.heap m).packet) = w.accepted.map .ofFrame ∧
    (∀ packet ∈ w.obtained, packet.pktLen.toNat = packet.bytes.length ∧
      packet.dataLen.toNat = packet.bytes.length) ∧
    (∀ step v, (tapSystem mbufs).exec w step = some v → step.reader? →
      ∀ m, m ∈ w.ring ∨ m ∈ w.held → v.heap m = w.heap m) ∧
    ∀ v, (tapSystem mbufs).exec w (.enqueue 0) = some v → v = { w with phase := .reading } := by
  have inv := TapWorld.reachable_inv reached
  refine ⟨inv.partition, inv.nodup, inv.queued, ?_, ?_, ?_⟩
  · intro packet obtained
    have sent : packet ∈ w.accepted.map Packet.ofFrame := by
      rw [← inv.queued]
      exact List.mem_append_left _ obtained
    obtain ⟨frame, member, rfl⟩ := List.mem_map.mp sent
    have small := (inv.bounded frame member).trans_lt (by decide : etherMtu < 2 ^ 16)
    exact ⟨UInt32.toNat_ofNat_of_lt' (small.trans (by decide)), UInt16.toNat_ofNat_of_lt' small⟩
  · exact fun step v executed reader m member => inv.reader_keeps executed reader member
  · intro v executed
    have acts : w.Acts (.enqueue 0) v := TapWorld.acts_of_exec executed
    cases acts
    rfl

end Runs

/-- The reader with mbuf 1, and mbuf 2 in the pool. -/
def twoMbufs : TapWorld ℕ where
  heap _ := ⟨fun _ => 0, 128, 1, 0, 0, 0, 0, 0, 0, 0, 2176, none, 0⟩
  pool := [2]
  mbuf := 1
  phase := .reading
  ring := []
  held := []
  accepted := []
  obtained := []

/-- The ring is full at first and drops a frame; the next one reaches the consumer,
which frees its mbuf while the reader fills another one. -/
def tapSteps : List (TapStep ℕ) :=
  [.tapRead [0xaa, 0xbb], .setLengths, .enqueue 0, .tapRead [], .tapRead [0xcc], .setLengths,
    .enqueue 1, .dequeue 1, .alloc 2, .tapRead [0xdd, 0xee], .free 1]

theorem tapReader_owns_twoMbufs : ∃ w, (tapSystem [2, 1]).run twoMbufs tapSteps = some w ∧
    w.obtained = [⟨[0xcc], 1, 1⟩] ∧
    w.obtained ++ (w.ring.map fun m => (w.heap m).packet) = w.accepted.map .ofFrame ∧
    (w.pool ++ w.current ++ w.ring ++ w.held).Perm [2, 1] := by
  obtain ⟨w, executed, obtained⟩ : ∃ w, (tapSystem [2, 1]).run twoMbufs tapSteps = some w ∧
      w.obtained = [⟨[0xcc], 1, 1⟩] := ⟨_, rfl, rfl⟩
  have reached : (tapSystem [2, 1]).Reachable w :=
    ⟨twoMbufs, tapSteps, ⟨by decide, .refl _, rfl, rfl, rfl, rfl, rfl⟩, executed⟩
  obtain ⟨partition, -, queued, -⟩ := tapReader_owns reached
  exact ⟨w, executed, obtained, queued, partition⟩

end DpdkCr
