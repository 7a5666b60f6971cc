import DpdkCr.Mbuf.Packets

/-!
# Runs of an application

What holds after any calls in any order: packets are byte strings that are changed one at
a time, reference counts count references, buffers without references are in their
mempools, and a clone that cannot be finished has no effect.

## Main results

* `run_packetSystem` — runs are runs of byte strings
* `exec_of_enabled` — a call that the rules allow ends
* `refcnt_of_reachable`, `init_of_no_packets` — no buffer is lost or freed twice
* `exec_clone_failed` — what a clone that fails leaves
-/

namespace DpdkCr

open Semantics MbufHeap

variable {mempool : RteMempool} {cpuflag : Cpuflag} {mbufs : Finset ℕ} {s t : PktState}
variable {ps : List (ℕ × List ℕ)} {a : PktAction} {done : Bool} {w : List (PktAction × Bool)}
variable {h h' : MbufHeap} {held : List ℕ} {m p i : ℕ}

/-! ### A mempool of three buffers -/

/-- A mempool that gives out what was given back last. Its data rooms have 256 bytes. -/
def lastFreed : RteMempool where
  get
    | [] => none
    | m :: rest => some (m, rest)
  put free m := m :: free
  priv _ := ⟨256, 0⟩
  fromObj _ := 0
  get_perm {free m rest} got := by
    cases free with
    | nil => exact absurd got nofun
    | cons =>
        obtain ⟨rfl, rfl⟩ := Prod.mk.inj (Option.some.inj got)
        exact .refl _
  put_perm _ _ := .refl _

def threeBuffers : Finset ℕ := {0x1000, 0x2000, 0x3000}

/-- A buffer in the mempool. -/
def unusedMbuf (m : ℕ) : Mbuf where
  bufAddr := m + 128
  dataOff := 128
  refcnt := 1
  nbSegs := 1
  port := 0xffff
  olFlags := 0
  packetType := 0
  pktLen := 0
  dataLen := 0
  vlanTci := 0
  hash := 0
  vlanTciOuter := 0
  bufLen := 256
  timestamp := 0
  pool := 0
  next := none
  txOffload := 0
  privSize := 0

def noPackets : PktState where
  heap :=
    { mbuf := unusedMbuf
      free := fun p => if p = 0 then [0x1000, 0x2000, 0x3000] else []
      memory := fun _ => 0 }
  packets := []

/-- The application with the three buffers. -/
abbrev threePackets : System PktState (PktAction × Bool) :=
  packetSystem lastFreed .avx2 threeBuffers

theorem roomsApart_threeBuffers : RoomsApart lastFreed threeBuffers := by
  rw [RoomsApart]
  decide

theorem init_noPackets : threePackets.Init noPackets := by
  have direct : ¬ ((0 : UInt64) &&& indAttachedMbuf ≠ 0) := by decide
  have room : (128 : UInt16).toNat + (0 : UInt16).toNat ≤ (256 : UInt16).toNat := by decide
  refine ⟨rfl, ⟨fun _ _ => ⟨rfl, rfl, rfl⟩, fun _ _ => ⟨direct, ⟨rfl, rfl, rfl⟩, rfl⟩,
    fun _ _ => room, fun p m => ?_, fun p => ?_⟩⟩
  · by_cases here : p = 0
    · simp [noPackets, here, threeBuffers, lastFreed]
    · simp [noPackets, here, lastFreed, Ne.symm here]
  · by_cases here : p = 0
    · simp [noPackets, here]
    · simp [noPackets, here]

/-- A packet, a clone of it with its first byte taken off, and another one behind that. -/
def someCalls : List (PktAction × Bool) :=
  [(.alloc 0, true), (.append 0 [3, 4, 5], true), (.prepend 0 [7], true), (.clone 0 0, true),
    (.adj 1 1, true), (.alloc 0, true), (.append 2 [9], true), (.chain 1 2, true)]

def somePackets : PktState := (threePackets.run noPackets someCalls).get (by decide +kernel)

theorem run_someCalls : threePackets.run noPackets someCalls = some somePackets :=
  (Option.some_get _).symm

theorem reachable_somePackets : threePackets.Reachable somePackets :=
  ⟨noPackets, someCalls, init_noPackets, run_someCalls⟩

/-! ### Steps -/

theorem exec_packetSystem_eq_some :
    (packetSystem mempool cpuflag mbufs).exec s (a, done) = some t ↔
      s.Enabled (mbufs.card + 1) a ∧
        s.perform mempool cpuflag (mbufs.card + 1) a = some (done, t) := by
  rw [packetSystem]
  dsimp only
  rw [Option.ite_none_right_eq_some, Option.bind_eq_some_iff]
  refine and_congr_right fun _ => ⟨?_, fun performed => ⟨_, performed, if_pos rfl⟩⟩
  rintro ⟨⟨done', t'⟩, performed, same⟩
  rw [Option.ite_none_right_eq_some, Option.some_inj] at same
  obtain ⟨rfl, rfl⟩ := same
  exact performed

theorem Held.exec (apart : RoomsApart mempool mbufs) (held : Held mempool mbufs s ps)
    (step : (packetSystem mempool cpuflag mbufs).exec s (a, done) = some t) :
    (∃ qs, Held mempool mbufs t qs) ∧ byteStrings.exec (s.contents (mbufs.card + 1)) (a, done) =
      some (t.contents (mbufs.card + 1)) := by
  obtain ⟨enabled, performed⟩ := exec_packetSystem_eq_some.mp step
  have refined : Refines mempool cpuflag mbufs (mbufs.card + 1) s a :=
    held.refines apart (Nat.lt_succ_self _) enabled
  obtain ⟨done', t', performed', held', same⟩ := refined
  rw [performed, Option.some_inj, Prod.mk.injEq] at performed'
  obtain ⟨rfl, rfl⟩ := performed'
  exact ⟨held', congrArg some same.symm⟩

theorem held_of_reachable (apart : RoomsApart mempool mbufs)
    (reached : (packetSystem mempool cpuflag mbufs).Reachable s) :
    ∃ ps, Held mempool mbufs s ps := by
  refine reached.invariant (P := fun s => ∃ ps, Held mempool mbufs s ps) ?_ ?_
  · rintro s ⟨none', fresh⟩
    exact ⟨[], none', nofun, fresh.accounted⟩
  · rintro s ⟨a, done⟩ t ⟨ps, held⟩ step
    exact (held.exec apart step).1

/-! ### Contents -/

/-- Whatever is called in whatever order, packets are byte strings. -/
theorem run_packetSystem (apart : RoomsApart mempool mbufs)
    (reached : (packetSystem mempool cpuflag mbufs).Reachable s)
    (executed : (packetSystem mempool cpuflag mbufs).run s w = some t) :
    byteStrings.run (s.contents (mbufs.card + 1)) w = some (t.contents (mbufs.card + 1)) := by
  induction w generalizing s with
  | nil =>
      rw [System.run_nil, Option.some_inj] at executed
      exact executed ▸ rfl
  | cons a w ih =>
      obtain ⟨next, step, rest⟩ := System.run_cons_eq_some.mp executed
      obtain ⟨ps, held⟩ := held_of_reachable apart reached
      exact System.run_cons_eq_some.mpr
        ⟨_, (held.exec apart step).2, ih (reached.step step) rest⟩

theorem run_packetSystem_someCalls :
    byteStrings.run [] someCalls = some (somePackets.contents 4) :=
  run_packetSystem roomsApart_threeBuffers (.init init_noPackets) run_someCalls

example : somePackets.contents 4 = [[7, 3, 4, 5], [3, 4, 5, 9]] := by decide +kernel

/-- No loop runs out of fuel, and no pointer is missing. -/
theorem exec_of_enabled (apart : RoomsApart mempool mbufs)
    (reached : (packetSystem mempool cpuflag mbufs).Reachable s)
    (enabled : s.Enabled (mbufs.card + 1) a) :
    ∃ done t, (packetSystem mempool cpuflag mbufs).exec s (a, done) = some t := by
  obtain ⟨ps, held⟩ := held_of_reachable apart reached
  have refined : Refines mempool cpuflag mbufs (mbufs.card + 1) s a :=
    held.refines apart (Nat.lt_succ_self _) enabled
  obtain ⟨done, t, performed, -⟩ := refined
  exact ⟨done, t, exec_packetSystem_eq_some.mpr ⟨enabled, performed⟩⟩

theorem exec_of_enabled_free : ∃ done t, threePackets.exec somePackets (.free 0, done) = some t :=
  exec_of_enabled roomsApart_threeBuffers reachable_somePackets (by decide +kernel)

/-! ### Buffers -/

theorem Held.segments (held : Held mempool mbufs s ps) :
    s.packets.flatMap (s.segments (mbufs.card + 1)) = ps.flatMap Prod.snd := by
  rw [held.packets, List.flatMap_map]
  exact List.flatMap_congr fun p member => held.segments_eq member (Nat.le_succ _)

/-- A buffer counts the packets that it is in and the buffers that are attached to it. If
there are any, it is in no mempool, and otherwise it is once in its own. -/
theorem refcnt_of_reachable (apart : RoomsApart mempool mbufs)
    (reached : (packetSystem mempool cpuflag mbufs).Reachable s) (member : m ∈ mbufs) :
    let refs := s.heap.references mbufs (s.packets.flatMap (s.segments (mbufs.card + 1))) m
    (refs ≠ 0 → (s.heap.mbuf m).refcnt.toNat = refs) ∧
      ∀ p, (s.heap.free p).count m = if refs = 0 ∧ mempool.fromObj m = p then 1 else 0 := by
  obtain ⟨ps, held⟩ := held_of_reachable apart reached
  rw [held.segments]
  have sound := held.accounted.sound m member
  refine ⟨fun some' => sound.refcnt (Nat.pos_of_ne_zero some'), fun p => ?_⟩
  have free := held.accounted.free p m
  rw [sound.pool] at free
  split
  case isTrue this =>
      exact List.count_eq_one_of_mem (held.accounted.nodup p)
        (free.mpr ⟨member, this.2, this.1⟩)
  case isFalse this =>
      exact List.count_eq_zero.mpr fun there =>
        this ⟨(free.mp there).2.2, (free.mp there).2.1⟩

/-- The data room of the first buffer is used by the packet and by its clone. -/
theorem refcnt_of_reachable_threeBuffers :
    let refs := somePackets.heap.references threeBuffers
      (somePackets.packets.flatMap (somePackets.segments 4)) 0x1000
    (refs ≠ 0 → (somePackets.heap.mbuf 0x1000).refcnt.toNat = refs) ∧
      ∀ p, (somePackets.heap.free p).count 0x1000 =
        if refs = 0 ∧ lastFreed.fromObj 0x1000 = p then 1 else 0 :=
  refcnt_of_reachable roomsApart_threeBuffers reachable_somePackets (by decide)

/-- Only buffers of packets are attached to others. -/
theorem MbufHeap.Accounted.held_of_owner (accounted : Accounted mempool mbufs h held)
    (member : m ∈ mbufs) (owned : (h.mbuf m).owner = some p) : m ∈ held := by
  by_contra away
  have referred : h.references mbufs held m ≠ 0 := fun none' =>
    absurd (((accounted.sound m member).unused none').2.2.symm.trans owned)
      (Option.some_ne_none p).symm
  rw [references, List.count_eq_zero.mpr away, Nat.zero_add, MbufHeap.attached,
    Finset.card_ne_zero] at referred
  -- What is attached to is not attached itself.
  obtain ⟨x, there⟩ := referred
  obtain ⟨known, owned'⟩ := Finset.mem_filter.mp there
  exact absurd (((accounted.sound x known).indirect m owned').2.1.symm.trans owned)
    (Option.some_ne_none p).symm

/-- When all packets have been freed, everything is as it was before the first was
allocated. -/
theorem init_of_no_packets (apart : RoomsApart mempool mbufs)
    (reached : (packetSystem mempool cpuflag mbufs).Reachable s) (none' : s.packets = []) :
    (packetSystem mempool cpuflag mbufs).Init s := by
  obtain ⟨ps, held⟩ := held_of_reachable apart reached
  have empty : ps = [] := by
    rw [held.packets, List.map_eq_nil_iff] at none'
    exact none'
  have accounted := held.accounted
  rw [empty, List.flatMap_nil] at accounted
  have unowned (m : ℕ) (member : m ∈ mbufs) : (s.heap.mbuf m).owner = none := by
    by_contra owned
    obtain ⟨p, owned⟩ := Option.ne_none_iff_exists'.mp owned
    exact List.not_mem_nil (accounted.held_of_owner member owned)
  have unreferenced (m : ℕ) : s.heap.references mbufs [] m = 0 := by
    rw [references, List.count_nil, Nat.zero_add, attached, Finset.card_eq_zero,
      Finset.filter_eq_empty_iff]
    intro i member owned
    exact absurd ((unowned i member).symm.trans owned) (Option.some_ne_none m).symm
  refine ⟨none', ⟨fun m member => ?_, fun m member => ?_, fun m member => ?_, fun p m => ?_,
    accounted.nodup⟩⟩
  · have sound := accounted.sound m member
    obtain ⟨one, last, -⟩ := sound.unused (unreferenced m)
    exact ⟨one, last, sound.single last⟩
  · have sound := accounted.sound m member
    exact ⟨Mbuf.owner_eq_none.mp (unowned m member), sound.direct (unowned m member), sound.pool⟩
  · exact (accounted.sound m member).room
  · rw [accounted.free p m, unreferenced]
    refine and_congr_right fun member => ?_
    rw [(accounted.sound m member).pool, and_iff_left rfl]

theorem init_of_no_packets_freed :
    ∃ t, threePackets.run somePackets [(.free 0, true), (.free 0, true)] = some t ∧
      threePackets.Init t := by
  have packets : (threePackets.run somePackets [(.free 0, true), (.free 0, true)]).map
      PktState.packets = some [] := by decide +kernel
  obtain ⟨t, freed, none'⟩ := Option.map_eq_some_iff.mp packets
  exact ⟨t, freed,
    init_of_no_packets roomsApart_threeBuffers (reachable_somePackets.run freed) none'⟩

/-- Buffers that only lost and got back references are as they were, and what is in the
mempools is what was. -/
theorem MbufHeap.Accounted.recovered (before : Accounted mempool mbufs h held)
    (after : Accounted mempool mbufs h' held) (spares : Spares h h' held) :
    (∀ x ∈ held, h'.mbuf x = h.mbuf x) ∧ ∀ p, (h'.free p).Perm (h.free p) := by
  have owner (i : ℕ) (member : i ∈ mbufs) (x : ℕ) :
      (h'.mbuf i).owner = some x ↔ (h.mbuf i).owner = some x := by
    constructor
    · intro owned
      rw [← owned, (spares.kept i (after.held_of_owner member owned)).owner_eq]
    · intro owned
      rw [← owned, (spares.kept i (before.held_of_owner member owned)).owner_eq]
  have references (x : ℕ) : h'.references mbufs held x = h.references mbufs held x := by
    rw [MbufHeap.references, MbufHeap.references, MbufHeap.attached, MbufHeap.attached,
      Finset.filter_congr fun i member => owner i member x]
  refine ⟨fun x member => ?_, fun p => ?_⟩
  · have known := before.known x member
    obtain ⟨refcnt, same⟩ := spares.kept x member
    have count : (h'.mbuf x).refcnt = (h.mbuf x).refcnt := by
      rw [← UInt16.toNat_inj, before.refcnt_eq known (references_pos member),
        after.refcnt_eq known (references_pos member), references]
    rw [same] at count ⊢
    rw [show refcnt = (h.mbuf x).refcnt from count]
  · refine (List.perm_ext_iff_of_nodup (after.nodup p) (before.nodup p)).mpr fun m => ?_
    rw [after.free, before.free, references]
    refine and_congr_right fun member => ?_
    rw [(after.sound m member).pool, (before.sound m member).pool]

/-- A clone that cannot be finished leaves no trace. -/
theorem exec_clone_failed (apart : RoomsApart mempool mbufs)
    (reached : (packetSystem mempool cpuflag mbufs).Reachable s)
    (step : (packetSystem mempool cpuflag mbufs).exec s (.clone i p, false) = some t) :
    t.packets = s.packets ∧ t.heap.memory = s.heap.memory ∧
      (∀ m ∈ s.packets, ∀ x ∈ s.segments (mbufs.card + 1) m, t.heap.mbuf x = s.heap.mbuf x) ∧
      ∀ mp, (t.heap.free mp).Perm (s.heap.free mp) := by
  obtain ⟨ps, held⟩ := held_of_reachable apart reached
  obtain ⟨enabled, performed⟩ := exec_packetSystem_eq_some.mp step
  obtain ⟨q, mc, h', -, performed', spares, outcome⟩ :=
    held.clone cpuflag (Nat.lt_succ_self _) enabled
  rw [performed, Option.some_inj, Prod.mk.injEq] at performed'
  obtain ⟨failed, rfl⟩ := performed'
  obtain rfl : mc = none := Option.isNone_iff_eq_none.mp (Option.isSome_eq_false_iff.mp failed.symm)
  obtain ⟨same, free⟩ := held.accounted.recovered outcome spares
  refine ⟨List.append_nil _, spares.memory, fun m pointer x inside => same x ?_, free⟩
  rw [← held.segments]
  exact List.mem_flatMap.mpr ⟨m, pointer, inside⟩

/-- A packet of two segments, with one buffer left. -/
def chainCalls : List (PktAction × Bool) :=
  [(.alloc 0, true), (.append 0 [3], true), (.alloc 0, true), (.append 1 [9], true),
    (.chain 0 1, true)]

def twoSegments : PktState := (threePackets.run noPackets chainCalls).get (by decide +kernel)

/-- The clone of the first segment takes the buffer that is left, and is given back when there
is none for the second. -/
theorem exec_clone_failed_twoSegments :
    twoSegments.segments 4 0x1000 = [0x1000, 0x2000] ∧ twoSegments.heap.free 0 = [0x3000] ∧
    ∃ t, threePackets.exec twoSegments (.clone 0 0, false) = some t ∧
      t.packets = twoSegments.packets ∧ t.heap.memory = twoSegments.heap.memory ∧
      (∀ m ∈ twoSegments.packets, ∀ x ∈ twoSegments.segments 4 m,
        t.heap.mbuf x = twoSegments.heap.mbuf x) ∧
      ∀ mp, (t.heap.free mp).Perm (twoSegments.heap.free mp) := by
  have executed : threePackets.run noPackets chainCalls = some twoSegments :=
    (Option.some_get _).symm
  have reached : threePackets.Reachable twoSegments :=
    ⟨noPackets, chainCalls, init_noPackets, executed⟩
  obtain ⟨t, step⟩ := Option.isSome_iff_exists.mp
    (show (threePackets.exec twoSegments (.clone 0 0, false)).isSome by decide +kernel)
  exact ⟨by decide +kernel, by decide +kernel, t, step,
    exec_clone_failed roomsApart_threeBuffers reached step⟩

end DpdkCr
