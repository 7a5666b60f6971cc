import DpdkCr.Mbuf.Pool
import DpdkCr.Math.Linked

/-!
# What reference counts count

A buffer is referred to by the packets that it is a segment of and by the buffers that
are attached to it. Its reference count is the number of both, and the buffers without
references are the ones in the mempools. The functions of `rte_mbuf.c` are made of a few
events, each of which changes one buffer: a reference that is given up or passed on from
an attachment to a holder or back. What keeps the account is proved of the events.

## Main definitions

* `MbufHeap.references` — the packets and buffers that refer to a buffer
* `MbufHeap.Accounted` — counts, rooms and mempools agree with the references

## Main results

* `Accounted.alloc`, `Accounted.retain`, `Accounted.dropped` — taking and giving up
* `Accounted.detach`, `Accounted.attach` — attachments that become held and back
* `Accounted.local` — changes that leave references alone
-/

namespace DpdkCr

/-- The buffer that an indirect one is attached to. -/
def Mbuf.owner (m : Mbuf) : Option ℕ := if m.Indirect then some m.rteMbufFromIndirect else none

theorem Mbuf.owner_eq_none {m : Mbuf} : m.owner = none ↔ ¬ m.Indirect := by
  rw [Mbuf.owner]
  split <;> simp_all

theorem Mbuf.owner_of_indirect {m : Mbuf} (indirect : m.Indirect) :
    m.owner = some m.rteMbufFromIndirect := if_pos indirect

/-- Two states of a buffer with the same data room. -/
structure Mbuf.SameRoom (m' m : Mbuf) : Prop where
  olFlags : m'.olFlags = m.olFlags
  bufAddr : m'.bufAddr = m.bufAddr
  privSize : m'.privSize = m.privSize
  bufLen : m'.bufLen = m.bufLen
  pool : m'.pool = m.pool

/-- What a buffer is attached to is told from its data room. -/
theorem Mbuf.SameRoom.owner_eq {m m' : Mbuf} (same : m'.SameRoom m) : m'.owner = m.owner := by
  have flags : m'.Indirect = m.Indirect := by rw [Indirect, Indirect, same.olFlags]
  simp only [owner, flags, rteMbufFromIndirect, same.bufAddr, same.privSize]

/-- A buffer whose data room is its own. -/
structure Mbuf.OwnRoom (mempool : RteMempool) (m : ℕ) (seg : Mbuf) : Prop where
  privSize : seg.privSize = (mempool.priv seg.pool).mbufPrivSize
  bufAddr : seg.bufAddr = m + (sizeofMbuf + seg.privSize.toNat)
  bufLen : seg.bufLen = (mempool.priv seg.pool).mbufDataRoomSize

namespace MbufHeap

variable {mempool : RteMempool} {mbufs : Finset ℕ} {h h' : MbufHeap} {held held' : List ℕ}
variable {m md mi x p refs : ℕ} {change : Mbuf → Mbuf}

@[simp] theorem mbuf_modify_self : (h.modify m change).mbuf m = change (h.mbuf m) :=
  Function.update_self ..

theorem mbuf_modify_of_ne (other : x ≠ m) : (h.modify m change).mbuf x = h.mbuf x :=
  Function.update_of_ne other ..

/-- What a change leaves as it was in the one buffer it left as it was in all. -/
theorem modify_field {β : Type*} (f : Mbuf → β) (same : f (change (h.mbuf m)) = f (h.mbuf m))
    (x : ℕ) : f ((h.modify m change).mbuf x) = f (h.mbuf x) := by
  by_cases this : x = m
  · rw [this, mbuf_modify_self, same]
  · rw [mbuf_modify_of_ne this]

@[simp] theorem free_modify : (h.modify m change).free = h.free := rfl

@[simp] theorem memory_modify : (h.modify m change).memory = h.memory := rfl

theorem modify_modify {change' : Mbuf → Mbuf} :
    (h.modify m change).modify m change' = h.modify m fun seg => change' (change seg) := by
  simp only [modify, Function.update_idem, Function.update_self]

theorem modify_id (same : change (h.mbuf m) = h.mbuf m) : h.modify m change = h := by
  rw [modify, same, Function.update_eq_self]

@[simp] theorem mbuf_rteMbufRawFree : (h.rteMbufRawFree mempool m).mbuf = h.mbuf := rfl

@[simp] theorem memory_rteMbufRawFree : (h.rteMbufRawFree mempool m).memory = h.memory := rfl

/-! ### References -/

/-- How many buffers are attached to one. -/
def attached (h : MbufHeap) (mbufs : Finset ℕ) (m : ℕ) : ℕ :=
  {i ∈ mbufs | (h.mbuf i).owner = some m}.card

/-- How many packets and buffers refer to a buffer. The list holds each segment of each
packet. -/
def references (h : MbufHeap) (mbufs : Finset ℕ) (held : List ℕ) (m : ℕ) : ℕ :=
  held.count m + h.attached mbufs m

theorem attached_congr (same : ∀ i, (h'.mbuf i).owner = (h.mbuf i).owner) :
    h'.attached mbufs m = h.attached mbufs m := by
  rw [attached, attached]
  congr! 3
  rw [same]

theorem attached_modify_same (same : (change (h.mbuf m)).owner = (h.mbuf m).owner) :
    (h.modify m change).attached mbufs x = h.attached mbufs x :=
  attached_congr (modify_field Mbuf.owner same)

/-- What one buffer is attached to changes the attachments of the old and the new one. -/
theorem attached_modify (change : Mbuf → Mbuf) (x : ℕ) (member : m ∈ mbufs) :
    (h.modify m change).attached mbufs x + (if (h.mbuf m).owner = some x then 1 else 0) =
      h.attached mbufs x + (if (change (h.mbuf m)).owner = some x then 1 else 0) := by
  have counted := card_filter_update (f := fun i => (h.mbuf i).owner)
    (g := fun i => ((h.modify m change).mbuf i).owner) member
    (fun i other => by rw [mbuf_modify_of_ne other]) (some x)
  rwa [mbuf_modify_self] at counted

theorem attached_pos (member : m ∈ mbufs) (owned : (h.mbuf m).owner = some md) :
    0 < h.attached mbufs md :=
  Finset.card_pos.mpr ⟨m, Finset.mem_filter.mpr ⟨member, owned⟩⟩

/-! ### The account -/

/-- What holds of a buffer with so many references. -/
structure Sound (mempool : RteMempool) (mbufs : Finset ℕ) (h : MbufHeap) (m refs : ℕ) : Prop where
  pool : (h.mbuf m).pool = mempool.fromObj m
  refcnt : 0 < refs → (h.mbuf m).refcnt.toNat = refs
  unused : refs = 0 → (h.mbuf m).refcnt = 1 ∧ (h.mbuf m).next = none ∧ (h.mbuf m).owner = none
  direct : (h.mbuf m).owner = none → (h.mbuf m).OwnRoom mempool m
  indirect : ∀ md, (h.mbuf m).owner = some md → md ∈ mbufs ∧ (h.mbuf md).owner = none ∧
    (h.mbuf m).bufAddr = (h.mbuf md).bufAddr ∧ (h.mbuf m).bufLen = (h.mbuf md).bufLen
  single : (h.mbuf m).next = none → (h.mbuf m).nbSegs = 1
  room : (h.mbuf m).dataOff.toNat + (h.mbuf m).dataLen.toNat ≤ (h.mbuf m).bufLen.toNat

/-- Reference counts, data rooms and mempools agree with who refers to the buffers. -/
structure Accounted (mempool : RteMempool) (mbufs : Finset ℕ) (h : MbufHeap) (held : List ℕ) :
    Prop where
  known : ∀ m ∈ held, m ∈ mbufs
  sound : ∀ m ∈ mbufs, Sound mempool mbufs h m (h.references mbufs held m)
  free : ∀ p m, m ∈ h.free p ↔
    m ∈ mbufs ∧ (h.mbuf m).pool = p ∧ h.references mbufs held m = 0
  nodup : ∀ p, (h.free p).Nodup

/-- The account is one of how often a buffer is held. -/
theorem Accounted.perm (accounted : Accounted mempool mbufs h held) (same : held.Perm held') :
    Accounted mempool mbufs h held' := by
  have references (m : ℕ) : h.references mbufs held' m = h.references mbufs held m := by
    rw [MbufHeap.references, MbufHeap.references, same.count_eq]
  refine ⟨fun m member => accounted.known m (same.mem_iff.mpr member), ?_, ?_, accounted.nodup⟩
  · intro m member
    rw [references]
    exact accounted.sound m member
  · intro p m
    rw [references]
    exact accounted.free p m

/-- A buffer that is referred to is in no mempool. -/
theorem Accounted.not_free (accounted : Accounted mempool mbufs h held)
    (referred : 0 < h.references mbufs held m) : m ∉ h.free p :=
  fun member => referred.ne' ((accounted.free p m).mp member).2.2

/-- What a change of one buffer has to keep for the buffers that are attached to it. -/
def Serves (h h' : MbufHeap) (m : ℕ) : Prop :=
  (h'.mbuf m).owner = none ∧ (h'.mbuf m).bufAddr = (h.mbuf m).bufAddr ∧
    (h'.mbuf m).bufLen = (h.mbuf m).bufLen

/-- An event changes one buffer, and with it at most the references to that buffer. -/
theorem Accounted.event (accounted : Accounted mempool mbufs h held)
    (others : ∀ x, x ≠ m → h'.mbuf x = h.mbuf x)
    (elsewhere : ∀ x, x ≠ m → h'.references mbufs held' x = h.references mbufs held x)
    (serves : h.attached mbufs m ≠ 0 → Serves h h' m)
    (known : ∀ x ∈ held', x ∈ mbufs)
    (sound : m ∈ mbufs → Sound mempool mbufs h' m (h'.references mbufs held' m))
    (free : ∀ p x, x ∈ h'.free p ↔
      x ∈ mbufs ∧ (h'.mbuf x).pool = p ∧ h'.references mbufs held' x = 0)
    (nodup : ∀ p, (h'.free p).Nodup) : Accounted mempool mbufs h' held' := by
  refine ⟨known, fun x member => ?_, free, nodup⟩
  by_cases this : x = m
  · rw [this] at member ⊢
    exact sound member
  have before := accounted.sound x member
  rw [elsewhere x this]
  refine ⟨?_, ?_, ?_, ?_, ?_, ?_, ?_⟩ <;> rw [others x this]
  · exact before.pool
  · exact before.refcnt
  · exact before.unused
  · exact before.direct
  · intro md owned
    obtain ⟨knownOwner, direct, addr, len⟩ := before.indirect md owned
    by_cases target : md = m
    · rw [target] at owned addr len knownOwner ⊢
      obtain ⟨still, addr', len'⟩ := serves (attached_pos member owned).ne'
      exact ⟨knownOwner, still, addr.trans addr'.symm, len.trans len'.symm⟩
    · rw [others md target]
      exact ⟨knownOwner, direct, addr, len⟩
  · exact before.single
  · exact before.room

/-- An event that takes nothing from the mempools and puts nothing back. -/
theorem Accounted.event_of_free_eq (accounted : Accounted mempool mbufs h held)
    (others : ∀ x, x ≠ m → h'.mbuf x = h.mbuf x)
    (elsewhere : ∀ x, x ≠ m → h'.references mbufs held' x = h.references mbufs held x)
    (serves : h.attached mbufs m ≠ 0 → Serves h h' m)
    (known : ∀ x ∈ held', x ∈ mbufs)
    (sound : m ∈ mbufs → Sound mempool mbufs h' m (h'.references mbufs held' m))
    (free : h'.free = h.free) (before : 0 < h.references mbufs held m)
    (after : 0 < h'.references mbufs held' m) : Accounted mempool mbufs h' held' := by
  refine accounted.event others elsewhere serves known sound (fun p x => ?_)
    (fun p => free ▸ accounted.nodup p)
  rw [free, accounted.free p x]
  by_cases this : x = m
  · rw [this]
    exact iff_of_false (fun unused => before.ne' unused.2.2) (fun unused => after.ne' unused.2.2)
  · rw [others x this, elsewhere x this]

/-! ### Giving up a reference -/

/-- One reference less, of several. -/
def released (h : MbufHeap) (m : ℕ) : MbufHeap :=
  h.modify m fun seg => { seg with refcnt := seg.refcnt + 0xffff }

/-- A buffer as a mempool takes it back. -/
def cleared (seg : Mbuf) : Mbuf := { seg with next := none, nbSegs := 1, refcnt := 1 }

/-- The last reference is given up: the buffer goes back to its mempool. -/
def recycled (mempool : RteMempool) (h : MbufHeap) (m : ℕ) : MbufHeap :=
  (h.modify m cleared).rteMbufRawFree mempool m

/-- A reference is given up. -/
def dropped (mempool : RteMempool) (h : MbufHeap) (m : ℕ) : MbufHeap :=
  if (h.mbuf m).refcnt = 1 then h.recycled mempool m else h.released m

theorem references_cons_self :
    h.references mbufs (m :: held) m = h.references mbufs held m + 1 := by
  rw [references, references, List.count_cons_self]
  omega

theorem references_cons_of_ne (other : x ≠ m) :
    h.references mbufs (m :: held) x = h.references mbufs held x := by
  rw [references, references, List.count_cons_of_ne other.symm]

theorem references_congr (same : ∀ i, (h'.mbuf i).owner = (h.mbuf i).owner) :
    h'.references mbufs held m = h.references mbufs held m := by
  rw [references, references, attached_congr same]

theorem references_modify_same (same : (change (h.mbuf m)).owner = (h.mbuf m).owner) :
    (h.modify m change).references mbufs held x = h.references mbufs held x := by
  rw [references, references, attached_modify_same same]

/-- A count of several that goes down by one. -/
theorem toNat_refcnt_pred {refcnt : UInt16} (positive : 0 < refcnt.toNat) :
    (refcnt + 0xffff).toNat = refcnt.toNat - 1 := by
  have bound := refcnt.toNat_lt
  rw [UInt16.toNat_add]
  change (refcnt.toNat + 65535) % 2 ^ 16 = _
  omega

theorem Sound.modify {k : ℕ} (before : Sound mempool mbufs h m refs)
    (same : (change (h.mbuf m)).SameRoom (h.mbuf m))
    (refcnt : 0 < k → (change (h.mbuf m)).refcnt.toNat = k)
    (unused : k = 0 → (change (h.mbuf m)).refcnt = 1 ∧ (change (h.mbuf m)).next = none ∧
      (h.mbuf m).owner = none)
    (single : (change (h.mbuf m)).next = none → (change (h.mbuf m)).nbSegs = 1)
    (room : (change (h.mbuf m)).dataOff.toNat + (change (h.mbuf m)).dataLen.toNat ≤
      (change (h.mbuf m)).bufLen.toNat) :
    Sound mempool mbufs (h.modify m change) m k := by
  refine ⟨?_, ?_, ?_, ?_, ?_, ?_, ?_⟩ <;> rw [mbuf_modify_self]
  · rw [same.pool, before.pool]
  · exact refcnt
  · rw [same.owner_eq]
    exact unused
  · intro direct
    have own := before.direct (same.owner_eq ▸ direct)
    exact ⟨by rw [same.privSize, same.pool, own.privSize],
      by rw [same.bufAddr, same.privSize, own.bufAddr],
      by rw [same.bufLen, same.pool, own.bufLen]⟩
  · intro md owned
    obtain ⟨known, direct, addr, len⟩ := before.indirect md (same.owner_eq ▸ owned)
    have other : md ≠ m := by
      rintro rfl
      exact absurd ((same.owner_eq.trans direct).symm.trans owned) nofun
    rw [mbuf_modify_of_ne other, same.bufAddr, same.bufLen]
    exact ⟨known, direct, addr, len⟩
  · exact single
  · exact room

/-- Buffers that others are attached to are direct. -/
theorem Accounted.direct_of_attached (accounted : Accounted mempool mbufs h held)
    (served : h.attached mbufs m ≠ 0) : (h.mbuf m).owner = none := by
  obtain ⟨i, attachedTo⟩ := Finset.card_ne_zero.mp served
  obtain ⟨known, owned⟩ := Finset.mem_filter.mp attachedTo
  exact ((accounted.sound i known).indirect m owned).2.1

theorem Accounted.serves_modify (accounted : Accounted mempool mbufs h held)
    (same : (change (h.mbuf m)).SameRoom (h.mbuf m)) (served : h.attached mbufs m ≠ 0) :
    Serves h (h.modify m change) m := by
  rw [Serves, mbuf_modify_self]
  exact ⟨same.owner_eq.trans (accounted.direct_of_attached served), same.bufAddr, same.bufLen⟩

/-- A change that leaves the data room alone, of a buffer that is referred to before and
afterwards. -/
theorem Accounted.modify (accounted : Accounted mempool mbufs h held)
    (same : (change (h.mbuf m)).SameRoom (h.mbuf m))
    (elsewhere : ∀ x, x ≠ m → held'.count x = held.count x)
    (before : 0 < h.references mbufs held m) (after : 0 < h.references mbufs held' m)
    (member : m ∈ mbufs)
    (refcnt : (change (h.mbuf m)).refcnt.toNat = h.references mbufs held' m)
    (single : (change (h.mbuf m)).next = none → (change (h.mbuf m)).nbSegs = 1)
    (room : (change (h.mbuf m)).dataOff.toNat + (change (h.mbuf m)).dataLen.toNat ≤
      (change (h.mbuf m)).bufLen.toNat) :
    Accounted mempool mbufs (h.modify m change) held' := by
  have references (x : ℕ) :
      (h.modify m change).references mbufs held' x = h.references mbufs held' x :=
    references_modify_same same.owner_eq
  refine accounted.event_of_free_eq (fun x other => mbuf_modify_of_ne other) ?_
    (accounted.serves_modify same) ?_ ?_ rfl before (by rw [references]; exact after)
  · intro x other
    rw [references, MbufHeap.references, MbufHeap.references, elsewhere x other]
  · intro x kept
    by_cases this : x = m
    · rw [this]
      exact member
    · refine accounted.known x (List.count_pos_iff.mp ?_)
      rw [← elsewhere x this]
      exact List.count_pos_iff.mpr kept
  · intro _
    rw [references]
    exact (accounted.sound m member).modify same (fun _ => refcnt)
      (fun zero => absurd zero after.ne') single room

/-- A change that leaves alone what the account is about. -/
theorem Accounted.local (accounted : Accounted mempool mbufs h held)
    (same : (change (h.mbuf m)).SameRoom (h.mbuf m)) (member : m ∈ held)
    (refcnt : (change (h.mbuf m)).refcnt = (h.mbuf m).refcnt)
    (single : (change (h.mbuf m)).next = none → (change (h.mbuf m)).nbSegs = 1)
    (room : (change (h.mbuf m)).dataOff.toNat + (change (h.mbuf m)).dataLen.toNat ≤
      (change (h.mbuf m)).bufLen.toNat) :
    Accounted mempool mbufs (h.modify m change) held := by
  have referred : 0 < h.references mbufs held m :=
    Nat.add_pos_left (List.count_pos_iff.mpr member) _
  have known := accounted.known m member
  refine accounted.modify same (fun _ _ => rfl) referred referred known ?_ single room
  rw [refcnt, (accounted.sound m known).refcnt referred]

theorem Accounted.released (accounted : Accounted mempool mbufs h (m :: held))
    (more : 0 < h.references mbufs held m) : Accounted mempool mbufs (h.released m) held := by
  have member := accounted.known m List.mem_cons_self
  have before := accounted.sound m member
  have count := before.refcnt (by rw [references_cons_self]; omega)
  rw [references_cons_self] at count
  refine accounted.modify ⟨rfl, rfl, rfl, rfl, rfl⟩
    (fun x other => (List.count_cons_of_ne other.symm).symm)
    (by rw [references_cons_self]; omega) more member ?_ before.single before.room
  rw [toNat_refcnt_pred (by omega), count, Nat.add_sub_cancel]

/-- A reference more. -/
def retained (h : MbufHeap) (m : ℕ) : MbufHeap :=
  h.modify m fun seg => { seg with refcnt := seg.refcnt + 1 }

theorem Accounted.retained (accounted : Accounted mempool mbufs h held) (member : m ∈ mbufs)
    (referred : 0 < h.references mbufs held m) (fits : h.references mbufs held m < 65535) :
    Accounted mempool mbufs (h.retained m) (m :: held) := by
  have before := accounted.sound m member
  have count := before.refcnt referred
  refine accounted.modify ⟨rfl, rfl, rfl, rfl, rfl⟩
    (fun x other => List.count_cons_of_ne other.symm) referred
    (by rw [references_cons_self]; omega) member ?_ before.single before.room
  rw [references_cons_self, UInt16.toNat_add, count]
  change (h.references mbufs held m + 1) % 2 ^ 16 = _
  omega

theorem Accounted.recycled (accounted : Accounted mempool mbufs h (m :: held))
    (last : h.references mbufs held m = 0) (direct : (h.mbuf m).owner = none) :
    Accounted mempool mbufs (h.recycled mempool m) held := by
  have member := accounted.known m List.mem_cons_self
  have before := accounted.sound m member
  have same : (cleared (h.mbuf m)).SameRoom (h.mbuf m) := ⟨rfl, rfl, rfl, rfl, rfl⟩
  have references (x : ℕ) :
      (h.recycled mempool m).references mbufs held x = h.references mbufs held x := by
    rw [← references_modify_same same.owner_eq]
    exact references_congr fun i => rfl
  have pool (x : ℕ) : ((h.recycled mempool m).mbuf x).pool = (h.mbuf x).pool :=
    modify_field Mbuf.pool same.pool x
  have absent : m ∉ h.free (h.mbuf m).pool :=
    accounted.not_free (by rw [references_cons_self]; omega)
  have returned : (h.recycled mempool m).free = Function.update h.free (h.mbuf m).pool
      (mempool.put (h.free (h.mbuf m).pool) m) := by
    rw [MbufHeap.recycled, rteMbufRawFree, mbuf_modify_self, free_modify, same.pool]
  refine accounted.event (m := m)
    (fun x other => by rw [MbufHeap.recycled, mbuf_rteMbufRawFree, mbuf_modify_of_ne other])
    (fun x other => by rw [references, references_cons_of_ne other]) (accounted.serves_modify same)
    (fun x kept => accounted.known x (List.mem_cons_of_mem m kept)) (fun _ => ?_) ?_ ?_
  · rw [references, last]
    have sound := before.modify (k := 0) same nofun (fun _ => ⟨rfl, rfl, direct⟩)
      (fun _ => rfl) before.room
    exact ⟨sound.pool, sound.refcnt, sound.unused, sound.direct, sound.indirect, sound.single,
      sound.room⟩
  · intro p x
    rw [pool, references, returned]
    by_cases home : p = (h.mbuf m).pool
    · rw [home, Function.update_self, (mempool.put_perm ..).mem_iff, List.mem_cons, accounted.free]
      by_cases this : x = m
      · rw [this]
        exact iff_of_true (.inl rfl) ⟨member, rfl, last⟩
      · rw [or_iff_right this, references_cons_of_ne this]
    · rw [Function.update_of_ne home, accounted.free]
      by_cases this : x = m
      · rw [this]
        exact iff_of_false (fun there => home there.2.1.symm) (fun there => home there.2.1.symm)
      · rw [references_cons_of_ne this]
  · intro p
    rw [returned]
    by_cases home : p = (h.mbuf m).pool
    · rw [home, Function.update_self, (mempool.put_perm ..).nodup_iff]
      exact List.nodup_cons.mpr ⟨absent, accounted.nodup _⟩
    · rw [Function.update_of_ne home]
      exact accounted.nodup p

/-- A reference to a direct buffer can be given up, be it the last or not. -/
theorem Accounted.dropped (accounted : Accounted mempool mbufs h (m :: held))
    (direct : (h.mbuf m).owner = none) : Accounted mempool mbufs (h.dropped mempool m) held := by
  have count := (accounted.sound m (accounted.known m List.mem_cons_self)).refcnt
    (by rw [references_cons_self]; omega)
  rw [references_cons_self] at count
  rw [MbufHeap.dropped]
  by_cases one : (h.mbuf m).refcnt = 1
  · rw [if_pos one]
    rw [one] at count
    exact accounted.recycled (Nat.succ.inj count).symm direct
  · have more : (h.mbuf m).refcnt.toNat ≠ 1 := fun same => one (UInt16.toNat_inj.mp same)
    rw [if_neg one]
    exact accounted.released (by omega)

/-! ### Attachments -/

theorem indirect_attach {seg mi : Mbuf} : (seg.attach mi).Indirect := by
  have absorbed : (seg.olFlags ||| indAttachedMbuf) &&& indAttachedMbuf = indAttachedMbuf := by
    rw [← UInt64.toBitVec_inj, UInt64.toBitVec_and, UInt64.toBitVec_or]
    ext i inside
    rw [BitVec.getElem_and, BitVec.getElem_or]
    cases indAttachedMbuf.toBitVec[i] <;> simp
  exact absorbed.trans_ne (by decide)

theorem owner_detach (seg : Mbuf) : (seg.detach mempool m).owner = none :=
  Mbuf.owner_eq_none.mpr fun indirect => indirect (UInt64.zero_and (a := indAttachedMbuf))

theorem room_resetHeadroom (seg : Mbuf) :
    seg.rtePktmbufResetHeadroom.dataOff.toNat ≤ seg.bufLen.toNat := by
  rw [Mbuf.rtePktmbufResetHeadroom]
  dsimp only
  split
  case isTrue short => exact (UInt16.lt_iff_toNat_lt.mp short).le
  case isFalse => exact le_rfl

/-- An attachment of a buffer with no other reference becomes a reference that is held. -/
theorem Accounted.detach (accounted : Accounted mempool mbufs h (m :: held))
    (last : h.references mbufs held m = 0) (owned : (h.mbuf m).owner = some md) :
    Accounted mempool mbufs (h.modify m (Mbuf.detach mempool m)) (md :: m :: held) := by
  have member := accounted.known m List.mem_cons_self
  have before := accounted.sound m member
  obtain ⟨known, direct, -, -⟩ := before.indirect md owned
  have other : md ≠ m := by
    rintro rfl
    exact absurd (direct.symm.trans owned) nofun
  have unattached : h.attached mbufs m = 0 := by
    by_contra served
    exact absurd ((accounted.direct_of_attached served).symm.trans owned) nofun
  have references (x : ℕ) :
      (h.modify m (Mbuf.detach mempool m)).references mbufs (md :: m :: held) x =
        h.references mbufs (m :: held) x := by
    have moved := attached_modify (h := h) (Mbuf.detach mempool m) x member
    simp only [owned, owner_detach, Option.some.injEq, reduceCtorEq, if_false] at moved
    rw [MbufHeap.references, MbufHeap.references, List.count_cons]
    simp only [beq_iff_eq]
    omega
  have one : h.references mbufs (m :: held) m = 1 := by rw [references_cons_self, last]
  refine accounted.event_of_free_eq (m := m) (fun x apart => mbuf_modify_of_ne apart)
    (fun x _ => references x) (fun served => absurd unattached served) ?_ (fun _ => ?_) rfl
    (by rw [one]; exact Nat.one_pos) (by rw [references, one]; exact Nat.one_pos)
  · rw [List.forall_mem_cons]
    exact ⟨known, accounted.known⟩
  · have count := before.refcnt (by rw [one]; exact Nat.one_pos)
    rw [references]
    refine ⟨?_, fun _ => ?_, fun unused => absurd (one.symm.trans unused) nofun, fun _ => ?_, ?_,
      ?_, ?_⟩ <;> rw [mbuf_modify_self]
    · exact before.pool
    · exact count
    · exact ⟨rfl, rfl, rfl⟩
    · rw [owner_detach]
      exact nofun
    · exact before.single
    · exact (Nat.add_zero _).trans_le (room_resetHeadroom _)

/-- A reference to a direct buffer that is held becomes an attachment of another buffer,
with the data room of the buffer itself or of one that is attached to it. -/
theorem Accounted.attach (accounted : Accounted mempool mbufs h (md :: mi :: held))
    (alone : h.references mbufs (md :: mi :: held) mi = 1) (unowned : (h.mbuf mi).owner = none)
    (direct : (h.mbuf md).owner = none) (member : m ∈ mbufs)
    (serves : m = md ∨ (h.mbuf m).owner = some md) :
    Accounted mempool mbufs (h.modify mi (Mbuf.attach (h.mbuf m))) (mi :: held) ∧
      ∀ x, (h.modify mi (Mbuf.attach (h.mbuf m))).references mbufs (mi :: held) x =
        h.references mbufs (md :: mi :: held) x := by
  have known := accounted.known md List.mem_cons_self
  have memberMi := accounted.known mi (List.mem_cons_of_mem _ List.mem_cons_self)
  have other : md ≠ mi := by
    rintro rfl
    rw [references_cons_self, references_cons_self] at alone
    omega
  rw [references_cons_of_ne other.symm] at alone
  have unattached : h.attached mbufs mi = 0 := by
    rw [references_cons_self, MbufHeap.references] at alone
    omega
  have before := accounted.sound mi memberMi
  rw [references_cons_of_ne other.symm, alone] at before
  have room : (h.mbuf m).bufAddr = (h.mbuf md).bufAddr ∧ (h.mbuf m).bufLen = (h.mbuf md).bufLen ∧
      (h.mbuf m).rteMbufFromIndirect = md := by
    rcases serves with rfl | owned
    · refine ⟨rfl, rfl, ?_⟩
      rw [Mbuf.rteMbufFromIndirect, ((accounted.sound m known).direct direct).bufAddr,
        Nat.add_sub_cancel]
    · obtain ⟨-, -, addr, len⟩ := (accounted.sound m member).indirect md owned
      refine ⟨addr, len, ?_⟩
      rw [Mbuf.owner] at owned
      exact (Option.ite_none_right_eq_some.mp owned).2 |> Option.some.inj
  have owned : ((h.mbuf m).attach (h.mbuf mi)).owner = some md :=
    (Mbuf.owner_of_indirect indirect_attach).trans (congrArg some room.2.2)
  have references (x : ℕ) :
      (h.modify mi (Mbuf.attach (h.mbuf m))).references mbufs (mi :: held) x =
        h.references mbufs (md :: mi :: held) x := by
    have moved := attached_modify (h := h) (Mbuf.attach (h.mbuf m)) x memberMi
    simp only [unowned, owned, Option.some.injEq, reduceCtorEq, if_false] at moved
    rw [MbufHeap.references, MbufHeap.references, List.count_cons (b := md)]
    simp only [beq_iff_eq]
    omega
  have one : h.references mbufs (md :: mi :: held) mi = 1 := by
    rw [references_cons_of_ne other.symm, alone]
  refine ⟨accounted.event_of_free_eq (m := mi) (fun x apart => mbuf_modify_of_ne apart)
    (fun x _ => references x) (fun served => absurd unattached served)
    (fun x kept => accounted.known x (List.mem_cons_of_mem md kept)) (fun _ => ?_) rfl
    (by rw [one]; exact Nat.one_pos) (by rw [references, one]; exact Nat.one_pos), references⟩
  rw [references, one]
  refine ⟨?_, fun _ => ?_, nofun, fun none' => ?_, fun owner same => ?_, fun _ => ?_, ?_⟩ <;>
    rw [mbuf_modify_self] at *
  · exact before.pool
  · exact before.refcnt Nat.one_pos
  · exact absurd (none'.symm.trans owned) nofun
  · obtain rfl := Option.some.inj (owned.symm.trans same)
    rw [mbuf_modify_of_ne other]
    exact ⟨known, direct, room.1, room.2.1⟩
  · rfl
  · exact (accounted.sound m member).room

/-! ### Allocation -/

/-- A buffer that is taken from a mempool. -/
theorem alloc_eq_some (alloc : h.rtePktmbufAlloc mempool p = some (m, h')) :
    ∃ rest, mempool.get (h.free p) = some (m, rest) ∧
      h' = { h with free := Function.update h.free p rest }.modify m Mbuf.rtePktmbufReset := by
  obtain ⟨⟨m', rest⟩, got, same⟩ := Option.map_eq_some_iff.mp alloc
  obtain ⟨rfl, rfl⟩ := Prod.mk.inj same
  exact ⟨rest, got, rfl⟩

theorem Accounted.alloc (accounted : Accounted mempool mbufs h held)
    (alloc : h.rtePktmbufAlloc mempool p = some (m, h')) :
    Accounted mempool mbufs h' (m :: held) ∧ h.references mbufs held m = 0 ∧
      (h'.mbuf m).owner = none ∧ (∀ x, x ≠ m → h'.mbuf x = h.mbuf x) ∧
      ∀ held' x, h'.references mbufs held' x = h.references mbufs held' x := by
  obtain ⟨rest, got, rfl⟩ := alloc_eq_some alloc
  have taken := mempool.get_perm got
  obtain ⟨member, pool, unreferenced⟩ := (accounted.free p m).mp
    (taken.mem_iff.mpr List.mem_cons_self)
  have before := accounted.sound m member
  obtain ⟨one, -, unowned⟩ := before.unused unreferenced
  have own := before.direct unowned
  have reset : ((h.mbuf m).rtePktmbufReset).owner = none :=
    Mbuf.owner_eq_none.mpr fun indirect => indirect (UInt64.zero_and (a := indAttachedMbuf))
  set h' := { h with free := Function.update h.free p rest }.modify m Mbuf.rtePktmbufReset
  have self : h'.mbuf m = (h.mbuf m).rtePktmbufReset := mbuf_modify_self
  have others (x : ℕ) (other : x ≠ m) : h'.mbuf x = h.mbuf x := mbuf_modify_of_ne other
  have once : (m :: rest).Nodup := taken.nodup_iff.mp (accounted.nodup p)
  have there : h'.free p = rest := Function.update_self ..
  have elsewhere (q : ℕ) (other : q ≠ p) : h'.free q = h.free q := Function.update_of_ne other ..
  have attached (x : ℕ) : h'.attached mbufs x = h.attached mbufs x := by
    refine attached_congr fun i => ?_
    by_cases this : i = m
    · rw [this, self, reset, unowned]
    · rw [others i this]
  have references (held' : List ℕ) (x : ℕ) :
      h'.references mbufs held' x = h.references mbufs held' x := by
    rw [MbufHeap.references, MbufHeap.references, attached]
  refine ⟨?_, unreferenced, (congrArg Mbuf.owner self).trans reset, others, references⟩
  refine accounted.event others (fun x other => by rw [references, references_cons_of_ne other])
    (fun served => absurd (Nat.eq_zero_of_add_eq_zero_left unreferenced) served)
    (List.forall_mem_cons.mpr ⟨member, accounted.known⟩) (fun _ => ?_) (fun q x => ?_) (fun q => ?_)
  · rw [references, references_cons_self, unreferenced]
    refine ⟨?_, fun _ => ?_, nofun, fun _ => ?_, fun md owned => ?_, fun _ => ?_, ?_⟩ <;>
      rw [self] at *
    · exact before.pool
    · rw [Nat.zero_add]
      exact congrArg UInt16.toNat one
    · exact ⟨own.privSize, own.bufAddr, own.bufLen⟩
    · exact absurd (reset.symm.trans owned) nofun
    · rfl
    · exact (Nat.add_zero _).trans_le (room_resetHeadroom _)
  · have same : (h'.mbuf x).pool = (h.mbuf x).pool := by
      by_cases this : x = m
      · rw [this, self]
        rfl
      · rw [others x this]
    rw [same, references]
    by_cases home : q = p
    · rw [home, there]
      by_cases this : x = m
      · rw [this, references_cons_self]
        exact iff_of_false (List.nodup_cons.mp once).1 (fun unused => absurd unused.2.2 nofun)
      · rw [references_cons_of_ne this, ← accounted.free, taken.mem_iff, List.mem_cons,
          or_iff_right this]
    · rw [elsewhere q home, accounted.free]
      by_cases this : x = m
      · rw [this]
        exact iff_of_false (fun unused => home (unused.2.1.symm.trans pool))
          (fun unused => home (unused.2.1.symm.trans pool))
      · rw [references_cons_of_ne this]
  · by_cases home : q = p
    · rw [home, there]
      exact (List.nodup_cons.mp once).2
    · rw [elsewhere q home]
      exact accounted.nodup q

end MbufHeap

end DpdkCr
