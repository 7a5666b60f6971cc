import DpdkCr.Mbuf.Accounting

/-!
# Freeing packets

What the functions that free do to the account. Freeing a segment gives up the reference
of its holder, and with the last one what the segment is attached to; a packet is freed
segment by segment. Buffers that are still held keep everything but their counts, so
whatever was said about the packets that they make up still holds.

## Main definitions

* `MbufHeap.Kept` — a buffer that is the same but for its reference count
* `MbufHeap.chained` — the segments behind a pointer

## Main results

* `rtePktmbufFreeSeg_eq` — freeing a segment as giving up one reference or two
* `Accounted.freeSeg`, `Accounted.freed` — the account after freeing
-/

namespace DpdkCr

open Semantics

namespace MbufHeap

variable {mempool : RteMempool} {mbufs : Finset ℕ} {h h' h'' : MbufHeap} {held as : List ℕ}
variable {m md x p refs : ℕ} {change change' : Mbuf → Mbuf}

/-! ### Giving up one reference -/

theorem modify_congr (same : change (h.mbuf m) = change' (h.mbuf m)) :
    h.modify m change = h.modify m change' := by
  rw [modify, modify, same]

theorem refcnt_pred_eq_zero {refcnt : UInt16} : refcnt + 0xffff = 0 ↔ refcnt = 1 := by
  have last : (1 : UInt16) + 0xffff = 0 := by decide
  rw [← last, UInt16.add_left_inj]

theorem memory_dropped : (h.dropped mempool m).memory = h.memory := by
  rw [dropped]
  split <;> rfl

theorem mbuf_dropped_of_ne (other : x ≠ m) : (h.dropped mempool m).mbuf x = h.mbuf x := by
  rw [dropped]
  split
  case isTrue => exact mbuf_modify_of_ne other
  case isFalse => exact mbuf_modify_of_ne other

theorem rteMbufRefcntUpdate_one : (h.rteMbufRefcntUpdate m 1).2 = h.retained m := by
  rw [rteMbufRefcntUpdate, retained]
  split
  case isTrue one =>
      change h.modify m (fun seg => { seg with refcnt := 1 + 1 }) = _
      refine modify_congr ?_
      rw [one]
  case isFalse =>
      dsimp only
      exact modify_congr rfl

/-- Detaching gives up the reference to the buffer that was attached to. -/
theorem rtePktmbufDetach_eq :
    h.rtePktmbufDetach mempool m =
      (h.modify m (Mbuf.detach mempool m)).dropped mempool (h.mbuf m).rteMbufFromIndirect := by
  rw [rtePktmbufDetach]
  dsimp only
  generalize (h.mbuf m).rteMbufFromIndirect = md
  generalize h.modify m (Mbuf.detach mempool m) = g
  rw [dropped, rteMbufRefcntUpdate]
  by_cases one : (g.mbuf md).refcnt = 1
  · rw [if_pos one, if_pos one, if_pos (refcnt_pred_eq_zero.mpr rfl), modify_modify, modify_modify]
    rfl
  · rw [if_neg one, if_neg one, if_neg (refcnt_pred_eq_zero.not.mpr one), released]
    dsimp only
    exact modify_congr rfl

theorem cleared_eq_self {seg : Mbuf} (one : seg.refcnt = 1) (last : seg.next = none)
    (single : seg.nbSegs = 1) : cleared seg = seg := by
  cases seg
  subst one last single
  rfl

/-- A buffer with one reference that is cut off from the next is ready for its mempool. -/
private theorem cut_eq (one : (h.mbuf m).refcnt = 1)
    (single : (h.mbuf m).next = none → (h.mbuf m).nbSegs = 1) :
    (if (h.mbuf m).next ≠ none then h.modify m fun seg => { seg with next := none, nbSegs := 1 }
      else h) = h.modify m cleared := by
  split
  case isTrue =>
      refine modify_congr ?_
      rw [cleared, one]
  case isFalse last =>
      have next := not_not.mp last
      exact (modify_id (cleared_eq_self one next (single next))).symm

/-- Freeing a segment gives up the reference to it, and with the last one also what the
segment is attached to. -/
theorem rtePktmbufFreeSeg_eq (single : (h.mbuf m).next = none → (h.mbuf m).nbSegs = 1)
    (other : (h.mbuf m).owner ≠ some m) :
    h.rtePktmbufFreeSeg mempool m =
      if (h.mbuf m).Indirect ∧ (h.mbuf m).refcnt = 1 then
        ((h.modify m (Mbuf.detach mempool m)).dropped mempool
          (h.mbuf m).rteMbufFromIndirect).dropped mempool m
      else h.dropped mempool m := by
  rw [rtePktmbufFreeSeg, rtePktmbufPrefreeSeg]
  by_cases one : (h.mbuf m).refcnt = 1
  · rw [if_pos one]
    by_cases indirect : (h.mbuf m).Indirect
    · have apart : m ≠ (h.mbuf m).rteMbufFromIndirect := fun same =>
        other (by rw [Mbuf.owner_of_indirect indirect, ← same])
      rw [if_pos ⟨indirect, one⟩, unlink, if_pos indirect, rtePktmbufDetach_eq]
      generalize detached : (h.modify m (Mbuf.detach mempool m)).dropped mempool
        (h.mbuf m).rteMbufFromIndirect = g
      have self : g.mbuf m = (h.mbuf m).detach mempool m := by
        rw [← detached, mbuf_dropped_of_ne apart, mbuf_modify_self]
      have same : (g.mbuf m).refcnt = 1 := by
        rw [self]
        exact one
      rw [cut_eq same (by rw [self]; exact single), dropped, if_pos same]
      rfl
    · rw [if_neg (fun both => indirect both.1), unlink, if_neg indirect, cut_eq one single, dropped,
        if_pos one]
      rfl
  · rw [if_neg one, if_neg (refcnt_pred_eq_zero.not.mpr one), if_neg (fun both => one both.2),
      dropped, if_neg one, released]
    exact modify_congr rfl

/-! ### What is left alone -/

/-- A buffer that is the same but for its reference count. -/
def Kept (h h' : MbufHeap) (m : ℕ) : Prop :=
  ∃ refcnt, h'.mbuf m = { h.mbuf m with refcnt := refcnt }

theorem Kept.of_eq (same : h'.mbuf m = h.mbuf m) : Kept h h' m := ⟨(h.mbuf m).refcnt, same⟩

theorem Kept.trans (first : Kept h h' m) (second : Kept h' h'' m) : Kept h h'' m := by
  obtain ⟨_, same⟩ := first
  obtain ⟨refcnt, same'⟩ := second
  exact ⟨refcnt, by rw [same', same]⟩

theorem Kept.next_eq (kept : Kept h h' m) : (h'.mbuf m).next = (h.mbuf m).next := by
  obtain ⟨_, same⟩ := kept
  rw [same]

theorem Kept.owner_eq (kept : Kept h h' m) : (h'.mbuf m).owner = (h.mbuf m).owner := by
  obtain ⟨_, same⟩ := kept
  rw [same]
  rfl

/-- Packets that are made of these segments are as they were. -/
structure Spares (h h' : MbufHeap) (held : List ℕ) : Prop where
  memory : h'.memory = h.memory
  kept : ∀ x ∈ held, Kept h h' x

theorem Spares.refl (h : MbufHeap) (held : List ℕ) : Spares h h held :=
  ⟨rfl, fun _ _ => Kept.of_eq rfl⟩

theorem Spares.trans (first : Spares h h' held) (second : Spares h' h'' held) :
    Spares h h'' held :=
  ⟨second.memory.trans first.memory, fun x kept => (first.kept x kept).trans (second.kept x kept)⟩

theorem Spares.subset (spares : Spares h h' held) (fewer : as ⊆ held) : Spares h h' as :=
  ⟨spares.memory, fun x kept => spares.kept x (fewer kept)⟩

theorem references_pos (member : m ∈ held) : 0 < h.references mbufs held m :=
  Nat.add_pos_left (List.count_pos_iff.mpr member) _

theorem Accounted.refcnt_eq (accounted : Accounted mempool mbufs h held) (member : m ∈ mbufs)
    (referred : 0 < h.references mbufs held m) :
    (h.mbuf m).refcnt.toNat = h.references mbufs held m :=
  (accounted.sound m member).refcnt referred

theorem Accounted.kept_dropped (accounted : Accounted mempool mbufs h (m :: held))
    (referred : 0 < h.references mbufs held x) : Kept h (h.dropped mempool m) x := by
  by_cases this : x = m
  · rw [this] at referred ⊢
    have count := accounted.refcnt_eq (accounted.known m List.mem_cons_self)
      (references_pos List.mem_cons_self)
    have several : (h.mbuf m).refcnt ≠ 1 := by
      intro one
      rw [one, references_cons_self] at count
      exact absurd (Nat.succ.inj count) referred.ne
    rw [MbufHeap.dropped, if_neg several]
    exact ⟨_, mbuf_modify_self⟩
  · exact .of_eq (mbuf_dropped_of_ne this)

theorem Accounted.spares_dropped (accounted : Accounted mempool mbufs h (m :: held)) :
    Spares h (h.dropped mempool m) held :=
  ⟨memory_dropped, fun _ member => accounted.kept_dropped (references_pos member)⟩

theorem Accounted.owner_ne_self (accounted : Accounted mempool mbufs h held) (member : m ∈ mbufs) :
    (h.mbuf m).owner ≠ some m := by
  intro owned
  exact absurd (((accounted.sound m member).indirect m owned).2.1.symm.trans owned) nofun

/-! ### Freeing -/

/-- Freeing a segment keeps the account of the segments that are still held. -/
theorem Accounted.freeSeg (accounted : Accounted mempool mbufs h (m :: held)) :
    Accounted mempool mbufs (h.rtePktmbufFreeSeg mempool m) held ∧
      Spares h (h.rtePktmbufFreeSeg mempool m) held := by
  have member := accounted.known m List.mem_cons_self
  have before := accounted.sound m member
  rw [rtePktmbufFreeSeg_eq before.single (accounted.owner_ne_self member)]
  split
  case isTrue alone =>
      obtain ⟨indirect, one⟩ := alone
      have owned := Mbuf.owner_of_indirect indirect
      set md := (h.mbuf m).rteMbufFromIndirect
      have last : h.references mbufs held m = 0 := by
        have count := accounted.refcnt_eq member (references_pos List.mem_cons_self)
        rw [one, references_cons_self] at count
        exact (Nat.succ.inj count).symm
      have apart : ∀ x ∈ held, x ≠ m := by
        rintro x kept rfl
        exact (references_pos kept).ne' last
      have other : md ≠ m := fun same => accounted.owner_ne_self member (same ▸ owned)
      -- the attachment is held for a moment, and then given up like any reference
      have detached := accounted.detach last owned
      have direct : ((h.modify m (Mbuf.detach mempool m)).mbuf md).owner = none := by
        rw [mbuf_modify_of_ne other]
        exact (before.indirect md owned).2.1
      have given := detached.dropped direct
      have unowned : (((h.modify m (Mbuf.detach mempool m)).dropped mempool md).mbuf m).owner =
          none := by
        rw [mbuf_dropped_of_ne other.symm, mbuf_modify_self, owner_detach]
      refine ⟨given.dropped unowned, ?_⟩
      have cut : Spares h (h.modify m (Mbuf.detach mempool m)) held :=
        ⟨rfl, fun x kept => .of_eq (mbuf_modify_of_ne (apart x kept))⟩
      exact (cut.trans (detached.spares_dropped.subset (List.subset_cons_self m held))).trans
        given.spares_dropped
  case isFalse several =>
      refine ⟨?_, accounted.spares_dropped⟩
      by_cases direct : (h.mbuf m).owner = none
      · exact accounted.dropped direct
      have indirect := not_not.mp (Mbuf.owner_eq_none.not.mp direct)
      have count := accounted.refcnt_eq member (references_pos List.mem_cons_self)
      have more : (h.mbuf m).refcnt ≠ 1 := fun one => several ⟨indirect, one⟩
      rw [references_cons_self] at count
      rw [MbufHeap.dropped, if_neg more]
      refine accounted.released (Nat.pos_of_ne_zero fun none' => more ?_)
      rw [none'] at count
      exact UInt16.toNat_inj.mp count

/-- The segments behind a pointer. -/
def chained (h : MbufHeap) (m : Option ℕ) (as : List ℕ) : Prop :=
  Linked (fun m => (h.mbuf m).next) m as

theorem Spares.chained {q : Option ℕ} (spares : Spares h h' as) (chain : h.chained q as) :
    h'.chained q as :=
  chain.congr fun a member => (spares.kept a member).next_eq

/-- **Freeing a packet.** With enough fuel the loop comes to the end of the packet, and
what is still held is as it was. -/
theorem Accounted.freed {q : Option ℕ} (accounted : Accounted mempool mbufs h (as ++ held))
    (chain : h.chained q as) {fuel : ℕ} (enough : as.length < fuel) :
    ∃ h', h.rtePktmbufFree mempool fuel q = some h' ∧ Accounted mempool mbufs h' held ∧
      Spares h h' held := by
  obtain ⟨fuel, rfl⟩ := Nat.exists_eq_add_one.mpr (Nat.zero_lt_of_lt enough)
  rw [rtePktmbufFree]
  induction as generalizing h q fuel with
  | nil =>
      obtain rfl := chain
      exact ⟨h, iterate_succ_leave rfl fuel, accounted, .refl h held⟩
  | cons m as ih =>
      obtain ⟨rfl, chain⟩ := chain
      obtain ⟨freed, spares⟩ := accounted.freeSeg
      obtain ⟨fuel, rfl⟩ := Nat.exists_eq_add_one.mpr
        (Nat.zero_lt_of_lt (Nat.lt_of_succ_lt_succ enough))
      obtain ⟨h', ended, account, rest⟩ := ih freed
        ((spares.subset (List.subset_append_left as held)).chained chain) fuel
        (Nat.lt_of_succ_lt_succ enough)
      refine ⟨h', ?_, account, (spares.subset (List.subset_append_right as held)).trans rest⟩
      rw [iterate_succ_again rfl]
      exact ended

end MbufHeap

end DpdkCr
