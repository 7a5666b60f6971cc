import DpdkCr.Mbuf.Runs

/-!
# Allocation in bulk

`rte_pktmbuf_alloc_bulk` takes all buffers from the mempool at once and resets them in a
loop that is unrolled by four. The count need not be a multiple of four: a switch enters the
body of the loop at its second, third or last part, behind which the loop goes on as usual.

## Main definitions

* `RteMempoolBulk` — mempools that give several objects at once
* `DuffLoop`, `fallThrough` — the loop, and the parts of its body
* `MbufHeap.rtePktmbufAllocBulk` — the function

## Main results

* `iterate_fallThrough` — entered in the middle, the loop is a plain one
* `rtePktmbufAllocBulk_accounted` — each buffer is reset, and the account stays right
-/

namespace DpdkCr

open Semantics

/-- The mempools of the build, with `rte_mempool_get_bulk`, which gives as many objects as
asked for, or none. -/
structure RteMempoolBulk extends RteMempool where
  getBulk : List ℕ → ℕ → Option (List ℕ × List ℕ)
  getBulk_perm : ∀ {free n ms rest}, getBulk free n = some (ms, rest) → free.Perm (ms ++ rest)
  getBulk_length : ∀ {free n ms rest}, getBulk free n = some (ms, rest) → ms.length = n

/-- What `MBUF_RAW_ALLOC_CHECK` asserts. -/
def Mbuf.RawAllocCheck (m : Mbuf) : Prop := m.refcnt = 1 ∧ m.next = none ∧ m.nbSegs = 1

instance (m : Mbuf) : Decidable m.RawAllocCheck := inferInstanceAs (Decidable (_ ∧ _ ∧ _))

/-- The variables of the loop. -/
structure DuffLoop where
  heap : MbufHeap
  idx : UInt32

/-- One part of the body. It is stuck behind the end of the array, and when the assertion
fails. -/
def resetOne (mbufs : List ℕ) (s : DuffLoop) : Option DuffLoop :=
  (mbufs[s.idx.toNat]?).bind fun m =>
    if (s.heap.mbuf m).RawAllocCheck then
      some ⟨s.heap.modify m Mbuf.rtePktmbufReset, s.idx + 1⟩
    else none

/-- The last parts of the body. -/
def fallThrough (mbufs : List ℕ) : ℕ → DuffLoop → Option DuffLoop
  | 0, s => some s
  | parts + 1, s => (resetOne mbufs s).bind (fallThrough mbufs parts)

namespace MbufHeap

/-- `rte_pktmbuf_alloc_bulk`: the buffers, or none of them. The label `case 0` is at the
head of the loop, and behind each other label are as many parts of the body as its number
says. -/
def rtePktmbufAllocBulk (mempool : RteMempoolBulk) (fuel : ℕ) (h : MbufHeap) (pool : ℕ)
    (count : UInt32) : Option (Option (List ℕ) × MbufHeap) :=
  match mempool.getBulk (h.free pool) count.toNat with
  | none => some (none, h)
  | some (mbufs, rest) =>
    let h := { h with free := Function.update h.free pool rest }
    (fallThrough mbufs (count % 4).toNat ⟨h, 0⟩).bind fun s =>
      (iterate (fun s : DuffLoop =>
        if s.idx ≠ count then (fallThrough mbufs 4 s).map Pass.again
        else some (Pass.leave s.heap)) fuel s).map fun h => (some mbufs, h)

/-- The plain loop. -/
def resets (h : MbufHeap) (ms : List ℕ) : MbufHeap :=
  ms.foldl (fun h m => h.modify m Mbuf.rtePktmbufReset) h

end MbufHeap

open MbufHeap

variable {h : MbufHeap} {ms : List ℕ} {m k parts fuel : ℕ} {count : UInt32}

theorem resets_append (ms more : List ℕ) : h.resets (ms ++ more) = (h.resets ms).resets more :=
  List.foldl_append

theorem mbuf_resets_of_not_mem (away : m ∉ ms) : (h.resets ms).mbuf m = h.mbuf m := by
  induction ms generalizing h with
  | nil => rfl
  | cons x ms ih =>
      obtain ⟨other, away⟩ := not_or.mp (List.mem_cons.not.mp away)
      exact (ih away).trans (mbuf_modify_of_ne other)

theorem mbuf_resets_of_mem (once : ms.Nodup) (member : m ∈ ms) :
    (h.resets ms).mbuf m = (h.mbuf m).rtePktmbufReset := by
  induction ms generalizing h with
  | nil => simp at member
  | cons x ms ih =>
      obtain ⟨new, once⟩ := List.nodup_cons.mp once
      rcases List.mem_cons.mp member with rfl | later
      · exact (mbuf_resets_of_not_mem new).trans mbuf_modify_self
      · have other : m ≠ x := fun same => new (same ▸ later)
        refine (ih once later).trans ?_
        rw [mbuf_modify_of_ne other]

/-- The assertion still holds of buffers that have been reset. -/
theorem rawAllocCheck_resets (raw : (h.mbuf m).RawAllocCheck) (ms : List ℕ) :
    ((h.resets ms).mbuf m).RawAllocCheck := by
  induction ms generalizing h with
  | nil => exact raw
  | cons x ms ih =>
      refine ih ?_
      by_cases here : m = x
      · rw [here, mbuf_modify_self]
        exact ⟨here ▸ raw.1, rfl, rfl⟩
      · rwa [mbuf_modify_of_ne here]

/-- The loop when `k` buffers have been reset. -/
def DuffLoop.at (h : MbufHeap) (ms : List ℕ) (k : ℕ) : DuffLoop := ⟨h.resets (ms.take k), .ofNat k⟩

section Loop

variable (raw : ∀ m ∈ ms, (h.mbuf m).RawAllocCheck) (length : ms.length = count.toNat)

include raw length

theorem resetOne_at (more : k < ms.length) :
    resetOne ms (.at h ms k) = some (.at h ms (k + 1)) := by
  have small : k < 2 ^ 32 := by
    have := count.toNat_lt
    omega
  have there : ms[(UInt32.ofNat k).toNat]? = some ms[k] := by
    rw [UInt32.toNat_ofNat', Nat.mod_eq_of_lt small, List.getElem?_eq_getElem more]
  have check := rawAllocCheck_resets (raw ms[k] (List.getElem_mem more)) (ms.take k)
  have next : ms.take (k + 1) = ms.take k ++ [ms[k]] := List.take_succ_eq_append_getElem more
  rw [resetOne, DuffLoop.at, there, Option.bind_some, if_pos check, DuffLoop.at, next,
    resets_append, UInt32.ofNat_add]
  rfl

theorem fallThrough_at (enough : k + parts ≤ ms.length) :
    fallThrough ms parts (.at h ms k) = some (.at h ms (k + parts)) := by
  induction parts generalizing k with
  | zero => rfl
  | succ parts ih =>
      rw [fallThrough, resetOne_at raw length (by omega), Option.bind_some, ih (by omega)]
      congr 2
      omega

/-- Entered behind a label, the loop comes to its end when all buffers have been reset. -/
theorem iterate_fallThrough (enough : count.toNat / 4 < fuel) :
    iterate (fun s : DuffLoop =>
      if s.idx ≠ count then (fallThrough ms 4 s).map Pass.again
      else some (Pass.leave s.heap)) fuel (.at h ms (count.toNat % 4)) = some (h.resets ms) := by
  have bound := count.toNat_lt
  refine iterate_of_path (fun i => DuffLoop.at h ms (count.toNat % 4 + 4 * i)) enough
    (fun i more => ?_) ?_
  · have on : (DuffLoop.at h ms (count.toNat % 4 + 4 * i)).idx ≠ count := by
      intro same
      have value := congrArg UInt32.toNat same
      rw [DuffLoop.at, UInt32.toNat_ofNat', Nat.mod_eq_of_lt (by omega)] at value
      omega
    rw [if_pos on, fallThrough_at raw length (by omega)]
    rfl
  · have whole : count.toNat % 4 + 4 * (count.toNat / 4) = count.toNat := by omega
    have off : (DuffLoop.at h ms count.toNat).idx = count := UInt32.ofNat_toNat
    rw [whole, if_neg (not_not.mpr off), DuffLoop.at, ← length, List.take_length]

end Loop

/-! ### The account -/

namespace MbufHeap

variable {mempool : RteMempool} {mbufs : Finset ℕ} {h' : MbufHeap} {held rest : List ℕ} {p : ℕ}

/-- The account says nothing about how a mempool chooses what it gives. -/
theorem Accounted.rebuild {mempool' : RteMempool} (accounted : Accounted mempool mbufs h held)
    (priv : mempool'.priv = mempool.priv) (fromObj : mempool'.fromObj = mempool.fromObj) :
    Accounted mempool' mbufs h held := by
  refine ⟨accounted.known, fun m member => ?_, accounted.free, accounted.nodup⟩
  have before := accounted.sound m member
  refine { before with pool := fromObj ▸ before.pool, direct := fun unowned => ?_ }
  have own := before.direct unowned
  exact ⟨priv ▸ own.privSize, own.bufAddr, priv ▸ own.bufLen⟩

/-- Nor about the order of what is left. -/
theorem Accounted.reorder (accounted : Accounted mempool mbufs h held)
    (same : (h.free p).Perm rest) :
    Accounted mempool mbufs { h with free := Function.update h.free p rest } held := by
  have free (q : ℕ) : (Function.update h.free p rest q).Perm (h.free q) := by
    by_cases here : q = p
    · rw [here, Function.update_self]
      exact same.symm
    · rw [Function.update_of_ne here]
  refine ⟨accounted.known, fun m member => ?_, fun q m => ?_, fun q => ?_⟩
  · have before := accounted.sound m member
    exact ⟨before.pool, before.refcnt, before.unused, before.direct, before.indirect, before.single,
      before.room⟩
  · exact (free q).mem_iff.trans (accounted.free q m)
  · exact (free q).nodup_iff.mpr (accounted.nodup q)

/-- The mempools, of which one gives this object first. -/
def giving (mempool : RteMempool) (m : ℕ) : RteMempool where
  get free := if m ∈ free then some (m, free.erase m) else none
  put := mempool.put
  priv := mempool.priv
  fromObj := mempool.fromObj
  get_perm {free x rest} got := by
    split at got
    case isTrue member =>
        obtain ⟨rfl, rfl⟩ := Prod.mk.inj (Option.some_inj.mp got)
        exact List.perm_cons_erase member
    case isFalse => exact absurd got (Option.some_ne_none _).symm
  put_perm := mempool.put_perm

/-- Any buffer of a mempool may be taken. -/
theorem Accounted.take (accounted : Accounted mempool mbufs h held) (member : m ∈ h.free p) :
    Accounted mempool mbufs
      ({ h with free := Function.update h.free p ((h.free p).erase m) }.modify m
        Mbuf.rtePktmbufReset) (m :: held) := by
  have alloc : h.rtePktmbufAlloc (giving mempool m) p =
      some (m, { h with free := Function.update h.free p ((h.free p).erase m) }.modify m
        Mbuf.rtePktmbufReset) := by
    have got : (giving mempool m).get (h.free p) = some (m, (h.free p).erase m) := if_pos member
    rw [rtePktmbufAlloc, got]
    rfl
  have rebuilt : Accounted (giving mempool m) mbufs h held := accounted.rebuild rfl rfl
  exact (rebuilt.alloc alloc).1.rebuild rfl rfl

/-- So may any number of them. -/
theorem Accounted.takes (accounted : Accounted mempool mbufs h held)
    (taken : (h.free p).Perm (ms ++ rest)) :
    Accounted mempool mbufs ({ h with free := Function.update h.free p rest }.resets ms)
      (ms ++ held) := by
  induction ms generalizing h held with
  | nil => exact accounted.reorder taken
  | cons m ms ih =>
      have member : m ∈ h.free p := taken.mem_iff.mpr List.mem_cons_self
      have fewer : ((h.free p).erase m).Perm (ms ++ rest) :=
        ((List.perm_cons_erase member).symm.trans taken).cons_inv
      have first := accounted.take member
      have all := ih first (by simpa using fewer)
      rw [free_modify] at all
      dsimp only at all
      rw [Function.update_idem] at all
      exact all.perm List.perm_middle

/-- What is in a mempool passes the assertion. -/
theorem Accounted.rawAllocCheck (accounted : Accounted mempool mbufs h held)
    (member : m ∈ h.free p) : (h.mbuf m).RawAllocCheck := by
  obtain ⟨known, -, unreferenced⟩ := (accounted.free p m).mp member
  have sound := accounted.sound m known
  obtain ⟨one, last, -⟩ := sound.unused unreferenced
  exact ⟨one, last, sound.single last⟩

/-- **Bulk allocation.** Either there are not enough buffers and nothing changes, or there
are as many different ones as asked for, each of them has been reset, all others are as
before, and the account is right with the new buffers held. No assertion fails, and no
buffer behind the end of the array is touched. -/
theorem rtePktmbufAllocBulk_accounted {mempool : RteMempoolBulk}
    (accounted : Accounted mempool.toRteMempool mbufs h held) (p : ℕ) (count : UInt32)
    (enough : count.toNat / 4 < fuel) :
    h.rtePktmbufAllocBulk mempool fuel p count = some (none, h) ∨
      ∃ ms h', h.rtePktmbufAllocBulk mempool fuel p count = some (some ms, h') ∧
        ms.length = count.toNat ∧ ms.Nodup ∧
        (∀ m ∈ ms, h'.mbuf m = (h.mbuf m).rtePktmbufReset) ∧
        (∀ m, m ∉ ms → h'.mbuf m = h.mbuf m) ∧
        Accounted mempool.toRteMempool mbufs h' (ms ++ held) := by
  rw [rtePktmbufAllocBulk]
  cases got : mempool.getBulk (h.free p) count.toNat with
  | none => exact .inl rfl
  | some result =>
      obtain ⟨ms, rest⟩ := result
      have taken := mempool.getBulk_perm got
      have length := mempool.getBulk_length got
      have once : ms.Nodup := (taken.nodup_iff.mp (accounted.nodup p)).of_append_left
      have raw : ∀ m ∈ ms, (({ h with free := Function.update h.free p rest } : MbufHeap).mbuf
          m).RawAllocCheck := fun m member =>
        accounted.rawAllocCheck (taken.mem_iff.mpr (List.mem_append_left rest member))
      refine .inr ⟨ms, { h with free := Function.update h.free p rest }.resets ms, ?_, length, once,
        fun m member => mbuf_resets_of_mem once member, fun m away => mbuf_resets_of_not_mem away,
        accounted.takes taken⟩
      have odd : (count % 4).toNat = count.toNat % 4 := UInt32.toNat_mod count 4
      dsimp only
      generalize { h with free := Function.update h.free p rest } = u at raw ⊢
      have entered : fallThrough ms (count.toNat % 4) ⟨u, 0⟩ =
          some (.at u ms (0 + count.toNat % 4)) := by
        refine fallThrough_at (k := 0) raw length ?_
        omega
      rw [odd, entered, Option.bind_some, Nat.zero_add, iterate_fallThrough raw length enough]
      rfl

/-- A mempool of three buffers that gives several. -/
def lastFreedBulk : RteMempoolBulk where
  toRteMempool := lastFreed
  getBulk free n := if n ≤ free.length then some (free.take n, free.drop n) else none
  getBulk_perm {free n ms rest} got := by
    obtain ⟨-, same⟩ := Option.ite_none_right_eq_some.mp got
    obtain ⟨rfl, rfl⟩ := Prod.mk.inj (Option.some_inj.mp same)
    rw [List.take_append_drop]
  getBulk_length {free n ms rest} got := by
    obtain ⟨enough, same⟩ := Option.ite_none_right_eq_some.mp got
    obtain ⟨rfl, rfl⟩ := Prod.mk.inj (Option.some_inj.mp same)
    exact List.length_take_of_le enough

/-- All three are allocated. -/
theorem rtePktmbufAllocBulk_accounted_allThree :
    ∃ h', noPackets.heap.rtePktmbufAllocBulk lastFreedBulk 1 0 3 =
        some (some [0x1000, 0x2000, 0x3000], h') ∧
      (∀ m ∈ [0x1000, 0x2000, 0x3000], h'.mbuf m = (noPackets.heap.mbuf m).rtePktmbufReset) ∧
      (∀ m, m ∉ [0x1000, 0x2000, 0x3000] → h'.mbuf m = noPackets.heap.mbuf m) ∧
      Accounted lastFreed threeBuffers h' ([0x1000, 0x2000, 0x3000] ++ []) := by
  have accounted : Accounted lastFreedBulk.toRteMempool threeBuffers noPackets.heap [] :=
    init_noPackets.2.accounted
  have given : (noPackets.heap.rtePktmbufAllocBulk lastFreedBulk 1 0 3).map Prod.fst =
      some (some [0x1000, 0x2000, 0x3000]) := by decide
  have enough : UInt32.toNat 3 / 4 < 1 := by decide
  rcases rtePktmbufAllocBulk_accounted accounted 0 3 enough with
    none' | ⟨ms, h', result, -, -, reset, others, account⟩
  · rw [none'] at given
    exact absurd given (by decide)
  · rw [result, Option.map_some, Option.some_inj, Option.some_inj] at given
    rw [given] at result reset others account
    exact ⟨h', result, reset, others, account⟩

end MbufHeap

end DpdkCr
