import DpdkCr.Semantics.Loop
import Mathlib.Logic.Function.Basic
import Mathlib.Data.List.Nodup

/-!
# Receive, mark, drop, transmit

The burst macros of `base.cr` and `packets.cr`, which share the locals `pkts` and
`nb_rx` of the thread they expand in. The drop marker travels in the `userdata`
field of the mbufs. A burst has at most 32 packets, so no counter overflows.

## Main definitions

* `Thread` — the shared locals, the `userdata` of every mbuf, and what was freed
* `rteEthRxBurst`, `eachPacket`, `markDrop`, `dropUnsupported`, `rteEthTxBurst?`

## Main results

* `markAll_eq` — which mbufs a marking pass marks
* `dropUnsupported_spec` — what the compaction frees, keeps and resets
-/

namespace DpdkCr

open Semantics

def maxPktsBurst : ℕ := 32

/-- `MARKER_DROP`. -/
def markerDrop : UInt64 := 1

/-- The locals of a thread, the `userdata` fields, and the mbufs freed so far. -/
structure Thread (α : Type*) where
  pkts : ℕ → α
  nbRx : ℕ
  userdata : α → UInt64
  freed : List α

namespace Thread

variable {α : Type*}

/-- `pkts[0...nb_rx]`. -/
def burst (s : Thread α) : List α := (List.range s.nbRx).map s.pkts

/-- `rte_pktmbuf_free`. -/
def rtePktmbufFree (m : α) (s : Thread α) : Thread α := { s with freed := s.freed ++ [m] }

/-- `rte_eth_rx_burst`, when the driver delivers `received`. -/
def rteEthRxBurst (received : List α) (s : Thread α) : Thread α :=
  { s with pkts := fun i => (received[i]?).getD (s.pkts i), nbRx := received.length }

/-- `each_packet`. -/
def eachPacket (block : ℕ → Thread α → Thread α) (s : Thread α) : Thread α := times s.nbRx block s

variable [DecidableEq α]

/-- `mark_drop`, in the block for packet `i`. -/
def markDrop (i : ℕ) (s : Thread α) : Thread α :=
  { s with userdata := Function.update s.userdata (s.pkts i) markerDrop }

/-- `each_packet` around a block that marks the packets that `marks` selects. -/
def markAll (marks : ℕ → Bool) : Thread α → Thread α :=
  eachPacket fun i s => if marks i then s.markDrop i else s

/-- The loop body of `drop_unsupported`, with its local `j`. -/
def dropBody (idx : ℕ) : Thread α × ℕ → Thread α × ℕ
  | (s, j) =>
    if s.userdata (s.pkts idx) = markerDrop then
      let s := { s with userdata := Function.update s.userdata (s.pkts idx) 0 }
      (s.rtePktmbufFree (s.pkts idx), j)
    else
      let s := if j < idx then { s with pkts := Function.update s.pkts j (s.pkts idx) } else s
      (s, j + 1)

/-- `drop_unsupported`. -/
def dropUnsupported (s : Thread α) : Thread α :=
  if s.nbRx > 0 then
    let (s, j) := times s.nbRx dropBody (s, 0)
    if j < s.nbRx then { s with nbRx := j } else s
  else s

/-- `rte_eth_tx_burst?`, when the driver takes `nbTx` packets. Its loop frees the
packets from `nb_tx` up to `nb_rx`. -/
def rteEthTxBurst? (nbTx : ℕ) (s : Thread α) : Thread α :=
  if s.nbRx > 0 then times (s.nbRx - nbTx) (fun i s => s.rtePktmbufFree (s.pkts (nbTx + i))) s
  else s

/-! ### What the macros do -/

variable {s : Thread α} {received : List α} {marks : ℕ → Bool} {i nbTx : ℕ} {m : α}

omit [DecidableEq α] in
theorem burst_rteEthRxBurst : (s.rteEthRxBurst received).burst = received := by
  apply List.ext_getElem (by simp [burst, rteEthRxBurst])
  intro i _ inside
  simp [burst, rteEthRxBurst, inside]

omit [DecidableEq α] in
theorem length_burst : s.burst.length = s.nbRx := by
  rw [burst, List.length_map, List.length_range]

omit [DecidableEq α] in
/-- In a burst of distinct mbufs, a packet is at one index only. -/
theorem pkts_inj (distinct : s.burst.Nodup) {j : ℕ} (hi : i < s.nbRx) (hj : j < s.nbRx)
    (same : s.pkts i = s.pkts j) : i = j :=
  List.inj_on_of_nodup_map distinct (List.mem_range.mpr hi) (List.mem_range.mpr hj) same

/-- The `userdata` fields with `value` in those of the first `k` packets that
`which` selects. -/
def overwritten (s : Thread α) (which : ℕ → Bool) (value : UInt64) (k : ℕ) : α → UInt64 :=
  fun m => if ∃ i < k, which i ∧ s.pkts i = m then value else s.userdata m

section Overwritten

variable {which : ℕ → Bool} {value : UInt64} {k : ℕ}

theorem overwritten_zero : s.overwritten which value 0 = s.userdata := by
  funext m
  simp [overwritten]

theorem overwritten_succ (selected : which k) :
    s.overwritten which value (k + 1) =
      Function.update (s.overwritten which value k) (s.pkts k) value := by
  funext m
  by_cases here : m = s.pkts k
  · rw [here, Function.update_self, overwritten, if_pos ⟨k, k.lt_succ_self, selected, rfl⟩]
  · rw [Function.update_of_ne here]
    simp only [overwritten, Nat.exists_lt_succ_right, Ne.symm here, and_false, or_false]

theorem overwritten_succ_of_not (passed : ¬ which k) :
    s.overwritten which value (k + 1) = s.overwritten which value k := by
  funext m
  simp only [overwritten, Nat.exists_lt_succ_right, passed, Bool.false_eq_true, false_and, or_false]

/-- The next packet is as it was, if no earlier one is the same mbuf. -/
theorem overwritten_ahead (distinct : s.burst.Nodup) (bound : k < s.nbRx) :
    s.overwritten which value k (s.pkts k) = s.userdata (s.pkts k) := by
  refine if_neg ?_
  rintro ⟨i, earlier, -, same⟩
  exact earlier.ne (pkts_inj distinct (earlier.trans bound) bound same)

/-- Once overwritten, a packet holds the value exactly if it was selected. -/
theorem overwritten_eq_iff (distinct : s.burst.Nodup) (other : ∀ m, s.userdata m ≠ value)
    (bound : i < s.nbRx) : s.overwritten which value s.nbRx (s.pkts i) = value ↔ which i := by
  constructor
  · intro written
    by_contra passed
    refine other (s.pkts i) ((if_neg ?_).symm.trans written)
    rintro ⟨j, inside, chosen, same⟩
    exact passed (pkts_inj distinct inside bound same ▸ chosen)
  · exact fun chosen => if_pos ⟨i, bound, chosen, rfl⟩

end Overwritten

/-- A marking pass writes the marker into the selected packets, and nothing else. -/
theorem markAll_eq :
    s.markAll marks = { s with userdata := s.overwritten marks markerDrop s.nbRx } := by
  refine times_induction
    (P := fun k t => t = { s with userdata := s.overwritten marks markerDrop k }) ?_ ?_
  · rw [overwritten_zero]
  · rintro k bound t rfl
    by_cases selected : marks k
    · rw [if_pos selected, markDrop, overwritten_succ selected]
    · rw [if_neg selected, overwritten_succ_of_not selected]

/-- The state of `drop_unsupported` after `k` packets: the `j` packets kept so far
are at the front, the marked ones are freed with their marker reset, and the
packets ahead are untouched. -/
structure Compacted (s : Thread α) (which : ℕ → Bool) (k : ℕ) (t : Thread α) (j : ℕ) : Prop where
  nbRx : t.nbRx = s.nbRx
  le : j ≤ k
  kept : (List.range j).map t.pkts = ((List.range k).filter (! which ·)).map s.pkts
  ahead : ∀ i, k ≤ i → t.pkts i = s.pkts i
  freed : t.freed = s.freed ++ ((List.range k).filter which).map s.pkts
  userdata : t.userdata = s.overwritten which 0 k

/-- The packets that carry the marker. -/
def dropped? (s : Thread α) (i : ℕ) : Bool := s.userdata (s.pkts i) = markerDrop

variable {t : Thread α} {j k : ℕ}

theorem Compacted.next (distinct : s.burst.Nodup) (bound : k < s.nbRx)
    (before : Compacted s s.dropped? k t j) :
    Compacted s s.dropped? (k + 1) (dropBody k (t, j)).1 (dropBody k (t, j)).2 := by
  have packet := before.ahead k le_rfl
  have marker : t.userdata (s.pkts k) = s.userdata (s.pkts k) := by
    rw [before.userdata, overwritten_ahead distinct bound]
  by_cases marked : s.userdata (s.pkts k) = markerDrop
  · have chosen : s.dropped? k = true := decide_eq_true marked
    have body : dropBody k (t, j) =
        ({ t with
          userdata := Function.update t.userdata (s.pkts k) 0
          freed := t.freed ++ [s.pkts k] }, j) := by
      simp only [dropBody, packet, marker, if_pos marked, rtePktmbufFree]
    rw [body]
    exact {
      nbRx := before.nbRx
      le := before.le.trans k.le_succ
      kept := by
        rw [List.range_succ, List.filter_append, before.kept]
        simp [chosen]
      ahead := fun i later => before.ahead i (k.le_succ.trans later)
      freed := by
        rw [List.range_succ, List.filter_append, before.freed]
        simp [chosen]
      userdata := by rw [overwritten_succ chosen, ← before.userdata] }
  · have chosen : s.dropped? k = false := decide_eq_false marked
    -- storing at `j = k` would change nothing, so the guard does not matter
    have body : dropBody k (t, j) =
        ({ t with pkts := Function.update t.pkts j (s.pkts k) }, j + 1) := by
      simp only [dropBody, packet, marker, if_neg marked]
      by_cases behind : j < k
      · rw [if_pos behind]
      · have level : j = k := Nat.le_antisymm before.le (Nat.not_lt.mp behind)
        rw [if_neg behind, level, ← packet, Function.update_eq_self]
    rw [body]
    exact {
      nbRx := before.nbRx
      le := Nat.succ_le_succ before.le
      kept := by
        -- the store at `j` is past the packets kept so far
        have front : (List.range j).map (Function.update t.pkts j (s.pkts k)) =
            (List.range j).map t.pkts :=
          List.map_congr_left fun i member =>
            Function.update_of_ne (List.mem_range.mp member).ne _ _
        rw [List.range_succ, List.map_append, front, before.kept, List.range_succ,
          List.filter_append, List.map_append]
        simp [chosen]
      ahead := fun i later => by
        have order := before.le
        -- and not past this one, so the packets ahead are as received
        have apart : i ≠ j := by omega
        exact (Function.update_of_ne apart _ _).trans (before.ahead i (k.le_succ.trans later))
      freed := by
        rw [List.range_succ, List.filter_append, before.freed]
        simp [chosen]
      userdata := by
        rw [overwritten_succ_of_not (by rw [chosen]; decide)]
        exact before.userdata }

/-- **The compaction drops exactly the marked packets**: it frees them in arrival
order and resets their marker, and leaves the others in arrival order. -/
theorem dropUnsupported_spec (distinct : s.burst.Nodup) :
    s.dropUnsupported.freed = s.freed ++ ((List.range s.nbRx).filter s.dropped?).map s.pkts ∧
    s.dropUnsupported.burst = ((List.range s.nbRx).filter (! s.dropped? ·)).map s.pkts ∧
    s.dropUnsupported.userdata = s.overwritten s.dropped? 0 s.nbRx := by
  have done : Compacted s s.dropped? s.nbRx (times s.nbRx dropBody (s, 0)).1
      (times s.nbRx dropBody (s, 0)).2 := by
    refine times_induction
      (P := fun k (r : Thread α × ℕ) => Compacted s s.dropped? k r.1 r.2) ?_ ?_
    · exact ⟨rfl, le_rfl, rfl, fun _ _ => rfl, (List.append_nil _).symm, overwritten_zero.symm⟩
    · exact fun k bound r before => before.next distinct bound
  rw [dropUnsupported]
  by_cases some : s.nbRx > 0
  · rw [if_pos some]
    generalize times s.nbRx dropBody (s, 0) = r at done
    obtain ⟨t, j⟩ := r
    by_cases fewer : j < t.nbRx
    · simp only [if_pos fewer]
      exact ⟨done.freed, done.kept, done.userdata⟩
    · have order : j ≤ t.nbRx := done.nbRx ▸ done.le
      -- nothing was dropped, so the count is left alone
      have all : t.nbRx = j := Nat.le_antisymm (Nat.not_lt.mp fewer) order
      simp only [if_neg fewer]
      refine ⟨done.freed, ?_, done.userdata⟩
      rw [burst, all]
      exact done.kept
  · have none : s.nbRx = 0 := by omega
    rw [if_neg some, burst, none, overwritten_zero]
    simp

omit [DecidableEq α] in
/-- `rte_eth_tx_burst?` frees what the driver did not take, and nothing else. -/
theorem rteEthTxBurst?_eq :
    s.rteEthTxBurst? nbTx = { s with freed := s.freed ++ s.burst.drop nbTx } := by
  have unsent : s.burst.drop nbTx =
      (List.range (s.nbRx - nbTx)).map fun i => s.pkts (nbTx + i) := by
    apply List.ext_getElem (by simp [burst])
    intro i _ _
    simp [burst]
  have loop : times (s.nbRx - nbTx) (fun i s => s.rtePktmbufFree (s.pkts (nbTx + i))) s =
      { s with freed := s.freed ++ s.burst.drop nbTx } := by
    rw [unsent]
    refine times_induction (P := fun k t => t = { s with
      freed := s.freed ++ (List.range k).map fun i => s.pkts (nbTx + i) }) ?_ ?_
    · rw [List.range_zero, List.map_nil, List.append_nil]
    · rintro k bound t rfl
      simp [rtePktmbufFree, List.range_succ]
  rw [rteEthTxBurst?]
  split
  · exact loop
  · have none : s.burst = [] := List.length_eq_zero_iff.mp (by rw [length_burst]; omega)
    rw [none, List.drop_nil, List.append_nil]

end Thread

end DpdkCr
