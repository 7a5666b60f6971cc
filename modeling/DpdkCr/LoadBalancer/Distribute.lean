import DpdkCr.Semantics.Iterate
import Mathlib.Data.List.Range

/-!
# Distributing a burst

The load balancer reads one byte of each packet of a burst and hands the packet to the
worker that the byte selects. The loop does so for two packets in a pass, keeps the next
four packets in variables, so that they are prefetched when their turn comes, and ends
with a second loop for the last packets, in which the variables move up by one.

## Main definitions

* `LbPackets` — what the loop reads of packets and configuration
* `pairPass`, `singlePass` — the two loops
* `distribute` — the calls of `app_lcore_io_rx_buffer_to_send` that a burst leads to

## Main results

* `distribute_eq` — one call for each packet of the burst, in order
-/

namespace DpdkCr.LoadBalancer

open Semantics

variable {α : Type*}

/-- `n_workers`, `pos_lb`, and `rte_pktmbuf_mtod` with the bytes behind it. -/
structure LbPackets (α : Type*) where
  nWorkers : UInt32
  posLb : UInt8
  mtod : α → ℕ → UInt8

/-- `data[pos_lb] & (n_workers - 1)`. -/
def LbPackets.worker (app : LbPackets α) (data : ℕ → UInt8) : UInt32 :=
  (data app.posLb.toNat).toUInt32 &&& (app.nWorkers - 1)

/-- The variables of the loops, and the calls so far. The data pointer of the second
packet is unset when there is none. -/
structure RxLoop (α : Type*) where
  mbuf10 : α
  mbuf11 : α
  mbuf20 : α
  mbuf21 : α
  data10 : ℕ → UInt8
  data11 : Option (ℕ → UInt8)
  j : ℕ
  calls : List (UInt32 × α)

section Loops

variable (app : LbPackets α) (array : ℕ → α) (n : UInt16)

/-- What the variables are before the first loop. -/
def rxStart : RxLoop α where
  mbuf10 := array 0
  mbuf11 := array 1
  mbuf20 := array 2
  mbuf21 := array 3
  data10 := app.mtod (array 0)
  data11 := if 1 < n then some (app.mtod (array 1)) else none
  j := 0
  calls := []

/-- A pass of the loop for two packets. It raises when `not_nil!` fails. -/
def pairPass (s : RxLoop α) : Option (Pass (RxLoop α) (RxLoop α)) :=
  if s.j + 3 < n.toNat then
    match s.data11 with
    | none => none
    | some data01 =>
      some (.again
        { mbuf10 := s.mbuf20
          mbuf11 := s.mbuf21
          data10 := app.mtod s.mbuf20
          data11 := some (app.mtod s.mbuf21)
          mbuf20 := array (s.j + 4)
          mbuf21 := array (s.j + 5)
          j := s.j + 2
          calls := s.calls ++
            [(app.worker s.data10, s.mbuf10), (app.worker data01, s.mbuf11)] })
  else some (.leave s)

/-- A pass of the loop for the last packets. -/
def singlePass (s : RxLoop α) : Option (Pass (RxLoop α) (List (UInt32 × α))) :=
  if s.j < n.toNat then
    some (.again
      { s with
        mbuf10 := s.mbuf11
        mbuf11 := s.mbuf20
        mbuf20 := s.mbuf21
        j := s.j + 1
        calls := s.calls ++ [(app.worker (app.mtod s.mbuf10), s.mbuf10)] })
  else some (.leave s.calls)

/-- The calls that the burst in the array leads to: for each the worker and the packet. -/
def distribute : Option (List (UInt32 × α)) :=
  if n = 0 then some []
  else do
    let s ← iterate (pairPass app array n) (n.toNat + 1) (rxStart app array n)
    iterate (singlePass app n) (n.toNat + 1) s

end Loops

variable {app : LbPackets α} {array : ℕ → α} {n : UInt16}

/-- The call for a packet. -/
def LbPackets.call (app : LbPackets α) (m : α) : UInt32 × α := (app.worker (app.mtod m), m)

/-- The calls for the first packets of a burst. -/
def LbPackets.callsUpTo (app : LbPackets α) (array : ℕ → α) (k : ℕ) : List (UInt32 × α) :=
  (List.range k).map fun i => app.call (array i)

theorem callsUpTo_succ (app : LbPackets α) (array : ℕ → α) (k : ℕ) :
    app.callsUpTo array (k + 1) = app.callsUpTo array k ++ [app.call (array k)] := by
  rw [LbPackets.callsUpTo, List.range_succ, List.map_append]
  rfl

/-- The variables with the packets from one on in them. -/
def RxLoop.at (app : LbPackets α) (array : ℕ → α) (j : ℕ) : RxLoop α where
  mbuf10 := array j
  mbuf11 := array (j + 1)
  mbuf20 := array (j + 2)
  mbuf21 := array (j + 3)
  data10 := app.mtod (array j)
  data11 := some (app.mtod (array (j + 1)))
  j := j
  calls := app.callsUpTo array j

theorem pairPass_at {j : ℕ} (more : j + 3 < n.toNat) :
    pairPass app array n (.at app array j) = some (.again (.at app array (j + 2))) := by
  have calls : app.callsUpTo array (j + 2) =
      app.callsUpTo array j ++ [app.call (array j), app.call (array (j + 1))] := by
    rw [callsUpTo_succ, callsUpTo_succ, List.append_assoc]
    rfl
  refine (if_pos more).trans ?_
  rw [RxLoop.at, RxLoop.at, calls]
  rfl

theorem rxStart_eq (several : 1 < n.toNat) : rxStart app array n = .at app array 0 := by
  have unset : 1 < n := UInt16.lt_iff_toNat_lt.mpr (show (1 : UInt16).toNat < n.toNat from several)
  rw [rxStart, if_pos unset]
  rfl

/-- The second loop makes the calls for what the first one has left over, which is at most
three packets. -/
theorem iterate_singlePass {s : RxLoop α} {fuel : ℕ} (calls : s.calls = app.callsUpTo array s.j)
    (within : s.j ≤ n.toNat) (few : n.toNat ≤ s.j + 3)
    (first : s.j < n.toNat → s.mbuf10 = array s.j)
    (second : s.j + 1 < n.toNat → s.mbuf11 = array (s.j + 1))
    (third : s.j + 2 < n.toNat → s.mbuf20 = array (s.j + 2)) (enough : n.toNat < fuel + s.j) :
    iterate (singlePass app n) fuel s = some (app.callsUpTo array n.toNat) := by
  induction fuel generalizing s with
  | zero => omega
  | succ fuel ih =>
      by_cases more : s.j < n.toNat
      · have step : singlePass app n s = some (.again _) := if_pos more
        rw [iterate_succ_again step]
        refine ih ?_ more (by dsimp only; omega) second third (by dsimp only; omega)
          (by dsimp only; omega)
        rw [callsUpTo_succ, calls, first more]
        rfl
      · have done : s.j = n.toNat := by omega
        have step : singlePass app n s = some (.leave s.calls) := if_neg more
        rw [iterate_succ_leave step, calls, done]

/-- Each packet of the burst is handed once, in order, to the worker that its own byte
selects. No variable is used before it is set. -/
theorem distribute_eq (app : LbPackets α) (array : ℕ → α) (n : UInt16) :
    distribute app array n = some (app.callsUpTo array n.toNat) := by
  rw [distribute]
  split
  case isTrue none' => rw [none']; rfl
  case isFalse some' =>
      have positive : 0 < n.toNat :=
        Nat.pos_of_ne_zero fun none' => some' (UInt16.toNat_inj.mp none')
      by_cases several : 1 < n.toNat
      · have pairs : iterate (pairPass app array n) (n.toNat + 1) (rxStart app array n) =
            some (.at app array (2 * ((n.toNat - 2) / 2))) := by
          rw [rxStart_eq several]
          refine iterate_of_path (fun k => RxLoop.at app array (2 * k))
            (show (n.toNat - 2) / 2 < n.toNat + 1 by omega) (fun k more => ?_) ?_
          · exact pairPass_at (by omega)
          · exact if_neg (show ¬ 2 * ((n.toNat - 2) / 2) + 3 < n.toNat by omega)
        rw [pairs]
        exact iterate_singlePass rfl (show 2 * ((n.toNat - 2) / 2) ≤ n.toNat by omega)
          (show n.toNat ≤ 2 * ((n.toNat - 2) / 2) + 3 by omega) (fun _ => rfl) (fun _ => rfl)
          (fun _ => rfl) (show n.toNat < n.toNat + 1 + 2 * ((n.toNat - 2) / 2) by omega)
      · -- A single packet: the first loop is not entered.
        have one : n.toNat = 1 := by omega
        have step : pairPass app array n (rxStart app array n) =
            some (.leave (rxStart app array n)) :=
          if_neg (show ¬ 0 + 3 < n.toNat by omega)
        rw [iterate_succ_leave step]
        exact iterate_singlePass rfl (Nat.zero_le _) (show n.toNat ≤ 0 + 3 by omega) (fun _ => rfl)
          (fun _ => rfl) (fun _ => rfl) (show n.toNat < n.toNat + 1 + 0 by omega)

end DpdkCr.LoadBalancer
