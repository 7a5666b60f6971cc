import DpdkCr.LoadBalancer.Pipeline
import Mathlib.Data.List.Perm.Basic

/-!
# Flows through the load balancer

The packets that one I/O lcore has received, that are for one worker and that this worker
sends to one port, are a flow. Whatever the lcores do and in whatever order, the packets of
a flow stay in the order in which they were received, and each of them is in one place or
has been freed.

## Main definitions

* `Flow` — an I/O lcore, a worker and a port
* `LbWorld.flow` — the packets of a flow, from those sent to those still to be distributed
* `LbWorld.Routed`, `LbWorld.Flows`, `LbWorld.Short` — packets are where they belong, flows
  are in order, and buffers are not full

## Main results

* `toWorker_flows`, `toPort_flows`, `toNic_flows` — what is sent off, or freed instead
* `LbWorld.Inv.exec` — one step of any lcore
* `sent_sublist_received`, `received_perm_flow`, `dispatched_of_reachable` — after any steps
-/

namespace DpdkCr.LoadBalancer

open Semantics

variable {α : Type*}

/-- The packets that go from an I/O lcore through a worker to a port. -/
structure Flow where
  lcore : ℕ
  worker : ℕ
  port : ℕ
  deriving DecidableEq, Repr

/-- The packet belongs to the flow. -/
def Flow.Has (app : LbApp α) (f : Flow) (m : α) : Prop :=
  app.lcoreOf m = f.lcore ∧ app.workerOf m = f.worker ∧ app.portOf f.worker m = f.port

instance (app : LbApp α) (f : Flow) : DecidablePred (f.Has app) :=
  fun _ => inferInstanceAs (Decidable (_ ∧ _ ∧ _))

/-- The packets of a flow among others. -/
def Flow.of (app : LbApp α) (f : Flow) (ms : List α) : List α := ms.filter (f.Has app)

namespace LbWorld

/-- The packets of a flow in all places, from the port back to the NIC that they came from. -/
def flow (app : LbApp α) (w : LbWorld α) (f : Flow) : List α :=
  f.of app (w.sent f.port) ++ (f.of app (w.txOut f.port).array ++
    (f.of app (w.ringsTx (f.port, f.worker)) ++
      (f.of app (w.workerOut (f.worker, f.port)).array ++ (f.of app (w.burst f.worker) ++
        (f.of app (w.ringsRx (f.lcore, f.worker)) ++
          (f.of app (w.rxOut (f.lcore, f.worker)).array ++
            f.of app ((w.calls f.lcore).map Prod.snd)))))))

/-- Packets are where they belong. -/
structure Routed (app : LbApp α) (w : LbWorld α) : Prop where
  calls : ∀ l, ∀ c ∈ w.calls l, app.lcoreOf c.2 = l ∧ app.workerOf c.2 = c.1.toNat
  rxOut : ∀ k, ∀ m ∈ (w.rxOut k).array, app.lcoreOf m = k.1 ∧ app.workerOf m = k.2
  ringsRx : ∀ k, ∀ m ∈ w.ringsRx k, app.lcoreOf m = k.1 ∧ app.workerOf m = k.2
  burst : ∀ worker, ∀ m ∈ w.burst worker, app.workerOf m = worker
  workerOut : ∀ k, ∀ m ∈ (w.workerOut k).array,
    app.workerOf m = k.1 ∧ app.portOf (app.workerOf m) m = k.2
  ringsTx : ∀ k, ∀ m ∈ w.ringsTx k, app.workerOf m = k.2 ∧ app.portOf (app.workerOf m) m = k.1
  txOut : ∀ port, ∀ m ∈ (w.txOut port).array, app.portOf (app.workerOf m) m = port
  sent : ∀ port, ∀ m ∈ w.sent port, app.portOf (app.workerOf m) m = port

/-- The packets of each flow are in order, and what is missing has been freed. -/
def Flows (app : LbApp α) (w : LbWorld α) : Prop :=
  ∀ f : Flow, (w.flow app f).Sublist (f.of app (w.received f.lcore)) ∧
    (w.flow app f ++ f.of app w.freed).Perm (f.of app (w.received f.lcore))

end LbWorld

variable {app : LbApp α} {f : Flow} {w v : LbWorld α} {ms objs : List α}

@[simp] theorem Flow.of_nil : f.of app [] = [] := rfl

@[simp] theorem Flow.of_append (ms objs : List α) :
    f.of app (ms ++ objs) = f.of app ms ++ f.of app objs := List.filter_append ..

theorem Flow.of_eq_nil (none' : ∀ m ∈ ms, ¬ f.Has app m) : f.of app ms = [] :=
  List.filter_eq_nil_iff.mpr fun m member => by simpa using none' m member

theorem Flow.of_cons (m : α) (ms : List α) : f.of app (m :: ms) = f.of app [m] ++ f.of app ms :=
  Flow.of_append [m] ms

theorem Flow.of_cons_of_not {m : α} (other : ¬ f.Has app m) : f.of app (m :: ms) = f.of app ms :=
  List.filter_cons_of_neg (by simpa using other)

/-- Where the packets of a flow are in two neighbouring places does not matter. -/
theorem Flow.of_parts {full array more : List α} (parts : full ++ array = more) (rest : List α) :
    f.of app full ++ (f.of app array ++ rest) = f.of app more ++ rest := by
  rw [← List.append_assoc, ← Flow.of_append, parts]

open LbWorld

theorem LbWorld.Flows.congr (flows : w.Flows app) (same : ∀ f, v.flow app f = w.flow app f)
    (received : v.received = w.received) (freed : v.freed = w.freed) : v.Flows app := by
  intro f
  rw [same, received, freed]
  exact flows f

/-- Packets that a flow loses have to be freed. -/
theorem LbWorld.Flows.lose (flows : w.Flows app) (lost : List α)
    (loses : ∀ f, ∃ front back, w.flow app f = front ++ (f.of app lost ++ back) ∧
      v.flow app f = front ++ back)
    (received : v.received = w.received) (freed : v.freed = w.freed ++ lost) : v.Flows app := by
  intro f
  obtain ⟨front, back, before, after⟩ := loses f
  obtain ⟨ordered, accounted⟩ := flows f
  rw [before] at ordered accounted
  rw [received, freed, after, Flow.of_append]
  have less : (front ++ back).Sublist (front ++ (f.of app lost ++ back)) :=
    (List.sublist_append_right _ back).append_left front
  refine ⟨less.trans ordered, .trans ?_ accounted⟩
  classical
  refine List.perm_iff_count.mpr fun m => ?_
  simp only [List.count_append]
  omega

/-! ### Sending off -/

theorem rteRingSpEnqueueBulk_cases (size : ℕ) (ring objs : List α) :
    (rteRingSpEnqueueBulk size ring objs).2 = ring ++ objs ∧
        (if (rteRingSpEnqueueBulk size ring objs).1 = 0 then objs else []) = [] ∨
      (rteRingSpEnqueueBulk size ring objs).2 = ring ∧
        (if (rteRingSpEnqueueBulk size ring objs).1 = 0 then objs else []) = objs := by
  rw [rteRingSpEnqueueBulk]
  split
  case isTrue =>
      refine .inl ⟨rfl, ?_⟩
      split
      case isTrue none' => exact List.length_eq_zero_iff.mp none'
      case isFalse => rfl
  case isFalse => exact .inr ⟨rfl, rfl⟩

theorem toWorker_eq (l worker : ℕ) : w.toWorker app l worker objs =
    { w with
      ringsRx := Function.update w.ringsRx (l, worker)
        (rteRingSpEnqueueBulk app.ringRxSize (w.ringsRx (l, worker)) objs).2
      freed := w.freed ++ if (rteRingSpEnqueueBulk app.ringRxSize
        (w.ringsRx (l, worker)) objs).1 = 0 then objs else [] } := rfl

/-- Packets in front of the buffer for a worker. -/
def LbWorld.beforeRxOut (w : LbWorld α) (k : ℕ × ℕ) (objs : List α) : LbWorld α :=
  { w with
    rxOut := Function.update w.rxOut k ⟨objs ++ (w.rxOut k).array, (w.rxOut k).outFlush⟩ }

theorem toWorker_flows (l worker : ℕ)
    (own : ∀ m ∈ objs, app.lcoreOf m = l ∧ app.workerOf m = worker)
    (flows : (w.beforeRxOut (l, worker) objs).Flows app) :
    (w.toWorker app l worker objs).Flows app := by
  rw [toWorker_eq]
  rcases rteRingSpEnqueueBulk_cases app.ringRxSize (w.ringsRx (l, worker)) objs with
    ⟨ring, freed⟩ | ⟨ring, freed⟩ <;> rw [ring, freed]
  · refine flows.congr (fun f => ?_) rfl (List.append_nil _)
    by_cases here : (f.lcore, f.worker) = (l, worker) <;> simp [flow, beforeRxOut, here]
  · refine flows.lose objs (fun f => ?_) rfl rfl
    rw [Function.update_eq_self]
    refine ⟨f.of app (w.sent f.port) ++ (f.of app (w.txOut f.port).array ++
      (f.of app (w.ringsTx (f.port, f.worker)) ++
        (f.of app (w.workerOut (f.worker, f.port)).array ++ (f.of app (w.burst f.worker) ++
          f.of app (w.ringsRx (f.lcore, f.worker)))))),
      f.of app (w.rxOut (f.lcore, f.worker)).array ++ f.of app ((w.calls f.lcore).map Prod.snd),
      ?_, ?_⟩
    · by_cases here : (f.lcore, f.worker) = (l, worker)
      · simp [flow, beforeRxOut, here]
      · have others : f.of app objs = [] := Flow.of_eq_nil fun m member has =>
          here (Prod.ext (has.1.symm.trans (own m member).1) (has.2.1.symm.trans (own m member).2))
        simp [flow, beforeRxOut, here, others]
    · simp [flow]

theorem toPort_eq (worker port : ℕ) : w.toPort app worker port objs =
    { w with
      ringsTx := Function.update w.ringsTx (port, worker)
        (rteRingSpEnqueueBulk app.ringTxSize (w.ringsTx (port, worker)) objs).2
      freed := w.freed ++ if (rteRingSpEnqueueBulk app.ringTxSize
        (w.ringsTx (port, worker)) objs).1 = 0 then objs else [] } := rfl

/-- Packets in front of the buffer of a worker. -/
def LbWorld.beforeWorkerOut (w : LbWorld α) (k : ℕ × ℕ) (objs : List α) : LbWorld α :=
  { w with
    workerOut := Function.update w.workerOut k
      ⟨objs ++ (w.workerOut k).array, (w.workerOut k).outFlush⟩ }

theorem toPort_flows (worker port : ℕ)
    (own : ∀ m ∈ objs, app.workerOf m = worker ∧ app.portOf (app.workerOf m) m = port)
    (flows : (w.beforeWorkerOut (worker, port) objs).Flows app) :
    (w.toPort app worker port objs).Flows app := by
  rw [toPort_eq]
  rcases rteRingSpEnqueueBulk_cases app.ringTxSize (w.ringsTx (port, worker)) objs with
    ⟨ring, freed⟩ | ⟨ring, freed⟩ <;> rw [ring, freed]
  · refine flows.congr (fun f => ?_) rfl (List.append_nil _)
    by_cases here : f.worker = worker ∧ f.port = port
    · simp [flow, beforeWorkerOut, here]
    · have away : ¬ (f.port = port ∧ f.worker = worker) := fun same => here same.symm
      simp [flow, beforeWorkerOut, here, away]
  · refine flows.lose objs (fun f => ?_) rfl rfl
    rw [Function.update_eq_self]
    refine ⟨f.of app (w.sent f.port) ++ (f.of app (w.txOut f.port).array ++
      f.of app (w.ringsTx (f.port, f.worker))),
      f.of app (w.workerOut (f.worker, f.port)).array ++ (f.of app (w.burst f.worker) ++
        (f.of app (w.ringsRx (f.lcore, f.worker)) ++
          (f.of app (w.rxOut (f.lcore, f.worker)).array ++
            f.of app ((w.calls f.lcore).map Prod.snd)))), ?_, ?_⟩
    · by_cases here : (f.worker, f.port) = (worker, port)
      · simp [flow, beforeWorkerOut, here]
      · have others : f.of app objs = [] := Flow.of_eq_nil fun m member has => by
          obtain ⟨own₁, own₂⟩ := own m member
          refine here (Prod.ext (has.2.1.symm.trans own₁) ?_)
          rw [← own₂, has.2.1, has.2.2]
        simp [flow, beforeWorkerOut, here, others]
    · simp [flow]

/-- Packets in front of the buffer of a port. -/
def LbWorld.beforeTxOut (w : LbWorld α) (port : ℕ) (objs : List α) : LbWorld α :=
  { w with
    txOut := Function.update w.txOut port
      ⟨objs ++ (w.txOut port).array, (w.txOut port).outFlush⟩ }

theorem toNic_flows (port accepted : ℕ)
    (own : ∀ m ∈ objs, app.portOf (app.workerOf m) m = port)
    (flows : (w.beforeTxOut port objs).Flows app) :
    (w.toNic port accepted objs).Flows app := by
  refine flows.lose (objs.drop accepted) (fun f => ?_) rfl rfl
  by_cases here : f.port = port
  · refine ⟨f.of app (w.sent f.port) ++ f.of app (objs.take accepted),
      f.of app (w.txOut f.port).array ++ (f.of app (w.ringsTx (f.port, f.worker)) ++
        (f.of app (w.workerOut (f.worker, f.port)).array ++ (f.of app (w.burst f.worker) ++
          (f.of app (w.ringsRx (f.lcore, f.worker)) ++
            (f.of app (w.rxOut (f.lcore, f.worker)).array ++
              f.of app ((w.calls f.lcore).map Prod.snd)))))), ?_, ?_⟩
    · have parts : f.of app objs =
          f.of app (objs.take accepted) ++ f.of app (objs.drop accepted) := by
        rw [← Flow.of_append, List.take_append_drop]
      simp [flow, beforeTxOut, here, parts]
    · simp [flow, toNic, here]
  · have others : f.of app (objs.drop accepted) = [] := Flow.of_eq_nil fun m member has => by
      refine here (has.2.2.symm.trans ?_)
      rw [← own m (List.mem_of_mem_drop member), has.2.1]
    refine ⟨[], w.flow app f, ?_, ?_⟩
    · simp [flow, beforeTxOut, here, others]
    · simp [flow, toNic, here]

/-! ### From place to place -/

/-- A buffer whose front is sent off, if there is anything to send off. -/
theorem rx_flows {l worker : ℕ} (own : ∀ m ∈ objs, app.lcoreOf m = l ∧ app.workerOf m = worker)
    (flows : (w.beforeRxOut (l, worker) objs).Flows app) :
    (if objs = [] then w else w.toWorker app l worker objs).Flows app := by
  split
  case isTrue none' =>
      refine flows.congr (fun f => ?_) rfl rfl
      simp [none', beforeRxOut]
  case isFalse => exact toWorker_flows l worker own flows

theorem worker_flows {worker port : ℕ}
    (own : ∀ m ∈ objs, app.workerOf m = worker ∧ app.portOf (app.workerOf m) m = port)
    (flows : (w.beforeWorkerOut (worker, port) objs).Flows app) :
    (if objs = [] then w else w.toPort app worker port objs).Flows app := by
  split
  case isTrue none' =>
      refine flows.congr (fun f => ?_) rfl rfl
      simp [none', beforeWorkerOut]
  case isFalse => exact toPort_flows worker port own flows

theorem tx_flows {port accepted : ℕ} (own : ∀ m ∈ objs, app.portOf (app.workerOf m) m = port)
    (flows : (w.beforeTxOut port objs).Flows app) :
    (if objs = [] then w else w.toNic port accepted objs).Flows app := by
  split
  case isTrue none' =>
      refine flows.congr (fun f => ?_) rfl rfl
      simp [none', beforeTxOut]
  case isFalse => exact toNic_flows port accepted own flows

section Steps

variable {l worker port accepted : ℕ} {m : α}

theorem rxBurst_flows {array : ℕ → α} {n : UInt16} (idle : w.calls l = [])
    (flows : w.Flows app) :
    LbWorld.Flows app
      { w with
        calls := Function.update w.calls l (app.callsUpTo array n.toNat)
        received := Function.update w.received l
          (w.received l ++ (List.range n.toNat).map array) } := by
  intro f
  obtain ⟨ordered, accounted⟩ := flows f
  have pkts : (app.callsUpTo array n.toNat).map Prod.snd = (List.range n.toNat).map array := by
    rw [LbPackets.callsUpTo, List.map_map]
    rfl
  by_cases here : f.lcore = l
  · have more : LbWorld.flow app { w with
        calls := Function.update w.calls l (app.callsUpTo array n.toNat)
        received := Function.update w.received l
          (w.received l ++ (List.range n.toNat).map array) } f =
        w.flow app f ++ f.of app ((List.range n.toNat).map array) := by
      simp [flow, here, idle, pkts]
    rw [here] at ordered accounted
    rw [more, here]
    dsimp only
    rw [Function.update_self, Flow.of_append]
    refine ⟨ordered.append_right _, .trans ?_ (accounted.append_right _)⟩
    rw [List.append_assoc, List.append_assoc]
    exact List.perm_append_comm.append_left _
  · simpa [flow, here] using flows f

/-- A packet in front of those that an I/O lcore has still to distribute. -/
def LbWorld.beforeCalls (w : LbWorld α) (l : ℕ) (c : UInt32 × α) : LbWorld α :=
  { w with calls := Function.update w.calls l (c :: w.calls l) }

theorem bufferToSend_flows {c : UInt32 × α} (routed : w.Routed app)
    (own : app.lcoreOf c.2 = l ∧ app.workerOf c.2 = c.1.toNat)
    (short : (w.rxOut (l, c.1.toNat)).array.length < app.burstSizeIoRxWrite)
    (flows : (w.beforeCalls l c).Flows app) :
    (w.appLcoreIoRxBufferToSend app l c.1.toNat c.2).Flows app := by
  have parts : ((w.rxOut (l, c.1.toNat)).add app.burstSizeIoRxWrite [c.2]).1 ++
      ((w.rxOut (l, c.1.toNat)).add app.burstSizeIoRxWrite [c.2]).2.array =
        (w.rxOut (l, c.1.toNat)).array ++ [c.2] := AppMbufArray.add_sent
  have full := AppMbufArray.take_add short c.2
  rw [appLcoreIoRxBufferToSend]
  generalize (w.rxOut (l, c.1.toNat)).add app.burstSizeIoRxWrite [c.2] = step at *
  obtain ⟨objs, out⟩ := step
  dsimp only at parts full ⊢
  rw [full]
  refine rx_flows (fun m member => ?_) (flows.congr (fun f => ?_) rfl rfl)
  · have there : m ∈ (w.rxOut (l, c.1.toNat)).array ++ [c.2] :=
      parts ▸ List.mem_append_left _ member
    rcases List.mem_append.mp there with old | new
    · exact routed.rxOut _ m old
    · rw [List.mem_singleton.mp new]
      exact own
  · by_cases lcore : f.lcore = l
    · by_cases worker : f.worker = c.1.toNat
      · simp [flow, beforeRxOut, beforeCalls, lcore, worker, Flow.of_parts parts,
          Flow.of_cons c.2 (List.map _ _)]
      · have other : ¬ f.Has app c.2 := fun has => worker (has.2.1.symm.trans own.2)
        simp [flow, beforeRxOut, beforeCalls, lcore, worker, Flow.of_cons_of_not other]
    · simp [flow, beforeRxOut, beforeCalls, lcore]

theorem rxFlush_flows (routed : w.Routed app) (flows : w.Flows app) :
    (w.appLcoreIoRxFlush app l worker).Flows app := by
  have parts : (w.rxOut (l, worker)).flush.1 ++ (w.rxOut (l, worker)).flush.2.array =
      (w.rxOut (l, worker)).array := AppMbufArray.flush_sent
  rw [appLcoreIoRxFlush]
  generalize (w.rxOut (l, worker)).flush = step at *
  obtain ⟨objs, out⟩ := step
  dsimp only at parts ⊢
  refine rx_flows (fun m member => ?_) (flows.congr (fun f => ?_) rfl rfl)
  · exact routed.rxOut _ m (parts ▸ List.mem_append_left _ member)
  · by_cases here : (f.lcore, f.worker) = (l, worker) <;>
      simp [flow, beforeRxOut, here, Flow.of_parts parts]

theorem rteRingScDequeueBulk_parts (ring : List α) (n : ℕ) :
    (rteRingScDequeueBulk ring n).1 ++ (rteRingScDequeueBulk ring n).2 = ring := by
  rw [rteRingScDequeueBulk]
  split
  case isTrue => exact List.take_append_drop n ring
  case isFalse => rfl

theorem dequeue_flows (routed : w.Routed app) (idle : w.burst worker = []) (n : ℕ)
    (flows : w.Flows app) :
    LbWorld.Flows app
      { w with
        ringsRx := Function.update w.ringsRx (l, worker)
          (rteRingScDequeueBulk (w.ringsRx (l, worker)) n).2
        burst := Function.update w.burst worker
          (rteRingScDequeueBulk (w.ringsRx (l, worker)) n).1 } := by
  have parts := rteRingScDequeueBulk_parts (w.ringsRx (l, worker)) n
  generalize rteRingScDequeueBulk (w.ringsRx (l, worker)) n = step at *
  obtain ⟨objs, ring⟩ := step
  dsimp only at parts ⊢
  refine flows.congr (fun f => ?_) rfl rfl
  by_cases here : f.worker = worker
  · by_cases lcore : f.lcore = l
    · simp [flow, here, lcore, idle, Flow.of_parts parts]
    · have others : f.of app objs = [] := Flow.of_eq_nil fun m member has => lcore
        (has.1.symm.trans (routed.ringsRx _ m (parts ▸ List.mem_append_left _ member)).1)
      simp [flow, here, lcore, idle, others]
  · simp [flow, here]

/-- A packet in front of those that a worker has still to forward. -/
def LbWorld.beforeBurst (w : LbWorld α) (worker : ℕ) (m : α) : LbWorld α :=
  { w with burst := Function.update w.burst worker (m :: w.burst worker) }

theorem forward_flows (routed : w.Routed app) (own : app.workerOf m = worker)
    (short : (w.workerOut (worker, app.portOf worker m)).array.length < app.burstSizeWorkerWrite)
    (flows : (w.beforeBurst worker m).Flows app) :
    (w.appLcoreWorker app worker m).Flows app := by
  have parts : ((w.workerOut (worker, app.portOf worker m)).add app.burstSizeWorkerWrite [m]).1 ++
      ((w.workerOut (worker, app.portOf worker m)).add app.burstSizeWorkerWrite [m]).2.array =
        (w.workerOut (worker, app.portOf worker m)).array ++ [m] := AppMbufArray.add_sent
  have full := AppMbufArray.take_add short m
  rw [appLcoreWorker]
  dsimp only
  generalize (w.workerOut (worker, app.portOf worker m)).add app.burstSizeWorkerWrite [m] =
    step at *
  obtain ⟨objs, out⟩ := step
  dsimp only at parts full ⊢
  rw [full]
  refine worker_flows (fun x member => ?_) (flows.congr (fun f => ?_) rfl rfl)
  · have there : x ∈ (w.workerOut (worker, app.portOf worker m)).array ++ [m] :=
      parts ▸ List.mem_append_left _ member
    rcases List.mem_append.mp there with old | new
    · exact routed.workerOut _ x old
    · rw [List.mem_singleton.mp new, own]
      exact ⟨rfl, rfl⟩
  · by_cases here : f.worker = worker
    · by_cases port : f.port = app.portOf worker m
      · simp [flow, beforeWorkerOut, beforeBurst, here, port, Flow.of_parts parts,
          Flow.of_cons m (w.burst _)]
      · have other : ¬ f.Has app m := fun has => port (by rw [← has.2.2, here])
        simp [flow, beforeWorkerOut, beforeBurst, here, port, Flow.of_cons_of_not other]
    · simp [flow, beforeWorkerOut, beforeBurst, here]

theorem workerFlush_flows (routed : w.Routed app) (flows : w.Flows app) :
    (w.appLcoreWorkerFlush app worker port).Flows app := by
  have parts : (w.workerOut (worker, port)).flush.1 ++
      (w.workerOut (worker, port)).flush.2.array = (w.workerOut (worker, port)).array :=
    AppMbufArray.flush_sent
  rw [appLcoreWorkerFlush]
  generalize (w.workerOut (worker, port)).flush = step at *
  obtain ⟨objs, out⟩ := step
  dsimp only at parts ⊢
  refine worker_flows (fun m member => ?_) (flows.congr (fun f => ?_) rfl rfl)
  · exact routed.workerOut _ m (parts ▸ List.mem_append_left _ member)
  · by_cases here : (f.worker, f.port) = (worker, port) <;>
      simp [flow, beforeWorkerOut, here, Flow.of_parts parts]

theorem collect_flows (routed : w.Routed app) (flows : w.Flows app) :
    (w.appLcoreIoTx app port worker accepted).Flows app := by
  have took := rteRingScDequeueBulk_parts (w.ringsTx (port, worker)) app.burstSizeIoTxRead
  rw [appLcoreIoTx]
  generalize rteRingScDequeueBulk (w.ringsTx (port, worker)) app.burstSizeIoTxRead = got at *
  obtain ⟨objs, ring⟩ := got
  dsimp only at took ⊢
  split
  case isTrue => exact flows
  case isFalse =>
      have parts : ((w.txOut port).add app.burstSizeIoTxWrite objs).1 ++
          ((w.txOut port).add app.burstSizeIoTxWrite objs).2.array =
            (w.txOut port).array ++ objs := AppMbufArray.add_sent
      generalize (w.txOut port).add app.burstSizeIoTxWrite objs = step at *
      obtain ⟨full, out⟩ := step
      dsimp only at parts ⊢
      refine tx_flows (fun m member => ?_) (flows.congr (fun f => ?_) rfl rfl)
      · have there : m ∈ (w.txOut port).array ++ objs := parts ▸ List.mem_append_left _ member
        rcases List.mem_append.mp there with old | new
        · exact routed.txOut _ m old
        · exact (routed.ringsTx _ m (took ▸ List.mem_append_left _ new)).2
      · by_cases here : f.port = port
        · by_cases from' : f.worker = worker
          · simp [flow, beforeTxOut, here, from', Flow.of_parts parts, Flow.of_parts took]
          · have others : f.of app objs = [] := Flow.of_eq_nil fun m member has => from'
              (has.2.1.symm.trans
                (routed.ringsTx _ m (took ▸ List.mem_append_left _ member)).1)
            simp [flow, beforeTxOut, here, from', Flow.of_parts parts, others]
        · simp [flow, beforeTxOut, here]

theorem txFlush_flows (routed : w.Routed app) (flows : w.Flows app) :
    (w.appLcoreIoTxFlush port accepted).Flows app := by
  have parts : (w.txOut port).flush.1 ++ (w.txOut port).flush.2.array = (w.txOut port).array :=
    AppMbufArray.flush_sent
  rw [appLcoreIoTxFlush]
  generalize (w.txOut port).flush = step at *
  obtain ⟨objs, out⟩ := step
  dsimp only at parts ⊢
  refine tx_flows (fun m member => ?_) (flows.congr (fun f => ?_) rfl rfl)
  · exact routed.txOut _ m (parts ▸ List.mem_append_left _ member)
  · by_cases here : f.port = port <;> simp [flow, beforeTxOut, here, Flow.of_parts parts]

end Steps

/-! ### Places -/

section Places

variable {l worker port accepted : ℕ} {m : α} {k : ℕ × ℕ} {out : AppMbufArray α}

theorem LbWorld.Routed.toWorker (routed : w.Routed app)
    (own : ∀ m ∈ objs, app.lcoreOf m = l ∧ app.workerOf m = worker) :
    (w.toWorker app l worker objs).Routed app := by
  refine { routed with ringsRx := ?_ }
  rw [toWorker_eq]
  refine (Function.forall_update_iff _ fun k ring => ∀ m ∈ ring,
    app.lcoreOf m = k.1 ∧ app.workerOf m = k.2).mpr
      ⟨fun m member => ?_, fun k _ => routed.ringsRx k⟩
  rcases rteRingSpEnqueueBulk_cases app.ringRxSize (w.ringsRx (l, worker)) objs with
    ⟨ring, -⟩ | ⟨ring, -⟩ <;> rw [ring] at member
  · exact (List.mem_append.mp member).elim (routed.ringsRx _ m) (own m)
  · exact routed.ringsRx _ m member

theorem LbWorld.Routed.toPort (routed : w.Routed app)
    (own : ∀ m ∈ objs, app.workerOf m = worker ∧ app.portOf (app.workerOf m) m = port) :
    (w.toPort app worker port objs).Routed app := by
  refine { routed with ringsTx := ?_ }
  rw [toPort_eq]
  refine (Function.forall_update_iff _ fun k ring => ∀ m ∈ ring,
    app.workerOf m = k.2 ∧ app.portOf (app.workerOf m) m = k.1).mpr
      ⟨fun m member => ?_, fun k _ => routed.ringsTx k⟩
  rcases rteRingSpEnqueueBulk_cases app.ringTxSize (w.ringsTx (port, worker)) objs with
    ⟨ring, -⟩ | ⟨ring, -⟩ <;> rw [ring] at member
  · exact (List.mem_append.mp member).elim (routed.ringsTx _ m) (own m)
  · exact routed.ringsTx _ m member

theorem LbWorld.Routed.toNic (routed : w.Routed app)
    (own : ∀ m ∈ objs, app.portOf (app.workerOf m) m = port) :
    (w.toNic port accepted objs).Routed app := by
  refine { routed with sent := ?_ }
  refine (Function.forall_update_iff _ fun p sent => ∀ m ∈ sent,
    app.portOf (app.workerOf m) m = p).mpr ⟨fun m member => ?_, fun p _ => routed.sent p⟩
  exact (List.mem_append.mp member).elim (routed.sent _ m)
    fun taken => own m (List.mem_of_mem_take taken)

theorem LbWorld.Routed.rest {calls : List (UInt32 × α)} (routed : w.Routed app)
    (own : ∀ c ∈ calls, app.lcoreOf c.2 = l ∧ app.workerOf c.2 = c.1.toNat) :
    LbWorld.Routed app { w with calls := Function.update w.calls l calls } :=
  { routed with
    calls := (Function.forall_update_iff _ fun l (calls : List (UInt32 × α)) => ∀ c ∈ calls,
      app.lcoreOf c.2 = l ∧ app.workerOf c.2 = c.1.toNat).mpr ⟨own, fun l _ => routed.calls l⟩ }

theorem LbWorld.Routed.rxBuffer (routed : w.Routed app)
    (own : ∀ m ∈ out.array, app.lcoreOf m = k.1 ∧ app.workerOf m = k.2) :
    LbWorld.Routed app { w with rxOut := Function.update w.rxOut k out } :=
  { routed with
    rxOut := (Function.forall_update_iff _ fun k (out : AppMbufArray α) => ∀ m ∈ out.array,
      app.lcoreOf m = k.1 ∧ app.workerOf m = k.2).mpr ⟨own, fun k _ => routed.rxOut k⟩ }

theorem LbWorld.Routed.workerBuffer (routed : w.Routed app)
    (own : ∀ m ∈ out.array, app.workerOf m = k.1 ∧ app.portOf (app.workerOf m) m = k.2) :
    LbWorld.Routed app { w with workerOut := Function.update w.workerOut k out } :=
  { routed with
    workerOut := (Function.forall_update_iff _ fun k (out : AppMbufArray α) => ∀ m ∈ out.array,
      app.workerOf m = k.1 ∧ app.portOf (app.workerOf m) m = k.2).mpr
        ⟨own, fun k _ => routed.workerOut k⟩ }

theorem LbWorld.Routed.txBuffer (routed : w.Routed app)
    (own : ∀ m ∈ out.array, app.portOf (app.workerOf m) m = port) :
    LbWorld.Routed app { w with txOut := Function.update w.txOut port out } :=
  { routed with
    txOut := (Function.forall_update_iff _ fun p (out : AppMbufArray α) => ∀ m ∈ out.array,
      app.portOf (app.workerOf m) m = p).mpr ⟨own, fun p _ => routed.txOut p⟩ }

theorem LbWorld.Routed.rxRing {ring : List α} (routed : w.Routed app)
    (own : ∀ m ∈ ring, app.lcoreOf m = k.1 ∧ app.workerOf m = k.2) :
    LbWorld.Routed app { w with ringsRx := Function.update w.ringsRx k ring } :=
  { routed with
    ringsRx := (Function.forall_update_iff _ fun k (ring : List α) => ∀ m ∈ ring,
      app.lcoreOf m = k.1 ∧ app.workerOf m = k.2).mpr ⟨own, fun k _ => routed.ringsRx k⟩ }

theorem LbWorld.Routed.bursts (routed : w.Routed app) (own : ∀ m ∈ ms, app.workerOf m = worker) :
    LbWorld.Routed app { w with burst := Function.update w.burst worker ms } :=
  { routed with
    burst := (Function.forall_update_iff _ fun worker (ms : List α) => ∀ m ∈ ms,
      app.workerOf m = worker).mpr ⟨own, fun worker _ => routed.burst worker⟩ }

theorem LbWorld.Routed.txRing {ring : List α} (routed : w.Routed app)
    (own : ∀ m ∈ ring, app.workerOf m = k.2 ∧ app.portOf (app.workerOf m) m = k.1) :
    LbWorld.Routed app { w with ringsTx := Function.update w.ringsTx k ring } :=
  { routed with
    ringsTx := (Function.forall_update_iff _ fun k (ring : List α) => ∀ m ∈ ring,
      app.workerOf m = k.2 ∧ app.portOf (app.workerOf m) m = k.1).mpr
        ⟨own, fun k _ => routed.ringsTx k⟩ }

/-! What is in a buffer is sent off, or stays. -/

theorem LbWorld.Routed.rxSend (step : List α × AppMbufArray α) (more : List α)
    (routed : w.Routed app)
    (whose : ∀ m ∈ step.1 ++ step.2.array, app.lcoreOf m = l ∧ app.workerOf m = worker)
    (part : more ⊆ step.1) :
    LbWorld.Routed app
      (if step.1 = [] then { w with rxOut := Function.update w.rxOut (l, worker) step.2 }
      else { w with rxOut := Function.update w.rxOut (l, worker) step.2 }.toWorker app l worker
        more) := by
  have buffered := routed.rxBuffer (k := (l, worker)) fun m member =>
    whose m (List.mem_append_right step.1 member)
  split
  case isTrue => exact buffered
  case isFalse =>
      refine buffered.toWorker fun m member => ?_
      exact whose m (List.mem_append_left _ (part member))

theorem LbWorld.Routed.workerSend (step : List α × AppMbufArray α) (more : List α)
    (routed : w.Routed app)
    (whose : ∀ m ∈ step.1 ++ step.2.array,
      app.workerOf m = worker ∧ app.portOf (app.workerOf m) m = port)
    (part : more ⊆ step.1) :
    LbWorld.Routed app
      (if step.1 = [] then { w with workerOut := Function.update w.workerOut (worker, port) step.2 }
      else { w with workerOut := Function.update w.workerOut (worker, port) step.2 }.toPort app
        worker port more) := by
  have buffered := routed.workerBuffer (k := (worker, port)) fun m member =>
    whose m (List.mem_append_right step.1 member)
  split
  case isTrue => exact buffered
  case isFalse =>
      refine buffered.toPort fun m member => ?_
      exact whose m (List.mem_append_left _ (part member))

theorem LbWorld.Routed.txSend (step : List α × AppMbufArray α) (routed : w.Routed app)
    (whose : ∀ m ∈ step.1 ++ step.2.array, app.portOf (app.workerOf m) m = port) :
    LbWorld.Routed app
      (if step.1 = [] then { w with txOut := Function.update w.txOut port step.2 }
      else { w with txOut := Function.update w.txOut port step.2 }.toNic port accepted
        step.1) := by
  have buffered := routed.txBuffer fun m member => whose m (List.mem_append_right step.1 member)
  split
  case isTrue => exact buffered
  case isFalse => exact buffered.toNic fun m member => whose m (List.mem_append_left _ member)

theorem LbWorld.Routed.bufferToSend (routed : w.Routed app)
    (own : app.lcoreOf m = l ∧ app.workerOf m = worker) :
    (w.appLcoreIoRxBufferToSend app l worker m).Routed app := by
  refine routed.rxSend ((w.rxOut (l, worker)).add app.burstSizeIoRxWrite [m]) _
    (fun x member => ?_) (List.take_subset _ _)
  rw [AppMbufArray.add_sent] at member
  rcases List.mem_append.mp member with old | new
  · exact routed.rxOut _ x old
  · exact List.mem_singleton.mp new ▸ own

theorem LbWorld.Routed.rxFlush (routed : w.Routed app) :
    (w.appLcoreIoRxFlush app l worker).Routed app := by
  refine routed.rxSend (w.rxOut (l, worker)).flush _ (fun x member => ?_) (List.Subset.refl _)
  rw [AppMbufArray.flush_sent] at member
  exact routed.rxOut _ x member

theorem LbWorld.Routed.forward (routed : w.Routed app) (own : app.workerOf m = worker) :
    (w.appLcoreWorker app worker m).Routed app := by
  refine routed.workerSend
    ((w.workerOut (worker, app.portOf worker m)).add app.burstSizeWorkerWrite [m]) _
    (fun x member => ?_) (List.take_subset _ _)
  rw [AppMbufArray.add_sent] at member
  rcases List.mem_append.mp member with old | new
  · exact routed.workerOut _ x old
  · rw [List.mem_singleton.mp new, own]
    exact ⟨rfl, rfl⟩

theorem LbWorld.Routed.workerFlush (routed : w.Routed app) :
    (w.appLcoreWorkerFlush app worker port).Routed app := by
  refine routed.workerSend (w.workerOut (worker, port)).flush _ (fun x member => ?_)
    (List.Subset.refl _)
  rw [AppMbufArray.flush_sent] at member
  exact routed.workerOut _ x member

theorem LbWorld.Routed.collect (routed : w.Routed app) :
    (w.appLcoreIoTx app port worker accepted).Routed app := by
  have took := rteRingScDequeueBulk_parts (w.ringsTx (port, worker)) app.burstSizeIoTxRead
  rw [appLcoreIoTx]
  generalize rteRingScDequeueBulk (w.ringsTx (port, worker)) app.burstSizeIoTxRead = got at *
  obtain ⟨objs, ring⟩ := got
  dsimp only at took ⊢
  have whose : ∀ x ∈ objs ++ ring,
      app.workerOf x = worker ∧ app.portOf (app.workerOf x) x = port := by
    rw [took]
    exact routed.ringsTx (port, worker)
  split
  case isTrue => exact routed
  case isFalse =>
      have taken := routed.txRing (k := (port, worker)) fun x member =>
        whose x (List.mem_append_right objs member)
      refine taken.txSend ((w.txOut port).add app.burstSizeIoTxWrite objs) fun x member => ?_
      rw [AppMbufArray.add_sent] at member
      rcases List.mem_append.mp member with old | new
      · exact routed.txOut _ x old
      · exact (whose x (List.mem_append_left _ new)).2

theorem LbWorld.Routed.txFlush (routed : w.Routed app) :
    (w.appLcoreIoTxFlush port accepted).Routed app := by
  refine routed.txSend (w.txOut port).flush fun x member => ?_
  rw [AppMbufArray.flush_sent] at member
  exact routed.txOut _ x member

theorem LbWorld.Routed.dequeue (routed : w.Routed app) (n : ℕ) :
    LbWorld.Routed app
      { w with
        ringsRx := Function.update w.ringsRx (l, worker)
          (rteRingScDequeueBulk (w.ringsRx (l, worker)) n).2
        burst := Function.update w.burst worker
          (rteRingScDequeueBulk (w.ringsRx (l, worker)) n).1 } := by
  have took := rteRingScDequeueBulk_parts (w.ringsRx (l, worker)) n
  generalize rteRingScDequeueBulk (w.ringsRx (l, worker)) n = got at *
  obtain ⟨objs, ring⟩ := got
  dsimp only at took ⊢
  have whose : ∀ x ∈ objs ++ ring, app.lcoreOf x = l ∧ app.workerOf x = worker := by
    rw [took]
    exact routed.ringsRx (l, worker)
  refine (routed.rxRing (k := (l, worker)) fun x member => ?_).bursts fun x member => ?_
  · exact whose x (List.mem_append_right objs member)
  · exact (whose x (List.mem_append_left _ member)).2

theorem LbWorld.Routed.rxBurst {array : ℕ → α} {n : UInt16} (routed : w.Routed app)
    (own : ∀ i < n.toNat, app.lcoreOf (array i) = l) (received : ℕ → List α) :
    LbWorld.Routed app
      { w with
        calls := Function.update w.calls l (app.callsUpTo array n.toNat)
        received := received } := by
  have routed : LbWorld.Routed app { w with received := received } := { routed with }
  refine routed.rest fun c member => ?_
  obtain ⟨i, below, rfl⟩ := List.mem_map.mp member
  exact ⟨own i (List.mem_range.mp below), rfl⟩

end Places

/-! ### Fill -/

/-- Buffers hold fewer packets than the bursts that they are sent off in, and lcores have no
more to do than they have read. -/
structure LbWorld.Short (app : LbApp α) (w : LbWorld α) : Prop where
  calls : ∀ l, (w.calls l).length ≤ app.burstSizeIoRxRead
  burst : ∀ worker, (w.burst worker).length ≤ app.burstSizeWorkerRead
  rxOut : ∀ k, (w.rxOut k).array.length < app.burstSizeIoRxWrite
  workerOut : ∀ k, (w.workerOut k).array.length < app.burstSizeWorkerWrite
  txOut : ∀ port, (w.txOut port).array.length < app.burstSizeIoTxWrite

section Fill

variable {l worker port accepted : ℕ} {m : α}

theorem LbWorld.Short.rxSend (step : List α × AppMbufArray α) (more : List α)
    (short : w.Short app) (fits : step.2.array.length < app.burstSizeIoRxWrite) :
    LbWorld.Short app
      (if step.1 = [] then { w with rxOut := Function.update w.rxOut (l, worker) step.2 }
      else { w with rxOut := Function.update w.rxOut (l, worker) step.2 }.toWorker app l worker
        more) := by
  have outs : ∀ k, (Function.update w.rxOut (l, worker) step.2 k).array.length <
      app.burstSizeIoRxWrite :=
    (Function.forall_update_iff _ fun _ (out : AppMbufArray α) => out.array.length < _).mpr
      ⟨fits, fun k _ => short.rxOut k⟩
  split
  case isTrue => exact { short with rxOut := outs }
  case isFalse => exact { short with rxOut := outs }

theorem LbWorld.Short.workerSend (step : List α × AppMbufArray α) (more : List α)
    (short : w.Short app) (fits : step.2.array.length < app.burstSizeWorkerWrite) :
    LbWorld.Short app
      (if step.1 = [] then { w with workerOut := Function.update w.workerOut (worker, port) step.2 }
      else { w with workerOut := Function.update w.workerOut (worker, port) step.2 }.toPort app
        worker port more) := by
  have outs : ∀ k, (Function.update w.workerOut (worker, port) step.2 k).array.length <
      app.burstSizeWorkerWrite :=
    (Function.forall_update_iff _ fun _ (out : AppMbufArray α) => out.array.length < _).mpr
      ⟨fits, fun k _ => short.workerOut k⟩
  split
  case isTrue => exact { short with workerOut := outs }
  case isFalse => exact { short with workerOut := outs }

theorem LbWorld.Short.txSend (step : List α × AppMbufArray α) (short : w.Short app)
    (fits : step.2.array.length < app.burstSizeIoTxWrite) :
    LbWorld.Short app
      (if step.1 = [] then { w with txOut := Function.update w.txOut port step.2 }
      else { w with txOut := Function.update w.txOut port step.2 }.toNic port accepted
        step.1) := by
  have outs : ∀ p, (Function.update w.txOut port step.2 p).array.length <
      app.burstSizeIoTxWrite :=
    (Function.forall_update_iff _ fun _ (out : AppMbufArray α) => out.array.length < _).mpr
      ⟨fits, fun p _ => short.txOut p⟩
  split
  case isTrue => exact { short with txOut := outs }
  case isFalse => exact { short with txOut := outs }

theorem LbWorld.Short.collect (short : w.Short app) :
    (w.appLcoreIoTx app port worker accepted).Short app := by
  rw [appLcoreIoTx]
  generalize rteRingScDequeueBulk (w.ringsTx (port, worker)) app.burstSizeIoTxRead = got
  obtain ⟨objs, ring⟩ := got
  dsimp only
  split
  case isTrue => exact short
  case isFalse =>
      have taken : LbWorld.Short app
          { w with ringsTx := Function.update w.ringsTx (port, worker) ring } := { short with }
      exact taken.txSend ((w.txOut port).add app.burstSizeIoTxWrite objs)
        (AppMbufArray.length_add app.txWrite_pos)

/-- What an I/O lcore has still to distribute. -/
theorem LbWorld.Short.rest {calls : List (UInt32 × α)} (short : w.Short app)
    (few : calls.length ≤ app.burstSizeIoRxRead) :
    LbWorld.Short app { w with calls := Function.update w.calls l calls } := by
  refine { short with calls := ?_ }
  exact (Function.forall_update_iff _ fun _ (calls : List (UInt32 × α)) => calls.length ≤ _).mpr
    ⟨few, fun i _ => short.calls i⟩

/-- What a worker has still to forward. -/
theorem LbWorld.Short.bursts (worker : ℕ) {pkts : List α} (short : w.Short app)
    (few : pkts.length ≤ app.burstSizeWorkerRead) :
    LbWorld.Short app { w with burst := Function.update w.burst worker pkts } := by
  refine { short with burst := ?_ }
  exact (Function.forall_update_iff _ fun _ (pkts : List α) => pkts.length ≤ _).mpr
    ⟨few, fun i _ => short.burst i⟩

theorem length_rteRingScDequeueBulk (ring : List α) (n : ℕ) :
    (rteRingScDequeueBulk ring n).1.length ≤ n := by
  rw [rteRingScDequeueBulk]
  split
  case isTrue => exact List.length_take_le n ring
  case isFalse => exact Nat.zero_le n

end Fill

/-! ### Runs -/

/-- What holds between any two steps. -/
structure LbWorld.Inv (app : LbApp α) (w : LbWorld α) : Prop where
  routed : w.Routed app
  short : w.Short app
  flows : w.Flows app

theorem LbWorld.Inv.exec {a : LbStep α} (inv : w.Inv app) (step : w.exec app a = some v) :
    v.Inv app := by
  obtain ⟨routed, short, flows⟩ := inv
  cases a with
  | rxBurst l array n =>
      rw [LbWorld.exec, Option.ite_none_right_eq_some, distribute_eq, Option.map_some,
        Option.some_inj] at step
      obtain ⟨⟨idle, few, own⟩, rfl⟩ := step
      have todo : (app.callsUpTo array n.toNat).length ≤ app.burstSizeIoRxRead := by
        rwa [LbPackets.callsUpTo, List.length_map, List.length_range]
      exact ⟨routed.rxBurst own _, { short.rest (l := l) todo with }, rxBurst_flows idle flows⟩
  | distribute l =>
      rw [LbWorld.exec] at step
      split at step
      case h_1 => exact absurd step (Option.some_ne_none _).symm
      case h_2 worker mbuf calls todo =>
          obtain rfl := Option.some_inj.mp step
          have own := routed.calls l (worker, mbuf) (todo ▸ List.mem_cons_self)
          have rest : LbWorld.Routed app { w with calls := Function.update w.calls l calls } :=
            routed.rest fun c member => routed.calls l c (todo ▸ List.mem_cons_of_mem _ member)
          refine ⟨rest.bufferToSend own, ?_, ?_⟩
          · have few : calls.length ≤ app.burstSizeIoRxRead := by
              have before := short.calls l
              rw [todo, List.length_cons] at before
              exact Nat.le_of_succ_le before
            exact Short.rxSend ((w.rxOut (l, worker.toNat)).add app.burstSizeIoRxWrite [mbuf]) _
              (short.rest few) (AppMbufArray.length_add app.rxWrite_pos)
          · refine bufferToSend_flows (c := (worker, mbuf)) rest own (short.rxOut _)
              (flows.congr (fun f => ?_) rfl rfl)
            simp [flow, beforeCalls, ← todo]
  | rxFlush l worker =>
      obtain ⟨-, result⟩ := Option.ite_none_right_eq_some.mp step
      obtain rfl := Option.some_inj.mp result
      exact ⟨routed.rxFlush, short.rxSend (w.rxOut (l, worker)).flush _
        (AppMbufArray.length_flush (short.rxOut _)), rxFlush_flows routed flows⟩
  | dequeue worker l =>
      rw [LbWorld.exec, Option.ite_none_right_eq_some, Option.some_inj] at step
      obtain ⟨idle, rfl⟩ := step
      have few := length_rteRingScDequeueBulk (w.ringsRx (l, worker)) app.burstSizeWorkerRead
      exact ⟨routed.dequeue _, { short.bursts worker few with },
        dequeue_flows routed idle _ flows⟩
  | forward worker =>
      rw [LbWorld.exec] at step
      split at step
      case h_1 => exact absurd step (Option.some_ne_none _).symm
      case h_2 pkt pkts todo =>
          obtain rfl := Option.some_inj.mp step
          have own := routed.burst worker pkt (todo ▸ List.mem_cons_self)
          have rest : LbWorld.Routed app { w with burst := Function.update w.burst worker pkts } :=
            routed.bursts fun m member =>
              routed.burst worker m (todo ▸ List.mem_cons_of_mem _ member)
          refine ⟨rest.forward own, ?_, ?_⟩
          · have few : pkts.length ≤ app.burstSizeWorkerRead := by
              have before := short.burst worker
              rw [todo, List.length_cons] at before
              exact Nat.le_of_succ_le before
            exact Short.workerSend ((w.workerOut (worker, app.portOf worker pkt)).add
              app.burstSizeWorkerWrite [pkt]) _ (short.bursts worker few)
              (AppMbufArray.length_add app.workerWrite_pos)
          · refine forward_flows rest own (short.workerOut _) (flows.congr (fun f => ?_) rfl rfl)
            simp [flow, beforeBurst, ← todo]
  | workerFlush worker port =>
      obtain ⟨-, result⟩ := Option.ite_none_right_eq_some.mp step
      obtain rfl := Option.some_inj.mp result
      exact ⟨routed.workerFlush, short.workerSend (w.workerOut (worker, port)).flush _
        (AppMbufArray.length_flush (short.workerOut _)), workerFlush_flows routed flows⟩
  | collect port worker accepted =>
      obtain ⟨-, result⟩ := Option.ite_none_right_eq_some.mp step
      obtain rfl := Option.some_inj.mp result
      exact ⟨routed.collect, short.collect, collect_flows routed flows⟩
  | txFlush port accepted =>
      obtain ⟨-, result⟩ := Option.ite_none_right_eq_some.mp step
      obtain rfl := Option.some_inj.mp result
      exact ⟨routed.txFlush, short.txSend (w.txOut port).flush
        (AppMbufArray.length_flush (short.txOut _)), txFlush_flows routed flows⟩

theorem inv_of_reachable (reached : (loadBalancer app).Reachable w) : w.Inv app := by
  refine reached.invariant (fun s start => ?_) fun _ _ _ inv step => inv.exec step
  obtain ⟨calls, rxOut, ringsRx, burst, workerOut, ringsTx, txOut, received, sent, freed⟩ := start
  refine ⟨⟨?_, ?_, ?_, ?_, ?_, ?_, ?_, ?_⟩, ⟨?_, ?_, ?_, ?_, ?_⟩, ?_⟩
  · simp [calls]
  · simp [rxOut]
  · simp [ringsRx]
  · simp [burst]
  · simp [workerOut]
  · simp [ringsTx]
  · simp [txOut]
  · simp [sent]
  · simp [calls]
  · simp [burst]
  · simp [rxOut, app.rxWrite_pos]
  · simp [workerOut, app.workerWrite_pos]
  · simp [txOut, app.txWrite_pos]
  · intro f
    simp [flow, calls, rxOut, ringsRx, burst, workerOut, ringsTx, txOut, received, sent, freed]

/-- **Order.** Whatever the lcores do and in whatever order: the packets of a flow that have
been sent are packets that were received, each at most as often as it was received, in the
order in which they were received. -/
theorem sent_sublist_received (reached : (loadBalancer app).Reachable w) (f : Flow) :
    (f.of app (w.sent f.port)).Sublist (f.of app (w.received f.lcore)) := by
  obtain ⟨ordered, -⟩ := (inv_of_reachable reached).flows f
  rw [flow] at ordered
  exact (List.sublist_append_left _ _).trans ordered

/-- **Conservation.** The packets of a flow that have been received are those that have been
sent, those that are in one of the buffers and rings in between and those that have been
freed. -/
theorem received_perm_flow (reached : (loadBalancer app).Reachable w) (f : Flow) :
    (f.of app (w.received f.lcore)).Perm (w.flow app f ++ f.of app w.freed) :=
  ((inv_of_reachable reached).flows f).2.symm

/-- Two workers and two ports. Packets are numbers, which are also their bytes. -/
def twoWorkers : LbApp ℕ where
  nWorkers := 2
  posLb := 29
  mtod m _ := .ofNat m
  rteLpmLookup worker _ := if worker = 0 then some 1 else none
  port _ := 0
  lcoreOf _ := 0
  burstSizeIoRxRead := 4
  burstSizeIoRxWrite := 1
  burstSizeIoTxRead := 1
  burstSizeIoTxWrite := 2
  burstSizeWorkerRead := 2
  burstSizeWorkerWrite := 2
  ringRxSize := 4
  ringTxSize := 4
  rxWrite_pos := Nat.one_pos
  txWrite_pos := Nat.two_pos
  workerWrite_pos := Nat.two_pos
  rxRead_le := by decide
  rxWrite_le := by decide
  tx_le := by decide
  workerRead_le := by decide
  workerWrite_le := by decide
  nWorkers_pos := by decide
  nWorkers_le := by decide
  port_lt _ := by decide
  lookup_lt _ _ _ found := by
    obtain ⟨-, result⟩ := Option.ite_none_right_eq_some.mp found
    obtain rfl := Option.some.inj result
    decide

/-- Nothing has been received. -/
def nothingYet : LbWorld ℕ where
  calls _ := []
  rxOut _ := ⟨[], 0⟩
  ringsRx _ := []
  burst _ := []
  workerOut _ := ⟨[], 0⟩
  ringsTx _ := []
  txOut _ := ⟨[], 0⟩
  received _ := []
  sent _ := []
  freed := []

theorem init_nothingYet : (loadBalancer twoWorkers).Init nothingYet :=
  ⟨fun _ => rfl, fun _ => rfl, fun _ => rfl, fun _ => rfl, fun _ => rfl, fun _ => rfl,
    fun _ => rfl, fun _ => rfl, fun _ => rfl, rfl⟩

/-- A burst of four, of which the first worker gets two. They are sent, the port takes one
of them, and the second worker has not yet read its own. -/
def halfSent : List (LbStep ℕ) :=
  [.rxBurst 0 (fun i => i + 10) 4, .distribute 0, .distribute 0, .distribute 0, .distribute 0,
    .dequeue 0 0, .forward 0, .forward 0, .collect 1 0 0, .collect 1 0 1]

theorem run_halfSent : ∃ w, (loadBalancer twoWorkers).run nothingYet halfSent = some w ∧
    w.sent 1 = [10] ∧ w.freed = [12] ∧ w.received 0 = [10, 11, 12, 13] ∧
    w.flow twoWorkers ⟨0, 0, 1⟩ = [10] ∧ w.flow twoWorkers ⟨0, 1, 0⟩ = [11, 13] := by
  have ends : ((loadBalancer twoWorkers).run nothingYet halfSent).map
      (fun w => (w.sent 1, w.freed, w.received 0, w.flow twoWorkers ⟨0, 0, 1⟩,
        w.flow twoWorkers ⟨0, 1, 0⟩)) =
          some ([10], [12], [10, 11, 12, 13], [10], [11, 13]) := by decide
  obtain ⟨w, executed, there⟩ := Option.map_eq_some_iff.mp ends
  exact ⟨w, executed, by simpa only [Prod.mk.injEq] using there⟩

theorem sent_sublist_received_twoWorkers :
    ∃ w, (loadBalancer twoWorkers).run nothingYet halfSent = some w ∧ w.sent 1 = [10] ∧
      ([10] : List ℕ).Sublist [10, 12] := by
  obtain ⟨w, executed, sent, -, received, -, -⟩ := run_halfSent
  have ordered := sent_sublist_received ⟨nothingYet, halfSent, init_nothingYet, executed⟩ ⟨0, 0, 1⟩
  dsimp only at ordered
  rw [sent, received] at ordered
  exact ⟨w, executed, sent, ordered⟩

theorem received_perm_flow_twoWorkers :
    ∃ w, (loadBalancer twoWorkers).run nothingYet halfSent = some w ∧
      w.flow twoWorkers ⟨0, 1, 0⟩ = [11, 13] ∧ ([10, 12] : List ℕ).Perm ([10] ++ [12]) := by
  obtain ⟨w, executed, -, freed, received, flow, other⟩ := run_halfSent
  have accounted := received_perm_flow ⟨nothingYet, halfSent, init_nothingYet, executed⟩ ⟨0, 0, 1⟩
  dsimp only at accounted
  rw [flow, freed, received] at accounted
  exact ⟨w, executed, other, accounted⟩

end DpdkCr.LoadBalancer
