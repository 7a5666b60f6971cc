import DpdkCr.LoadBalancer.Buffers
import DpdkCr.Semantics.Loop
import Mathlib.Data.List.Count
import Mathlib.Logic.Function.Basic

/-!
# Wiring of the load balancer

Before the lcores start, each I/O lcore that receives packets is connected with each worker,
and each worker with each port that is sent to. All rings are created for a single producer
and a single consumer, so that no two lcores may write to one, or read from one.

An I/O lcore finds the ring of a worker by the number of the worker, which is its place among
the workers; the lcore of a port finds the ring of a worker by port and number.

## Main definitions

* `AppParams` — what the start-up knows of the lcores
* `appAssignWorkerIds`, `appInitRingsRx`, `appInitRingsTx` — the start-up
* `Needed` — the rings that it creates

## Main results

* `appInitRings_isOk_iff` — when the start-up finds no error
* `appInitRings_connects` — where the lcores find the rings
* `appInitRings_exclusive` — each ring has one writer and one reader
-/

namespace DpdkCr.LoadBalancer

open Semantics

/-- A software ring, by what its name says: the lcores, or worker and port, that it
connects. -/
inductive AppRing
  | rx (io worker : ℕ)
  | tx (worker port : ℕ)
  deriving DecidableEq, Repr

/-- `AppLcoreParamsIo`: the NIC queues of an I/O lcore, the ports that it sends to, its
rings to the workers and, by port and worker, from them. -/
structure AppLcoreParamsIo where
  nNicQueues : ℕ
  rings : List AppRing
  nicPorts : List ℕ
  txRings : ℕ → ℕ → Option AppRing

/-- `AppLcoreParamsWorker`. -/
structure AppLcoreParamsWorker where
  ringsIn : List AppRing
  ringsOut : ℕ → Option AppRing
  workerId : ℕ

/-- `AppLcoreParams`, whose type says what the union holds. -/
inductive AppLcoreParams
  | disabled
  | io (io : AppLcoreParamsIo)
  | worker (worker : AppLcoreParamsWorker)

/-- `AppParams`. -/
structure AppParams where
  lcoreParams : ℕ → AppLcoreParams
  nicTxPortMask : ℕ → UInt8

namespace AppLcoreParams

def isWorker : AppLcoreParams → Bool
  | .worker _ => true
  | _ => false

/-- An I/O lcore that receives packets. -/
def isIoRx : AppLcoreParams → Bool
  | .io u => u.nNicQueues ≠ 0
  | _ => false

def rings : AppLcoreParams → List AppRing
  | .io u => u.rings
  | _ => []

def ringsIn : AppLcoreParams → List AppRing
  | .worker u => u.ringsIn
  | _ => []

def ringsOut : AppLcoreParams → ℕ → Option AppRing
  | .worker u => u.ringsOut
  | _ => fun _ => none

def txRings : AppLcoreParams → ℕ → ℕ → Option AppRing
  | .io u => u.txRings
  | _ => fun _ _ => none

def nicPorts : AppLcoreParams → List ℕ
  | .io u => u.nicPorts
  | _ => []

def workerId : AppLcoreParams → ℕ
  | .worker u => u.workerId
  | _ => 0

@[simp] theorem fields_disabled : disabled.isWorker = false ∧ disabled.isIoRx = false ∧
    disabled.nicPorts = [] := ⟨rfl, rfl, rfl⟩

@[simp] theorem fields_io (u : AppLcoreParamsIo) : (io u).isWorker = false ∧
    (io u).isIoRx = (u.nNicQueues ≠ 0 : Bool) ∧ (io u).rings = u.rings ∧ (io u).ringsIn = [] ∧
    (io u).ringsOut = (fun _ => none) ∧ (io u).txRings = u.txRings ∧
    (io u).nicPorts = u.nicPorts ∧ (io u).workerId = 0 :=
  ⟨rfl, rfl, rfl, rfl, rfl, rfl, rfl, rfl⟩

@[simp] theorem fields_worker (u : AppLcoreParamsWorker) : (worker u).isWorker = true ∧
    (worker u).isIoRx = false ∧ (worker u).rings = [] ∧ (worker u).ringsIn = u.ringsIn ∧
    (worker u).ringsOut = u.ringsOut ∧ (worker u).txRings = (fun _ _ => none) ∧
    (worker u).nicPorts = [] ∧ (worker u).workerId = u.workerId :=
  ⟨rfl, rfl, rfl, rfl, rfl, rfl, rfl, rfl⟩

end AppLcoreParams

/-- How the start-up ends early: in `fail` with a message, or in a read behind a table, of
which nothing is said. -/
inductive StartupError
  | fail (message : String)
  | outside
  deriving DecidableEq, Repr

section Startup

variable (ringError : AppRing → Option String) (maxLcores maxPorts : ℕ) (app : AppParams)

/-- One lcore of `app_assign_worker_ids`, with the next number. -/
def assignWorkerId (lcore : ℕ) (s : AppParams × ℕ) : AppParams × ℕ :=
  match s.1.lcoreParams lcore with
  | .worker worker =>
    ({ s.1 with
        lcoreParams :=
          Function.update s.1.lcoreParams lcore (.worker { worker with workerId := s.2 }) },
      s.2 + 1)
  | _ => s

/-- `app_assign_worker_ids`. -/
def appAssignWorkerIds : AppParams := (times maxLcores assignWorkerId (app, 0)).1

/-- `app_get_lcores_worker`. -/
def appGetLcoresWorker : ℕ :=
  (List.range maxLcores).countP fun lcore => (app.lcoreParams lcore).isWorker

/-- `app_get_lcores_io_rx`. -/
def appGetLcoresIoRx : ℕ :=
  (List.range maxLcores).countP fun lcore => (app.lcoreParams lcore).isIoRx

/-- `rte_ring_create`, which may fail for some of the rings, with the text of
`rte_strerror`. No two rings have the same name, so that none is created twice. -/
def rteRingCreate (ring : AppRing) : Except StartupError AppRing :=
  match ringError ring with
  | some text => .error (.fail s!"{text}\n")
  | none => .ok ring

/-- One ring of `app_init_rings_rx`, which goes to the next places of both lcores. -/
def connectRx (lcore lcoreWorker : ℕ) (app : AppParams) : Except StartupError AppParams :=
  match app.lcoreParams lcore, app.lcoreParams lcoreWorker with
  | .io io, .worker worker =>
    if io.nNicQueues = 0 then .ok app
    else
      (rteRingCreate ringError (.rx lcore lcoreWorker)).map fun ring =>
        let lcoreParams :=
          Function.update app.lcoreParams lcore (.io { io with rings := io.rings ++ [ring] })
        { app with
          lcoreParams :=
            Function.update lcoreParams lcoreWorker
              (.worker { worker with ringsIn := worker.ringsIn ++ [ring] }) }
  | _, _ => .ok app

/-- The loops of `app_init_rings_rx` that connect I/O lcores and workers. -/
def connectsRx : Except StartupError AppParams :=
  timesOk maxLcores (fun lcore => timesOk maxLcores (connectRx ringError lcore)) app

/-- `app_init_rings_rx`. -/
def appInitRingsRx : Except StartupError AppParams :=
  (connectsRx ringError maxLcores app).bind fun app =>
    if (List.range maxLcores).any fun lcore => (app.lcoreParams lcore).isIoRx &&
        (app.lcoreParams lcore).rings.length != appGetLcoresWorker maxLcores app then
      .error (.fail "Algorithmic error (I/O RX rings)\n")
    else if (List.range maxLcores).any fun lcore => (app.lcoreParams lcore).isWorker &&
        (app.lcoreParams lcore).ringsIn.length != appGetLcoresIoRx maxLcores app then
      .error (.fail "Algorithmic error (worker input rings)\n")
    else .ok app

/-- `app_get_lcore_for_nic_tx`. -/
def appGetLcoreForNicTx (port : ℕ) : Option ℕ :=
  (List.range maxLcores).find? fun lcore =>
    ((app.lcoreParams lcore).nicPorts.take appMaxNicTxPortsPerIoLcore).contains port

/-- One ring of `app_init_rings_tx`. -/
def connectTx (lcore port : ℕ) (app : AppParams) : Except StartupError AppParams :=
  match app.lcoreParams lcore with
  | .worker worker =>
    if app.nicTxPortMask port = 0 then .ok app
    else
      match appGetLcoreForNicTx maxLcores app port with
      | none =>
        .error (.fail s!"Algorithmic error (no I/O core to handle TX of port {port})\n")
      | some lcoreIo =>
        match app.lcoreParams lcoreIo with
        | .io io =>
          (rteRingCreate ringError (.tx lcore port)).map fun ring =>
            let lcoreParams :=
              Function.update app.lcoreParams lcore
                (.worker
                  { worker with ringsOut := Function.update worker.ringsOut port (some ring) })
            { app with
              lcoreParams :=
                Function.update lcoreParams lcoreIo
                  (.io
                    { io with
                      txRings :=
                        Function.update io.txRings port
                          (Function.update (io.txRings port) worker.workerId (some ring)) }) }
        | _ => .ok app
  | _ => .ok app

/-- The loops of `app_init_rings_tx` that connect workers and ports. -/
def connectsTx : Except StartupError AppParams :=
  timesOk maxLcores (fun lcore => timesOk maxPorts (connectTx ringError maxLcores lcore)) app

/-- The ring of a worker for a port is read, from a table with a row for each of `maxPorts`
ports. -/
def checkTxRing (params : AppLcoreParams) (port j : ℕ) : Except StartupError Unit :=
  if maxPorts ≤ port then .error .outside
  else if (params.txRings port j).isNone then .error (.fail "Algorithmic error (I/O TX rings)\n")
  else .ok ()

/-- The loops of `app_init_rings_tx` that look for the rings of `n` workers for the ports of
an I/O lcore, which are read from a table of 16. -/
def checkTxRings (n : ℕ) (params : AppLcoreParams) : Except StartupError Unit :=
  let ports := params.nicPorts.take appMaxNicTxPortsPerIoLcore
  (ports.forM fun port => (List.range n).forM (checkTxRing maxPorts params port)).bind fun _ =>
    if params.nicPorts.length ≤ appMaxNicTxPortsPerIoLcore then .ok () else .error .outside

/-- `app_init_rings_tx`. -/
def appInitRingsTx : Except StartupError AppParams :=
  (connectsTx ringError maxLcores maxPorts app).bind fun app =>
    ((List.range maxLcores).forM fun lcore =>
      checkTxRings maxPorts (appGetLcoresWorker maxLcores app) (app.lcoreParams lcore)).bind
        fun _ => .ok app

/-- The part of `app_init` that connects the lcores. -/
def appInitRings : Except StartupError AppParams :=
  (appInitRingsRx ringError maxLcores (appAssignWorkerIds maxLcores app)).bind
    (appInitRingsTx ringError maxLcores maxPorts)

end Startup

/-! ### Numbers of workers -/

/-- How many workers there are before an lcore. -/
def workerIndex (app : AppParams) (lcore : ℕ) : ℕ :=
  (List.range lcore).countP fun l => (app.lcoreParams l).isWorker

/-- What connecting the lcores leaves alone. -/
structure SameRoles (app v : AppParams) : Prop where
  isWorker : ∀ l, (v.lcoreParams l).isWorker = (app.lcoreParams l).isWorker
  isIoRx : ∀ l, (v.lcoreParams l).isIoRx = (app.lcoreParams l).isIoRx
  nicPorts : ∀ l, (v.lcoreParams l).nicPorts = (app.lcoreParams l).nicPorts
  mask : v.nicTxPortMask = app.nicTxPortMask

variable {ringError : AppRing → Option String} {maxLcores maxPorts : ℕ} {app u v : AppParams}
  {lcore port i l : ℕ}

theorem SameRoles.refl (app : AppParams) : SameRoles app app :=
  ⟨fun _ => rfl, fun _ => rfl, fun _ => rfl, rfl⟩

theorem SameRoles.trans (first : SameRoles app u) (second : SameRoles u v) : SameRoles app v where
  isWorker l := (second.isWorker l).trans (first.isWorker l)
  isIoRx l := (second.isIoRx l).trans (first.isIoRx l)
  nicPorts l := (second.nicPorts l).trans (first.nicPorts l)
  mask := second.mask.trans first.mask

theorem SameRoles.workerIndex (same : SameRoles app v) : workerIndex v = workerIndex app := by
  funext l
  simp only [LoadBalancer.workerIndex, same.isWorker]

theorem SameRoles.appGetLcoresWorker (same : SameRoles app v) :
    appGetLcoresWorker maxLcores v = appGetLcoresWorker maxLcores app := by
  simp only [LoadBalancer.appGetLcoresWorker, same.isWorker]

theorem SameRoles.appGetLcoresIoRx (same : SameRoles app v) :
    appGetLcoresIoRx maxLcores v = appGetLcoresIoRx maxLcores app := by
  simp only [LoadBalancer.appGetLcoresIoRx, same.isIoRx]

theorem SameRoles.appGetLcoreForNicTx (same : SameRoles app v) :
    appGetLcoreForNicTx maxLcores v = appGetLcoreForNicTx maxLcores app := by
  funext port
  simp only [LoadBalancer.appGetLcoreForNicTx, same.nicPorts]

theorem AppLcoreParams.exists_worker {params : AppLcoreParams} (worker : params.isWorker) :
    ∃ u, params = .worker u := by
  cases params with
  | disabled => simp [isWorker] at worker
  | io u => simp [isWorker] at worker
  | worker u => exact ⟨u, rfl⟩

/-- Everything but the numbers is as before. -/
structure SameRings (app v : AppParams) : Prop extends SameRoles app v where
  rings : ∀ l, (v.lcoreParams l).rings = (app.lcoreParams l).rings
  ringsIn : ∀ l, (v.lcoreParams l).ringsIn = (app.lcoreParams l).ringsIn
  ringsOut : ∀ l, (v.lcoreParams l).ringsOut = (app.lcoreParams l).ringsOut
  txRings : ∀ l, (v.lcoreParams l).txRings = (app.lcoreParams l).txRings

/-- How far the numbers have been given. -/
structure Numbered (app : AppParams) (k : ℕ) (s : AppParams × ℕ) : Prop where
  same : SameRings app s.1
  next : s.2 = workerIndex app k
  numbers : ∀ l < k, (app.lcoreParams l).isWorker → (s.1.lcoreParams l).workerId = workerIndex app l

theorem workerIndex_succ (app : AppParams) (k : ℕ) :
    workerIndex app (k + 1) =
      workerIndex app k + if (app.lcoreParams k).isWorker then 1 else 0 := by
  rw [workerIndex, List.range_succ, List.countP_append, List.countP_singleton]
  rfl

theorem SameRings.trans (first : SameRings app u) (second : SameRings u v) : SameRings app v where
  toSameRoles := first.toSameRoles.trans second.toSameRoles
  rings l := (second.rings l).trans (first.rings l)
  ringsIn l := (second.ringsIn l).trans (first.ringsIn l)
  ringsOut l := (second.ringsOut l).trans (first.ringsOut l)
  txRings l := (second.txRings l).trans (first.txRings l)

theorem sameRings_number {w : AppLcoreParamsWorker} (params : app.lcoreParams lcore = .worker w)
    (id : ℕ) : SameRings app
      { app with
        lcoreParams :=
          Function.update app.lcoreParams lcore (.worker { w with workerId := id }) } := by
  refine ⟨⟨?_, ?_, ?_, rfl⟩, ?_, ?_, ?_, ?_⟩
  all_goals
    intro l
    by_cases here : l = lcore
    · simp [here, params]
    · simp [here]

theorem Numbered.assignWorkerId {k : ℕ} {s : AppParams × ℕ} (numbered : Numbered app k s) :
    Numbered app (k + 1) (assignWorkerId k s) := by
  obtain ⟨v, id⟩ := s
  obtain ⟨same, rfl, numbers⟩ := numbered
  have role := same.isWorker k
  dsimp only at same numbers role
  have others (l : ℕ) (before : l < k + 1) (other : l ≠ k) : l < k := by omega
  rw [LoadBalancer.assignWorkerId]
  dsimp only
  split
  case h_1 w params =>
      have here : (app.lcoreParams k).isWorker = true := by rw [← role, params]; rfl
      refine ⟨same.trans (sameRings_number params _), ?_, fun l before worker => ?_⟩
      · rw [workerIndex_succ, if_pos here]
      · by_cases self : l = k
        · simp [self]
        · simpa [self] using numbers l (others l before self) worker
  case h_2 none' =>
      have here : ¬ (app.lcoreParams k).isWorker = true := by
        rw [← role]
        intro worker
        obtain ⟨w, params⟩ := AppLcoreParams.exists_worker worker
        exact none' w params
      refine ⟨same, ?_, fun l before worker => ?_⟩
      · rw [workerIndex_succ, if_neg here, Nat.add_zero]
      · have self : l ≠ k := fun self => here (self ▸ worker)
        exact numbers l (others l before self) worker

theorem appAssignWorkerIds_numbers (maxLcores : ℕ) (app : AppParams) :
    SameRings app (appAssignWorkerIds maxLcores app) ∧
      ∀ l < maxLcores, (app.lcoreParams l).isWorker →
        ((appAssignWorkerIds maxLcores app).lcoreParams l).workerId = workerIndex app l := by
  have numbered : Numbered app maxLcores (times maxLcores assignWorkerId (app, 0)) := by
    refine times_induction ⟨⟨.refl app, ?_, ?_, ?_, ?_⟩, rfl, ?_⟩ fun _ _ _ before =>
      before.assignWorkerId
    all_goals simp
  exact ⟨numbered.same, numbered.numbers⟩

/-! ### Two loops -/

/-- The loops have come to the pair, when they have been through the rows before `k`, each of
`n` pairs, and in row `k` through the pairs before `l`. -/
def Visited (n k l a b : ℕ) : Prop := a < k ∧ b < n ∨ a = k ∧ b < l

namespace Visited

variable {n m k a b : ℕ}

theorem succ : Visited n k (l + 1) a b ↔ Visited n k l a b ∨ a = k ∧ b = l := by
  simp only [Visited]
  omega

theorem row : Visited n (k + 1) 0 a b ↔ Visited n k n a b := by
  simp only [Visited]
  omega

theorem all : Visited n m 0 a b ↔ a < m ∧ b < n := by
  simp only [Visited]
  omega

theorem start : ¬ Visited n 0 0 a b := by
  simp only [Visited]
  omega

end Visited

theorem rteRingCreate_cases (ringError : AppRing → Option String) (ring : AppRing) :
    ringError ring = none ∧ rteRingCreate ringError ring = .ok ring ∨
    ringError ring ≠ none ∧ ∃ message, rteRingCreate ringError ring = .error (.fail message) := by
  rw [rteRingCreate]
  split
  case h_1 text failed => exact .inr ⟨by simp [failed], _, rfl⟩
  case h_2 created => exact .inl ⟨created, rfl⟩

/-! ### Rings to the workers -/

/-- The ring of an I/O lcore for a worker, if the lcores are of these kinds. -/
def rxRing (app : AppParams) (i w : ℕ) : List AppRing :=
  if (app.lcoreParams i).isIoRx ∧ (app.lcoreParams w).isWorker then [.rx i w] else []

/-- What connecting an I/O lcore with a worker does to all lcores. -/
structure ConnectsRx (app : AppParams) (i w : ℕ) (v : AppParams) : Prop extends
    SameRoles app v where
  rings : ∀ l, (v.lcoreParams l).rings =
    (app.lcoreParams l).rings ++ if l = i then rxRing app i w else []
  ringsIn : ∀ l, (v.lcoreParams l).ringsIn =
    (app.lcoreParams l).ringsIn ++ if l = w then rxRing app i w else []
  workerId : ∀ l, (v.lcoreParams l).workerId = (app.lcoreParams l).workerId
  ringsOut : ∀ l, (v.lcoreParams l).ringsOut = (app.lcoreParams l).ringsOut
  txRings : ∀ l, (v.lcoreParams l).txRings = (app.lcoreParams l).txRings

theorem ConnectsRx.none {w : ℕ} (none' : rxRing app i w = []) : ConnectsRx app i w app := by
  refine ⟨.refl app, ?_, ?_, fun _ => rfl, fun _ => rfl, fun _ => rfl⟩ <;> simp [none']

/-- An I/O lcore is connected with a worker unless the ring is not created. -/
theorem connectRx_cases (ringError : AppRing → Option String) (app : AppParams) (i w : ℕ) :
    (∃ v, connectRx ringError i w app = .ok v ∧ ConnectsRx app i w v ∧
      ∀ ring ∈ rxRing app i w, ringError ring = none) ∨
    (∃ message, connectRx ringError i w app = .error (.fail message)) ∧
      ∃ ring ∈ rxRing app i w, ringError ring ≠ none := by
  rw [connectRx]
  split
  case h_1 u x io worker =>
      by_cases queues : u.nNicQueues = 0
      · have none' : rxRing app i w = [] := by simp [rxRing, io, queues]
        rw [if_pos queues]
        exact .inl ⟨app, rfl, .none none', by simp [none']⟩
      · rw [if_neg queues]
        have other : i ≠ w := fun same => by simp [same, worker] at io
        have ring : rxRing app i w = [.rx i w] := by simp [rxRing, io, worker, queues]
        rcases rteRingCreate_cases ringError (.rx i w) with
          ⟨created, result⟩ | ⟨failed, message, result⟩ <;> rw [result]
        · refine .inl ⟨_, rfl, ⟨⟨?_, ?_, ?_, rfl⟩, ?_, ?_, ?_, ?_, ?_⟩, by simp [ring, created]⟩
          all_goals
            intro l
            by_cases writer : l = i
            · simp [writer, other, io, ring]
            · by_cases reader : l = w
              · simp [reader, other.symm, worker, ring]
              · simp [writer, reader]
        · exact .inr ⟨⟨message, rfl⟩, .rx i w, by simp [ring], failed⟩
  case h_2 none' =>
      have quiet : rxRing app i w = [] := by
        refine if_neg ?_
        rintro ⟨io, worker⟩
        obtain ⟨x, params⟩ := AppLcoreParams.exists_worker worker
        cases kind : app.lcoreParams i with
        | io u => exact none' u x kind params
        | disabled => simp [kind] at io
        | worker u => simp [kind] at io
      exact .inl ⟨app, rfl, .none quiet, by simp [quiet]⟩

/-- The rings, when all lcores before `k` and the lcore `k` with those before `l` have been
connected. -/
structure RxWired (ringError : AppRing → Option String) (maxLcores : ℕ) (app : AppParams)
    (k l : ℕ) (v : AppParams) : Prop extends SameRoles app v where
  rings : ∀ i, (v.lcoreParams i).rings =
    (List.range (if i < k then maxLcores else if i = k then l else 0)).flatMap (rxRing app i)
  ringsIn : ∀ w < maxLcores, (v.lcoreParams w).ringsIn =
    (List.range (if w < l then k + 1 else k)).flatMap (rxRing app · w)
  workerId : ∀ l, (v.lcoreParams l).workerId = (app.lcoreParams l).workerId
  ringsOut : ∀ l, (v.lcoreParams l).ringsOut = (app.lcoreParams l).ringsOut
  txRings : ∀ l, (v.lcoreParams l).txRings = (app.lcoreParams l).txRings
  created : ∀ i w, Visited maxLcores k l i w → ∀ ring ∈ rxRing app i w, ringError ring = none

/-- All rings to the workers are created. -/
def RxCreated (ringError : AppRing → Option String) (maxLcores : ℕ) (app : AppParams) : Prop :=
  ∀ i < maxLcores, ∀ w < maxLcores, ∀ ring ∈ rxRing app i w, ringError ring = none

theorem SameRoles.rxRing (same : SameRoles app v) : rxRing v = rxRing app := by
  funext i w
  simp only [LoadBalancer.rxRing, same.isIoRx, same.isWorker]

theorem RxWired.connectRx {k : ℕ} (wired : RxWired ringError maxLcores app k l v)
    (connects : ConnectsRx v k l u) (created : ∀ ring ∈ rxRing v k l, ringError ring = none) :
    RxWired ringError maxLcores app k (l + 1) u := by
  have same : rxRing v = rxRing app := wired.rxRing
  refine ⟨wired.toSameRoles.trans connects.toSameRoles, fun i => ?_, fun w bound => ?_,
    fun i => (connects.workerId i).trans (wired.workerId i),
    fun i => (connects.ringsOut i).trans (wired.ringsOut i),
    fun i => (connects.txRings i).trans (wired.txRings i), fun i w visited => ?_⟩
  · rw [connects.rings, wired.rings, same]
    by_cases here : i = k
    · simp [here, List.range_succ]
    · simp [here]
  · rw [connects.ringsIn, wired.ringsIn w bound, same]
    by_cases here : w = l
    · simp [here, List.range_succ]
    · have order : w < l + 1 ↔ w < l := by omega
      simp [here, order]
  · rcases Visited.succ.mp visited with before | ⟨rfl, rfl⟩
    · exact wired.created i w before
    · exact same ▸ created

theorem RxWired.row {k : ℕ} (wired : RxWired ringError maxLcores app k maxLcores v) :
    RxWired ringError maxLcores app (k + 1) 0 v := by
  refine { wired with rings := fun i => ?_, ringsIn := fun w bound => ?_, created := ?_ }
  · rw [wired.rings]
    by_cases before : i < k
    · simp [before, Nat.lt_succ_of_lt before]
    · by_cases here : i = k
      · simp [here]
      · have after : ¬ i < k + 1 := by omega
        simp [before, here, after]
  · rw [wired.ringsIn w bound]
    simp [bound]
  · simp only [Visited.row]
    exact wired.created

theorem flatMap_rxRing_of_io (io : (app.lcoreParams i).isIoRx) (ws : List ℕ) :
    ws.flatMap (rxRing app i) =
      (ws.filter fun w => (app.lcoreParams w).isWorker).map (.rx i) := by
  induction ws with
  | nil => rfl
  | cons w ws ih =>
      rw [List.flatMap_cons, ih, List.filter_cons, rxRing]
      by_cases worker : (app.lcoreParams w).isWorker <;> simp [io, worker]

theorem flatMap_rxRing_of_worker {w : ℕ} (worker : (app.lcoreParams w).isWorker) (is : List ℕ) :
    is.flatMap (rxRing app · w) =
      (is.filter fun i => (app.lcoreParams i).isIoRx).map (.rx · w) := by
  induction is with
  | nil => rfl
  | cons i is ih =>
      rw [List.flatMap_cons, ih, List.filter_cons, rxRing]
      by_cases io : (app.lcoreParams i).isIoRx <;> simp [io, worker]

/-- Among the lcores that are left, an lcore comes after those before it. -/
theorem getElem?_filter_range {p : ℕ → Bool} {n w : ℕ} (bound : w < n) (kept : p w) :
    ((List.range n).filter p)[(List.range w).countP p]? = some w := by
  obtain ⟨rest, rfl⟩ : ∃ rest, n = w + 1 + rest := ⟨n - (w + 1), by omega⟩
  have place : (List.range w).countP p = ((List.range w).filter p).length :=
    List.countP_eq_length_filter
  rw [List.range_add, List.range_succ, List.filter_append, List.filter_append, place,
    List.append_assoc, List.getElem?_append_right le_rfl, Nat.sub_self]
  simp [kept]

/-- No ring has been created yet. -/
structure Fresh (app : AppParams) : Prop where
  rings : ∀ l, (app.lcoreParams l).rings = []
  ringsIn : ∀ l, (app.lcoreParams l).ringsIn = []
  ringsOut : ∀ l port, (app.lcoreParams l).ringsOut port = none
  txRings : ∀ l port j, (app.lcoreParams l).txRings port j = none

theorem SameRings.fresh (same : SameRings app u) (fresh : Fresh app) : Fresh u := by
  refine ⟨fun l => ?_, fun l => ?_, fun l port => ?_, fun l port j => ?_⟩
  · rw [same.rings, fresh.rings]
  · rw [same.ringsIn, fresh.ringsIn]
  · rw [same.ringsOut, fresh.ringsOut]
  · rw [same.txRings, fresh.txRings]

theorem RxWired.start (fresh : Fresh app) : RxWired ringError maxLcores app 0 0 app := by
  refine ⟨.refl app, fun i => ?_, fun w bound => ?_, fun _ => rfl, fun _ => rfl, fun _ => rfl, ?_⟩
  · simp [fresh.rings]
  · simp [fresh.ringsIn]
  · simp [Visited.start]

theorem rxWired_of_connectsRx (fresh : Fresh app)
    (done : connectsRx ringError maxLcores app = .ok v) :
    RxWired ringError maxLcores app maxLcores 0 v := by
  refine timesOk_timesOk_induction (P := fun k l => RxWired ringError maxLcores app k l)
    (.start fresh) (fun k _ l _ t u before pass => ?_) (fun k t => RxWired.row) done
  rcases connectRx_cases ringError t k l with ⟨v, result, connects, created⟩ | ⟨⟨_, wrong⟩, -⟩
  · obtain rfl : v = u := by rwa [result, Except.ok.injEq] at pass
    exact before.connectRx connects created
  · simp [wrong] at pass

theorem connectsRx_isOk (fresh : Fresh app)
    (created : RxCreated ringError maxLcores app) :
    ∃ v, connectsRx ringError maxLcores app = .ok v := by
  have ran : ∃ v, connectsRx ringError maxLcores app = .ok v ∧
      RxWired ringError maxLcores app maxLcores 0 v := by
    refine timesOk_timesOk_isOk (P := fun k l => RxWired ringError maxLcores app k l)
      (.start fresh) (fun k bound l within t before => ?_) (fun k t => RxWired.row)
    rcases connectRx_cases ringError t k l with
      ⟨u, result, connects, also⟩ | ⟨-, ring, member, failed⟩
    · exact ⟨u, result, before.connectRx connects also⟩
    · rw [before.rxRing] at member
      exact absurd (created k bound l within ring member) failed
  obtain ⟨v, done, -⟩ := ran
  exact ⟨v, done⟩

theorem connectsRx_ne_outside : connectsRx ringError maxLcores app ≠ .error .outside := by
  refine timesOk_ne_error fun k _ t => timesOk_ne_error fun l _ u => ?_
  rcases connectRx_cases ringError u k l with ⟨v, result, -, -⟩ | ⟨⟨message, result⟩, -⟩ <;>
    simp [result]

/-- The checks behind the loops find no error. -/
theorem appInitRingsRx_eq (fresh : Fresh app) :
    appInitRingsRx ringError maxLcores app = connectsRx ringError maxLcores app := by
  rw [appInitRingsRx]
  cases done : connectsRx ringError maxLcores app with
  | error e => rfl
  | ok v =>
      have wired := rxWired_of_connectsRx fresh done
      refine (if_neg ?_).trans (if_neg ?_)
      · intro wrong
        obtain ⟨l, member, differs⟩ := List.any_eq_true.mp wrong
        rw [Bool.and_eq_true, bne_iff_ne, wired.isIoRx, wired.rings,
          wired.appGetLcoresWorker] at differs
        refine differs.2 ?_
        rw [flatMap_rxRing_of_io differs.1, List.length_map, appGetLcoresWorker,
          List.countP_eq_length_filter, if_pos (List.mem_range.mp member)]
      · intro wrong
        obtain ⟨l, member, differs⟩ := List.any_eq_true.mp wrong
        rw [Bool.and_eq_true, bne_iff_ne, wired.isWorker,
          wired.ringsIn l (List.mem_range.mp member), wired.appGetLcoresIoRx] at differs
        refine differs.2 ?_
        rw [flatMap_rxRing_of_worker differs.1, List.length_map, appGetLcoresIoRx,
          List.countP_eq_length_filter]
        simp

/-! ### Rings to the ports -/

/-- The worker sends to the port. -/
def Sends (app : AppParams) (w port : ℕ) : Prop :=
  (app.lcoreParams w).isWorker ∧ app.nicTxPortMask port ≠ 0

/-- What connecting a worker with a port does to all lcores. -/
structure ConnectsTx (maxLcores : ℕ) (app : AppParams) (w port : ℕ) (v : AppParams) : Prop extends
    SameRoles app v where
  rings : ∀ l, (v.lcoreParams l).rings = (app.lcoreParams l).rings
  ringsIn : ∀ l, (v.lcoreParams l).ringsIn = (app.lcoreParams l).ringsIn
  workerId : ∀ l, (v.lcoreParams l).workerId = (app.lcoreParams l).workerId
  ringsOut : ∀ l q r, (v.lcoreParams l).ringsOut q = some r ↔
    Sends app w port ∧ l = w ∧ q = port ∧ r = .tx w port ∨
      ¬ (Sends app w port ∧ l = w ∧ q = port) ∧ (app.lcoreParams l).ringsOut q = some r
  txRings : ∀ l q j r, (v.lcoreParams l).txRings q j = some r ↔
    Sends app w port ∧ appGetLcoreForNicTx maxLcores app port = some l ∧ q = port ∧
        j = (app.lcoreParams w).workerId ∧ r = .tx w port ∨
      ¬ (Sends app w port ∧ appGetLcoreForNicTx maxLcores app port = some l ∧ q = port ∧
        j = (app.lcoreParams w).workerId) ∧ (app.lcoreParams l).txRings q j = some r

theorem exists_io_of_appGetLcoreForNicTx
    (found : appGetLcoreForNicTx maxLcores app port = some l) :
    ∃ u, app.lcoreParams l = .io u := by
  have handles := List.find?_some found
  cases params : app.lcoreParams l with
  | io u => exact ⟨u, rfl⟩
  | disabled => simp [params] at handles
  | worker u => simp [params] at handles

theorem ConnectsTx.none {w : ℕ} (none' : ¬ Sends app w port) :
    ConnectsTx maxLcores app w port app := by
  refine ⟨.refl app, fun _ => rfl, fun _ => rfl, fun _ => rfl, ?_, ?_⟩ <;> simp [none']

/-- What is not updated in the entries of a worker and an I/O lcore. -/
theorem unchanged_update {β : Type*} (field : AppLcoreParams → β) {w : ℕ}
    {x x' : AppLcoreParamsWorker} {u u' : AppLcoreParamsIo}
    (worker : app.lcoreParams w = .worker x) (io : app.lcoreParams l = .io u)
    (sameWorker : field (.worker x') = field (.worker x)) (sameIo : field (.io u') = field (.io u))
    (i : ℕ) :
    field (Function.update (Function.update app.lcoreParams w (.worker x')) l (.io u') i) =
      field (app.lcoreParams i) := by
  by_cases reader : i = l
  · rw [reader, Function.update_self, io, sameIo]
  · rw [Function.update_of_ne reader]
    by_cases writer : i = w
    · rw [writer, Function.update_self, worker, sameWorker]
    · rw [Function.update_of_ne writer]

/-- An lcore handles the port, and the ring from the worker to it is created. -/
def Handled (ringError : AppRing → Option String) (maxLcores : ℕ) (app : AppParams)
    (w port : ℕ) : Prop :=
  (appGetLcoreForNicTx maxLcores app port).isSome ∧ ringError (.tx w port) = none

/-- A worker is connected with a port unless no lcore handles the port or the ring is not
created. -/
theorem connectTx_cases (ringError : AppRing → Option String) (maxLcores : ℕ) (app : AppParams)
    (w port : ℕ) :
    (∃ v, connectTx ringError maxLcores w port app = .ok v ∧ ConnectsTx maxLcores app w port v ∧
      (Sends app w port → Handled ringError maxLcores app w port)) ∨
    (∃ message, connectTx ringError maxLcores w port app = .error (.fail message)) ∧
      Sends app w port ∧ ¬ Handled ringError maxLcores app w port := by
  rw [connectTx]
  split
  case h_1 x worker =>
      by_cases closed : app.nicTxPortMask port = 0
      · have none' : ¬ Sends app w port := fun sends => sends.2 closed
        rw [if_pos closed]
        exact .inl ⟨app, rfl, .none none', fun sends => absurd sends none'⟩
      · have sends : Sends app w port := ⟨by simp [worker], closed⟩
        rw [if_neg closed]
        split
        case h_1 none' =>
            refine .inr ⟨⟨_, rfl⟩, sends, ?_⟩
            simp [Handled, none']
        case h_2 l found =>
            obtain ⟨u, io⟩ := exists_io_of_appGetLcoreForNicTx found
            have other : w ≠ l := fun same => by simp [← same, worker] at io
            rw [io]
            dsimp only
            rcases rteRingCreate_cases ringError (.tx w port) with
              ⟨created, result⟩ | ⟨failed, message, result⟩ <;> rw [result]
            case inr => exact .inr ⟨⟨message, rfl⟩, sends, fun handled => failed handled.2⟩
            have handled : Handled ringError maxLcores app w port := ⟨by simp [found], created⟩
            refine .inl ⟨_, rfl, ⟨⟨?_, ?_, ?_, rfl⟩, ?_, ?_, ?_, ?_, ?_⟩, fun _ => handled⟩
            · exact unchanged_update AppLcoreParams.isWorker worker io rfl rfl
            · exact unchanged_update AppLcoreParams.isIoRx worker io rfl rfl
            · exact unchanged_update AppLcoreParams.nicPorts worker io rfl rfl
            · exact unchanged_update AppLcoreParams.rings worker io rfl rfl
            · exact unchanged_update AppLcoreParams.ringsIn worker io rfl rfl
            · exact unchanged_update AppLcoreParams.workerId worker io rfl rfl
            · intro i q r
              by_cases reader : i = l
              · simp [reader, io, other.symm]
              · by_cases writer : i = w
                · by_cases here : q = port <;>
                    simp [writer, worker, other, sends, here, eq_comm]
                · simp [reader, writer]
            · intro i q j r
              by_cases reader : i = l
              · by_cases here : q = port
                · by_cases number : j = x.workerId <;>
                    simp [reader, io, worker, sends, found, here, number, eq_comm]
                · simp [reader, io, here]
              · by_cases writer : i = w
                · simp [writer, worker, other, found, other.symm]
                · simp [reader, writer, found, Ne.symm reader]
  case h_2 none' =>
      have quiet : ¬ Sends app w port := by
        intro sends
        obtain ⟨x, params⟩ := AppLcoreParams.exists_worker sends.1
        exact none' x params
      exact .inl ⟨app, rfl, .none quiet, fun sends => absurd sends quiet⟩

/-- The rings, when all workers before `k` and the lcore `k` with the ports before `l` have
been connected. -/
structure TxWired (ringError : AppRing → Option String) (maxLcores maxPorts : ℕ)
    (app : AppParams) (k l : ℕ) (v : AppParams) : Prop extends SameRoles app v where
  rings : ∀ i, (v.lcoreParams i).rings = (app.lcoreParams i).rings
  ringsIn : ∀ i, (v.lcoreParams i).ringsIn = (app.lcoreParams i).ringsIn
  workerId : ∀ i, (v.lcoreParams i).workerId = (app.lcoreParams i).workerId
  ringsOut : ∀ w q r, (v.lcoreParams w).ringsOut q = some r ↔
    Visited maxPorts k l w q ∧ Sends app w q ∧ r = .tx w q
  txRings : ∀ i q j r, (v.lcoreParams i).txRings q j = some r ↔
    ∃ w, Visited maxPorts k l w q ∧ Sends app w q ∧
      appGetLcoreForNicTx maxLcores app q = some i ∧ (app.lcoreParams w).workerId = j ∧
        r = .tx w q
  handled : ∀ w q, Visited maxPorts k l w q → Sends app w q → Handled ringError maxLcores app w q

/-- Workers have different numbers. -/
def Numbers (maxLcores : ℕ) (app : AppParams) : Prop :=
  ∀ w < maxLcores, (app.lcoreParams w).isWorker →
    (app.lcoreParams w).workerId = workerIndex app w

theorem workerIndex_lt {w w' : ℕ} (order : w < w') (worker : (app.lcoreParams w).isWorker) :
    workerIndex app w < workerIndex app w' := by
  have next : workerIndex app (w + 1) ≤ workerIndex app w' :=
    (List.range_sublist.mpr order).countP_le
  rw [workerIndex_succ, if_pos worker] at next
  exact next

theorem workerIndex_inj {w w' : ℕ} (worker : (app.lcoreParams w).isWorker)
    (worker' : (app.lcoreParams w').isWorker) (same : workerIndex app w = workerIndex app w') :
    w = w' := by
  rcases Nat.lt_trichotomy w w' with less | equal | more
  · exact absurd same (workerIndex_lt less worker).ne
  · exact equal
  · exact absurd same.symm (workerIndex_lt more worker').ne

theorem Numbers.inj (numbers : Numbers maxLcores app) {w w' : ℕ} (bound : w < maxLcores)
    (bound' : w' < maxLcores) (worker : (app.lcoreParams w).isWorker)
    (worker' : (app.lcoreParams w').isWorker)
    (same : (app.lcoreParams w).workerId = (app.lcoreParams w').workerId) : w = w' := by
  rw [numbers w bound worker, numbers w' bound' worker'] at same
  exact workerIndex_inj worker worker' same

theorem SameRoles.sends (same : SameRoles app v) : Sends v = Sends app := by
  funext w q
  simp only [Sends, same.isWorker, same.mask]

theorem TxWired.connectTx {k : ℕ} (numbers : Numbers maxLcores app) (bound : k < maxLcores)
    (wired : TxWired ringError maxLcores maxPorts app k l u)
    (connects : ConnectsTx maxLcores u k l v)
    (handled : Sends u k l → Handled ringError maxLcores u k l) :
    TxWired ringError maxLcores maxPorts app k (l + 1) v := by
  have sends : Sends u = Sends app := wired.sends
  have handler : appGetLcoreForNicTx maxLcores u = appGetLcoreForNicTx maxLcores app :=
    wired.toSameRoles.appGetLcoreForNicTx
  refine ⟨wired.toSameRoles.trans connects.toSameRoles,
    fun i => (connects.rings i).trans (wired.rings i),
    fun i => (connects.ringsIn i).trans (wired.ringsIn i),
    fun i => (connects.workerId i).trans (wired.workerId i), ?_, ?_, ?_⟩
  · intro w q r
    rw [connects.ringsOut, wired.ringsOut, Visited.succ, sends]
    constructor
    · rintro (⟨must, rfl, rfl, rfl⟩ | ⟨-, before, must, ring⟩)
      · exact ⟨.inr ⟨rfl, rfl⟩, must, rfl⟩
      · exact ⟨.inl before, must, ring⟩
    · rintro ⟨before | ⟨rfl, rfl⟩, must, ring⟩
      · by_cases here : Sends app k l ∧ w = k ∧ q = l
        · obtain ⟨-, rfl, rfl⟩ := here
          exact .inl ⟨must, rfl, rfl, ring⟩
        · exact .inr ⟨here, before, must, ring⟩
      · exact .inl ⟨must, rfl, rfl, ring⟩
  · intro i q j r
    rw [connects.txRings, wired.txRings, sends, handler, wired.workerId]
    constructor
    · rintro (⟨must, found, rfl, rfl, rfl⟩ | ⟨-, w, before, rest⟩)
      · exact ⟨k, Visited.succ.mpr (.inr ⟨rfl, rfl⟩), must, found, rfl, rfl⟩
      · exact ⟨w, Visited.succ.mpr (.inl before), rest⟩
    · rintro ⟨w, visited, must, found, rfl, rfl⟩
      by_cases here : w = k ∧ q = l
      · obtain ⟨rfl, rfl⟩ := here
        exact .inl ⟨must, found, rfl, rfl, rfl⟩
      · have before := (Visited.succ.mp visited).resolve_right here
        refine .inr ⟨?_, w, before, must, found, rfl, rfl⟩
        -- another worker has another number, so that its ring is not replaced
        rintro ⟨must', -, rfl, number⟩
        have within : w < maxLcores := by
          rw [Visited] at before
          omega
        exact here ⟨numbers.inj within bound must.1 must'.1 number, rfl⟩
  · intro w q visited must
    rcases Visited.succ.mp visited with before | ⟨rfl, rfl⟩
    · exact wired.handled w q before must
    · rw [sends, Handled, handler] at handled
      exact handled must

theorem TxWired.row {k : ℕ} (wired : TxWired ringError maxLcores maxPorts app k maxPorts v) :
    TxWired ringError maxLcores maxPorts app (k + 1) 0 v := by
  refine { wired with ringsOut := ?_, txRings := ?_, handled := ?_ } <;> simp only [Visited.row]
  · exact wired.ringsOut
  · exact wired.txRings
  · exact wired.handled

theorem TxWired.start (ringsOut : ∀ l port, (app.lcoreParams l).ringsOut port = none)
    (txRings : ∀ l port j, (app.lcoreParams l).txRings port j = none) :
    TxWired ringError maxLcores maxPorts app 0 0 app := by
  refine ⟨.refl app, fun _ => rfl, fun _ => rfl, fun _ => rfl, ?_, ?_, ?_⟩
  · simp [ringsOut, Visited.start]
  · simp [txRings, Visited.start]
  · simp [Visited.start]

theorem txWired_of_connectsTx (start : TxWired ringError maxLcores maxPorts app 0 0 app)
    (numbers : Numbers maxLcores app) (done : connectsTx ringError maxLcores maxPorts app = .ok v) :
    TxWired ringError maxLcores maxPorts app maxLcores 0 v := by
  refine timesOk_timesOk_induction (P := fun k l => TxWired ringError maxLcores maxPorts app k l)
    start (fun k bound l _ t u before pass => ?_) (fun k t => TxWired.row) done
  rcases connectTx_cases ringError maxLcores t k l with
    ⟨v, result, connects, handled⟩ | ⟨⟨_, wrong⟩, -⟩
  · obtain rfl : v = u := by rwa [result, Except.ok.injEq] at pass
    exact before.connectTx numbers bound connects handled
  · simp [wrong] at pass

theorem connectsTx_isOk (start : TxWired ringError maxLcores maxPorts app 0 0 app)
    (numbers : Numbers maxLcores app)
    (handled : ∀ w < maxLcores, ∀ port < maxPorts, Sends app w port →
      Handled ringError maxLcores app w port) :
    ∃ v, connectsTx ringError maxLcores maxPorts app = .ok v := by
  have ran : ∃ v, connectsTx ringError maxLcores maxPorts app = .ok v ∧
      TxWired ringError maxLcores maxPorts app maxLcores 0 v := by
    refine timesOk_timesOk_isOk (P := fun k l => TxWired ringError maxLcores maxPorts app k l)
      start (fun k bound l within t before => ?_) (fun k t => TxWired.row)
    rcases connectTx_cases ringError maxLcores t k l with
      ⟨u, result, connects, also⟩ | ⟨-, must, none'⟩
    · exact ⟨u, result, before.connectTx numbers bound connects also⟩
    · rw [before.sends] at must
      rw [Handled, before.toSameRoles.appGetLcoreForNicTx] at none'
      exact absurd (handled k bound l within must) none'
  obtain ⟨v, done, -⟩ := ran
  exact ⟨v, done⟩

theorem connectsTx_ne_outside :
    connectsTx ringError maxLcores maxPorts app ≠ .error .outside := by
  refine timesOk_ne_error fun k _ t => timesOk_ne_error fun l _ u => ?_
  rcases connectTx_cases ringError maxLcores u k l with
    ⟨v, result, -, -⟩ | ⟨⟨message, result⟩, -⟩ <;> simp [result]

/-! ### The start-up as a whole -/

/-- Each port is handled, and listed only where it is handled and if it is sent to. -/
def PortsCovered (maxLcores maxPorts : ℕ) (app : AppParams) : Prop :=
  (∀ port < maxPorts, app.nicTxPortMask port ≠ 0 →
    (appGetLcoreForNicTx maxLcores app port).isSome) ∧
  ∀ l < maxLcores, ∀ port ∈ (app.lcoreParams l).nicPorts,
    port < maxPorts ∧ app.nicTxPortMask port ≠ 0 ∧
      appGetLcoreForNicTx maxLcores app port = some l

/-- The numbers that are given are those below the number of workers. -/
theorem exists_worker_of_lt {j : ℕ} (bound : j < appGetLcoresWorker maxLcores app) :
    ∃ w < maxLcores, (app.lcoreParams w).isWorker ∧ workerIndex app w = j := by
  rw [appGetLcoresWorker, List.countP_eq_length_filter] at bound
  obtain ⟨w, there⟩ : ∃ w, ((List.range maxLcores).filter
      fun l => (app.lcoreParams l).isWorker)[j]? = some w := ⟨_, List.getElem?_eq_getElem bound⟩
  obtain ⟨member, worker⟩ := List.mem_filter.mp (List.mem_of_getElem? there)
  have within := List.mem_range.mp member
  have place := getElem?_filter_range (p := fun l => (app.lcoreParams l).isWorker) within worker
  have distinct : ((List.range maxLcores).filter fun l => (app.lcoreParams l).isWorker).Nodup :=
    List.nodup_range.filter _
  have same := (List.getElem?_inj bound distinct).mp (there.trans place.symm)
  exact ⟨w, within, worker, same.symm⟩

theorem TxWired.isSome_txRings_iff (wired : TxWired ringError maxLcores maxPorts app maxLcores 0 v)
    (numbers : Numbers maxLcores app) {w : ℕ} (bound : w < maxLcores)
    (worker : (app.lcoreParams w).isWorker) :
    ((v.lcoreParams l).txRings port (workerIndex app w)).isSome ↔
      port < maxPorts ∧ app.nicTxPortMask port ≠ 0 ∧
        appGetLcoreForNicTx maxLcores app port = some l := by
  rw [Option.isSome_iff_exists]
  constructor
  · rintro ⟨r, ring⟩
    obtain ⟨x, visited, sends, found, -, -⟩ := (wired.txRings l port _ r).mp ring
    exact ⟨(Visited.all.mp visited).2, sends.2, found⟩
  · rintro ⟨within, masked, found⟩
    exact ⟨.tx w port, (wired.txRings l port _ _).mpr
      ⟨w, Visited.all.mpr ⟨bound, within⟩, ⟨worker, masked⟩, found, numbers w bound worker, rfl⟩⟩

/-- The ports of the I/O lcores are in the tables. -/
def Listed (maxLcores maxPorts : ℕ) (app : AppParams) : Prop :=
  ∀ l < maxLcores, (app.lcoreParams l).nicPorts.length ≤ appMaxNicTxPortsPerIoLcore ∧
    ∀ port ∈ (app.lcoreParams l).nicPorts, port < maxPorts

section Checks

variable {n j : ℕ} {params : AppLcoreParams}

theorem checkTxRing_eq_ok : checkTxRing maxPorts params port j = .ok () ↔
    port < maxPorts ∧ (params.txRings port j).isSome := by
  rw [checkTxRing, ← Nat.not_le]
  by_cases beyond : maxPorts ≤ port
  · simp [beyond]
  · cases params.txRings port j <;> simp [beyond]

theorem checkTxRing_ne_outside (within : port < maxPorts) :
    checkTxRing maxPorts params port j ≠ .error .outside := by
  rw [checkTxRing, if_neg (Nat.not_le.mpr within)]
  cases params.txRings port j <;> simp

theorem checkTxRings_eq_ok (few : params.nicPorts.length ≤ appMaxNicTxPortsPerIoLcore) :
    checkTxRings maxPorts n params = .ok () ↔
      ∀ port ∈ params.nicPorts, ∀ j < n, port < maxPorts ∧ (params.txRings port j).isSome := by
  rw [checkTxRings, List.take_of_length_le few, bind_eq_ok]
  constructor
  · rintro ⟨⟨⟩, checked, -⟩ port member j below
    have row := forM_eq_ok.mp checked port member
    exact checkTxRing_eq_ok.mp (forM_eq_ok.mp row j (List.mem_range.mpr below))
  · intro found
    refine ⟨(), forM_eq_ok.mpr fun port member => forM_eq_ok.mpr fun j below => ?_, if_pos few⟩
    exact checkTxRing_eq_ok.mpr (found port member j (List.mem_range.mp below))

theorem checkTxRings_ne_outside (few : params.nicPorts.length ≤ appMaxNicTxPortsPerIoLcore)
    (within : ∀ port ∈ params.nicPorts, port < maxPorts) :
    checkTxRings maxPorts n params ≠ .error .outside := by
  refine bind_ne_error (forM_ne_error fun port member => forM_ne_error fun j _ => ?_) ?_
  · exact checkTxRing_ne_outside (within port (List.mem_of_mem_take member))
  · intro _ _
    rw [if_pos few]
    simp

end Checks

/-- The rings to the ports are found exactly if they are created, each port that is sent to
has an I/O lcore and each I/O lcore has only ports that are sent to and that no lcore before
it has. -/
theorem appInitRingsTx_isOk_iff (start : TxWired ringError maxLcores maxPorts app 0 0 app)
    (numbers : Numbers maxLcores app) (listed : Listed maxLcores maxPorts app) :
    (∃ v, appInitRingsTx ringError maxLcores maxPorts app = .ok v) ↔
      ∀ w < maxLcores, (app.lcoreParams w).isWorker → PortsCovered maxLcores maxPorts app ∧
        ∀ port < maxPorts, app.nicTxPortMask port ≠ 0 → ringError (.tx w port) = none := by
  constructor
  · rintro ⟨v, done⟩ w bound worker
    obtain ⟨u, connected, checked⟩ := bind_eq_ok.mp done
    obtain ⟨⟨⟩, checked, -⟩ := bind_eq_ok.mp checked
    have wired := txWired_of_connectsTx start numbers connected
    have handled (q : ℕ) (within : q < maxPorts) (masked : app.nicTxPortMask q ≠ 0) :
        Handled ringError maxLcores app w q :=
      wired.handled w q (Visited.all.mpr ⟨bound, within⟩) ⟨worker, masked⟩
    refine ⟨⟨fun q within masked => (handled q within masked).1, fun i inside q member => ?_⟩,
      fun q within masked => (handled q within masked).2⟩
    have found := forM_eq_ok.mp checked i (List.mem_range.mpr inside)
    have few := (listed i inside).1
    rw [← wired.nicPorts] at few member
    have number : workerIndex app w < appGetLcoresWorker maxLcores u := by
      rw [wired.toSameRoles.appGetLcoresWorker]
      exact workerIndex_lt bound worker
    exact (wired.isSome_txRings_iff numbers bound worker).mp
      ((checkTxRings_eq_ok few).mp found q member _ number).2
  · intro covered
    obtain ⟨u, connected⟩ := connectsTx_isOk start numbers fun w bound q within must =>
      ⟨(covered w bound must.1).1.1 q within must.2, (covered w bound must.1).2 q within must.2⟩
    have wired := txWired_of_connectsTx start numbers connected
    refine ⟨u, bind_eq_ok.mpr ⟨u, connected, bind_eq_ok.mpr ⟨(), ?_, rfl⟩⟩⟩
    refine forM_eq_ok.mpr fun i member => ?_
    have inside := List.mem_range.mp member
    obtain ⟨few, within⟩ := listed i inside
    rw [← wired.nicPorts] at few within
    refine (checkTxRings_eq_ok few).mpr fun q among j below => ⟨within q among, ?_⟩
    rw [wired.toSameRoles.appGetLcoresWorker] at below
    rw [wired.nicPorts] at among
    obtain ⟨w, bound, worker, rfl⟩ := exists_worker_of_lt below
    exact (wired.isSome_txRings_iff numbers bound worker).mpr
      ((covered w bound worker).1.2 i inside q among)

theorem appInitRingsTx_ne_outside (start : TxWired ringError maxLcores maxPorts app 0 0 app)
    (numbers : Numbers maxLcores app) (listed : Listed maxLcores maxPorts app) :
    appInitRingsTx ringError maxLcores maxPorts app ≠ .error .outside := by
  refine bind_ne_error connectsTx_ne_outside fun u connected => bind_ne_error ?_ ?_
  · have wired := txWired_of_connectsTx start numbers connected
    refine forM_ne_error fun i member => ?_
    obtain ⟨few, within⟩ := listed i (List.mem_range.mp member)
    rw [← wired.nicPorts] at few within
    exact checkTxRings_ne_outside few within
  · intro _ _ same
    cases same

/-- What the start-up has done before it connects workers and ports. -/
structure RxDone (maxLcores : ℕ) (app v : AppParams) : Prop extends SameRoles app v where
  rings : ∀ i, (v.lcoreParams i).rings =
    (List.range (if i < maxLcores then maxLcores else 0)).flatMap (rxRing app i)
  ringsIn : ∀ w < maxLcores, (v.lcoreParams w).ringsIn =
    (List.range maxLcores).flatMap (rxRing app · w)
  numbers : Numbers maxLcores v
  ringsOut : ∀ l port, (v.lcoreParams l).ringsOut port = none
  txRings : ∀ l port j, (v.lcoreParams l).txRings port j = none

/-- Either all rings to the workers are created, or one is not and the start-up fails. -/
theorem appInitRings_cases (ringError : AppRing → Option String) (maxLcores maxPorts : ℕ)
    (fresh : Fresh app) :
    (∃ v, RxDone maxLcores app v ∧ appInitRings ringError maxLcores maxPorts app =
      appInitRingsTx ringError maxLcores maxPorts v ∧ RxCreated ringError maxLcores app) ∨
    (∃ message, appInitRings ringError maxLcores maxPorts app = .error (.fail message)) ∧
      ¬ RxCreated ringError maxLcores app := by
  obtain ⟨same, numbers⟩ := appAssignWorkerIds_numbers maxLcores app
  generalize assigned : appAssignWorkerIds maxLcores app = u at same numbers
  have still : Fresh u := same.fresh fresh
  have ring : rxRing u = rxRing app := same.toSameRoles.rxRing
  have needs : RxCreated ringError maxLcores app ↔ RxCreated ringError maxLcores u := by
    rw [RxCreated, RxCreated, ring]
  rw [needs, appInitRings, assigned, appInitRingsRx_eq still]
  cases done : connectsRx ringError maxLcores u with
  | error e =>
      refine .inr ⟨?_, fun created => ?_⟩
      · cases e with
        | fail message => exact ⟨message, rfl⟩
        | outside => exact absurd done connectsRx_ne_outside
      · obtain ⟨v, other⟩ := connectsRx_isOk still created
        simp [done] at other
  | ok v =>
      have wired := rxWired_of_connectsRx still done
      refine .inl ⟨v, ⟨same.toSameRoles.trans wired.toSameRoles, fun i => ?_, fun w bound => ?_,
        ?_, ?_, ?_⟩, rfl, fun i bound w within => ?_⟩
      · rw [wired.rings, ring]
        by_cases bound : i < maxLcores <;> simp [bound]
      · rw [wired.ringsIn w bound, ring]
        simp
      · intro w bound worker
        rw [wired.isWorker, same.isWorker] at worker
        rw [wired.workerId, numbers w bound worker, wired.toSameRoles.workerIndex,
          same.toSameRoles.workerIndex]
      · intro l port
        rw [wired.ringsOut, still.ringsOut]
      · intro l port j
        rw [wired.txRings, still.txRings]
      · exact wired.created i w (Visited.all.mpr ⟨bound, within⟩)

theorem SameRoles.portsCovered (same : SameRoles app v) :
    PortsCovered maxLcores maxPorts v ↔ PortsCovered maxLcores maxPorts app := by
  simp only [PortsCovered, same.mask, same.nicPorts, same.appGetLcoreForNicTx]

theorem SameRoles.listed (same : SameRoles app v) :
    Listed maxLcores maxPorts v ↔ Listed maxLcores maxPorts app := by
  simp only [Listed, same.nicPorts]

/-- The rings that the start-up creates. -/
def Needed (maxLcores maxPorts : ℕ) (app : AppParams) : AppRing → Prop
  | .rx io worker => io < maxLcores ∧ worker < maxLcores ∧ (app.lcoreParams io).isIoRx ∧
      (app.lcoreParams worker).isWorker
  | .tx worker port => worker < maxLcores ∧ port < maxPorts ∧ Sends app worker port

theorem forall_needed_iff : (∀ ring, Needed maxLcores maxPorts app ring → ringError ring = none) ↔
    RxCreated ringError maxLcores app ∧ ∀ w < maxLcores, (app.lcoreParams w).isWorker →
      ∀ port < maxPorts, app.nicTxPortMask port ≠ 0 → ringError (.tx w port) = none := by
  constructor
  · intro created
    refine ⟨fun i bound w within ring member => ?_, fun w bound worker port within masked => ?_⟩
    · rw [rxRing, List.mem_ite_nil_right, List.mem_singleton] at member
      obtain ⟨⟨io, worker⟩, rfl⟩ := member
      exact created (.rx i w) ⟨bound, within, io, worker⟩
    · exact created (.tx w port) ⟨bound, within, worker, masked⟩
  · rintro ⟨rx, tx⟩ ring needed
    cases ring with
    | rx i w =>
        obtain ⟨bound, within, kinds⟩ := needed
        exact rx i bound w within _ (by simp [rxRing, kinds])
    | tx w port =>
        obtain ⟨bound, within, worker, masked⟩ := needed
        exact tx w bound worker port within masked

/-- **Start-up.** With the ports of the I/O lcores in the tables, it succeeds exactly if all
rings are created and, if there are workers, each port that is sent to has an I/O lcore and
no I/O lcore has a port that is not sent to or that another one before it has. Otherwise it
fails with a message. The checks of `app_init_rings_rx` find no error in any case. -/
theorem appInitRings_isOk_iff (ringError : AppRing → Option String) (maxLcores maxPorts : ℕ)
    (fresh : Fresh app) (listed : Listed maxLcores maxPorts app) :
    ((∃ v, appInitRings ringError maxLcores maxPorts app = .ok v) ↔
      (∀ ring, Needed maxLcores maxPorts app ring → ringError ring = none) ∧
      ∀ w < maxLcores, (app.lcoreParams w).isWorker → PortsCovered maxLcores maxPorts app) ∧
    appInitRings ringError maxLcores maxPorts app ≠ .error .outside ∧
    appInitRingsRx ringError maxLcores (appAssignWorkerIds maxLcores app) =
      connectsRx ringError maxLcores (appAssignWorkerIds maxLcores app) := by
  have unchecked : appInitRingsRx ringError maxLcores (appAssignWorkerIds maxLcores app) =
      connectsRx ringError maxLcores (appAssignWorkerIds maxLcores app) :=
    appInitRingsRx_eq ((appAssignWorkerIds_numbers maxLcores app).1.fresh fresh)
  rw [forall_needed_iff]
  rcases appInitRings_cases ringError maxLcores maxPorts fresh with
    ⟨u, before, result, created⟩ | ⟨⟨message, result⟩, missing⟩
  · have start : TxWired ringError maxLcores maxPorts u 0 0 u :=
      .start before.ringsOut before.txRings
    have tables : Listed maxLcores maxPorts u := before.toSameRoles.listed.mpr listed
    refine ⟨?_, result ▸ appInitRingsTx_ne_outside start before.numbers tables, unchecked⟩
    rw [result, appInitRingsTx_isOk_iff start before.numbers tables]
    simp only [before.isWorker, before.mask, before.toSameRoles.portsCovered]
    constructor
    · intro found
      exact ⟨⟨created, fun w bound worker => (found w bound worker).2⟩,
        fun w bound worker => (found w bound worker).1⟩
    · rintro ⟨⟨-, tx⟩, covered⟩ w bound worker
      exact ⟨covered w bound worker, tx w bound worker⟩
  · simp [result, missing, unchecked]

/-- Where the start-up ends. -/
theorem appInitRings_wired (fresh : Fresh app)
    (done : appInitRings ringError maxLcores maxPorts app = .ok v) :
    ∃ u, RxDone maxLcores app u ∧ TxWired ringError maxLcores maxPorts u maxLcores 0 v := by
  rcases appInitRings_cases ringError maxLcores maxPorts fresh with
    ⟨u, before, result, -⟩ | ⟨⟨message, result⟩, -⟩
  · obtain ⟨t, connected, checked⟩ := bind_eq_ok.mp (result ▸ done)
    obtain ⟨⟨⟩, -, same⟩ := bind_eq_ok.mp checked
    obtain rfl := Except.ok.inj same
    exact ⟨u, before,
      txWired_of_connectsTx (.start before.ringsOut before.txRings) before.numbers connected⟩
  · simp [result] at done

/-- **Connection.** An I/O lcore finds the ring to a worker under the number of the worker,
a worker has a ring from each I/O lcore, and the I/O lcore of a port finds the ring that a
worker writes to for this port under the port and the number of the worker. -/
theorem appInitRings_connects (fresh : Fresh app)
    (done : appInitRings ringError maxLcores maxPorts app = .ok v) {w : ℕ} (bound : w < maxLcores)
    (worker : (app.lcoreParams w).isWorker) :
    (∀ l < maxLcores, (app.lcoreParams l).isIoRx →
      (v.lcoreParams l).rings[(v.lcoreParams w).workerId]? = some (.rx l w)) ∧
    (v.lcoreParams w).ringsIn =
      ((List.range maxLcores).filter fun l => (app.lcoreParams l).isIoRx).map (.rx · w) ∧
    ∀ port < maxPorts, app.nicTxPortMask port ≠ 0 →
      (v.lcoreParams w).ringsOut port = some (.tx w port) ∧
      ∃ l, appGetLcoreForNicTx maxLcores app port = some l ∧
        (v.lcoreParams l).txRings port (v.lcoreParams w).workerId = some (.tx w port) := by
  obtain ⟨u, before, wired⟩ := appInitRings_wired fresh done
  have same : (u.lcoreParams w).isWorker := by rwa [before.isWorker]
  have number : (v.lcoreParams w).workerId = workerIndex app w := by
    rw [wired.workerId, before.numbers w bound same, before.toSameRoles.workerIndex]
  refine ⟨fun l within io => ?_, ?_, fun port within masked => ?_⟩
  · have place := getElem?_filter_range (p := fun l => (app.lcoreParams l).isWorker) bound worker
    rw [wired.rings, before.rings, if_pos within, flatMap_rxRing_of_io io, List.getElem?_map,
      number, workerIndex, place]
    rfl
  · rw [wired.ringsIn, before.ringsIn w bound, flatMap_rxRing_of_worker worker]
  · have visited : Visited maxPorts maxLcores 0 w port := Visited.all.mpr ⟨bound, within⟩
    have sends : Sends u w port := ⟨same, before.mask ▸ masked⟩
    obtain ⟨l, found⟩ := Option.isSome_iff_exists.mp (wired.handled w port visited sends).1
    refine ⟨(wired.ringsOut w port _).mpr ⟨visited, sends, rfl⟩, l, ?_, ?_⟩
    · rw [← before.toSameRoles.appGetLcoreForNicTx, found]
    · exact (wired.txRings l port _ _).mpr
        ⟨w, visited, sends, found, (wired.workerId w).symm, rfl⟩

/-- The lcore puts packets into the ring. -/
def Writes (v : AppParams) (l : ℕ) (r : AppRing) : Prop :=
  r ∈ (v.lcoreParams l).rings ∨ ∃ port, (v.lcoreParams l).ringsOut port = some r

/-- The lcore takes packets from the ring. -/
def Reads (v : AppParams) (l : ℕ) (r : AppRing) : Prop :=
  r ∈ (v.lcoreParams l).ringsIn ∨ ∃ port j, (v.lcoreParams l).txRings port j = some r

theorem mem_flatMap_rxRing {r : AppRing} {ws : List ℕ} :
    r ∈ ws.flatMap (rxRing app i) ↔ ∃ w ∈ ws, (app.lcoreParams i).isIoRx ∧
      (app.lcoreParams w).isWorker ∧ r = .rx i w := by
  simp [rxRing, and_assoc]

theorem mem_flatMap_rxRing_worker {r : AppRing} {w : ℕ} {is : List ℕ} :
    r ∈ is.flatMap (rxRing app · w) ↔ ∃ i ∈ is, (app.lcoreParams i).isIoRx ∧
      (app.lcoreParams w).isWorker ∧ r = .rx i w := by
  simp [rxRing, and_assoc]

section Ends

variable {a b : ℕ} (before : RxDone maxLcores app u)
  (wired : TxWired ringError maxLcores maxPorts u maxLcores 0 v)

include before wired

theorem writes_rx_iff (bound : l < maxLcores) : Writes v l (.rx a b) ↔
    a = l ∧ b < maxLcores ∧ (app.lcoreParams l).isIoRx ∧ (app.lcoreParams b).isWorker := by
  rw [Writes, wired.rings, before.rings, if_pos bound, mem_flatMap_rxRing]
  constructor
  · rintro (⟨w, member, io, worker, ring⟩ | ⟨port, ring⟩)
    · obtain ⟨rfl, rfl⟩ : a = l ∧ b = w := by simpa using ring
      exact ⟨rfl, List.mem_range.mp member, io, worker⟩
    · obtain ⟨-, -, other⟩ := (wired.ringsOut l port _).mp ring
      simp at other
  · rintro ⟨rfl, within, io, worker⟩
    exact .inl ⟨b, List.mem_range.mpr within, io, worker, rfl⟩

theorem reads_rx_iff (bound : l < maxLcores) : Reads v l (.rx a b) ↔
    b = l ∧ a < maxLcores ∧ (app.lcoreParams a).isIoRx ∧ (app.lcoreParams l).isWorker := by
  rw [Reads, wired.ringsIn, before.ringsIn l bound, mem_flatMap_rxRing_worker]
  constructor
  · rintro (⟨i, member, io, worker, ring⟩ | ⟨port, j, ring⟩)
    · obtain ⟨rfl, rfl⟩ : a = i ∧ b = l := by simpa using ring
      exact ⟨rfl, List.mem_range.mp member, io, worker⟩
    · obtain ⟨w, -, -, -, -, other⟩ := (wired.txRings l port j _).mp ring
      simp at other
  · rintro ⟨rfl, within, io, worker⟩
    exact .inl ⟨a, List.mem_range.mpr within, io, worker, rfl⟩

theorem writes_tx_iff (bound : l < maxLcores) : Writes v l (.tx a port) ↔
    a = l ∧ port < maxPorts ∧ Sends u l port := by
  rw [Writes, wired.rings, before.rings, mem_flatMap_rxRing]
  constructor
  · rintro (⟨w, -, -, -, other⟩ | ⟨q, ring⟩)
    · simp at other
    · obtain ⟨visited, sends, same⟩ := (wired.ringsOut l q _).mp ring
      obtain ⟨rfl, rfl⟩ : a = l ∧ port = q := by simpa using same
      exact ⟨rfl, (Visited.all.mp visited).2, sends⟩
  · rintro ⟨rfl, within, sends⟩
    exact .inr ⟨port, (wired.ringsOut a port _).mpr ⟨Visited.all.mpr ⟨bound, within⟩, sends, rfl⟩⟩

theorem reads_tx_iff (bound : l < maxLcores) : Reads v l (.tx a port) ↔
    a < maxLcores ∧ port < maxPorts ∧ Sends u a port ∧
      appGetLcoreForNicTx maxLcores u port = some l := by
  rw [Reads, wired.ringsIn, before.ringsIn l bound, mem_flatMap_rxRing_worker]
  constructor
  · rintro (⟨i, -, -, -, other⟩ | ⟨q, j, ring⟩)
    · simp at other
    · obtain ⟨w, visited, sends, found, -, same⟩ := (wired.txRings l q j _).mp ring
      obtain ⟨rfl, rfl⟩ : a = w ∧ port = q := by simpa using same
      obtain ⟨inside, within⟩ := Visited.all.mp visited
      exact ⟨inside, within, sends, found⟩
  · rintro ⟨inside, within, sends, found⟩
    exact .inr ⟨port, _, (wired.txRings l port _ _).mpr
      ⟨a, Visited.all.mpr ⟨inside, within⟩, sends, found, rfl, rfl⟩⟩

end Ends

theorem lt_of_appGetLcoreForNicTx (found : appGetLcoreForNicTx maxLcores app port = some l) :
    l < maxLcores :=
  List.mem_range.mp (List.mem_of_find?_eq_some found)

/-- **Single producer, single consumer.** No two lcores put packets into the same ring, and
each ring that one puts packets into is read by exactly one lcore. -/
theorem appInitRings_exclusive (fresh : Fresh app)
    (done : appInitRings ringError maxLcores maxPorts app = .ok v) (bound : l < maxLcores)
    {r : AppRing}
    (writes : Writes v l r) :
    (∀ i < maxLcores, Writes v i r → i = l) ∧
      ∃ i < maxLcores, Reads v i r ∧ ∀ j < maxLcores, Reads v j r → j = i := by
  obtain ⟨u, before, wired⟩ := appInitRings_wired fresh done
  cases r with
  | rx a b =>
      obtain ⟨rfl, within, io, worker⟩ := (writes_rx_iff before wired bound).mp writes
      refine ⟨fun i inside also => ?_, b, within, ?_, fun j inside also => ?_⟩
      · exact ((writes_rx_iff before wired inside).mp also).1.symm
      · exact (reads_rx_iff before wired within).mpr ⟨rfl, bound, io, worker⟩
      · exact ((reads_rx_iff before wired inside).mp also).1.symm
  | tx a port =>
      obtain ⟨rfl, within, sends⟩ := (writes_tx_iff before wired bound).mp writes
      obtain ⟨i, found⟩ := Option.isSome_iff_exists.mp
        (wired.handled a port (Visited.all.mpr ⟨bound, within⟩) sends).1
      have there := lt_of_appGetLcoreForNicTx found
      refine ⟨fun j inside also => ?_, i, there, ?_, fun j inside also => ?_⟩
      · exact ((writes_tx_iff before wired inside).mp also).1.symm
      · exact (reads_tx_iff before wired there).mpr ⟨bound, within, sends, found⟩
      · obtain ⟨-, -, -, again⟩ := (reads_tx_iff before wired inside).mp also
        exact Option.some_inj.mp (again.symm.trans found)

/-! ### Five lcores -/

/-- `--rx "(0,0,0),(1,0,0)" --tx "(0,3),(1,4)" --w "1,2"`. -/
def fiveLcores : AppParams where
  lcoreParams
    | 0 => .io ⟨2, [], [], fun _ _ => none⟩
    | 1 => .worker ⟨[], fun _ => none, 0⟩
    | 2 => .worker ⟨[], fun _ => none, 0⟩
    | 3 => .io ⟨0, [], [0], fun _ _ => none⟩
    | 4 => .io ⟨0, [], [1], fun _ _ => none⟩
    | _ => .disabled
  nicTxPortMask port := if port < 2 then 1 else 0

def allCreated : AppRing → Option String := fun _ => none

theorem fresh_fiveLcores : Fresh fiveLcores where
  rings l := by rcases l with _ | _ | _ | _ | _ | l <;> rfl
  ringsIn l := by rcases l with _ | _ | _ | _ | _ | l <;> rfl
  ringsOut l port := by rcases l with _ | _ | _ | _ | _ | l <;> rfl
  txRings l port j := by rcases l with _ | _ | _ | _ | _ | l <;> rfl

theorem listed_fiveLcores : Listed 5 2 fiveLcores := by
  unfold Listed
  decide

/-- The start-up succeeds if all rings are created, and not if the last one is not. -/
theorem appInitRings_isOk_iff_fiveLcores :
    (∃ v, appInitRings allCreated 5 2 fiveLcores = .ok v) ∧
    ¬ ∃ v, appInitRings (fun ring => if ring = .tx 2 1 then some "File exists" else none) 5 2
      fiveLcores = .ok v := by
  constructor
  · refine (appInitRings_isOk_iff _ 5 2 fresh_fiveLcores listed_fiveLcores).1.mpr ⟨?_, ?_⟩
    · exact fun _ _ => rfl
    · intro _ _ _
      unfold PortsCovered
      decide
  · intro succeeds
    obtain ⟨created, -⟩ :=
      (appInitRings_isOk_iff _ 5 2 fresh_fiveLcores listed_fiveLcores).1.mp succeeds
    have last := created (.tx 2 1) ⟨by decide, by decide, by decide, by decide⟩
    simp at last

theorem wired_fiveLcores : ∃ v, appInitRings allCreated 5 2 fiveLcores = .ok v ∧
    (v.lcoreParams 0).rings = [.rx 0 1, .rx 0 2] := by
  have rings : (appInitRings allCreated 5 2 fiveLcores).map (fun v => (v.lcoreParams 0).rings) =
      .ok [.rx 0 1, .rx 0 2] := by rfl
  cases done : appInitRings allCreated 5 2 fiveLcores with
  | error message => simp [done, Except.map] at rings
  | ok v => exact ⟨v, rfl, Except.ok.inj (done ▸ rings)⟩

theorem appInitRings_connects_fiveLcores : ∃ v, appInitRings allCreated 5 2 fiveLcores = .ok v ∧
    (v.lcoreParams 0).rings[(v.lcoreParams 2).workerId]? = some (.rx 0 2) ∧
    (v.lcoreParams 2).ringsIn = [.rx 0 2] ∧ (v.lcoreParams 2).ringsOut 1 = some (.tx 2 1) := by
  obtain ⟨v, done, -⟩ := wired_fiveLcores
  obtain ⟨rx, ringsIn, tx⟩ := appInitRings_connects (w := 2) fresh_fiveLcores done (by decide) rfl
  exact ⟨v, done, rx 0 (by decide) rfl, ringsIn, (tx 1 (by decide) (by decide)).1⟩

theorem appInitRings_exclusive_fiveLcores : ∃ v, appInitRings allCreated 5 2 fiveLcores = .ok v ∧
    (∀ i < 5, Writes v i (.rx 0 2) → i = 0) ∧ ∃ i < 5, Reads v i (.rx 0 2) := by
  obtain ⟨v, done, rings⟩ := wired_fiveLcores
  obtain ⟨writer, i, bound, reads, -⟩ := appInitRings_exclusive (l := 0) (r := .rx 0 2)
    fresh_fiveLcores done (by decide) (.inl (by simp [rings]))
  exact ⟨v, done, writer, i, bound, reads⟩

end DpdkCr.LoadBalancer
