import DpdkCr.App.Burst
import DpdkCr.Semantics.Transition
import Mathlib.Data.List.Perm.Subperm

/-!
# The forwarding loop conserves mbufs

Whole runs of the loop that receives a burst, marks packets, drops the marked
ones and transmits the rest. Mbufs move between the pool and the driver; a burst
comes out of the pool, what is freed goes back to it, and what the driver took
comes back whenever the driver recycles it. Nothing but the loop writes
`userdata`, so a marker that survived one iteration would drop an innocent packet
in a later one.

## Main results

* `prepared_spec` — what one iteration drops and offers
* `mainLoop_conserves` — every iteration of every run conserves its burst
-/

namespace DpdkCr

open Semantics

/-- What one iteration received, with what its block marked, and where the
packets went. -/
structure Iteration (α : Type*) where
  received : List (α × Bool)
  dropped : List α
  offered : List α
  accepted : List α
  unsent : List α

/-- The forwarding thread and the mbufs around it. -/
structure LoopWorld (α : Type*) where
  pkts : ℕ → α
  userdata : α → UInt64
  pool : List α
  driver : List α
  iterations : List (Iteration α)

/-- The driver recycles a transmitted mbuf, or the loop runs once: the driver
delivers a burst, the block marks some of it, and the driver takes `sent` packets. -/
inductive LoopStep (α : Type*)
  | recycle (m : α)
  | iterate (received : List (α × Bool)) (sent : ℕ)

namespace LoopWorld

variable {α : Type*} [DecidableEq α]

/-- The thread after `drop_unsupported`. -/
def prepared (w : LoopWorld α) (received : List (α × Bool)) : Thread α :=
  let s : Thread α := ⟨w.pkts, 0, w.userdata, []⟩
  let s := s.rteEthRxBurst (received.map Prod.fst)
  let s := s.markAll fun i => ((received.map Prod.snd)[i]?).getD false
  s.dropUnsupported

/-- `main_loop`: an empty burst goes on to the `next` iteration. -/
def iterate (w : LoopWorld α) (received : List (α × Bool)) (sent : ℕ) : LoopWorld α :=
  if received.length = 0 then w
  else
    let dropped := w.prepared received
    let transmitted := dropped.rteEthTxBurst? sent
    { pkts := transmitted.pkts
      userdata := transmitted.userdata
      pool := w.pool.diff (received.map Prod.fst) ++ transmitted.freed
      driver := w.driver ++ dropped.burst.take sent
      iterations := w.iterations ++ [{
        received := received
        dropped := dropped.freed
        offered := dropped.burst
        accepted := dropped.burst.take sent
        unsent := transmitted.freed.drop dropped.freed.length }] }

/-- A burst comes out of the pool, each mbuf once, and the driver takes at most
what it is offered. -/
def exec (w : LoopWorld α) : LoopStep α → Option (LoopWorld α)
  | .recycle m =>
    if m ∈ w.driver then some { w with driver := w.driver.erase m, pool := w.pool ++ [m] }
    else none
  | .iterate received sent =>
    if (received.map Prod.fst).Nodup ∧ (∀ m ∈ received.map Prod.fst, m ∈ w.pool) ∧
        received.length ≤ maxPktsBurst ∧ sent ≤ (w.prepared received).nbRx then
      some (w.iterate received sent)
    else none

end LoopWorld

/-- All runs of the loop over the given mbufs, which start in the pool unmarked. -/
def mainLoop {α : Type*} [DecidableEq α] (mbufs : List α) : System (LoopWorld α) (LoopStep α) where
  Init w := w.pool.Perm mbufs ∧ w.driver = [] ∧ (∀ m, w.userdata m ≠ markerDrop) ∧
    w.iterations = []
  exec := LoopWorld.exec

/-- Every packet of the burst was freed or accepted, exactly once; the freed ones
are the marked ones and the suffix that the driver left. -/
structure Iteration.Conserved {α : Type*} (it : Iteration α) : Prop where
  dropped_eq : it.dropped = (it.received.filter fun x => x.2).map Prod.fst
  offered_eq : it.offered = (it.received.filter fun x => ! x.2).map Prod.fst
  accepted_append : it.accepted ++ it.unsent = it.offered
  once : (it.dropped ++ it.unsent ++ it.accepted).Perm (it.received.map Prod.fst)
  distinct : (it.received.map Prod.fst).Nodup

section Runs

variable {α : Type*} [DecidableEq α] {mbufs : List α} {w v : LoopWorld α}
variable {received : List (α × Bool)} {sent : ℕ}

/-- What one iteration frees, offers and leaves in the fields, when it starts with
no marked mbuf. -/
theorem prepared_spec (unmarked : ∀ m, w.userdata m ≠ markerDrop)
    (distinct : (received.map Prod.fst).Nodup) :
    (w.prepared received).freed = (received.filter fun x => x.2).map Prod.fst ∧
    (w.prepared received).burst = (received.filter fun x => ! x.2).map Prod.fst ∧
    ∀ m, (w.prepared received).userdata m ≠ markerDrop := by
  -- the marks of the burst as the block sees them, by index
  set marks : ℕ → Bool := fun i => ((received.map Prod.snd)[i]?).getD false with marks_eq
  set s : Thread α := Thread.rteEthRxBurst (received.map Prod.fst) ⟨w.pkts, 0, w.userdata, []⟩
    with s_eq
  have burst : s.burst = received.map Prod.fst := Thread.burst_rteEthRxBurst
  have distinct' : s.burst.Nodup := burst ▸ distinct
  have count : s.nbRx = received.length := List.length_map ..
  have listed : received = (List.range s.nbRx).map fun i => (s.pkts i, marks i) := by
    apply List.ext_getElem (by simp [count])
    intro i inside _
    simp [s_eq, marks_eq, Thread.rteEthRxBurst, inside]
  have marked : s.markAll marks = { s with userdata := s.overwritten marks markerDrop s.nbRx } :=
    Thread.markAll_eq
  have dropped {i : ℕ} (inside : i < s.nbRx) : (s.markAll marks).dropped? i = marks i := by
    rw [Bool.eq_iff_iff, Thread.dropped?, decide_eq_true_iff, marked]
    exact Thread.overwritten_eq_iff distinct' unmarked inside
  obtain ⟨freed, kept, userdata⟩ :=
    Thread.dropUnsupported_spec (s := s.markAll marks) (by rw [marked]; exact distinct')
  have same : (s.markAll marks).nbRx = s.nbRx ∧ (s.markAll marks).pkts = s.pkts ∧
      (s.markAll marks).freed = [] := by
    rw [marked]
    exact ⟨rfl, rfl, rfl⟩
  rw [same.1, same.2.1, same.2.2, List.nil_append] at freed
  rw [same.1, same.2.1] at kept
  rw [same.1] at userdata
  change (s.markAll marks).dropUnsupported.freed = _ ∧
    (s.markAll marks).dropUnsupported.burst = _ ∧ _
  refine ⟨?_, ?_, ?_⟩
  · rw [freed, listed, List.filter_map, List.map_map]
    exact congrArg _ (List.filter_congr fun i member => dropped (List.mem_range.mp member))
  · rw [kept, listed, List.filter_map, List.map_map]
    exact congrArg _ (List.filter_congr fun i member => by
      rw [dropped (List.mem_range.mp member)]
      rfl)
  · intro m
    change (s.markAll marks).dropUnsupported.userdata m ≠ markerDrop
    rw [userdata, Thread.overwritten, same.2.1]
    split
    · decide
    · rename_i absent
      rw [marked]
      -- a marker found afterwards was put there in this iteration, hence on a packet that was
      -- dropped and reset
      refine fun stale => absent ?_
      by_cases selected : ∃ i < s.nbRx, marks i ∧ s.pkts i = m
      · obtain ⟨i, inside, chosen, rfl⟩ := selected
        exact ⟨i, inside, (dropped inside).trans chosen, rfl⟩
      · exact absurd ((if_neg selected).symm.trans stale) (unmarked m)

/-- Between iterations no mbuf is marked, and every mbuf is in the pool or with the
driver. -/
structure LoopWorld.Inv (mbufs : List α) (w : LoopWorld α) : Prop where
  unmarked : ∀ m, w.userdata m ≠ markerDrop
  partition : (w.pool ++ w.driver).Perm mbufs
  conserved : ∀ it ∈ w.iterations, it.Conserved

namespace LoopWorld

/-- The burst leaves the pool; what it is made of goes to the pool and the driver. -/
private theorem partition_burst {pool driver burst freed accepted : List α}
    (partition : (pool ++ driver).Perm mbufs) (distinct : burst.Nodup)
    (delivered : ∀ m ∈ burst, m ∈ pool) (split : (freed ++ accepted).Perm burst) :
    ((pool.diff burst ++ freed) ++ (driver ++ accepted)).Perm mbufs := by
  have taken : (burst ++ pool.diff burst).Perm pool :=
    List.subperm_append_diff_self_of_count_le
      (List.subperm_ext_iff.mp (List.subperm_of_subset distinct delivered))
  rw [List.perm_iff_count] at partition taken split ⊢
  intro m
  have total := partition m
  have source := taken m
  have parts := split m
  simp only [List.count_append] at *
  omega

theorem Inv.iterate (inv : Inv mbufs w) (distinct : (received.map Prod.fst).Nodup)
    (delivered : ∀ m ∈ received.map Prod.fst, m ∈ w.pool) :
    Inv mbufs (w.iterate received sent) := by
  obtain ⟨freed, kept, unmarked⟩ := prepared_spec inv.unmarked distinct
  rw [LoopWorld.iterate]
  split
  · exact inv
  · simp only [Thread.rteEthTxBurst?_eq, List.drop_left]
    generalize w.prepared received = dropped at freed kept unmarked
    have split : (dropped.freed ++ dropped.burst.drop sent ++ dropped.burst.take sent).Perm
        (received.map Prod.fst) := by
      -- offered packets are taken or unsent, received ones dropped or offered
      have halves : (dropped.burst.drop sent ++ dropped.burst.take sent).Perm dropped.burst :=
        List.perm_append_comm.trans (by rw [List.take_append_drop])
      rw [List.append_assoc]
      refine (halves.append_left _).trans ?_
      rw [freed, kept, ← List.map_append]
      exact (List.filter_append_perm _ received).map _
    exact {
      unmarked := unmarked
      partition := partition_burst inv.partition distinct delivered split
      conserved := by
        intro it member
        rcases List.mem_append.mp member with old | new
        · exact inv.conserved it old
        · rw [List.mem_singleton.mp new]
          exact ⟨freed, kept, List.take_append_drop .., split, distinct⟩ }

theorem Inv.exec {step : LoopStep α} (inv : Inv mbufs w) (executed : w.exec step = some v) :
    Inv mbufs v := by
  cases step with
  | recycle m =>
      simp only [LoopWorld.exec, Option.ite_none_right_eq_some, Option.some_inj] at executed
      obtain ⟨sent, rfl⟩ := executed
      refine ⟨inv.unmarked, ?_, inv.conserved⟩
      refine List.Perm.trans ?_ inv.partition
      rw [List.append_assoc]
      exact (List.perm_cons_erase sent).symm.append_left _
  | iterate received sent =>
      simp only [LoopWorld.exec, Option.ite_none_right_eq_some, Option.some_inj] at executed
      obtain ⟨⟨distinct, delivered, -, -⟩, rfl⟩ := executed
      exact inv.iterate distinct delivered

theorem reachable_inv (reached : (mainLoop mbufs).Reachable w) : Inv mbufs w := by
  refine reached.invariant ?_ fun _ _ _ inv executed => inv.exec executed
  rintro w ⟨pool, driver, unmarked, iterations⟩
  refine ⟨unmarked, ?_, ?_⟩
  · rwa [driver, List.append_nil]
  · rw [iterations]
    intro it absent
    exact absurd absent List.not_mem_nil

end LoopWorld

/-- **The forwarding loop conserves mbufs.** In every run, each iteration freed the
mbufs that were marked in that iteration, offered the others to the driver in
arrival order, and freed the suffix that the driver did not take; and all mbufs
are in the pool or with the driver, none of them marked. -/
theorem mainLoop_conserves (reached : (mainLoop mbufs).Reachable w) :
    (∀ it ∈ w.iterations, it.Conserved) ∧ (w.pool ++ w.driver).Perm mbufs ∧
      ∀ m, w.userdata m ≠ markerDrop :=
  have inv := LoopWorld.reachable_inv reached
  ⟨inv.conserved, inv.partition, inv.unmarked⟩

end Runs

/-- Three mbufs in the pool. -/
def threeMbufs : LoopWorld ℕ := ⟨fun _ => 0, fun _ => 0, [1, 2, 3], [], []⟩

/-- Mbuf 1 is dropped and mbuf 3 not sent; both are received again at once. -/
def twoIterations : List (LoopStep ℕ) :=
  [.iterate [(1, true), (2, false), (3, false)] 1, .recycle 2,
    .iterate [(3, false), (1, false), (2, true)] 2]

theorem mainLoop_conserves_threeMbufs : ∃ w,
    (mainLoop [1, 2, 3]).run threeMbufs twoIterations = some w ∧
    w.iterations.map Iteration.dropped = [[1], [2]] ∧
    w.iterations.map Iteration.accepted = [[2], [3, 1]] ∧ (∀ it ∈ w.iterations, it.Conserved) := by
  obtain ⟨w, executed, dropped, accepted⟩ : ∃ w,
      (mainLoop [1, 2, 3]).run threeMbufs twoIterations = some w ∧
      w.iterations.map Iteration.dropped = [[1], [2]] ∧
      w.iterations.map Iteration.accepted = [[2], [3, 1]] := ⟨_, rfl, rfl, rfl⟩
  have unmarked : (0 : UInt64) ≠ markerDrop := by decide
  have reached : (mainLoop [1, 2, 3]).Reachable w :=
    ⟨threeMbufs, twoIterations, ⟨.refl _, rfl, fun _ => unmarked, rfl⟩, executed⟩
  exact ⟨w, executed, dropped, accepted, (mainLoop_conserves reached).1⟩

end DpdkCr
