import DpdkCr.Semantics.Iterate
import DpdkCr.Semantics.Transition
import Mathlib.Algebra.Order.Ring.Nat
import Mathlib.Data.List.Nodup

/-!
# Handing over bursts

Three helpers offer a burst again and again, less what has been accepted of it, until
nothing is left. They are written separately and differ in the widths of the total and of
the running count, so they are one loop with two widths. A fourth helper offers a burst
once and frees what is refused.

## Main definitions

* `handOver` — the loop as a transition system, whose labels are what the calls accept
* `rteEthTxBurst!`, `kniRxToRing`, `rteKniTxBurst` — the three helpers
* `rteRingEnqueueBurst?` — the fourth helper
* `HandOver.Accounted` — what has become of the burst
* `HandOver.Delivers` — the burst is delivered, whatever the calls accept

## Main results

* `HandOver.accounted` — in every state that the loop gets to
* `HandOver.run_calls` — any results that the calls may give are the results of a run
* `rteRingEnqueueBurst?_eq` — what the fourth helper frees
* `burst_accounted` — both, for the four helpers
-/

namespace DpdkCr

open Semantics

variable {α : Type*}

/-- The elements of a table from an offset on. -/
def slice (pkts : ℕ → α) (offset n : ℕ) : List α := (List.range n).map fun i => pkts (offset + i)

/-! ### The loop -/

/-- A call: where it begins in the table, how much it offers and how much is accepted. -/
structure Offer (width : ℕ) where
  offset : ℕ
  requested : BitVec width
  sent : BitVec width
  deriving DecidableEq, Repr

namespace Offer

variable {width : ℕ}

def offered (pkts : ℕ → α) (call : Offer width) : List α :=
  slice pkts call.offset call.requested.toNat

def accepted (pkts : ℕ → α) (call : Offer width) : List α :=
  slice pkts call.offset call.sent.toNat

end Offer

/-- Before the first call, between calls, and after the loop. -/
inductive HandOverPhase
  | entry | looping | left
  deriving DecidableEq, Repr

/-- The running count, and the calls so far. -/
structure HandOver (width : ℕ) where
  phase : HandOverPhase
  nbTx : BitVec width
  calls : List (Offer width)

inductive HandOverStep (width : ℕ)
  /-- the next call returns -/
  | call (sent : BitVec width)
  /-- the test of the loop fails, or the one before it -/
  | leave

/-- The loop over a total of `totalWidth` bits with a count of `width` bits. A call
accepts as much as it likes of what it is offered. -/
def handOver {totalWidth : ℕ} (width : ℕ) (nbRx : BitVec totalWidth) :
    System (HandOver width) (HandOverStep width) where
  Init h := h = ⟨.entry, 0, []⟩
  exec h step :=
    match h.phase, step with
    | .entry, .call sent =>
      let requested := nbRx.setWidth width
      if nbRx > 0 ∧ sent ≤ requested then some ⟨.looping, sent, [⟨0, requested, sent⟩]⟩ else none
    | .entry, .leave => if nbRx > 0 then none else some ⟨.left, 0, []⟩
    | .looping, .call sent =>
      let requested := (nbRx - h.nbTx.setWidth totalWidth).setWidth width
      if h.nbTx.toNat < nbRx.toNat ∧ sent ≤ requested then
        some ⟨.looping, h.nbTx + sent, h.calls ++ [⟨h.nbTx.toNat, requested, sent⟩]⟩
      else none
    | .looping, .leave =>
      if h.nbTx.toNat < nbRx.toNat then none else some ⟨.left, h.nbTx, h.calls⟩
    | .left, _ => none

/-- `rte_eth_tx_burst!`. The driver counts in 16 bits. -/
def rteEthTxBurst! (nbRx : BitVec 16) : System (HandOver 16) (HandOverStep 16) := handOver 16 nbRx

/-- `kni_rx_to_ring`. The ring counts in 32 bits. -/
def kniRxToRing (nbRx : BitVec 16) : System (HandOver 32) (HandOverStep 32) := handOver 32 nbRx

/-- `rte_kni_tx_burst`, whose total is of any type. -/
def rteKniTxBurst {width : ℕ} (nbRx : BitVec width) : System (HandOver 32) (HandOverStep 32) :=
  handOver 32 nbRx

/-! ### Freeing what is refused -/

/-- What `rte_ring_enqueue_burst?` has done: its call, if it makes one, and what it frees. -/
structure EnqueueAttempt (α : Type*) where
  call : Option (Offer 32)
  freed : List α

/-- A pass of its loop. -/
def freePass {width : ℕ} (pkts : ℕ → α) (n : BitVec width) (s : UInt32 × List α) :
    Option (Pass (UInt32 × List α) (List α)) :=
  let (m, freed) := s
  if m.toNat < n.toNat then some (.again (m + 1, freed ++ [pkts m.toNat]))
  else some (.leave freed)

/-- `rte_ring_enqueue_burst?`, of which the ring accepts `sent`. -/
def rteRingEnqueueBurst? {width : ℕ} (fuel : ℕ) (pkts : ℕ → α) (n : BitVec width)
    (sent : UInt32) : Option (EnqueueAttempt α) :=
  if n > 0 then
    (iterate (freePass pkts n) fuel (sent, [])).map fun freed =>
      ⟨some ⟨0, n.setWidth 32, sent.toBitVec⟩, freed⟩
  else some ⟨none, []⟩

/-! ### Accounting -/

section Slice

variable (pkts : ℕ → α) (offset m n : ℕ)

@[simp] theorem slice_zero : slice pkts offset 0 = [] := rfl

/-- A slice, and the slice behind it. -/
theorem slice_append :
    slice pkts offset m ++ slice pkts (offset + m) n = slice pkts offset (m + n) := by
  rw [slice, slice, slice, List.range_add, List.map_append, List.map_map]
  congr 1
  exact List.map_congr_left fun i _ => congrArg pkts (Nat.add_assoc offset m i)

/-- A front of a burst, and the rest of it. -/
theorem slice_append_sub {m n : ℕ} (within : m ≤ n) :
    slice pkts 0 m ++ slice pkts m (n - m) = slice pkts 0 n := by
  have joined := slice_append pkts 0 m (n - m)
  rwa [Nat.zero_add, Nat.add_sub_cancel' within] at joined

end Slice

namespace HandOver

variable {width total : ℕ} {pkts : ℕ → α} {h : HandOver width}

/-- What has been accepted, call by call. -/
def accepted (pkts : ℕ → α) (calls : List (Offer width)) : List α :=
  calls.flatMap (Offer.accepted pkts)

/-- The accepted slices are the first packets, each call was offered what was left then,
the count is what has been accepted, and the loop is not left before that is everything. -/
structure Accounted (pkts : ℕ → α) (total : ℕ) (h : HandOver width) : Prop where
  entry : h.phase = .entry → h.nbTx = 0 ∧ h.calls = []
  accepted_eq : accepted pkts h.calls = slice pkts 0 h.nbTx.toNat
  offered_eq : ∀ before call, before ++ [call] <+: h.calls →
    accepted pkts before ++ call.offered pkts = slice pkts 0 total
  count_eq : h.nbTx.toNat = (h.calls.map fun call => call.sent.toNat).sum
  count_le : h.nbTx.toNat ≤ total
  left : h.phase = .left → h.nbTx.toNat = total

theorem accounted_start : Accounted pkts total (⟨.entry, 0, []⟩ : HandOver width) where
  entry _ := ⟨rfl, rfl⟩
  accepted_eq := rfl
  offered_eq _ _ inside :=
    absurd (List.prefix_nil.mp inside) (List.append_ne_nil_of_right_ne_nil _ (List.cons_ne_nil _ _))
  count_eq := rfl
  count_le := Nat.zero_le _
  left := nofun

/-- A call that is offered what is left keeps the account. -/
theorem Accounted.call (inv : Accounted pkts total h) {requested sent : BitVec width}
    (small : total < 2 ^ width) (rest : requested.toNat = total - h.nbTx.toNat)
    (allowed : sent.toNat ≤ total - h.nbTx.toNat) :
    Accounted pkts total
      ⟨.looping, h.nbTx + sent, h.calls ++ [⟨h.nbTx.toNat, requested, sent⟩]⟩ := by
  have within : h.nbTx.toNat + sent.toNat ≤ total := by
    have before := inv.count_le
    omega
  have sum : (h.nbTx + sent).toNat = h.nbTx.toNat + sent.toNat := by
    rw [BitVec.toNat_add, Nat.mod_eq_of_lt (within.trans_lt small)]
  refine ⟨nofun, ?_, ?_, ?_, ?_, nofun⟩
  · rw [accepted, List.flatMap_append, List.flatMap_singleton, ← accepted, inv.accepted_eq, sum,
      Offer.accepted]
    have joined := slice_append pkts 0 h.nbTx.toNat sent.toNat
    rwa [Nat.zero_add] at joined
  · intro before call inside
    rcases List.prefix_concat_iff.mp inside with last | earlier
    · obtain ⟨rfl, same⟩ := List.append_inj' last rfl
      obtain rfl := List.singleton_inj.mp same
      rw [inv.accepted_eq, Offer.offered, rest]
      exact slice_append_sub pkts inv.count_le
    · exact inv.offered_eq before call earlier
  · rw [sum, List.map_append, List.sum_append, ← inv.count_eq, List.map_singleton,
      List.sum_singleton]
  · rw [sum]
    exact within

theorem Accounted.leave (inv : Accounted pkts total h) (all : h.nbTx.toNat = total) :
    Accounted pkts total ⟨.left, h.nbTx, h.calls⟩ :=
  ⟨nofun, inv.accepted_eq, inv.offered_eq, inv.count_eq, inv.count_le, fun _ => all⟩

/-! ### Steps -/

section Steps

variable {totalWidth : ℕ} {nbRx : BitVec totalWidth} {sent : BitVec width} {h' : HandOver width}
  {step : HandOverStep width}

/-- What is left to offer does not depend on the widths. -/
theorem toNat_requested {nbTx : BitVec width} (small : nbRx.toNat < 2 ^ width)
    (within : nbTx.toNat ≤ nbRx.toNat) :
    ((nbRx - nbTx.setWidth totalWidth).setWidth width).toNat = nbRx.toNat - nbTx.toNat := by
  have same : (nbTx.setWidth totalWidth).toNat = nbTx.toNat := by
    rw [BitVec.toNat_setWidth, Nat.mod_eq_of_lt (within.trans_lt nbRx.isLt)]
  have least : nbTx.setWidth totalWidth ≤ nbRx := by
    rwa [BitVec.le_def, same]
  rw [BitVec.toNat_setWidth, BitVec.toNat_sub_of_le least, same,
    Nat.mod_eq_of_lt ((Nat.sub_le _ _).trans_lt small)]

/-- A call is made while packets are left; it is offered these, and may accept any number
of them. -/
theorem exec_call (small : nbRx.toNat < 2 ^ width) (inv : Accounted pkts nbRx.toNat h)
    (inside : h.phase ≠ .left) :
    (handOver width nbRx).exec h (.call sent) =
      if h.nbTx.toNat < nbRx.toNat ∧ sent.toNat ≤ nbRx.toNat - h.nbTx.toNat then
        some ⟨.looping, h.nbTx + sent,
          h.calls ++ [⟨h.nbTx.toNat, .ofNat width (nbRx.toNat - h.nbTx.toNat), sent⟩]⟩
      else none := by
  obtain ⟨phase, nbTx, calls⟩ := h
  cases phase with
  | entry =>
      -- the first call is written apart from the others, with the whole burst to offer
      obtain ⟨rfl, rfl⟩ : nbTx = 0 ∧ calls = [] := inv.entry rfl
      have whole : (nbRx.setWidth width).toNat = nbRx.toNat := by
        rw [BitVec.toNat_setWidth, Nat.mod_eq_of_lt small]
      have sum : (0 : BitVec width) + sent = sent := BitVec.zero_add sent
      have zero : (0 : BitVec width).toNat = 0 := Nat.zero_mod _
      rw [zero, sum, Nat.sub_zero, BitVec.ofNat_toNat, List.nil_append]
      simp only [handOver, gt_iff_lt, BitVec.lt_def, BitVec.le_def, whole]
      rfl
  | looping =>
      have rest : ((nbRx - nbTx.setWidth totalWidth).setWidth width).toNat =
          nbRx.toNat - nbTx.toNat := toNat_requested small inv.count_le
      simp only [handOver, BitVec.le_def, rest]
      rw [← rest, BitVec.ofNat_toNat, BitVec.setWidth_eq]
  | left => exact absurd rfl inside

/-- The loop is left when all packets are accepted. -/
theorem exec_leave (inv : Accounted pkts nbRx.toNat h) (inside : h.phase ≠ .left) :
    (handOver width nbRx).exec h .leave =
      if h.nbTx.toNat = nbRx.toNat then some ⟨.left, h.nbTx, h.calls⟩ else none := by
  obtain ⟨phase, nbTx, calls⟩ := h
  have met : nbTx.toNat = nbRx.toNat ↔ ¬ nbTx.toNat < nbRx.toNat :=
    ⟨fun same => Nat.not_lt_of_le same.ge,
      fun full => Nat.le_antisymm inv.count_le (Nat.le_of_not_lt full)⟩
  cases phase with
  | entry =>
      obtain ⟨rfl, rfl⟩ : nbTx = 0 ∧ calls = [] := inv.entry rfl
      simp only [handOver, gt_iff_lt, BitVec.lt_def, met, ite_not]
      rfl
  | looping => simp only [handOver, met, ite_not]
  | left => exact absurd rfl inside

/-- There is nothing behind the loop. -/
theorem exec_left (behind : h.phase = .left) : (handOver width nbRx).exec h step = none := by
  obtain ⟨phase, nbTx, calls⟩ := h
  obtain rfl : phase = .left := behind
  rfl

/-- A step keeps the account. -/
theorem Accounted.exec (small : nbRx.toNat < 2 ^ width) (inv : Accounted pkts nbRx.toNat h)
    (taken : (handOver width nbRx).exec h step = some h') : Accounted pkts nbRx.toNat h' := by
  by_cases behind : h.phase = .left
  · rw [exec_left behind] at taken
    exact absurd taken nofun
  · cases step with
    | call sent =>
        rw [exec_call small inv behind] at taken
        obtain ⟨⟨-, allowed⟩, result⟩ := Option.ite_none_right_eq_some.mp taken
        obtain rfl := Option.some.inj result
        refine inv.call small ?_ allowed
        rw [BitVec.toNat_ofNat, Nat.mod_eq_of_lt ((Nat.sub_le _ _).trans_lt small)]
    | leave =>
        rw [exec_leave inv behind] at taken
        obtain ⟨all, result⟩ := Option.ite_none_right_eq_some.mp taken
        obtain rfl := Option.some.inj result
        exact inv.leave all

end Steps

/-- The account holds wherever the loop gets. -/
theorem accounted {totalWidth : ℕ} {nbRx : BitVec totalWidth} (small : nbRx.toNat < 2 ^ width)
    (reached : (handOver width nbRx).Reachable h) : Accounted pkts nbRx.toNat h := by
  refine reached.invariant (P := Accounted pkts nbRx.toNat) ?_ ?_
  · rintro _ rfl
    exact accounted_start
  · intro _ _ _ inv taken
    exact inv.exec small taken

/-- The account for distinct packets: besides, no call is offered one that is not in the
burst or has been accepted already. -/
structure HandsOver (pkts : ℕ → α) (total : ℕ) (h : HandOver width) : Prop
    extends Accounted pkts total h where
  inside : ∀ before call, before ++ [call] <+: h.calls → call.offered pkts ⊆ slice pkts 0 total
  fresh : ∀ before call, before ++ [call] <+: h.calls →
    (accepted pkts before).Disjoint (call.offered pkts)

theorem handsOver {totalWidth : ℕ} {nbRx : BitVec totalWidth} (small : nbRx.toNat < 2 ^ width)
    (distinct : (slice pkts 0 nbRx.toNat).Nodup) (reached : (handOver width nbRx).Reachable h) :
    HandsOver pkts nbRx.toNat h := by
  have inv : Accounted pkts nbRx.toNat h := accounted small reached
  refine ⟨inv, fun before call among => ?_, fun before call among => ?_⟩
  · rw [← inv.offered_eq before call among]
    exact List.subset_append_right _ _
  · rw [← inv.offered_eq before call among] at distinct
    exact List.disjoint_of_nodup_append distinct

/-! ### Runs -/

/-- Results that the calls may give, with so many packets left: each call accepts at most
what is left then, and there is none when nothing is. -/
def Within : ℕ → List (BitVec width) → Prop
  | _, [] => True
  | rest, sent :: results => 0 < rest ∧ sent.toNat ≤ rest ∧ Within (rest - sent.toNat) results

/-- Any results that the calls may give are the results of a run, which records them. -/
theorem run_calls {totalWidth : ℕ} {nbRx : BitVec totalWidth} {results : List (BitVec width)}
    (small : nbRx.toNat < 2 ^ width) (inv : Accounted pkts nbRx.toNat h) (inside : h.phase ≠ .left)
    (within : Within (nbRx.toNat - h.nbTx.toNat) results) :
    ∃ h', (handOver width nbRx).run h (results.map .call) = some h' ∧
      Accounted pkts nbRx.toNat h' ∧ h'.phase ≠ .left ∧
      h'.calls.map Offer.sent = h.calls.map Offer.sent ++ results := by
  induction results generalizing h with
  | nil => exact ⟨h, rfl, inv, inside, (List.append_nil _).symm⟩
  | cons sent results ih =>
      obtain ⟨some_left, allowed, rest⟩ := within
      have taken : (handOver width nbRx).exec h (.call sent) = _ := exec_call small inv inside
      rw [if_pos ⟨Nat.lt_of_sub_pos some_left, allowed⟩] at taken
      have next := inv.exec small taken
      have total : (h.nbTx + sent).toNat = h.nbTx.toNat + sent.toNat := by
        rw [BitVec.toNat_add, Nat.mod_eq_of_lt]
        exact (Nat.add_le_of_le_sub' inv.count_le allowed).trans_lt small
      rw [Nat.sub_sub, ← total] at rest
      obtain ⟨h', executed, account, phase, recorded⟩ := ih next nofun rest
      refine ⟨h', System.run_cons_eq_some.mpr ⟨_, taken, executed⟩, account, phase, ?_⟩
      rw [recorded, List.map_append, List.append_assoc]
      rfl

/-- The burst is delivered, whatever the calls accept. In every state that the loop gets
to, the account holds if the packets are distinct; a call is made as long as packets are
left, and may accept any number of these; and the loop is left when none is. Any results
that the calls may give are the results of a run, and once they add up to the burst, the
loop is left with everything accepted. -/
structure Delivers (M : System (HandOver width) (HandOverStep width)) (pkts : ℕ → α)
    (total : ℕ) : Prop where
  handsOver : (slice pkts 0 total).Nodup → ∀ h, M.Reachable h → h.HandsOver pkts total
  call_iff : ∀ h sent, M.Reachable h → ((M.exec h (.call sent)).isSome ↔
    h.phase ≠ .left ∧ h.nbTx.toNat < total ∧ sent.toNat ≤ total - h.nbTx.toNat)
  leave_iff : ∀ h, M.Reachable h → ((M.exec h .leave).isSome ↔
    h.phase ≠ .left ∧ h.nbTx.toNat = total)
  calls : ∀ results, Within total results → ∃ h,
    M.run ⟨.entry, 0, []⟩ (results.map .call) = some h ∧ h.calls.map Offer.sent = results ∧
      h.nbTx.toNat = (results.map BitVec.toNat).sum
  finishes : ∀ results, Within total results → (results.map BitVec.toNat).sum = total → ∃ h,
    M.run ⟨.entry, 0, []⟩ (results.map .call ++ [.leave]) = some h ∧ h.phase = .left ∧
      h.calls.map Offer.sent = results ∧ h.nbTx.toNat = total

theorem delivers {totalWidth : ℕ} {nbRx : BitVec totalWidth} (small : nbRx.toNat < 2 ^ width)
    (pkts : ℕ → α) : Delivers (handOver width nbRx) pkts nbRx.toNat := by
  have start : Accounted pkts nbRx.toNat (⟨.entry, 0, []⟩ : HandOver width) := accounted_start
  have zero : (0 : BitVec width).toNat = 0 := Nat.zero_mod _
  -- the results are what the calls have recorded, so their sum is the count
  have ran (results : List (BitVec width)) (within : Within nbRx.toNat results) :
      ∃ h, (handOver width nbRx).run ⟨.entry, 0, []⟩ (results.map .call) = some h ∧
        Accounted pkts nbRx.toNat h ∧ h.phase ≠ .left ∧ h.calls.map Offer.sent = results ∧
        h.nbTx.toNat = (results.map BitVec.toNat).sum := by
    obtain ⟨h, executed, account, phase, recorded⟩ :=
      run_calls small start nofun (by rwa [zero, Nat.sub_zero])
    have same : h.calls.map Offer.sent = results := recorded
    refine ⟨h, executed, account, phase, same, ?_⟩
    rw [account.count_eq, ← same, List.map_map]
    rfl
  refine ⟨fun distinct h reached => handsOver small distinct reached, ?_, ?_, ?_, ?_⟩
  · intro h sent reached
    have account : Accounted pkts nbRx.toNat h := accounted small reached
    by_cases behind : h.phase = .left
    · simp [exec_left behind, behind]
    · rw [exec_call small account behind, Option.isSome_ite]
      exact (and_iff_right behind).symm
  · intro h reached
    have account : Accounted pkts nbRx.toNat h := accounted small reached
    by_cases behind : h.phase = .left
    · simp [exec_left behind, behind]
    · rw [exec_leave account behind, Option.isSome_ite]
      exact (and_iff_right behind).symm
  · intro results within
    obtain ⟨h, executed, -, -, recorded, count⟩ := ran results within
    exact ⟨h, executed, recorded, count⟩
  · intro results within all
    obtain ⟨h, executed, account, phase, recorded, count⟩ := ran results within
    have last := exec_leave account phase
    rw [if_pos (count.trans all)] at last
    exact ⟨_, System.run_append_singleton executed last, rfl, recorded, count.trans all⟩

end HandOver

namespace EnqueueAttempt

/-- What the ring has accepted. -/
def accepted (pkts : ℕ → α) (e : EnqueueAttempt α) : List α := e.call.elim [] (Offer.accepted pkts)

/-- The packets behind the accepted ones are freed, each once. -/
structure Accounted (pkts : ℕ → α) (total : ℕ) (e : EnqueueAttempt α) : Prop where
  whole : e.accepted pkts ++ e.freed = slice pkts 0 total
  once : e.freed.Nodup
  fresh : (e.accepted pkts).Disjoint e.freed

end EnqueueAttempt

section Enqueue

variable {width fuel : ℕ} {pkts : ℕ → α} {n : BitVec width} {sent : UInt32}

/-- An attempt of which the ring accepts `sent`. -/
def attempt (pkts : ℕ → α) (n : BitVec width) (sent : UInt32) : EnqueueAttempt α where
  call := if n > 0 then some ⟨0, n.setWidth 32, sent.toBitVec⟩ else none
  freed := slice pkts sent.toNat (n.toNat - sent.toNat)

/-- The loop frees from what was accepted up to the end of the burst. -/
theorem iterate_freePass (small : n.toNat < 2 ^ 32) (allowed : sent.toNat ≤ n.toNat)
    (enough : n.toNat < fuel) :
    iterate (freePass pkts n) fuel (sent, []) =
      some (slice pkts sent.toNat (n.toNat - sent.toNat)) := by
  have index (k : ℕ) (bound : k ≤ n.toNat - sent.toNat) :
      (sent + .ofNat k).toNat = sent.toNat + k := by
    rw [UInt32.toNat_add, UInt32.toNat_ofNat', Nat.add_mod_mod, Nat.mod_eq_of_lt (by omega)]
  have looped : iterate (freePass pkts n) fuel (sent + .ofNat 0, slice pkts sent.toNat 0) =
      some (slice pkts sent.toNat (n.toNat - sent.toNat)) := by
    refine iterate_of_path (fun k => (sent + .ofNat k, slice pkts sent.toNat k))
      ((Nat.sub_le _ sent.toNat).trans_lt enough) ?_ ?_
    · intro k bound
      have below : (sent + .ofNat k).toNat < n.toNat := by
        rw [index k (Nat.le_of_lt bound)]
        omega
      rw [freePass, if_pos below, index k (Nat.le_of_lt bound), UInt32.add_assoc,
        UInt32.ofNat_add k 1, ← slice_append]
      rfl
    · have beyond : ¬ (sent + .ofNat (n.toNat - sent.toNat)).toNat < n.toNat := by
        rw [index _ le_rfl, Nat.add_sub_cancel' allowed]
        exact lt_irrefl _
      rw [freePass, if_neg beyond]
  rwa [slice_zero, show UInt32.ofNat 0 = 0 from rfl, UInt32.add_zero] at looped

/-- The helper offers the burst if it is not empty, and frees behind what is accepted. -/
theorem rteRingEnqueueBurst?_eq (small : n.toNat < 2 ^ 32) (allowed : sent.toNat ≤ n.toNat)
    (enough : n.toNat < fuel) :
    rteRingEnqueueBurst? fuel pkts n sent = some (attempt pkts n sent) := by
  rw [rteRingEnqueueBurst?, attempt]
  by_cases some_packets : n > 0
  · rw [if_pos some_packets, if_pos some_packets, iterate_freePass small allowed enough,
      Option.map_some]
  · have none : n.toNat = 0 := Nat.le_zero.mp (BitVec.not_lt.mp some_packets)
    rw [if_neg some_packets, if_neg some_packets, none, Nat.zero_sub, slice_zero]

theorem accepted_attempt (allowed : sent.toNat ≤ n.toNat) :
    (attempt pkts n sent).accepted pkts = slice pkts 0 sent.toNat := by
  rw [attempt]
  by_cases some_packets : n > 0
  · rw [if_pos some_packets]
    rfl
  · have none : sent.toNat = 0 := Nat.le_zero.mp (allowed.trans (BitVec.not_lt.mp some_packets))
    rw [if_neg some_packets, none]
    rfl

/-- What is accepted is the front of the burst, and what is freed is the rest. -/
theorem accounted_attempt (allowed : sent.toNat ≤ n.toNat)
    (distinct : (slice pkts 0 n.toNat).Nodup) :
    (attempt pkts n sent).Accounted pkts n.toNat := by
  have whole : (attempt pkts n sent).accepted pkts ++ (attempt pkts n sent).freed =
      slice pkts 0 n.toNat := by
    rw [accepted_attempt allowed]
    exact slice_append_sub pkts allowed
  rw [← whole] at distinct
  exact ⟨whole, (List.nodup_append.mp distinct).2.1, List.disjoint_of_nodup_append distinct⟩

end Enqueue

/-- **Bursts are accounted for.** Whatever part of each offer is accepted, the loops hand
over the packets in order and each once until all are accepted, and the fourth helper
frees what the ring refuses. -/
theorem burst_accounted (pkts : ℕ → α) :
    (∀ nbRx : BitVec 16, HandOver.Delivers (rteEthTxBurst! nbRx) pkts nbRx.toNat) ∧
    (∀ nbRx : BitVec 16, HandOver.Delivers (kniRxToRing nbRx) pkts nbRx.toNat) ∧
    (∀ width (nbRx : BitVec width), nbRx.toNat < 2 ^ 32 →
      HandOver.Delivers (rteKniTxBurst nbRx) pkts nbRx.toNat) ∧
    (∀ width (n : BitVec width) sent, n.toNat < 2 ^ 32 → (slice pkts 0 n.toNat).Nodup →
      UInt32.toNat sent ≤ n.toNat → ∃ e : EnqueueAttempt α, e.Accounted pkts n.toNat ∧
        ∀ fuel, n.toNat < fuel → rteRingEnqueueBurst? fuel pkts n sent = some e) := by
  refine ⟨?_, ?_, ?_, ?_⟩
  · intro nbRx
    exact HandOver.delivers nbRx.isLt pkts
  · intro nbRx
    exact HandOver.delivers (nbRx.isLt.trans (by decide)) pkts
  · intro width nbRx small
    exact HandOver.delivers small pkts
  · intro width n sent small distinct allowed
    exact ⟨_, accounted_attempt allowed distinct,
      fun fuel enough => rteRingEnqueueBurst?_eq small allowed enough⟩

/-- Two packets are accepted, then another one, and the loop is left. -/
def twoThenOne (width : ℕ) : List (HandOverStep width) := [.call 2, .call 1, .leave]

/-- All three are handed over then, with the second call offered the last of them. -/
def allThree (width : ℕ) : HandOver width := ⟨.left, 3, [⟨0, 3, 2⟩, ⟨2, 1, 1⟩]⟩

/-- Bursts of three, and one of four of which the ring refuses three. -/
theorem burst_accounted_partial :
    ((rteEthTxBurst! 3).run ⟨.entry, 0, []⟩ (twoThenOne 16) = some (allThree 16) ∧
      (allThree 16).HandsOver id 3) ∧
    ((kniRxToRing 3).run ⟨.entry, 0, []⟩ (twoThenOne 32) = some (allThree 32) ∧
      (allThree 32).HandsOver id 3) ∧
    ((rteKniTxBurst (3 : BitVec 8)).run ⟨.entry, 0, []⟩ (twoThenOne 32) = some (allThree 32) ∧
      (allThree 32).HandsOver id 3) ∧
    (EnqueueAttempt.mk (some ⟨0, 4, 1⟩) [1, 2, 3]).Accounted id 4 ∧
      ∀ fuel, 4 < fuel → rteRingEnqueueBurst? fuel id (4 : BitVec 16) 1 =
        some ⟨some ⟨0, 4, 1⟩, [1, 2, 3]⟩ := by
  obtain ⟨eth, ring, kni, enqueue⟩ := burst_accounted id
  refine ⟨⟨rfl, ?_⟩, ⟨rfl, ?_⟩, ⟨rfl, ?_⟩, ?_⟩
  · exact (eth 3).handsOver (by decide) _ ⟨_, twoThenOne 16, rfl, rfl⟩
  · exact (ring 3).handsOver (by decide) _ ⟨_, twoThenOne 32, rfl, rfl⟩
  · exact (kni 8 3 (by decide)).handsOver (by decide) _ ⟨_, twoThenOne 32, rfl, rfl⟩
  · obtain ⟨e, account, same⟩ := enqueue 16 4 1 (by decide) (by decide) (by decide)
    obtain rfl := Option.some.inj (same 5 (by decide))
    exact ⟨account, same⟩

end DpdkCr
